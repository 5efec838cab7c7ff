/-
  DexShrinker/Proofs/Unboxing/Traces.lean
  =======================================
  **What is left of enums that became numbers.**

  Every enum that becomes a number, every static field of it and every method that comes to its
  local class is recorded (`Unboxing.Pieces.MakeUp.records`), and what is recorded moves to names
  without enums (`Unboxing.Pieces.MakeUp.obeys_clearing`). So after the unboxing no class is one of the
  enums or has one above it, no member of the program names one, and bodies name one only as the
  holder of a field or method that did not move (`Unboxing.cleared_of_updateCode`): instance fields,
  initializers, `values` and what an enum inherits. These are left to the lowering of bodies, which
  overlooks some: where `null` is cast to an enum, a call of `ordinal` stays
  (`Unboxing.cleared_of_updateCode_cast`).

  Bodies that were put together are not brought up to date. They are told by their references
  alone, so each member is to be declared once and local classes are to be apart, which names of
  enums that come from binary names make sure of.
-/
import DexShrinker.Proofs.Unboxing.Apart
import DexShrinker.Proofs.Unboxing.Bodies
import DexShrinker.Proofs.Updating.Uses

namespace DexShrinker

open Std (TreeMap TreeSet LawfulEqOrd)

/-! ### What names no enum -/

/-- The type is none of the enums and no array of one. -/
def Descriptor.Avoids (enums : TypeSet) (t : Descriptor) : Prop := enums.contains t.base = false

/-- Neither the holder of the field nor its type names an enum. -/
structure FieldRef.Avoids (enums : TypeSet) (f : FieldRef) : Prop where
  holder : f.holder.Avoids enums
  type : f.type.Avoids enums

/-- Neither the holder of the method nor its prototype names an enum. -/
structure MethodRef.Avoids (enums : TypeSet) (m : MethodRef) : Prop where
  holder : m.holder.Avoids enums
  proto : m.proto.mentions enums = false

/-- No member of the class names an enum. -/
structure ClassDef.Avoids (enums : TypeSet) (c : ClassDef) : Prop where
  fields : ∀ f ∈ c.fields, f.ref.Avoids enums
  methods : ∀ m ∈ c.methods, m.ref.Avoids enums

variable {enums : TypeSet}

theorem Descriptor.avoids_iff_of_isClass {t : Descriptor} (h : t.isClass = true) :
    t.Avoids enums ↔ enums.contains t = false := by
  rw [Avoids, base_of_isArray (isArray_of_isClass h)]

theorem Prototype.mentions_eq_false_iff {q : Prototype} : q.mentions enums = false ↔ ∀ t ∈ q.types, t.Avoids enums := by
  simp only [mentions, List.any_eq_false, Bool.not_eq_true, Descriptor.Avoids]

/-! ### What names an enum only as the holder of something that stayed -/

/-- A static field of an enum. -/
def Program.MovesField (p : Program) (enums : TypeSet) (f : FieldRef) : Prop :=
  ∃ c ∈ p.programClasses, enums.contains c.type = true ∧ ∃ d ∈ c.staticFields, d.ref = f

/-- A method of an enum that comes to its local class, in whatever form. -/
def Program.MovesMethod (p : Program) (enums : TypeSet) (m : MethodRef) : Prop :=
  ∃ c ∈ p.programClasses, enums.contains c.type = true ∧ ∃ d ∈ c.methods, ¬ LocalUtility.Goes c.type d ∧ d.ref = m

/-- The type of the field names no enum, and its holder only if the field did not move. -/
structure FieldRef.Cleared (p : Program) (enums : TypeSet) (f : FieldRef) : Prop where
  type : f.type.Avoids enums
  holder : f.holder.Avoids enums ∨ ∃ t : Descriptor, f.type = t.unbox enums ∧ ¬ p.MovesField enums ⟨f.holder, f.name, t⟩

/-- The prototype of the method names no enum, and its holder only if the method did not move. -/
structure MethodRef.Cleared (p : Program) (enums : TypeSet) (m : MethodRef) : Prop where
  proto : m.proto.mentions enums = false
  holder : m.holder.Avoids enums ∨ ∃ q : Prototype, m.proto = q.unbox enums ∧ ¬ p.MovesMethod enums ⟨m.holder, m.name, q⟩

def MethodHandle.Cleared (p : Program) (enums : TypeSet) (h : MethodHandle) : Prop :=
  match h.member with
  | .field f => f.Cleared p enums
  | .method m => m.Cleared p enums

def BootstrapArg.Cleared (p : Program) (enums : TypeSet) : BootstrapArg → Prop
  | .int _ | .string _ => True
  | .type t => t.Avoids enums
  | .proto q => q.mentions enums = false
  | .handle h => h.Cleared p enums

structure CallSite.Cleared (p : Program) (enums : TypeSet) (c : CallSite) : Prop where
  proto : c.proto.mentions enums = false
  bootstrap : c.bootstrap.Cleared p enums
  bootstrapArgs : ∀ a ∈ c.bootstrapArgs, a.Cleared p enums

/-- The constant names enums only as the holders of members that did not move. -/
def Constant.Cleared (p : Program) (enums : TypeSet) : Constant → Prop
  | .string _ => True
  | .type t => t.Avoids enums
  | .field f => f.Cleared p enums
  | .method m => m.Cleared p enums
  | .proto q => q.mentions enums = false
  | .handle h => h.Cleared p enums
  | .callSite c => c.Cleared p enums

theorem FieldRef.Avoids.cleared {f : FieldRef} (h : f.Avoids enums) (p : Program) : f.Cleared p enums := ⟨h.type, .inl h.holder⟩

theorem MethodRef.Avoids.cleared {m : MethodRef} (h : m.Avoids enums) (p : Program) : m.Cleared p enums := ⟨h.proto, .inl h.holder⟩

/-! ### Layers that clear what they rename -/

/-- Enums become numbers across the layer, and members name them only as the holders of what did not move. -/
structure Renaming.Clears (n : Renaming) (p : Program) (enums : TypeSet) : Prop where
  types : ∀ t, n.mapType t = t.unbox enums
  fields : ∀ f, (n.mapField f).Cleared p enums
  methods : ∀ m, (n.mapMethod m).Cleared p enums
  calls : ∀ m : MethodRef, n.callChanges[m]? = none
  definitions : ∀ (m : MethodRef) (changes : ProtoChanges), n.definitionChanges[m]? = some changes →
    changes.arguments.isEmpty = true ∧ ∀ e ∈ changes.extra, e.type.Avoids enums

namespace Renaming.Clears

variable {n : Renaming} {p : Program}

theorem proto (h : n.Clears p enums) (q : Prototype) : n.mapProto q = q.unbox enums := by
  rw [mapProto, Prototype.unbox, funext h.types]

/-- Definitions only get parameters, whose types name no enum. -/
theorem definition (h : n.Clears p enums) (m : MethodRef) :
    (n.definitionChanges.getD m .none).arguments.isEmpty = true ∧ ∀ e ∈ (n.definitionChanges.getD m .none).extra, e.type.Avoids enums := by
  rw [TreeMap.getD_eq_getD_getElem?]
  cases hget : n.definitionChanges[m]? with
  | none => exact ⟨TreeMap.isEmpty_emptyc, fun e he => by cases he⟩
  | some changes => exact h.definitions m changes hget

end Renaming.Clears

namespace Update

variable {u : Update} {n : Renaming} {p : Program}

theorem cleared_of_handle (hn : u.Across n) (h : n.Clears p enums) {context : MethodRef} {x x' : MethodHandle} (hx : u.handle context x = .ok x') :
    x'.Cleared p enums := by
  obtain ⟨kind, member, itf⟩ := x
  cases member with
  | field f =>
    cases hx
    simp only [MethodHandle.Cleared, hn.field]
    exact h.fields f
  | method m =>
    obtain ⟨result, hresult, hx⟩ := bind_eq_ok.1 hx
    cases hx
    simp only [MethodHandle.Cleared, (hn.method_eq_ok hresult .direct).2.1]
    exact h.methods m

theorem cleared_of_renews (hn : u.Across n) (h : n.Clears p enums) (hint : enums.contains .int = false) {context : MethodRef} {k k' : Constant}
    (hk : u.Renews context k k') : k'.Cleared p enums := by
  cases hk with
  | string s => trivial
  | type t =>
    rw [hn.type, h.types]
    exact Descriptor.contains_base_unbox hint t
  | field f =>
    rw [hn.field]
    exact h.fields f
  | method hresult =>
    rw [(hn.method_eq_ok hresult .direct).2.1]
    exact h.methods _
  | proto q =>
    rw [hn.proto, h.proto]
    exact Prototype.mentions_unbox hint q
  | handle hx => exact cleared_of_handle hn h hx
  | @callSite c c' hc =>
    obtain ⟨bootstrap, hbootstrap, hc⟩ := bind_eq_ok.1 hc
    obtain ⟨arguments, harguments, hc⟩ := bind_eq_ok.1 hc
    cases hc
    refine ⟨?_, cleared_of_handle hn h hbootstrap, fun a' ha' => ?_⟩
    · rw [hn.proto, h.proto]
      exact Prototype.mentions_unbox hint c.proto
    · obtain ⟨a, -, ha⟩ := exists_of_mem_left (mapM_eq_ok_iff.1 harguments).flip ha'
      cases a with
      | int v | string s =>
        cases ha
        trivial
      | type t =>
        cases ha
        simp only [BootstrapArg.Cleared, hn.type, h.types]
        exact Descriptor.contains_base_unbox hint t
      | proto q =>
        cases ha
        simp only [BootstrapArg.Cleared, hn.proto, h.proto]
        exact Prototype.mentions_unbox hint q
      | handle x =>
        obtain ⟨x', hx', ha⟩ := bind_eq_ok.1 ha
        cases ha
        exact cleared_of_handle hn h hx'

/-- Calls only get the parameters that their methods get. -/
theorem avoids_of_call (hn : u.Across n) (h : n.Clears p enums) {context m : MethodRef} {kind : InvokeKind} {result : MethodLookup}
    (hresult : u.method context m kind = .ok result) : ∀ e ∈ result.changes.extra, e.type.Avoids enums := by
  obtain ⟨harguments, hextra⟩ := h.definition (n.mapMethod m)
  have hchanges : n.changesForCall m (n.mapMethod m) = n.definitionChanges.getD (n.mapMethod m) .none := by
    rw [Renaming.changesForCall, h.calls, TreeMap.getD_eq_getD_getElem?]
    rfl
  simp only [Update.method, Lens.lookupMethod, hn.forward, List.foldlM_cons, List.foldlM_nil, Lens.stepMethod, hchanges] at hresult
  cases hcombine : ProtoChanges.none.combine (n.definitionChanges.getD (n.mapMethod m) .none) with
  | error e =>
    rw [hcombine] at hresult
    cases hresult
  | ok changes =>
    rw [hcombine] at hresult
    cases hresult
    rw [Lens.settleSuper_changes]
    change ∀ e ∈ changes.extra, _
    rw [(ProtoChanges.of_none_combine harguments hcombine).2]
    exact hextra

/-- **Across a layer that clears**, nothing but holders of what did not move names an enum. -/
theorem brings_of_clears (hn : u.Across n) (h : n.Clears p enums) (hint : enums.contains .int = false) (method : MethodRef) :
    u.Brings method (Constant.Cleared p enums) (Descriptor.Avoids enums) where
  renews _ _ hk := cleared_of_renews hn h hint hk
  constant _ ht := ht
  type t := by
    rw [hn.type, h.types]
    exact Descriptor.contains_base_unbox hint t
  field f := by
    rw [hn.field]
    exact (h.fields f).type
  readCast f t ht := by
    rw [hn.field, Lens.stepField] at ht
    dsimp only at ht
    split at ht
    · cases ht
    · cases ht
      rw [h.types]
      exact Descriptor.contains_base_unbox hint _
  call _ _ _ hresult := avoids_of_call hn h hresult
  definition changes hchanges := by
    obtain ⟨harguments, hextra⟩ := h.definition method
    rw [hn.definitionChanges_eq] at hchanges
    obtain ⟨hempty, heq⟩ := ProtoChanges.of_none_combine harguments hchanges
    refine ⟨heq ▸ hextra, fun i old new hchange => ?_⟩
    rw [ProtoChanges.argumentAt?, ProtoChanges.argument?, TreeMap.getElem?_of_isEmpty hempty] at hchange
    cases hchange

end Update

/-! ### Types that are no enums -/

/-- Classes of the platform that utilities name. -/
def Utility.platform : List Descriptor := [.object, .string, .nullPointerException, .illegalArgumentException]

/-- None of these classes is in the program itself. -/
def Program.SparesPlatform (p : Program) : Prop := ∀ c ∈ p.programClasses, c.type ∉ Utility.platform

namespace Unboxing

variable {v : View} {o : UnboxingOptions} {r : UnboxingResult} {x : Pieces}

namespace Pieces.MakeUp

theorem avoids_of_not_isClass (h : x.MakeUp v r) (hp : v.program.Orderly) {t : Descriptor} (ht : t.base.isClass = false) : t.Avoids x.enums :=
  h.not_contains_of_isClass hp.isClass ht

theorem avoids_of_fresh (h : x.MakeUp v r) {t : Descriptor} (ht : Fresh v.program t) : t.Avoids x.enums := by
  refine (Descriptor.avoids_iff_of_isClass ht.isClass).2 (Bool.eq_false_iff.2 fun hyes => ?_)
  obtain ⟨c, hc, rfl, -⟩ := h.exists_class hyes
  exact ht.not_mem (List.mem_map_of_mem (Program.mem_classes_of_mem_programClasses hc))

theorem avoids_unbox (h : x.MakeUp v r) (hp : v.program.Orderly) (t : Descriptor) : (t.unbox x.enums).Avoids x.enums :=
  Descriptor.contains_base_unbox (h.not_contains_of_isClass hp.isClass rfl) t

/-- Nothing that utilities name is an enum. -/
theorem avoids_of_known (h : x.MakeUp v r) (hp : v.program.Orderly) (hplatform : v.program.SparesPlatform)
    {t : Descriptor} (ht : t ∈ Utility.known x.shared.type) : t.Avoids x.enums := by
  rw [Utility.known, List.mem_cons] at ht
  rcases ht with rfl | ht
  · exact h.avoids_of_fresh h.shared
  have hcases : ∀ t ∈ [Descriptor.int, .boolean, .void, .object, .string, .intArray, .nullPointerException, .illegalArgumentException],
      t.base.isClass = false ∨ (t.isClass = true ∧ t ∈ Utility.platform) := by decide
  rcases hcases t ht with hno | ⟨hclass, hmem⟩
  · exact h.avoids_of_not_isClass hp hno
  · refine (Descriptor.avoids_iff_of_isClass hclass).2 (Bool.eq_false_iff.2 fun hyes => ?_)
    obtain ⟨c, hc, rfl, -⟩ := h.exists_class hyes
    exact hplatform c hc hmem

end Pieces.MakeUp

/-! ### What is recorded avoids enums -/

/-- Members may only move to names that avoid the enums, and get parameters that do. -/
def clearing (enums : TypeSet) : Recorder.Rules where
  field _ new := new.Avoids enums
  method _ new := new.Avoids enums
  representsField _ _ := False
  representsMethod _ _ := False
  definition _ changes := changes.arguments.isEmpty = true ∧ ∀ e ∈ changes.extra, e.type.Avoids enums
  call _ _ := False

namespace Pieces.MakeUp

theorem avoids_of_class (hp : v.program.Orderly) {c : ClassDef} (hc : c ∈ v.program.programClasses) (hno : enums.contains c.type = false) :
    c.type.Avoids enums :=
  (Descriptor.avoids_iff_of_isClass (hp.isClass c hc)).2 hno

theorem mentions_of_known (h : x.MakeUp v r) (hp : v.program.Orderly) (hplatform : v.program.SparesPlatform)
    {q : Prototype} (hq : ∀ t ∈ q.types, t ∈ Utility.known x.shared.type ∨ ∃ t₀ : Descriptor, t = t₀.unbox x.enums) :
    q.mentions x.enums = false := by
  refine Prototype.mentions_eq_false_iff.2 fun t ht => ?_
  rcases hq t ht with hknown | ⟨t₀, rfl⟩
  · exact h.avoids_of_known hp hplatform hknown
  · exact h.avoids_unbox hp t₀

theorem mentions_of_movesProto (h : x.MakeUp v r) (hp : v.program.Orderly) (hplatform : v.program.SparesPlatform)
    {m : MethodDef} {new : Prototype} (hnew : MovesProto x.enums x.shared.type m new) : new.mentions x.enums = false := by
  refine h.mentions_of_known hp hplatform fun t ht => ?_
  cases hnew with
  | retyped hreturn hparameters =>
    rcases List.mem_cons.1 ht with rfl | ht
    · exact .inr ⟨_, hreturn⟩
    · exact (hparameters t ht).imp_left fun heq => by simp [heq, Utility.known]
  | valueOf hold hnew =>
    subst hnew
    left
    revert t
    simp [Prototype.types, Utility.known]
  | classInitializer hinit hnew =>
    subst hnew
    left
    revert t
    simp [Prototype.types, Prototype.void, Utility.known]

theorem obeys_clearing (h : x.MakeUp v r) (hp : v.program.Orderly) (hfields : v.program.HousesFields)
    (hplatform : v.program.SparesPlatform) : (x.retyped v.program).2.Obeys (clearing x.enums) := by
  refine (h.steps hp.housed hp.isClass).obeys (R := clearing x.enums) ?_ ?_ ?_
  · intro c hc f hf new _ htype hplace
    refine ⟨?_, htype ▸ h.avoids_unbox hp _⟩
    rcases hplace with hfresh | ⟨hholder, hno, -⟩
    · exact h.avoids_of_fresh hfresh
    · rw [hholder, hfields c (Program.mem_classes_of_mem_programClasses hc) f hf]
      exact avoids_of_class hp hc hno
  · intro c hc m hm new _ hproto hplace
    refine ⟨?_, h.mentions_of_movesProto hp hplatform hproto⟩
    rcases hplace with hfresh | ⟨hholder, hno, -⟩
    · exact h.avoids_of_fresh hfresh
    · rw [hholder, hp.housed c (Program.mem_classes_of_mem_programClasses hc) m hm]
      exact avoids_of_class hp hc hno
  · intro m _ changes hempty hextra
    exact ⟨hempty, fun e he => hextra e he ▸ h.avoids_of_fresh h.shared⟩

end Pieces.MakeUp

/-! ### What moves is recorded -/

/-- Everything that moves out of the enum `c` is recorded. -/
structure Records (c : ClassDef) (r : Recorder) : Prop where
  type : r.moves.types[c.type]? = some .int
  fields : ∀ f ∈ c.staticFields, (r.moves.fields[f.ref]?).isSome = true
  methods : ∀ m ∈ c.methods, ¬ LocalUtility.Goes c.type m → (r.moves.methods[m.ref]?).isSome = true

theorem Records.grows {c : ClassDef} {r r' : Recorder} (h : Records c r) (hr : r.Grows r') : Records c r' where
  type := hr.types _ _ h.type
  fields f hf := by
    obtain ⟨new, hnew⟩ := Option.isSome_iff_exists.1 (h.fields f hf)
    rw [hr.fields _ _ hnew]
    rfl
  methods m hm hstays := by
    obtain ⟨new, hnew⟩ := Option.isSome_iff_exists.1 (h.methods m hm hstays)
    rw [hr.methods _ _ hnew]
    rfl

end Unboxing

namespace LocalUtility

open Unboxing

variable {p : Program} {enums : TypeSet} {u : LocalUtility} {c : ClassDef} {s s' : Filling}

/-- A method that comes to the local class is recorded. -/
theorem isSome_of_fill {enum : Descriptor} {data : EnumData} {m : MethodDef} (hstays : ¬ Goes enum m) (hne : m.ref.holder ≠ u.type)
    (hfill : u.fill enums enum data s m = .ok s') (hconflict : s'.recorder.conflict = none) :
    (s'.recorder.moves.methods[m.ref]?).isSome = true := by
  have hmoved (ref : MethodRef) (href : ref.holder = u.type) (hnone : (s.recorder.moveMethod m.ref ref).conflict = none) :
      ((s.recorder.moveMethod m.ref ref).moves.methods[m.ref]?).isSome = true := by
    rw [Recorder.getElem?_moveMethod (fun heq => hne ((congrArg MethodRef.holder heq).trans href)) hnone]
    rfl
  unfold fill at hfill
  split at hfill
  · next hgoes => exact absurd hgoes hstays
  · split at hfill
    · obtain ⟨d, hd, hfill⟩ := bind_eq_ok.1 hfill
      cases hfill
      refine hmoved d.ref ?_ hconflict
      rw [(assembled_of_valueOfDef .int hd).1]
      rfl
    · obtain ⟨code, -, hfill⟩ := bind_eq_ok.1 hfill
      cases hfill
      cases hstatic : m.isStatic with
      | true =>
        rw [hstatic] at hconflict
        exact hmoved _ rfl hconflict
      | false =>
        rw [hstatic] at hconflict
        exact hmoved _ rfl hconflict

/-- Static fields move one after the other. -/
theorem grows_movedFields (u : LocalUtility) (enums : TypeSet) (fs : List FieldDef) (r : Recorder) :
    let r' := (fs.zip (fs.map (u.movedField enums))).foldl (fun (r : Recorder) (old, new) => r.moveField old.ref new.ref) r
    r.Grows r' ∧ (r'.conflict = none → ∀ f ∈ fs, f.ref.holder ≠ u.type → (r'.moves.fields[f.ref]?).isSome = true) := by
  obtain ⟨hgrows, hmoved⟩ := Recorder.foldl_moveField (fun y : FieldDef × FieldDef => y.1.ref) (fun y => y.2.ref)
    (fs.zip (fs.map (u.movedField enums))) r
  refine ⟨hgrows, fun hconflict f hf hne => ?_⟩
  have hmem : (f, u.movedField enums f) ∈ fs.zip (fs.map (u.movedField enums)) := by
    rw [← List.map_prod_left_eq_zip]
    exact List.mem_map.2 ⟨f, hf, rfl⟩
  exact Option.isSome_iff_exists.2 ⟨_, hmoved hconflict _ hmem fun heq => hne (congrArg FieldRef.holder heq)⟩

theorem records_of_dissolve {d : ClassDef} {fixed : FixedEnum} {r r' : Recorder} {more : List MethodRef} (hu : Fresh p u.type)
    (hc : c ∈ p.programClasses) (henum : enums.contains c.type = true) (hclass : c.type.isClass = true)
    (hfields : ∀ f ∈ c.fields, f.ref.holder = c.type) (hmethods : ∀ m ∈ c.methods, m.ref.holder = c.type)
    (h : u.dissolve enums c fixed r = .ok (d, more, r')) (hconflict : r'.conflict = none) : Records c r' := by
  have hne : c.type ≠ u.type := fun heq => hu.not_mem (heq ▸ List.mem_map_of_mem (Program.mem_classes_of_mem_programClasses hc))
  unfold dissolve at h
  obtain ⟨name, -, h⟩ := bind_eq_ok.1 h
  obtain ⟨s₁, hgetters, h⟩ := bind_eq_ok.1 h
  obtain ⟨s₂, hfill, h⟩ := bind_eq_ok.1 h
  cases h
  have hstart : s₁.recorder = r.moveType c.type .int := by
    refine foldlM_preserves (P := fun s : Filling => s.recorder = r.moveType c.type .int) ?_ rfl hgetters
    intro s y _ s' hs hstep
    obtain ⟨getter, -, hstep⟩ := bind_eq_ok.1 hstep
    cases hstep
    exact hs
  -- What each stage records is still there in the end, where there is no conflict.
  obtain ⟨hgrows₁, hmoved⟩ := grows_movedFields u enums c.staticFields s₁.recorder
  generalize List.foldl _ s₁.recorder (c.staticFields.zip (c.staticFields.map (u.movedField enums))) = r₂ at hfill hgrows₁ hmoved
  have hinitializer : Steps p enums .int (fun _ => False) r₂
      (u.addClassInitializer c fixed.classInitializer { s₁ with recorder := r₂ }).recorder :=
    steps_addClassInitializer (s := { s₁ with recorder := r₂ }) hu hc fixed.classInitializer
  have hstep {s s' : Filling} {m : MethodDef} (hm : m ∈ c.methods) (hs : u.fill enums c.type fixed.data s m = .ok s') :
      s.recorder.Grows s'.recorder := by
    have hsteps : Steps p enums .int (fun _ => False) s.recorder s'.recorder := steps_fill hu hc henum hm hs
    exact hsteps.grows
  have hgrows₂ := foldlM_preserves (P := fun s : Filling => Recorder.Grows _ s.recorder)
    (fun s m hm s' hs hfill => hs.trans (hstep hm hfill)) (.refl _) hfill
  have hgrows : r₂.Grows s₂.recorder := hinitializer.grows.trans hgrows₂
  constructor
  · rw [hstart] at hgrows₁
    refine hgrows.types _ _ (hgrows₁.types _ _ (Recorder.getElem?_moveType ?_ (hgrows₁.conflict (hgrows.conflict hconflict))))
    intro heq
    rw [heq] at hclass
    cases hclass
  · intro f hf
    obtain ⟨new, hnew⟩ := Option.isSome_iff_exists.1 (hmoved (hgrows.conflict hconflict) f hf (hfields f (List.mem_filter.1 hf).1 ▸ hne))
    exact Option.isSome_iff_exists.2 ⟨new, hgrows.fields _ _ hnew⟩
  · intro m hm hstays
    refine foldlM_establishes (P := fun s : Filling => s.recorder.conflict = none → (s.recorder.moves.methods[m.ref]?).isSome = true) hm
      (fun s s' hs => isSome_of_fill hstays (hmethods m hm ▸ hne) hs) (fun s n hn s' hs hfill hnone => ?_) hfill hconflict
    obtain ⟨new, hnew⟩ := Option.isSome_iff_exists.1 (hs ((hstep hn hfill).conflict hnone))
    exact Option.isSome_iff_exists.2 ⟨new, (hstep hn hfill).methods _ _ hnew⟩

end LocalUtility

namespace Unboxing

variable {v : View} {r : UnboxingResult} {x : Pieces}

namespace Pieces.MakeUp

/-- **Everything that moves out of enums is recorded.** -/
theorem records (h : x.MakeUp v r) (hp : v.program.Orderly) (hfields : v.program.HousesFields) {c : ClassDef} (hc : c ∈ v.program.programClasses)
    (henum : x.enums.contains c.type = true) : Records c (x.retyped v.program).2 := by
  have hconflict : (x.retyped v.program).2.conflict = none := (Recorder.exists_lookup_of_build h.lens ⟨.int, "", .void⟩ none .direct).1
  have hgrows : x.dissolved.Grows (x.retyped v.program).2 :=
    (Retyping.steps_retypeAll (h.not_contains_of_isClass hp.isClass rfl) hp.housed x.shared.type x.dissolved).grows
  refine Records.grows ?_ hgrows
  have hclass := Program.mem_classes_of_mem_programClasses hc
  have hfound := (Program.mem_programClasses.1 hc).1
  obtain ⟨f, hf⟩ := Option.isSome_iff_exists.1 (TreeMap.mem_iff_isSome_getElem?.1 (contains_unboxed.1 henum))
  obtain ⟨u, hu⟩ := h.hasLocal c.type (contains_unboxed.1 henum)
  refine foldlM_establishes (P := fun y : List ClassDef × List MethodRef × Recorder => y.2.2.conflict = none → Records c y.2.2)
    (TreeMap.mem_toList_iff_getElem?_eq_some.2 hf) (fun y y' hstep hnone => ?_) (fun y z hz y' hy hstep hnone => ?_) h.dissolve
    (hgrows.conflict hconflict)
  · simp only [hfound, hu] at hstep
    obtain ⟨⟨d, more, r'⟩, hdissolve, hstep⟩ := bind_eq_ok.1 hstep
    cases hstep
    exact LocalUtility.records_of_dissolve (h.locals c.type u hu) hc henum (hp.isClass c hc) (hfields c hclass) (hp.housed c hclass) hdissolve hnone
  · dsimp only at hstep
    split at hstep
    · next c' u' hc' hu' =>
      obtain ⟨⟨d, more, r'⟩, hdissolve, hstep⟩ := bind_eq_ok.1 hstep
      cases hstep
      obtain ⟨e, he, htype, -⟩ := h.isFixed z.1 z.2 (TreeMap.mem_toList_iff_getElem?_eq_some.1 hz)
      rw [← htype] at hc'
      cases hc'.symm.trans (Program.mem_programClasses.1 he).1
      have hmem : x.enums.contains c'.type = true := by
        rw [htype]
        exact contains_unboxed.2 (mem_of_getElem? (TreeMap.mem_toList_iff_getElem?_eq_some.1 hz))
      have hlater : Steps v.program x.enums .int (fun _ => False) y.2.2 r' := LocalUtility.steps_dissolve (h.locals z.1 u' hu') he hmem hdissolve
      exact (hy (hlater.grows.conflict hnone)).grows hlater.grows
    · cases hstep
      exact hy hnone

/-- **What unboxing records clears members of enums.** -/
theorem clears (h : x.MakeUp v r) (hp : v.program.Orderly) (hfields : v.program.HousesFields)
    (hplatform : v.program.SparesPlatform) : (x.retyped v.program).2.layer.Clears v.program x.enums := by
  have hnumbers := (h.steps hp.housed hp.isClass).numbers
  have hobeys := h.obeys_clearing hp hfields hplatform
  have hclass (t : Descriptor) : (x.retyped v.program).2.layer.mapClass t = if x.enums.contains t then .int else t := by
    change (x.retyped v.program).2.moves.types.getD t t = _
    rw [TreeMap.getD_eq_getD_getElem?]
    cases henum : x.enums.contains t with
    | true =>
      obtain ⟨c, hc, rfl, -⟩ := h.exists_class henum
      rw [(h.records hp hfields hc henum).type]
      rfl
    | false =>
      cases hget : (x.retyped v.program).2.moves.types[t]? with
      | none => rfl
      | some t' => cases henum.symm.trans (hnumbers.types t t' hget).1
  have htypes (t : Descriptor) : (x.retyped v.program).2.layer.mapType t = t.unbox x.enums := by
    rw [Renaming.mapType, Descriptor.unbox, funext hclass]
  -- A holder that became a number stays.
  have hholder (t : Descriptor) : (x.retyped v.program).2.layer.mapHolder t = t := by
    rw [Renaming.mapHolder, hclass]
    cases x.enums.contains t with
    | true => rw [if_pos rfl, if_neg (by decide)]
    | false => exact ite_self t
  refine ⟨htypes, fun f => ?_, fun m => ?_, hnumbers.callChanges, hobeys.definitions⟩
  · rw [Renaming.mapField, TreeMap.getD_eq_getD_getElem?]
    cases hmoved : (x.retyped v.program).2.layer.fields[f]? with
    | some new => exact FieldRef.Avoids.cleared (hobeys.fields f new hmoved) v.program
    | none =>
      rw [Option.getD_none, hholder, htypes]
      refine ⟨h.avoids_unbox hp f.type, .inr ⟨f.type, rfl, ?_⟩⟩
      rintro ⟨c, hc, henum, d, hd, heq⟩
      obtain rfl : d.ref = f := heq
      have hsome := (h.records hp hfields hc henum).fields d hd
      cases (congrArg Option.isSome hmoved).symm.trans hsome
  · rw [Renaming.mapMethod, TreeMap.getD_eq_getD_getElem?]
    cases hmoved : (x.retyped v.program).2.layer.methods[m]? with
    | some new => exact MethodRef.Avoids.cleared (hobeys.methods m new hmoved) v.program
    | none =>
      have hproto : (x.retyped v.program).2.layer.mapProto m.proto = m.proto.unbox x.enums := by
        rw [Renaming.mapProto, Prototype.unbox, funext htypes]
      rw [Option.getD_none, hholder, hproto]
      refine ⟨Prototype.mentions_unbox (h.not_contains_of_isClass hp.isClass rfl) m.proto, .inr ⟨m.proto, rfl, ?_⟩⟩
      rintro ⟨c, hc, henum, d, hd, hstays, heq⟩
      obtain rfl : d.ref = m := heq
      have hsome := (h.records hp hfields hc henum).methods d hd hstays
      cases (congrArg Option.isSome hmoved).symm.trans hsome

end Pieces.MakeUp

end Unboxing

/-! ### Members of classes that stay -/

namespace Retyping

open Unboxing

variable {p : Program} {enums : TypeSet} {shared : Descriptor} {r : Recorder} {s : Retyping} {c : ClassDef}

theorem avoids_method (hint : enums.contains .int = false) (henums : s.enums = enums) (hpadding : s.padding.Avoids enums) {m : MethodDef}
    (hholder : m.ref.holder.Avoids enums) (protos : List Prototype) : (s.method m.ref.holder protos m).1.ref.Avoids enums := by
  subst henums
  have hname (a : Signature) : (s.name a).2.enums = s.enums := by
    unfold name
    split <;> rfl
  unfold method
  cases hmentions : m.ref.proto.mentions s.enums with
  | false => exact ⟨hholder, hmentions⟩
  | true =>
    cases hinit : m.isInstanceInitializer with
    | true =>
      refine ⟨hholder, Prototype.mentions_eq_false_iff.2 fun t ht => ?_⟩
      simp only [Bool.not_true, Bool.false_eq_true, if_false, if_true, initializer, Prototype.types, Prototype.append, List.mem_cons,
        List.mem_append] at ht
      rcases ht with rfl | ht | ht
      · exact Descriptor.contains_base_unbox hint _
      · obtain ⟨t₀, -, rfl⟩ := List.mem_map.1 ht
        exact Descriptor.contains_base_unbox hint t₀
      · rw [List.eq_of_mem_replicate ht]
        exact hpadding
    | false =>
      refine ⟨hholder, ?_⟩
      simp only [Bool.not_true, Bool.false_eq_true, if_false, hname]
      exact Prototype.mentions_unbox hint m.ref.proto

theorem avoids_classDef (hint : enums.contains .int = false) (hshared : shared.Avoids enums) (h : s.Lawful p enums shared r)
    (hc : c ∈ p.programClasses) (hno : enums.contains c.type = false) (hclass : c.type.Avoids enums) (hmethods : ∀ m ∈ c.methods, m.ref.holder = c.type)
    (hfields : ∀ f ∈ c.fields, f.ref.holder = c.type) : (s.classDef c).1.Avoids enums := by
  have hrefs : (s.classDef c).1.fields.map FieldDef.ref = c.fields.map (retypedRef s.enums) := (refs_foldl_addField c.fields [] s).1
  constructor
  · intro f hf
    obtain ⟨g, hg, heq⟩ := List.mem_map.1 (hrefs ▸ List.mem_map_of_mem hf)
    rw [← heq, h.enums_eq]
    exact ⟨hfields g hg ▸ hclass, Descriptor.contains_base_unbox hint g.ref.type⟩
  · have hstart : (c.fields.foldl addField ([], s)).2.Lawful p enums shared r :=
      List.foldlRecOn (motive := fun x : List FieldDef × Retyping => x.2.Lawful p enums shared r) _ _ h
        fun _ hx f hf => lawful_field hx hc hno hf
    refine (List.foldlRecOn (motive := fun x : List MethodDef × List Prototype × Retyping =>
      x.2.2.Lawful p enums shared r ∧ ∀ m ∈ x.1, m.ref.Avoids enums) c.methods (addMethod c.type) ⟨hstart, by simp⟩ fun x hx m hm => ?_).2
    refine ⟨lawful_method hint hx.1 hc hno hm (hmethods m hm) x.2.1, fun d hd => ?_⟩
    rcases List.mem_append.1 hd with hd | hd
    · exact hx.2 d hd
    · rw [List.mem_singleton.1 hd, ← hmethods m hm]
      exact avoids_method hint hx.1.enums_eq (hx.1.padding_eq ▸ hshared) (hmethods m hm ▸ hclass) x.2.1

/-- **The classes that are not enums.** -/
theorem avoids_retypeAll (hint : enums.contains .int = false) (hshared : shared.Avoids enums) (hhoused : p.Housed) (hfields : p.HousesFields)
    (hclass : ∀ c ∈ p.programClasses, enums.contains c.type = false → c.type.Avoids enums) (r : Recorder) :
    ∀ d ∈ (retypeAll p enums shared r).1, d.Avoids enums := by
  have hstart : Lawful p enums shared r
      ⟨enums, shared, (p.programClasses.flatMap ClassDef.methods).map (·.ref.signature), ∅, r⟩ := ⟨rfl, rfl, .refl⟩
  refine (List.foldlRecOn (motive := fun x : List ClassDef × Retyping => x.2.Lawful p enums shared r ∧ ∀ d ∈ x.1, d.Avoids enums)
    (p.programClasses.filter (!enums.contains ·.type)) addClass (b := ([], _)) ⟨hstart, by simp⟩ fun x hx c hc => ?_).2
  obtain ⟨hc, hno⟩ := List.mem_filter.1 hc
  have hno : enums.contains c.type = false := by simpa using hno
  have hmem := Program.mem_classes_of_mem_programClasses hc
  refine ⟨lawful_classDef hint hx.1 hc hno (hhoused c hmem), fun d hd => ?_⟩
  rcases List.mem_append.1 hd with hd | hd
  · exact hx.2 d hd
  · rw [List.mem_singleton.1 hd]
    exact avoids_classDef hint hshared hx.1 hc hno (hclass c hc hno) (hhoused c hmem) (hfields c hmem)

end Retyping

/-! ### Members of utility classes -/

/-- Apart from the types of fields, methods that a local class starts with only have types that utilities know. -/
theorem LocalUtility.known_startRefs {u : LocalUtility} {enums : TypeSet} {data : EnumData} {b : Bool} {shared : Descriptor} {m : MethodRef}
    (hm : m ∈ u.startRefs enums data b) : ∀ t ∈ m.proto.types, t ∈ Utility.known shared ∨ ∃ t₀ : Descriptor, t = t₀.unbox enums := by
  intro t ht
  simp only [startRefs, List.cons_append, List.mem_cons, List.mem_append, List.mem_map] at hm
  rcases hm with rfl | ⟨f, -, rfl⟩ | hm
  · left
    revert t
    simp [nameMethod, Prototype.types, Utility.known]
  · rcases List.mem_cons.1 ht with rfl | ht
    · exact .inr ⟨_, rfl⟩
    · exact .inl (by simp [List.mem_singleton.1 ht, Utility.known])
  · split at hm
    · rw [List.mem_singleton.1 hm] at ht
      exact .inl (by simp [List.mem_singleton.1 ht, Prototype.void, Utility.known])
    · cases hm

namespace Unboxing.Pieces.MakeUp

variable {v : View} {r : UnboxingResult} {x : Pieces}

/-- **Local classes.** -/
theorem avoids_localClasses (h : x.MakeUp v r) (hp : v.program.Orderly) (hplatform : v.program.SparesPlatform)
    {d : ClassDef} (hd : d ∈ x.localClasses) : d.Avoids x.enums := by
  obtain ⟨y, -, c, -, -, u, _, _, _, hu, hdissolve⟩ := exists_of_mem_left h.forall₂_localClasses.flip hd
  obtain ⟨-, -, hfields, b, s, s', hrefs, hfill, hmethods⟩ := LocalUtility.dissolve_cases hdissolve
  have hholder : u.type.Avoids x.enums := h.avoids_of_fresh (h.locals c.type u hu)
  constructor
  · intro f hf
    rw [hfields] at hf
    obtain ⟨g, -, rfl⟩ := List.mem_map.1 hf
    exact ⟨hholder, h.avoids_unbox hp g.ref.type⟩
  · rw [hmethods]
    refine foldlM_preserves (P := fun s : LocalUtility.Filling => ∀ m ∈ s.methods, m.ref.Avoids x.enums) (fun s m _ s' hs hstep d hd => ?_)
      (fun m hm => ?_) hfill
    · rcases LocalUtility.fill_cases hstep with ⟨-, heq⟩ | ⟨e, -, href, heq⟩ | ⟨e, -, -, hplace, hsignature, heq⟩
      · exact hs d (heq ▸ hd)
      · rcases List.mem_append.1 (heq ▸ hd) with hd | hd
        · exact hs d hd
        · rw [List.mem_singleton.1 hd, href]
          refine ⟨hholder, h.mentions_of_known hp hplatform ?_⟩
          simp [LocalUtility.valueOf, Prototype.types, Utility.known]
      · rcases List.mem_append.1 (heq ▸ hd) with hd | hd
        · exact hs d hd
        · rw [List.mem_singleton.1 hd]
          refine ⟨hplace ▸ hholder, ?_⟩
          rw [show e.ref.proto = (LocalUtility.movedSignature x.enums c.type m).proto from congrArg Signature.proto hsignature]
          exact h.mentions_of_movesProto hp hplatform (LocalUtility.movesProto_movedSignature x.enums x.shared.type c.type m)
    · have hmem := hrefs ▸ List.mem_map_of_mem (f := MethodDef.ref) hm
      exact ⟨u.holder_startRefs x.enums y.2.data b m.ref hmem ▸ hholder, h.mentions_of_known hp hplatform (LocalUtility.known_startRefs hmem)⟩

/-- **The shared class.** -/
theorem avoids_sharedClass (h : x.MakeUp v r) (hp : v.program.Orderly) (hplatform : v.program.SparesPlatform) :
    x.sharedClass.Avoids x.enums := by
  obtain ⟨-, hfields, hmethods⟩ := SharedUtility.build_cases h.build
  have hholder := h.avoids_of_fresh h.shared
  constructor
  · intro f hf
    have hmem := hfields ▸ List.mem_map_of_mem (f := FieldDef.ref) hf
    rw [List.mem_singleton.1 hmem]
    exact ⟨hholder, h.avoids_of_known hp hplatform (by simp [SharedUtility.valuesField, Utility.known])⟩
  · intro m hm
    have hmem := hmethods ▸ List.mem_map_of_mem (f := MethodDef.ref) hm
    refine ⟨(SharedUtility.assembled_of_build h.build hm).1 ▸ hholder, h.mentions_of_known hp hplatform fun t ht => .inl ?_⟩
    generalize m.ref = ref at hmem ht
    revert t
    revert ref
    simp [SharedUtility.clinit, SharedUtility.checkNotZero, SharedUtility.checkNotZeroWithMessage, SharedUtility.compareTo, SharedUtility.equals,
      SharedUtility.ordinal, SharedUtility.values, SharedUtility.method, Prototype.types, Utility.known]

/-- No class has an enum above it. -/
theorem not_contains_of_mem_supertypes (h : x.MakeUp v r) {c : ClassDef} (hc : c ∈ v.program.classes) {t : Descriptor} (ht : t ∈ c.supertypes) :
    x.enums.contains t = false := by
  refine Bool.eq_false_iff.2 fun hyes => ?_
  obtain ⟨-, -, -, hno⟩ := h.exists_class hyes
  rw [Program.hasSubtypes, List.any_eq_false] at hno
  exact hno c hc (List.contains_iff_mem.2 ht)

/-- **The classes after the unboxing.** -/
theorem avoids_classes (h : x.MakeUp v r) (hp : v.program.Orderly) (hfields : v.program.HousesFields)
    (hplatform : v.program.SparesPlatform) {d : ClassDef} (hd : d ∈ r.program.classes) :
    x.enums.contains d.type = false ∧ (∀ t ∈ d.supertypes, x.enums.contains t = false) ∧ (d.isProgram = true → d.Avoids x.enums) := by
  have hobject : x.enums.contains .object = false :=
    (Descriptor.avoids_iff_of_isClass (by decide)).1 (h.avoids_of_known hp hplatform (by simp [Utility.known]))
  have hfresh {t : Descriptor} (ht : Fresh v.program t) : x.enums.contains t = false :=
    (Descriptor.avoids_iff_of_isClass ht.isClass).1 (h.avoids_of_fresh ht)
  rw [h.program] at hd
  have hd := Program.mem_of_class?_ofList (Program.mem_classes.1 hd)
  simp only [List.mem_append, List.mem_singleton] at hd
  rcases hd with ((hd | hd) | hd) | rfl
  · obtain ⟨hd, hlib⟩ := List.mem_filter.1 hd
    rw [Program.isLibrary_eq, Bool.not_eq_true'] at hlib
    refine ⟨Bool.eq_false_iff.2 fun hyes => ?_, fun t ht => h.not_contains_of_mem_supertypes hd ht, fun hprogram => ?_⟩
    · obtain ⟨c, hc, htype, -⟩ := h.exists_class hyes
      rw [← Program.eq_of_type (Program.mem_classes_of_mem_programClasses hc) hd htype, (List.mem_filter.1 hc).2] at hlib
      cases hlib
    · cases hlib.symm.trans hprogram
  · refine ⟨hfresh (h.fresh_of_mem_localClasses hd), fun t ht => ?_, fun _ => h.avoids_localClasses hp hplatform hd⟩
    obtain ⟨_, -, _, -, -, _, _, _, _, -, hdissolve⟩ := exists_of_mem_left h.forall₂_localClasses.flip hd
    rw [LocalUtility.supertypes_of_dissolve hdissolve, List.mem_singleton] at ht
    rw [ht]
    exact hobject
  · obtain ⟨c, hc, s, -, -, rfl⟩ := exists_of_mem_left (Retyping.states_retypeAll v.program x.enums x.shared.type x.dissolved).flip hd
    obtain ⟨hc, hno⟩ := List.mem_filter.1 hc
    have hno : x.enums.contains c.type = false := by simpa using hno
    refine ⟨hno, fun t ht => h.not_contains_of_mem_supertypes (Program.mem_classes_of_mem_programClasses hc) ht, fun _ => ?_⟩
    exact Retyping.avoids_retypeAll (h.not_contains_of_isClass hp.isClass rfl) (h.avoids_of_fresh h.shared) hp.housed hfields
      (fun c hc hno => avoids_of_class hp hc hno) x.dissolved _ hd
  · refine ⟨?_, fun t ht => ?_, fun _ => h.avoids_sharedClass hp hplatform⟩
    · rw [SharedUtility.type_build h.build]
      exact hfresh h.shared
    · rw [(SharedUtility.build_cases h.build).1, List.mem_singleton] at ht
      rw [ht]
      exact hobject

end Unboxing.Pieces.MakeUp

/-! ### Methods that were put together -/

namespace Unboxing.Pieces.MakeUp

variable {v : View} {r : UnboxingResult} {x : Pieces}

/-- Methods are in the classes that they name. -/
theorem housed_programClasses (h : x.MakeUp v r) (hp : v.program.Orderly) {d : ClassDef} (hd : d ∈ r.program.programClasses) :
    ∀ m ∈ d.methods, m.ref.holder = d.type := by
  rcases h.programClasses_cases hd with hd | hd | rfl
  · obtain ⟨_, -, _, -, -, _, _, _, _, -, hdissolve⟩ := exists_of_mem_left h.forall₂_localClasses.flip hd
    exact LocalUtility.holder_dissolve hdissolve
  · obtain ⟨c, hc, s, -, -, rfl⟩ := exists_of_mem_left (Retyping.states_retypeAll v.program x.enums x.shared.type x.dissolved).flip hd
    exact s.holder_classDef (hp.housed c (Program.mem_classes_of_mem_programClasses (List.mem_filter.1 hc).1))
  · intro m hm
    rw [(SharedUtility.assembled_of_build h.build hm).1, SharedUtility.type_build h.build]

/-- **A method with the reference of one that was put together is this method**, if no class declares a method twice. -/
theorem assembled_of_mem_synthesized (h : x.MakeUp v r) (hp : v.program.Orderly)
    (hnames : ∀ c ∈ v.program.programClasses, x.enums.contains c.type = true → ∃ name, c.type = .ofBinaryName name)
    (honce : ∀ d ∈ r.program.classes, d.Unrepeated) {d : ClassDef} (hd : d ∈ r.program.programClasses) {m : MethodDef} (hm : m ∈ d.methods)
    (hsynthesized : m.ref ∈ r.synthesized) : m.Assembled (Utility.Word x.shared.type) := by
  obtain ⟨e, he, m₀, hm₀, href, hassembled⟩ := h.exists_assembled hsynthesized
  have hfound : r.program.class? e.type = some e ∧ ∀ m ∈ e.methods, m.ref.holder = e.type := by
    rcases he with he | rfl
    · obtain ⟨_, -, _, -, -, _, _, _, _, -, hdissolve⟩ := exists_of_mem_left h.forall₂_localClasses.flip he
      exact ⟨h.class?_localClasses hnames he, LocalUtility.holder_dissolve hdissolve⟩
    · refine ⟨?_, fun m hm => ?_⟩
      · rw [h.program]
        exact Program.class?_ofList_concat _ _
      · rw [(SharedUtility.assembled_of_build h.build hm).1, SharedUtility.type_build h.build]
  have hclass := Program.mem_classes_of_mem_programClasses hd
  obtain rfl : e = d := by
    refine Program.eq_of_type (Program.mem_classes.2 hfound.1) hclass ?_
    rw [← hfound.2 m₀ hm₀, href, h.housed_programClasses hp hd m hm]
  obtain rfl : m₀ = m := List.inj_on_of_nodup_map (honce e hclass).methods hm₀ hm href
  exact hassembled

end Unboxing.Pieces.MakeUp

/-! ### Bodies -/

section

variable {K : Constant → Prop} {T : Descriptor → Prop}

theorem Body.Assembled.namesOnly {c : Body} (h : c.Assembled K) (hint : K (.type .int)) {q : PackedBody} (hq : c.pack = .ok q) :
    q.NamesOnly K T := by
  obtain ⟨hnames, hguarded⟩ := Body.names_of_pack hq
  refine ⟨fun k hk => ?_, fun start hs hget y hy => ?_⟩
  · rcases hnames k hk with ⟨b, hb, i, hi, hconstant⟩ | ⟨b, hb, y, hy, w, hw, rfl⟩
    · exact (h.each b hb i hi).constants k hconstant
    · have hnumber := h.phis b hb y hy
      rw [Phi.IsNumber, hw, Option.map_some, Option.some.injEq] at hnumber
      rw [hnumber]
      exact hint
  · obtain ⟨b, hb, z, hz, -⟩ := hguarded start hs hget y hy
    rw [h.handlers b hb] at hz
    cases hz

namespace UnboxingResult

variable {u : UnboxedEnums} {update : Update} {n : Renaming} {m : MethodDef} {code code' : Code} {fate : BodyFate}

theorem namesOnly_of_rebuild (h : update.Crosses n) (hbrings : update.Brings m.ref K T) {c : Body}
    (hrun : rebuild u update m c = .ok (code', fate)) : ∃ q, code' = .packed q ∧ q.NamesOnly K T := by
  obtain ⟨c₁, hlower, hrun⟩ := bind_eq_ok.1 hrun
  obtain ⟨d, hd, hrun⟩ := bind_eq_ok.1 hrun
  obtain ⟨q, hq, hrun⟩ := bind_eq_ok.1 hrun
  cases hrun
  obtain ⟨-, hplain⟩ := UnboxedEnums.lower_spec (Outcome.lift_eq_ok.1 hlower)
  refine ⟨q, rfl, Update.namesOnly_of_body h.across h.void hbrings (fun b hb i hi t ordinal hop => ?_) (Outcome.lift_eq_ok.1 hd)
    (Outcome.mapError_eq_ok.1 hq)⟩
  -- Placeholders for instances have become numbers.
  have hno := hplain b hb i hi
  rw [hop] at hno
  cases hno

/-- **What code names that was lowered and brought up to date.** -/
theorem namesOnly_of_methodCode (h : update.Crosses n) (hbrings : update.Brings m.ref K T) (htypes : ∀ t, u.mentions t = false → T t)
    (hint : K (.type .int)) {isSynthesized : Bool} (hassembled : isSynthesized = true → m.Assembled K) (hcode : m.code = some code)
    (hrun : methodCode u update isSynthesized m code = .ok (code', fate)) : ∃ q, code' = .packed q ∧ q.NamesOnly K T := by
  unfold methodCode at hrun
  dsimp only at hrun
  split at hrun
  · next hyes =>
    obtain ⟨c, hbody, hc, -⟩ := hassembled hyes
    cases hcode.symm.trans hbody
    subst hyes
    obtain ⟨q, hq, hrun⟩ := bind_eq_ok.1 (Outcome.mapError_eq_ok.1 hrun)
    cases hrun
    exact ⟨q, rfl, hc.namesOnly hint hq⟩
  · next hno =>
    split at hrun
    · exact namesOnly_of_rebuild h hbrings hrun
    · next p =>
      split at hrun
      · next hplain =>
        rw [Bool.and_eq_true, Bool.not_eq_true', UnboxedEnums.mentionedBy, List.any_eq_false] at hplain
        rw [Bool.eq_false_iff.2 hno] at hrun
        refine Update.namesOnly_of_methodCode h.across h.void hbrings (fun t ht => htypes t ?_) (Outcome.mapError_eq_ok.1 hrun)
        exact Bool.eq_false_iff.2 (hplain.1 (.type t) ht)
      · obtain ⟨c, -, hrun⟩ := bind_eq_ok.1 hrun
        exact namesOnly_of_rebuild h hbrings hrun

end UnboxingResult

end

/-- What utilities name is no enum. -/
theorem Utility.Word.cleared {shared : Descriptor} (h : ∀ t ∈ known shared, t.Avoids enums) (p : Program) {k : Constant} (hk : Word shared k) :
    k.Cleared p enums := by
  cases hk with
  | string s => trivial
  | type ht => exact h _ ht
  | field hholder htype => exact FieldRef.Avoids.cleared ⟨h _ hholder, h _ htype⟩ p
  | method hholder hproto => exact MethodRef.Avoids.cleared ⟨h _ hholder, Prototype.mentions_eq_false_iff.2 fun t ht => h t (hproto t ht)⟩ p

/-! ### Programs -/

namespace Unboxing

variable {v : View} {o : UnboxingOptions} {r : UnboxingResult}

/-- **What is left of enums that became numbers.** No class is one or has one above it, no member of a program class names one,
    and bodies name one only as the holder of a field or method that did not move. -/
theorem cleared_of_updateCode (hp : v.program.Orderly) (hfields : v.program.HousesFields)
    (hplatform : v.program.SparesPlatform) (h : run v o = .ok r)
    (hnames : ∀ c ∈ v.program.programClasses, r.report.unboxed.contains c.type = true → ∃ name, c.type = .ofBinaryName name)
    (hsome : ∃ t, r.report.unboxed.contains t = true) (honce : ∀ d ∈ r.program.classes, d.Unrepeated) {w : View}
    (hprogram : w.program = r.program) (hlens : w.lens = r.lens) (hcodeLens : w.codeLens = v.lens) {q : Program} {stats : UpdateStats}
    (hq : r.updateCode w = .ok (q, stats)) :
    ∀ d ∈ q.classes, r.report.unboxed.contains d.type = false ∧ (∀ t ∈ d.supertypes, r.report.unboxed.contains t = false) ∧
      (d.isProgram = true → d.Avoids r.report.unboxed ∧ ∀ m ∈ d.methods, ∀ code, m.code = some code → ∃ p, code = .packed p ∧
        p.NamesOnly (Constant.Cleared v.program r.report.unboxed) (Descriptor.Avoids r.report.unboxed)) := by
  obtain ⟨t, ht⟩ := hsome
  obtain ⟨-, hnone⟩ | ⟨x, hx⟩ := exists_pieces h
  · cases (hnone t).symm.trans ht
  rw [hx.report] at ht hnames ⊢
  obtain ⟨u, hu, hunboxed⟩ := hx.unboxed
  obtain ⟨c₀, hc₀, rfl, -⟩ := hx.exists_class ht
  have hcrosses := hx.crosses hp (Recorder.eq_push_of_type hx.lens (hx.records hp hfields hc₀ ht).type)
  have hint : x.enums.contains .int = false := hx.not_contains_of_isClass hp.isClass rfl
  have hbrings (m : MethodRef) := Update.brings_of_clears hcrosses.across (hx.clears hp hfields hplatform) hint m
  have hmaps := UnboxingResult.maps_methodCode hu hq
  rw [hprogram, hlens, hcodeLens] at hmaps
  intro d hd
  obtain ⟨c, hc, hfrom⟩ := hmaps d hd
  obtain ⟨htype, hsupertypes, hmembers⟩ := hx.avoids_classes hp hfields hplatform hc
  rw [hfrom.type, hfrom.supertypes, ClassDef.isProgram, hfrom.kind]
  refine ⟨htype, hsupertypes, fun hisProgram => ?_⟩
  have hlib : c.isLibrary = false := by
    rw [Program.isLibrary_eq, ClassDef.isProgram, hisProgram]
    rfl
  have hmethods := hfrom.methods hlib
  refine ⟨⟨fun f hf => (hmembers hisProgram).fields f (hfrom.fields ▸ hf), fun m' hm' => ?_⟩, fun m' hm' code' hcode' => ?_⟩
  · obtain ⟨m, hm, href, -⟩ := exists_of_mem_left hmethods.flip hm'
    rw [href]
    exact (hmembers hisProgram).methods m hm
  · obtain ⟨m, hm, -, -, hupdated⟩ := exists_of_mem_left hmethods.flip hm'
    obtain ⟨code, fate, hcode, hrun⟩ := hupdated code' hcode'
    refine UnboxingResult.namesOnly_of_methodCode hcrosses (hbrings m.ref) (fun t ht => ?_) hint (fun hsynthesized => ?_) hcode hrun
    · rw [UnboxedEnums.mentions, hunboxed] at ht
      exact ht
    · refine MethodDef.Assembled.imp (fun k hk => Utility.Word.cleared (fun t ht => hx.avoids_of_known hp hplatform ht) v.program hk) ?_
      exact hx.assembled_of_mem_synthesized hp hnames honce (List.mem_filter.2 ⟨hc, hisProgram⟩) hm (List.contains_iff_mem.1 hsynthesized)

/-- The types that become numbers where null is cast to an enum, and whether no class declares a member twice afterwards. -/
def Cast.apart : Option (List Descriptor × Bool) :=
  match run view {} with
  | .ok r =>
    match r.updateCode { view with program := r.program, lens := r.lens } with
    | .ok (_, _) => some (r.report.unboxed.toList, r.program.classes.all fun d => decide d.Unrepeated)
    | .error _ => none
  | .error _ => none

/-- Where null is cast to an enum, `ordinal` stays, which the enum does not declare. -/
theorem cleared_of_updateCode_cast :
    ∃ r q stats, run Cast.view {} = .ok r ∧ r.updateCode { Cast.view with program := r.program, lens := r.lens } = .ok (q, stats) ∧
      r.report.unboxed.toList = [Inherited.type "E"] ∧ ∀ d ∈ q.classes, r.report.unboxed.contains d.type = false ∧
      (∀ t ∈ d.supertypes, r.report.unboxed.contains t = false) ∧
      (d.isProgram = true → d.Avoids r.report.unboxed ∧ ∀ m ∈ d.methods, ∀ code, m.code = some code → ∃ p, code = .packed p ∧
        p.NamesOnly (Constant.Cleared Cast.view.program r.report.unboxed) (Descriptor.Avoids r.report.unboxed)) := by
  have hapart : Cast.apart = some ([Inherited.type "E"], true) := by decide +kernel
  unfold Cast.apart at hapart
  split at hapart
  · next r hr =>
    split at hapart
    · next q stats hq =>
      simp only [Option.some.injEq, Prod.mk.injEq] at hapart
      obtain ⟨hunboxed, honce⟩ := hapart
      have hcontains (t : Descriptor) : r.report.unboxed.contains t = true ↔ t = Inherited.type "E" := by
        rw [← TreeSet.mem_iff_contains, ← TreeSet.mem_toList, hunboxed, List.mem_singleton]
      refine ⟨r, q, stats, hr, hq, hunboxed, ?_⟩
      have horderly : Cast.view.program.Orderly := by
        refine ⟨by decide +kernel, ?_, by decide +kernel⟩
        unfold Program.Housed
        decide +kernel
      have hfields : Cast.view.program.HousesFields := by
        unfold Program.HousesFields
        decide +kernel
      have hplatform : Cast.view.program.SparesPlatform := by
        unfold Program.SparesPlatform
        decide +kernel
      exact cleared_of_updateCode horderly hfields hplatform hr (fun c _ hc => ⟨"p/E", (hcontains c.type).1 hc⟩)
        ⟨_, (hcontains _).2 rfl⟩ (by simpa using honce) rfl rfl rfl hq
    · cases hapart
  · cases hapart

end Unboxing

end DexShrinker
