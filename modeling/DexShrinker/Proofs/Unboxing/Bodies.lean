/-
  DexShrinker/Proofs/Unboxing/Bodies.lean
  =======================================
  **Which bodies a program has once enums are numbers.**

  Methods of enums that move to a local class have their bodies unpacked, with as many
  arguments as the moved methods, which take the receiver as a parameter
  (`LocalUtility.fits_dissolve`). Utilities have bodies that were put together, and each is in
  its class (`Unboxing.Pieces.MakeUp.exists_assembled`). All other methods keep their bodies. So every body fits its method once it has been lowered and
  brought up to date (`Unboxing.awaits_of_run`, `UnboxingResult.maps_of_updateCode`).

  A cast to an enum goes before calls are lowered, so a call on the result of a cast is taken
  for a call on the value that was cast. If that value has another type, such as `null` of type
  `Object`, the call keeps naming a method of the enum (`Unboxing.enum_call_left`).
-/
import DexShrinker.Proofs.Unboxing.Lowering
import DexShrinker.Proofs.Unboxing.Pieces
import DexShrinker.Proofs.Unboxing.Resolution
import DexShrinker.Proofs.Updating.Program

namespace DexShrinker

open Std (TreeMap TreeSet LawfulEqOrd)

/-! ### What returns nothing -/

theorem Descriptor.isVoid_unbox {enums : TypeSet} (h : enums.contains .void = false) (t : Descriptor) : (t.unbox enums).isVoid = t.isVoid := by
  rw [unbox, mapBase]
  split
  · next harray =>
    rw [Descriptor.isVoid_of_isArray harray, Descriptor.isVoid_of_isArray]
    simp only [Descriptor.isArray, Descriptor.chars, Descriptor.replaceBase, beq_iff_eq] at harray ⊢
    obtain ⟨rest, hrest⟩ := List.head?_eq_some_iff.1 harray
    simp [hrest]
  · split
    · next henum =>
      cases hvoid : t.isVoid with
      | false => rfl
      | true =>
        rw [Descriptor.eq_void hvoid, h] at henum
        cases henum
    · rfl

namespace Unboxing

variable {p : Program} {enums : TypeSet} {shared : Descriptor} {padded : MethodRef → Prop} {r : Recorder}

/-- What unboxing records keeps apart what returns something and what does not. -/
theorem Steps.keepsVoid {kind : LayerKind} (h : Steps p enums shared padded (Recorder.start kind) r) (hp : p.Orderly)
    (hvoid : enums.contains .void = false) : r.layer.KeepsVoid := by
  have hne {t : Descriptor} (ht : enums.contains t = true) : t.isVoid = false := by
    cases hyes : t.isVoid with
    | false => rfl
    | true =>
      rw [Descriptor.eq_void hyes, hvoid] at ht
      cases ht
  refine ⟨fun old new hget => ?_, ?_⟩
  · obtain ⟨hold, rfl⟩ := h.numbers.types old new hget
    rw [hne hold]
    rfl
  · let R : Recorder.Rules := ⟨fun _ _ => True, fun old new => new.proto.returnType.isVoid = old.proto.returnType.isVoid,
      fun _ _ => False, fun _ _ => False, fun _ _ => True, fun _ _ => True⟩
    refine (h.obeys (R := R) (fun _ _ _ _ _ _ _ _ => trivial) (fun c hc m hm new _ hproto _ => ?_) fun _ _ _ _ _ => trivial).methods
    cases hproto with
    | retyped hreturn => exact (congrArg _ hreturn).trans (Descriptor.isVoid_unbox hvoid _)
    | valueOf hold hnew =>
      change new.proto.returnType.isVoid = _
      rw [hnew, hne hold]
      rfl
    | classInitializer hinit hnew =>
      change new.proto.returnType.isVoid = _
      rw [hnew, hp.classInitializers c hc m hm hinit]

theorem Steps.fields_ne {kind : LayerKind} (h : Steps p enums shared padded (Recorder.start kind) r) (f : FieldRef) :
    r.layer.fields[f]? ≠ some f := by
  let R : Recorder.Rules := ⟨fun old new => old ≠ new, fun _ _ => True, fun _ _ => False, fun _ _ => False, fun _ _ => True, fun _ _ => True⟩
  have hobeys : r.Obeys R := h.obeys (fun _ _ _ _ _ hne _ _ => hne) (fun _ _ _ _ _ _ _ _ => trivial) fun _ _ _ _ _ => trivial
  exact fun hget => hobeys.fields f f hget rfl

end Unboxing

/-! ### Local classes -/

/-- The code of the method fits it. -/
def MethodDef.Fits (m : MethodDef) : Prop := ∀ code, m.code = some code → code.Fits m.argumentTypes.length

theorem MethodDef.Assembled.fits {K : Constant → Prop} {m : MethodDef} (h : m.Assembled K) : m.Fits := by
  obtain ⟨c, hcode, ⟨hshaped, hsound, -, -⟩, harguments⟩ := h
  intro code hsome
  cases hcode.symm.trans hsome
  exact ⟨hshaped, fun b hb i hi => (hsound b hb i hi).sound, harguments⟩

/-- A body that was unpacked fits its method. -/
theorem MethodDef.Ready.fits_of_decoded {m : MethodDef} (h : m.Ready) {c : Body} (hc : m.decoded = .ok (some c)) :
    (Code.body c).Fits m.argumentTypes.length := by
  unfold MethodDef.decoded at hc
  split at hc
  · cases hc
  · next hcode =>
    cases (h _ hcode).1
  · next p hcode =>
    obtain ⟨c', hc', hc⟩ := bind_eq_ok.1 hc
    cases hc
    exact PackedBody.fits_of_unpack (h _ hcode).2 (Outcome.mapError_eq_ok.1 hc')

theorem AccessFlags.isStatic_or_staticFlag (f : AccessFlags) : (f ||| .staticFlag).isStatic = true := by
  change ((f.bits ||| 8) &&& 8 == 8) = true
  rw [beq_iff_eq, ← UInt32.toBitVec_inj]
  ext i
  simp
  grind

namespace LocalUtility

variable {enums : TypeSet} {u : LocalUtility} {enum : Descriptor} {s s' : Filling}

/-! What is put together for a local class is in it. -/

namespace Filling

variable {shared : Descriptor}

/-- The methods that were put together so far are among the methods. -/
def Backed (shared : Descriptor) (s : Filling) : Prop := ∀ ref ∈ s.synthesized, ∃ m ∈ s.methods, m.ref = ref ∧ m.Assembled (Utility.Word shared)

theorem Backed.add (h : s.Backed shared) (m : MethodDef) (r : Recorder) : Backed shared { s with methods := s.methods ++ [m], recorder := r } := by
  intro ref href
  obtain ⟨d, hd, hassembled⟩ := h ref href
  exact ⟨d, List.mem_append_left _ hd, hassembled⟩

theorem Backed.addSynthesized (h : s.Backed shared) {m : MethodDef} (hm : m.Assembled (Utility.Word shared)) : (s.addSynthesized m).Backed shared := by
  intro ref href
  rcases List.mem_append.1 href with href | href
  · exact h.add m s.recorder ref href
  · exact ⟨m, List.mem_append_right _ List.mem_cons_self, (List.mem_singleton.1 href).symm, hm⟩

end Filling

theorem backed_fill {shared : Descriptor} (h : s.Backed shared) {data : EnumData} {m : MethodDef} (hfill : u.fill enums enum data s m = .ok s') :
    s'.Backed shared := by
  unfold fill at hfill
  split at hfill
  · cases hfill
    exact h
  · split at hfill
    · obtain ⟨d, hd, hfill⟩ := bind_eq_ok.1 hfill
      cases hfill
      exact Filling.Backed.addSynthesized (s := { s with recorder := s.recorder.moveMethod m.ref d.ref }) h (assembled_of_valueOfDef shared hd).2
    · obtain ⟨body, -, hfill⟩ := bind_eq_ok.1 hfill
      cases hfill
      exact h.add _ _

theorem backed_dissolve {c d : ClassDef} {fixed : FixedEnum} {r r' : Recorder} {more : List MethodRef} (shared : Descriptor)
    (h : u.dissolve enums c fixed r = .ok (d, more, r')) : ∀ ref ∈ more, ∃ m ∈ d.methods, m.ref = ref ∧ m.Assembled (Utility.Word shared) := by
  unfold dissolve at h
  obtain ⟨name, hname, h⟩ := bind_eq_ok.1 h
  obtain ⟨s₁, hgetters, h⟩ := bind_eq_ok.1 h
  obtain ⟨s₂, hfill, h⟩ := bind_eq_ok.1 h
  cases h
  have hstart : Filling.Backed shared ⟨[name], [name.ref], r.moveType c.type .int⟩ :=
    Filling.Backed.addSynthesized (s := ⟨[], [], r.moveType c.type .int⟩) (by simp [Filling.Backed]) (assembled_of_nameDef shared hname).2
  have h₁ : s₁.Backed shared := by
    refine foldlM_preserves (P := Filling.Backed shared) (fun s y _ s' hs hstep => ?_) hstart hgetters
    obtain ⟨getter, hgetter, hstep⟩ := bind_eq_ok.1 hstep
    cases hstep
    exact hs.addSynthesized (assembled_of_getterDef shared hgetter).2
  refine foldlM_preserves (P := Filling.Backed shared) (fun s m _ s' hs hstep => backed_fill hs hstep) ?_ hfill
  unfold addClassInitializer
  split
  · exact h₁.add _ _
  · exact h₁

/-! All methods of a local class are in it, and fit. -/

/-- All methods so far are in the local class, and have bodies that fit. -/
def Filled (u : LocalUtility) (methods : List MethodDef) : Prop := ∀ m ∈ methods, m.ref.holder = u.type ∧ m.Fits

theorem Filled.add {methods : List MethodDef} (h : u.Filled methods) {m : MethodDef} (hholder : m.ref.holder = u.type) (hm : m.Fits) :
    u.Filled (methods ++ [m]) := by
  intro d hd
  rcases List.mem_append.1 hd with hd | hd
  · exact h d hd
  · rw [List.mem_singleton.1 hd]
    exact ⟨hholder, hm⟩

/-- A moved method is static, with the receiver as a parameter. -/
theorem length_movedSignature (enums : TypeSet) (enum : Descriptor) (m : MethodDef) :
    (movedSignature enums enum m).proto.parameters.length = m.argumentTypes.length := by
  unfold movedSignature MethodDef.argumentTypes MethodRef.argumentTypes
  split <;> simp [Prototype.unbox, Prototype.mapTypes, Prototype.prepend]

theorem filled_moveMethod (h : u.Filled s.methods) {m : MethodDef} (hm : m.Ready)
    (hmove : u.moveMethod enums enum s m = .ok s') : u.Filled s'.methods := by
  obtain ⟨body, hbody, hmove⟩ := bind_eq_ok.1 hmove
  cases hmove
  refine h.add rfl fun code hcode => ?_
  obtain ⟨c, rfl, rfl⟩ := Option.map_eq_some_iff.1 hcode
  rw [MethodDef.argumentTypes, MethodDef.isStatic, AccessFlags.isStatic_or_staticFlag]
  change (Code.body c).Fits (movedSignature enums enum m).proto.parameters.length
  rw [length_movedSignature]
  exact hm.fits_of_decoded hbody

theorem filled_fill (h : u.Filled s.methods) {data : EnumData} {m : MethodDef} (hm : m.Ready)
    (hfill : u.fill enums enum data s m = .ok s') : u.Filled s'.methods := by
  unfold fill at hfill
  split at hfill
  · cases hfill
    exact h
  · split at hfill
    · obtain ⟨d, hd, hfill⟩ := bind_eq_ok.1 hfill
      cases hfill
      obtain ⟨href, hassembled⟩ := assembled_of_valueOfDef enum hd
      exact h.add (by rw [href]; rfl) hassembled.fits
    · exact filled_moveMethod h hm hfill

/-- The lowered class initializer has the arguments of the old one. -/
theorem fits_classInitializer {c : ClassDef} {read : FieldSet} {fixed : FixedEnum} (hready : ∀ m ∈ c.methods, m.Ready)
    (hfixed : FixedEnum.ofClass c read = .ok (.ok fixed)) {body : Body} (hbody : fixed.classInitializer = some body) {old : MethodDef}
    (hold : c.classInitializer? = some old) : (Code.body body).Fits old.argumentTypes.length := by
  unfold FixedEnum.ofClass at hfixed
  rw [hold] at hfixed
  obtain ⟨decoded, hdecoded, hfixed⟩ := bind_eq_ok.1 hfixed
  cases decoded with
  | none => cases hfixed
  | some c₀ =>
    have hfits := (hready old (List.mem_of_find?_eq_some hold)).fits_of_decoded hdecoded
    dsimp only at hfixed
    split at hfixed
    · cases hfixed
    · split at hfixed
      · cases hfixed
      · split at hfixed
        · obtain ⟨lowered, hlowered, hfixed⟩ := bind_eq_ok.1 hfixed
          cases hfixed
          cases hbody
          have hlowers := FixedEnum.replaceAllocations_spec (Outcome.lift_eq_ok.1 hlowered)
          exact ⟨hlowers.shaped hfits.1, hlowers.each hfits.2.1, by rw [hlowers.arguments]; exact hfits.2.2⟩
        · cases hfixed

/-- **The methods of a local class.** -/
theorem fits_dissolve {c d : ClassDef} {read : FieldSet} {fixed : FixedEnum} {r r' : Recorder} {more : List MethodRef}
    (hready : ∀ m ∈ c.methods, m.Ready) (hclinit : ∀ m ∈ c.methods, m.isClassInitializer = true → m.ref.proto = .void)
    (hfixed : FixedEnum.ofClass c read = .ok (.ok fixed)) (h : u.dissolve enums c fixed r = .ok (d, more, r')) : u.Filled d.methods := by
  unfold dissolve at h
  obtain ⟨name, hname, h⟩ := bind_eq_ok.1 h
  obtain ⟨s₁, hgetters, h⟩ := bind_eq_ok.1 h
  obtain ⟨s₂, hfill, h⟩ := bind_eq_ok.1 h
  cases h
  have hstart : u.Filled [name] := by
    obtain ⟨href, hassembled⟩ := assembled_of_nameDef c.type hname
    have hnone : u.Filled [] := fun m hm => nomatch hm
    exact hnone.add (by rw [href]; rfl) hassembled.fits
  have h₁ : u.Filled s₁.methods := by
    refine foldlM_preserves (P := fun s : Filling => u.Filled s.methods) ?_ hstart hgetters
    intro s x _ s' hs hstep
    obtain ⟨getter, hgetter, hstep⟩ := bind_eq_ok.1 hstep
    cases hstep
    obtain ⟨href, hassembled⟩ := assembled_of_getterDef c.type hgetter
    exact hs.add (by rw [href]; rfl) hassembled.fits
  refine foldlM_preserves (P := fun s : Filling => u.Filled s.methods)
    (fun s m hm s' hs hstep => filled_fill hs (hready m hm) hstep) ?_ hfill
  unfold addClassInitializer
  split
  · next body old hbody hold =>
    refine h₁.add rfl fun code hcode => ?_
    cases hcode
    have hproto := hclinit old (List.mem_of_find?_eq_some hold) (by simpa using List.find?_some hold)
    have hlength (m' : MethodDef) (hstatic : m'.isStatic = old.isStatic) (hvoid : m'.ref.proto = .void) :
        m'.argumentTypes.length = old.argumentTypes.length + 0 :=
      MethodDef.length_argumentTypes hstatic (by rw [hvoid, hproto]; rfl)
    rw [hlength]
    · exact fits_classInitializer hready hfixed hbody hold
    · rfl
    · rfl
  · exact h₁

end LocalUtility

namespace Unboxing

variable {v : View} {o : UnboxingOptions}

/-- **What was put together** is in a local class or in the shared one. -/
theorem Pieces.MakeUp.exists_assembled {x : Pieces} {r : UnboxingResult} (h : x.MakeUp v r) {ref : MethodRef} (href : ref ∈ r.synthesized) :
    ∃ d, (d ∈ x.localClasses ∨ d = x.sharedClass) ∧ ∃ m ∈ d.methods, m.ref = ref ∧ m.Assembled (Utility.Word x.shared.type) := by
  rw [h.synthesized] at href
  rcases List.mem_append.1 href with href | href
  · suffices hbacked : ∀ ref ∈ x.methods, ∃ d ∈ x.localClasses, ∃ m ∈ d.methods, m.ref = ref ∧ m.Assembled (Utility.Word x.shared.type) by
      obtain ⟨d, hd, hm⟩ := hbacked ref href
      exact ⟨d, .inl hd, hm⟩
    refine dissolveAll_preserves (P := fun classes methods _ =>
      ∀ ref ∈ methods, ∃ d ∈ classes, ∃ m ∈ d.methods, m.ref = ref ∧ m.Assembled (Utility.Word x.shared.type)) ?_ (by simp) h.dissolve
    intro _ _ _ _ _ _ _ classes methods _ d more _ hdissolve hbacked ref href
    rcases List.mem_append.1 href with href | href
    · obtain ⟨e, he, hm⟩ := hbacked ref href
      exact ⟨e, List.mem_append_left _ he, hm⟩
    · exact ⟨d, List.mem_append_right _ List.mem_cons_self, LocalUtility.backed_dissolve x.shared.type hdissolve ref href⟩
  · obtain ⟨m, hm, rfl⟩ := List.mem_map.1 href
    exact ⟨x.sharedClass, .inr rfl, m, hm, rfl, (SharedUtility.assembled_of_build h.build hm).2⟩

/-- The methods of all local classes. -/
theorem Pieces.MakeUp.fits_dissolved {x : Pieces} {r : UnboxingResult} (h : x.MakeUp v r) (hp : v.program.Orderly)
    (hready : v.program.Each MethodDef.Ready) : ∀ d ∈ x.localClasses, ∀ m ∈ d.methods, m.Fits ∧ Fresh v.program m.ref.holder := by
  refine dissolveAll_preserves (P := fun classes _ _ => ∀ d ∈ classes, ∀ m ∈ d.methods, m.Fits ∧ Fresh v.program m.ref.holder) ?_ (by simp) h.dissolve
  intro t f c u hf hc hu classes _ _ d _ _ hdissolve hclasses e he m hm
  obtain ⟨c', hc', rfl, -, read, hfixed⟩ := h.isFixed t f hf
  cases hc.symm.trans (Program.mem_programClasses.1 hc').1
  have hfilled := LocalUtility.fits_dissolve (hready c hc') (hp.classInitializers c hc') hfixed hdissolve
  rcases List.mem_append.1 he with he | he
  · exact hclasses e he m hm
  · rw [List.mem_singleton.1 he] at hm
    obtain ⟨hholder, hfits⟩ := hfilled m hm
    exact ⟨hfits, hholder ▸ h.locals c.type u hu⟩

/-- Bodies can be brought up to date across what unboxing records. -/
theorem Pieces.MakeUp.crosses {x : Pieces} {r : UnboxingResult} (h : x.MakeUp v r) (hp : v.program.Orderly)
    (hlens : r.lens = v.lens.push (.renames (x.retyped v.program).2.layer)) :
    (⟨r.lens, v.lens⟩ : Update).Crosses (x.retyped v.program).2.layer := by
  have hsteps := h.steps hp.housed hp.isClass
  exact ⟨hlens, hsteps.fields_ne, hsteps.keepsVoid hp (h.not_contains_of_isClass hp.isClass rfl)⟩

/-- **What unboxing leaves to be brought up to date.** -/
theorem awaits_of_run (hp : v.program.Orderly) (hready : v.program.Each MethodDef.Ready) {r : UnboxingResult} (h : run v o = .ok r)
    (hne : r.lens.same v.lens = false) :
    ∃ n u, (⟨r.lens, v.lens⟩ : Update).Crosses n ∧ r.unboxed = some u ∧ r.program.Each (MethodDef.Awaits n r.synthesized) := by
  obtain ⟨hsame, -⟩ | ⟨x, hx⟩ := exists_pieces h
  · rw [hsame] at hne
    simp [Lens.same] at hne
  obtain ⟨u, hu, -⟩ := hx.unboxed
  -- Nothing is padded before the other classes are retyped.
  let R : Recorder.Rules := ⟨fun _ _ => True, fun _ _ => True, fun _ _ => False, fun _ _ => False, fun _ _ => False, fun _ _ => True⟩
  have hobeys : x.dissolved.Obeys R := hx.dissolves.obeys (fun _ _ _ _ _ _ _ _ => trivial) (fun _ _ _ _ _ _ _ _ => trivial)
    fun _ hno => hno.elim
  obtain ⟨hunpadded, hforall⟩ := Retyping.forall₂_keeps hp.housed x.enums
    (fun m => Option.eq_none_iff_forall_not_mem.2 fun changes hget => hobeys.definitions m changes hget) x.shared.type
  have hfits := hx.fits_dissolved hp hready
  have hsynthesized (m : MethodRef) (hm : m ∈ r.synthesized) : Fresh v.program m.holder := by
    obtain ⟨d, hd | rfl, m₀, hm₀, rfl, -⟩ := hx.exists_assembled hm
    · exact (hfits d hd m₀ hm₀).2
    · rw [(SharedUtility.assembled_of_build hx.build hm₀).1]
      exact hx.shared
  have hnew {m : MethodDef} (hm : m.Fits) (hholder : Fresh v.program m.ref.holder) : m.Awaits (x.retyped v.program).2.layer r.synthesized := by
    intro code hcode
    by_cases hmem : m.ref ∈ r.synthesized
    · exact .inl ⟨hmem, hm code hcode⟩
    · exact .inr ⟨hmem, _, 0, hm code hcode, Renaming.pads_of_getElem? (hunpadded m.ref hholder.not_mem), rfl⟩
  refine ⟨(x.retyped v.program).2.layer, u, hx.crosses hp (Recorder.eq_push_of_build hx.lens hne), hu, fun d hd m hm => ?_⟩
  rcases hx.programClasses_cases hd with hd | hd | rfl
  · exact hnew (hfits d hd m hm).1 (hfits d hd m hm).2
  · obtain ⟨c, hc, -, -, hkeeps⟩ := exists_of_mem_left hforall.flip hd
    have hc := (List.mem_filter.1 hc).1
    obtain ⟨m₀, hm₀, hkept⟩ := exists_of_mem_left hkeeps.flip hm
    refine (hready c hc m₀ hm₀).awaits hkept.code (hkept.sizes.congr rfl) fun hmem => (hsynthesized m.ref hmem).not_mem ?_
    rw [hkept.holder_eq]
    exact List.mem_map_of_mem (Program.mem_classes_of_mem_programClasses hc)
  · obtain ⟨hholder, hassembled⟩ := SharedUtility.assembled_of_build hx.build hm
    exact hnew hassembled.fits (hholder ▸ hx.shared)

end Unboxing

/-! ### Lowering and updating -/

namespace UnboxingResult

variable {u : UnboxedEnums} {update : Update} {n : Renaming}

theorem fits_of_rebuild (h : update.Crosses n) {m : MethodDef} {j : Nat} (hpads : n.Pads m.ref j) {k : Nat} {c : Body}
    (hc : (Code.body c).Fits k) {code : Code} {fate : BodyFate} (hrun : rebuild u update m c = .ok (code, fate)) :
    code.isPacked = true ∧ code.Fits (k + j) := by
  obtain ⟨c₁, hlower, hrun⟩ := bind_eq_ok.1 hrun
  obtain ⟨d, hd, hrun⟩ := bind_eq_ok.1 hrun
  obtain ⟨q, hq, hrun⟩ := bind_eq_ok.1 hrun
  cases hrun
  obtain ⟨hshaped, hsound, harguments⟩ := hc
  obtain ⟨hlowers, -⟩ := UnboxedEnums.lower_spec (Outcome.lift_eq_ok.1 hlower)
  have hlowered := hlowers.each fun b hb i hi => (hsound b hb i hi).nearly
  have hfits := Update.fits_of_body h hpads (hlowers.shaped hshaped) hlowered (Outcome.lift_eq_ok.1 hd) (Outcome.mapError_eq_ok.1 hq)
  rw [hlowers.arguments, harguments] at hfits
  exact ⟨rfl, hfits⟩

/-- **Lowering code and bringing it up to date.** -/
theorem fits_of_methodCode (h : update.Crosses n) {synthesized : List MethodRef} {m : MethodDef} (hm : m.Awaits n synthesized) {code code' : Code}
    (hcode : m.code = some code) {isSynthesized : Bool} (hmem : isSynthesized = true ↔ m.ref ∈ synthesized) {fate : BodyFate}
    (hrun : methodCode u update isSynthesized m code = .ok (code', fate)) : code'.isPacked = true ∧ code'.Fits m.argumentTypes.length := by
  have hplain (hplain : Outcome.mapError (fun e => EnumError.update (.packed m.ref e)) (update.methodCode isSynthesized m code) = .ok (code', fate)) :=
    Update.fits_of_methodCode h hm hcode hmem (Outcome.mapError_eq_ok.1 hplain)
  unfold methodCode at hrun
  dsimp only at hrun
  split at hrun
  · exact hplain hrun
  · next hno =>
    rcases hm code hcode with ⟨hin, -⟩ | ⟨-, k, j, hfits, hpads, hlength⟩
    · exact absurd (hmem.2 hin) hno
    · rw [hlength]
      split at hrun
      · exact fits_of_rebuild h hpads hfits hrun
      · split at hrun
        · rw [← hlength]
          exact hplain hrun
        · obtain ⟨c, hc, hrun⟩ := bind_eq_ok.1 hrun
          exact fits_of_rebuild h hpads (PackedBody.fits_of_unpack hfits (Outcome.mapError_eq_ok.1 hc)) hrun

/-- Every body of the program is that of the same method from before, lowered and brought up to date. -/
theorem maps_methodCode {r : UnboxingResult} (hu : r.unboxed = some u) {v : View} {q : Program} {stats : UpdateStats}
    (hrun : r.updateCode v = .ok (q, stats)) :
    Program.Maps (fun m m' => m'.ref = m.ref ∧ m'.access = m.access ∧ ∀ code', m'.code = some code' → ∃ code fate, m.code = some code ∧
      methodCode u ⟨v.lens, v.codeLens⟩ (r.synthesized.contains m.ref) m code = .ok (code', fate)) v.program q := by
  unfold updateCode at hrun
  rw [hu] at hrun
  refine Program.maps_of_mapMethodsM (fun m s m' s' hstep => ?_) hrun
  split at hstep
  · next hnone =>
    cases hstep
    refine ⟨rfl, rfl, fun code hcode => ?_⟩
    rw [hnone] at hcode
    cases hcode
  · next code hcode =>
    obtain ⟨⟨code', fate⟩, hmethod, hstep⟩ := bind_eq_ok.1 hstep
    cases hstep
    rw [TreeSet.contains_ofList] at hmethod
    refine ⟨rfl, rfl, ?_⟩
    rintro _ ⟨⟩
    exact ⟨code, fate, hcode, hmethod⟩

/-- **Lowering all bodies and bringing them up to date.** -/
theorem maps_of_updateCode {r : UnboxingResult} (hu : r.unboxed = some u) {v : View} (h : (⟨v.lens, v.codeLens⟩ : Update).Crosses n) {q : Program}
    {stats : UpdateStats} (hrun : r.updateCode v = .ok (q, stats)) :
    Program.Maps (fun m m' => m'.ref = m.ref ∧ m'.access = m.access ∧ (m.Awaits n r.synthesized → m'.Ready)) v.program q := by
  refine (maps_methodCode hu hrun).imp fun m m' ⟨href, haccess, hcode⟩ => ⟨href, haccess, fun hawaits code' hcode' => ?_⟩
  obtain ⟨code, fate, hcode, hmethod⟩ := hcode code' hcode'
  rw [MethodDef.argumentTypes, MethodDef.isStatic, href, haccess]
  exact fits_of_methodCode h hawaits hcode List.contains_iff_mem hmethod

end UnboxingResult

/-! ### What is left of enums that became numbers -/

namespace Unboxing

namespace Cast

def ordinal : MethodRef := ⟨Inherited.type "E", "ordinal", .int, []⟩

/-- Null is cast to an enum and asked for its ordinal. -/
def mainBody : Body where
  method := ⟨Inherited.type "C", "main", .void⟩
  isStatic := true
  arguments := []
  values := [⟨.object, .instruction⟩, ⟨Inherited.type "E", .instruction⟩, ⟨.int, .instruction⟩]
  blocks := [{
    body := [⟨some 0, .constNull, 1⟩, ⟨some 1, .checkCast (Inherited.type "E") 0, 1⟩, ⟨some 2, .invoke .virtual ordinal [1] false, 1⟩]
    terminator := .ret none }]

def view : View where
  program := .ofList (Inherited.classes.take 3 ++
    [{ type := Inherited.type "C"
       superclass := some .object
       methods := [{ ref := mainBody.method, access := .publicFlag ||| .staticFlag, code := some (.body mainBody) }] }])

/-- The types that become numbers, and the constants of the body of `main` afterwards. -/
def outcome : Option (List Descriptor × Option (List Constant)) :=
  match run view {} with
  | .ok r =>
    match r.updateCode { view with program := r.program, lens := r.lens } with
    | .ok (q, _) =>
      match (q.method? mainBody.method).bind MethodDef.code with
      | some (.packed p) => some (r.report.unboxed.toList, some p.constants)
      | _ => none
    | .error _ => none
  | .error _ => none

end Cast

/-- A body still calls a method of an enum that is gone. -/
theorem enum_call_left :
    ∃ r q stats m p, run Cast.view {} = .ok r ∧ r.report.unboxed.toList = [Inherited.type "E"] ∧
      r.updateCode { Cast.view with program := r.program, lens := r.lens } = .ok (q, stats) ∧
      q.method? Cast.mainBody.method = some m ∧ m.code = some (.packed p) ∧ p.constants = [.method Cast.ordinal] ∧
      Cast.ordinal.holder = Inherited.type "E" := by
  have houtcome : Cast.outcome = some ([Inherited.type "E"], some [.method Cast.ordinal]) := by decide +kernel
  unfold Cast.outcome at houtcome
  split at houtcome
  · next r hr =>
    split at houtcome
    · next q stats hq =>
      split at houtcome
      · next p hp =>
        obtain ⟨m, hm, hcode⟩ := Option.bind_eq_some_iff.1 hp
        simp only [Option.some.injEq, Prod.mk.injEq] at houtcome
        exact ⟨r, q, stats, m, p, hr, houtcome.1, hq, hm, hcode, houtcome.2, rfl⟩
      · cases houtcome
    · cases houtcome
  · cases houtcome

end Unboxing

end DexShrinker
