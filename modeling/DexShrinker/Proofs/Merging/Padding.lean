/-
  DexShrinker/Proofs/Merging/Padding.lean
  =======================================
  **How many parameters placed methods have.**

  A method keeps the number of its parameters and whether it returns something, also when it
  takes the signature of a method that it overrides (`Placement.Fits`). Only initializers get
  more parameters, as many as their definition is recorded to be padded with: the signature
  of an initializer is free when it is placed, so no other definition of the class has it
  (`Placement.Trail.sized`).
-/
import DexShrinker.Proofs.Merging.Moves

namespace DexShrinker

theorem numbered_ne {name special : String} (h : '$' ∉ special.toList) (n : Nat) : numbered name n ≠ special := by
  rintro rfl
  exact h (by simp [numbered])

theorem numbered_ne_initName (name : String) (n : Nat) : numbered name n ≠ MethodRef.initName := numbered_ne (by decide) n

theorem numbered_ne_clinitName (name : String) (n : Nat) : numbered name n ≠ MethodRef.clinitName := numbered_ne (by decide) n

namespace Placement

/-- The signature fits the method: it has as many parameters, returns something if the method
    does, is not that of an instance initializer, and that of a class initializer only if the
    method is one. -/
structure Fits (new : Signature) (old : MethodRef) : Prop where
  name : new.name ≠ MethodRef.initName
  arity : new.proto.parameters.length = old.proto.parameters.length
  void : new.proto.returnType.isVoid = old.proto.returnType.isVoid
  clinit : new.name = MethodRef.clinitName → old.name = MethodRef.clinitName ∧ (old.proto = .void → new.proto = .void)

theorem name_ne_initName {m : MethodDef} (h : m.isInstanceInitializer = false) : m.ref.name ≠ MethodRef.initName := by
  simpa [MethodDef.isInstanceInitializer, MethodRef.isInstanceInitializer] using h

theorem fits_self {m : MethodDef} (h : m.isInstanceInitializer = false) : Fits m.ref.signature m.ref :=
  ⟨name_ne_initName h, rfl, rfl, fun hname => ⟨hname, id⟩⟩

variable {p : Placement} {holder : Descriptor} {st last : MethodState} {m : MethodDef}

/-! ### One method -/

/-- Methods other than initializers get signatures that fit them. -/
theorem suits_fits (hvoid : ∀ t, (p.merges.type t).isVoid = t.isVoid) : p.Suits Fits where
  same {s a b} heq h := by
    have hname : a.name = b.name := congrArg Signature.name heq
    have hproto : a.proto = b.proto := congrArg Signature.proto heq
    exact ⟨h.name, hproto ▸ h.arity, hproto ▸ h.void, hname ▸ hproto ▸ h.clinit⟩
  renamed {m} hinit holder taken := by
    have hname : m.name ≠ MethodRef.initName := by simpa [MethodRef.isInstanceInitializer] using hinit
    rw [renamed, signature_ofSignature]
    split
    · exact ⟨numbered_ne_initName _ _, List.length_map _, hvoid _, fun hname => absurd hname (numbered_ne_clinitName _ _)⟩
    · refine ⟨hname, List.length_map _, hvoid _, fun hname => ⟨hname, fun hproto => ?_⟩⟩
      have hreturn : p.merges.type .void = .void := Descriptor.eq_void ((hvoid .void).trans (by decide))
      change (p.merges.proto m.proto) = .void
      rw [hproto]
      exact congrArg (Prototype.mk · []) hreturn

/-- An initializer gets its mapped prototype with the padding. -/
theorem place_initializer (p : Placement) (holder : Descriptor) (st : MethodState) (h : m.isInstanceInitializer = true) :
    (p.place holder st m).ref = ⟨holder, m.ref.name,
      InitMerge.pad (p.merges.proto m.ref.proto) p.argument (p.place holder st m).padding⟩ ∧
      (p.place holder st m).ref.signature ∉ st.reserved := by
  rw [place, if_pos h]
  exact ⟨rfl, initializer_not_mem p holder m.ref st.reserved⟩

theorem definitionChanges_recordMethod (p : Placement) (r : Recorder) (old new : MethodRef) (isInitializer : Bool) :
    (p.recordMethod r old new isInitializer).moves.definitionChanges = r.moves.definitionChanges := by
  simp only [recordMethod]
  split
  · rfl
  · split
    · simp
    · exact List.foldlRecOn (motive := fun r' : Recorder => r'.moves.definitionChanges = r.moves.definitionChanges) _ _ (by simp)
        fun r' hr' sub _ => by rw [Recorder.definitionChanges_moveMethod, hr']

/-- What is recorded of definitions when a method is placed. -/
theorem definitionChanges_placeMethod (p : Placement) (holder : Descriptor) (st : MethodState) (m : MethodDef) :
    (p.placeMethod holder st m).2.log.recorder.moves.definitionChanges =
      (if m.isInstanceInitializer then st.log.recorder.recordDefinition (p.place holder st m).ref
        (p.paddingChanges (p.place holder st m).padding) else st.log.recorder).moves.definitionChanges :=
  definitionChanges_recordMethod p _ _ _ _

/-- Of the class `holder` only definitions of initializers under signatures in use have been
    recorded, and everything in sight fits. -/
structure Keeps (holder : Descriptor) (st : MethodState) : Prop where
  table : st.table.Each Fits
  initializers : ∀ (m : MethodRef) (changes : ProtoChanges), st.log.recorder.moves.definitionChanges[m]? = some changes →
    m.isInstanceInitializer = true
  reserved : ∀ (m : MethodRef) (changes : ProtoChanges), st.log.recorder.moves.definitionChanges[m]? = some changes →
    m.holder = holder → m.signature ∈ st.reserved

/-- Other definitions stay. -/
theorem getElem?_placeMethod {ref : MethodRef} (h : ref.holder = holder → ref.signature ∈ st.reserved) :
    (p.placeMethod holder st m).2.log.recorder.moves.definitionChanges[ref]? = st.log.recorder.moves.definitionChanges[ref]? := by
  rw [definitionChanges_placeMethod]
  split
  · next hinit =>
    obtain ⟨href, hfree⟩ := place_initializer p holder st hinit
    rw [Recorder.getElem?_recordDefinition, if_neg]
    rintro ⟨rfl, -⟩
    exact hfree (h (by rw [href]))
  · rfl

theorem Keeps.placeMethod (hvoid : ∀ t, (p.merges.type t).isVoid = t.isVoid) (h : Keeps holder st) (m : MethodDef) :
    Keeps holder (p.placeMethod holder st m).2 := by
  have hreserved : (p.placeMethod holder st m).2.reserved = st.reserved ++ [(p.place holder st m).ref.signature] := rfl
  have hentry (ref : MethodRef) (changes : ProtoChanges)
      (hget : (p.placeMethod holder st m).2.log.recorder.moves.definitionChanges[ref]? = some changes) :
      ref = (p.place holder st m).ref ∧ m.isInstanceInitializer = true ∨ st.log.recorder.moves.definitionChanges[ref]? = some changes := by
    rw [definitionChanges_placeMethod] at hget
    split at hget
    · next hinit =>
      rw [Recorder.getElem?_recordDefinition] at hget
      split at hget
      · next heq => exact .inl ⟨heq.1.symm, hinit⟩
      · exact .inr hget
    · exact .inr hget
  refine ⟨(suits_fits hvoid).placeMethod h.table holder m, fun ref changes hget => ?_, fun ref changes hget hholder => ?_⟩
  · rcases hentry ref changes hget with ⟨rfl, hinit⟩ | hold
    · rw [(place_initializer p holder st hinit).1]
      exact hinit
    · exact h.initializers ref changes hold
  · rw [hreserved]
    rcases hentry ref changes hget with ⟨rfl, -⟩ | hold
    · exact List.mem_append_right _ (List.mem_singleton_self _)
    · exact List.mem_append_left _ (h.reserved ref changes hold hholder)

/-- The method `m` has been placed in `holder` as `m'`, under the definitions recorded so far. -/
structure Sized (r : Recorder) (holder : Descriptor) (m m' : MethodDef) : Prop where
  sizes : r.moves.Sizes m m'
  void : m'.ref.proto.returnType.isVoid = m.ref.proto.returnType.isVoid
  holder : m'.ref.holder = holder
  code : m'.code = m.code
  static : m'.isStatic = m.isStatic
  isInitializer : m'.isInstanceInitializer = m.isInstanceInitializer
  isClassInitializer : m'.isClassInitializer = true → m.isClassInitializer = true ∧ (m.ref.proto = .void → m'.ref.proto = .void)

theorem Sized.congr {r r' : Recorder} {m m' : MethodDef} (h : Sized r holder m m')
    (heq : r'.moves.definitionChanges[m'.ref]? = r.moves.definitionChanges[m'.ref]?) : Sized r' holder m m' :=
  ⟨h.sizes.congr heq, h.void, h.holder, h.code, h.static, h.isInitializer, h.isClassInitializer⟩

theorem Keeps.sized (hvoid : ∀ t, (p.merges.type t).isVoid = t.isVoid) (h : Keeps holder st) (m : MethodDef) :
    Sized (p.placeMethod holder st m).2.log.recorder holder m (p.placeMethod holder st m).1 := by
  have href : (p.placeMethod holder st m).1 = { m with ref := (p.place holder st m).ref } := rfl
  have hstatic : (p.placeMethod holder st m).1.isStatic = m.isStatic := rfl
  cases hinit : m.isInstanceInitializer with
  | false =>
    have hfits : Fits (p.place holder st m).ref.signature m.ref := (suits_fits hvoid).place h.table hinit holder
    refine ⟨⟨0, Renaming.pads_of_getElem? ?_, MethodDef.length_argumentTypes hstatic hfits.arity⟩, hfits.void,
      holder_place p holder st m, rfl, rfl, (beq_eq_false_iff_ne.2 hfits.name).trans hinit.symm,
      fun hyes => ⟨beq_iff_eq.2 (hfits.clinit (eq_of_beq hyes)).1, (hfits.clinit (eq_of_beq hyes)).2⟩⟩
    rw [definitionChanges_placeMethod, hinit, href]
    -- Only initializers have entries, and no other method is called like them.
    refine Option.eq_none_iff_forall_not_mem.2 fun changes hget => hfits.name ?_
    exact eq_of_beq (h.initializers _ changes hget)
  | true =>
    obtain ⟨hplace, hfree⟩ := place_initializer p holder st hinit
    have hnone : st.log.recorder.moves.definitionChanges[(p.place holder st m).ref]? = none :=
      Option.eq_none_iff_forall_not_mem.2 fun changes hget => hfree (h.reserved _ changes hget (by rw [hplace]))
    have hpads := Recorder.pads_recordDefinition hnone
      (List.replicate (p.place holder st m).padding (ExtraParameter.unusedNull p.argument))
    refine ⟨⟨(p.place holder st m).padding, ?_, MethodDef.length_argumentTypes hstatic ?_⟩, ?_, holder_place p holder st m, rfl, rfl, ?_,
      fun hyes => ?_⟩
    · rw [List.length_replicate] at hpads
      refine hpads.congr ?_
      rw [definitionChanges_placeMethod, hinit]
      rfl
    · rw [href]
      simp only
      rw [hplace]
      simp [InitMerge.pad, Prototype.append, MergeMap.proto, Prototype.mapTypes]
    · rw [href]
      simp only
      rw [hplace]
      exact hvoid _
    · rw [href, MethodDef.isInstanceInitializer]
      simp only
      rw [hplace, hinit]
      exact hinit
    · -- An instance initializer is called differently.
      rw [href, MethodDef.isClassInitializer, MethodRef.isClassInitializer] at hyes
      simp only at hyes
      rw [hplace] at hyes
      have hname : m.ref.name = MethodRef.initName := eq_of_beq hinit
      rw [hname] at hyes
      exact absurd hyes (by decide)

/-! ### All methods of a class -/

namespace Trail

variable {xs : List (MethodDef × MethodDef)}

theorem keeps (h : Trail p holder st xs last) (hvoid : ∀ t, (p.merges.type t).isVoid = t.isVoid) (hst : Keeps holder st) :
    Keeps holder last :=
  h.preserves (fun _ x _ hst => hst.placeMethod hvoid x.1) hst

/-- Definitions under signatures in use, and of other classes, stay. -/
theorem getElem?_definitionChanges (h : Trail p holder st xs last) {ref : MethodRef}
    (href : ref.holder = holder → ref.signature ∈ st.reserved) :
    last.log.recorder.moves.definitionChanges[ref]? = st.log.recorder.moves.definitionChanges[ref]? := by
  induction h with
  | nil => rfl
  | cons m h ih =>
    rw [ih fun hholder => List.mem_append_left _ (href hholder), getElem?_placeMethod href]

/-- **The methods of a class keep their sizes**, up to the padding that is recorded. -/
theorem sized (h : Trail p holder st xs last) (hvoid : ∀ t, (p.merges.type t).isVoid = t.isVoid) (hst : Keeps holder st) :
    ∀ x ∈ xs, Sized last.log.recorder holder x.1 x.2 := by
  induction h with
  | nil => simp
  | cons m h ih =>
    refine List.forall_mem_cons.2 ⟨(hst.sized hvoid m).congr (h.getElem?_definitionChanges fun _ => ?_), ih (hst.placeMethod hvoid m)⟩
    exact List.mem_append_right _ (List.mem_singleton_self _)

end Trail

theorem definitionChanges_recordField (p : Placement) (r : Recorder) (old new : FieldRef) :
    (p.recordField r old new).moves.definitionChanges = r.moves.definitionChanges := by
  simp only [recordField]
  split
  · rfl
  · split
    · simp
    · exact List.foldlRecOn (motive := fun r' : Recorder => r'.moves.definitionChanges = r.moves.definitionChanges) _ _ (by simp)
        fun r' hr' sub _ => by rw [Recorder.definitionChanges_moveField, hr']

theorem definitionChanges_placeFields (p : Placement) (shell : ClassDef) (r : Recorder) (fields : List FieldDef) :
    (p.placeFields shell r fields).2.moves.definitionChanges = r.moves.definitionChanges := by
  induction fields generalizing shell r with
  | nil => rfl
  | cons f fields ih => rw [placeFields_cons, ih, definitionChanges_recordField]

/-- **A class that is placed**, if nothing is recorded of its definitions yet. -/
theorem placeClass_sized (hvoid : ∀ t, (p.merges.type t).isVoid = t.isVoid) (u : UnplacedClass) {inherited : VirtualTable}
    (htable : inherited.Each Fits) {log : PlacementLog}
    (hinits : ∀ (m : MethodRef) (changes : ProtoChanges), log.recorder.moves.definitionChanges[m]? = some changes →
      m.isInstanceInitializer = true ∧ m.holder ≠ u.shell.type) :
    let r := p.placeClass u inherited log
    (∀ (m : MethodRef) (changes : ProtoChanges), r.2.2.recorder.moves.definitionChanges[m]? = some changes →
      m.isInstanceInitializer = true) ∧
      (∀ m : MethodRef, m.holder ≠ u.shell.type →
        r.2.2.recorder.moves.definitionChanges[m]? = log.recorder.moves.definitionChanges[m]?) ∧
      ∀ x ∈ u.methods.zip (r.1.methods.drop u.shell.methods.length), Sized r.2.2.recorder u.shell.type x.1 x.2 := by
  let start := u.fieldMoves.foldl (fun r x => p.recordField r x.1 x.2) log.recorder
  let st : MethodState := ⟨u.shell.methods.map (·.ref.signature), inherited,
    { log with recorder := (p.placeFields u.shell start u.fields).2 }⟩
  have hstart : st.log.recorder.moves.definitionChanges = log.recorder.moves.definitionChanges := by
    refine (definitionChanges_placeFields p u.shell start u.fields).trans ?_
    exact List.foldlRecOn (motive := fun r : Recorder => r.moves.definitionChanges = log.recorder.moves.definitionChanges) _ _ rfl
      fun r hr x _ => by rw [definitionChanges_recordField, hr]
  obtain ⟨fs, hclass⟩ := placeClass_eq p u inherited log
  obtain ⟨first, rest, htrail, hperm, hlength, -, -⟩ := exists_trail p u.shell.type st u.methods
  have hst : Keeps u.shell.type st := by
    refine ⟨htable, fun m changes hget => (hinits m changes (hstart ▸ hget)).1, fun m changes hget hholder => ?_⟩
    exact absurd hholder (hinits m changes (hstart ▸ hget)).2
  have hlast := htrail.keeps hvoid hst
  rw [hclass]
  refine ⟨hlast.initializers, fun m hholder => ?_, fun x hx => ?_⟩
  · rw [← hstart]
    exact htrail.getElem?_definitionChanges fun heq => absurd heq hholder
  · simp only [List.drop_left] at hx
    exact htrail.sized hvoid hst x (hperm.mem_iff.2 hx)

/-! ### All classes -/

/-- What has been recorded of definitions belongs to initializers of placed classes, and all their
    methods have kept their sizes. -/
structure Measured (classes : List UnplacedClass) (st : Progress) : Prop where
  tables : ∀ (s : Descriptor) (t : VirtualTable), st.tables[s]? = some t → t.Each Fits
  initializers : ∀ (m : MethodRef) (changes : ProtoChanges), st.log.recorder.moves.definitionChanges[m]? = some changes →
    m.isInstanceInitializer = true
  holders : ∀ (m : MethodRef) (changes : ProtoChanges), st.log.recorder.moves.definitionChanges[m]? = some changes →
    ∃ d ∈ st.placed, m.holder = d.type
  sized : ∀ u ∈ classes, ∀ d ∈ st.placed, d.type = u.shell.type →
    ∀ x ∈ u.methods.zip (d.methods.drop u.shell.methods.length), Sized st.log.recorder d.type x.1 x.2

section

variable {classes : List UnplacedClass}

theorem measured_visit (hvoid : ∀ t, (p.merges.type t).isVoid = t.isVoid)
    (hunique : ∀ u ∈ classes, classes.find? (·.shell.type == u.shell.type) = some u) {st : Progress} (h : Measured classes st)
    {c : ClassDef} (hfresh : ∀ d ∈ st.placed, d.type ≠ c.type) :
    Measured classes (p.visit classes st c) := by
  have htables : ∀ (s : Descriptor) (t : VirtualTable), (p.visit classes st c).tables[s]? = some t → t.Each Fits :=
    (suits_fits hvoid).visit h.tables fun _ m hm =>
      fits_self (MethodDef.isInstanceInitializer_of_isVirtual (List.mem_filter.1 hm).2)
  cases hfind : classes.find? (·.shell.type == c.type) with
  | none =>
    rw [visit, hfind] at htables ⊢
    exact ⟨htables, h.initializers, h.holders, h.sized⟩
  | some u =>
    have hu : u.shell.type = c.type := by simpa using List.find?_some hfind
    have hlog (m : MethodRef) (changes : ProtoChanges) (hget : st.log.recorder.moves.definitionChanges[m]? = some changes) :
        m.isInstanceInitializer = true ∧ m.holder ≠ u.shell.type := by
      obtain ⟨d, hd, hholder⟩ := h.holders m changes hget
      exact ⟨h.initializers m changes hget, by rw [hholder, hu]; exact hfresh d hd⟩
    obtain ⟨hinits, hother, hsized⟩ := placeClass_sized hvoid u (each_inherited p.hash h.tables c) hlog
    have htype : (p.placeClass u (inherited p.hash st.tables c) st.log).1.type = u.shell.type := by
      obtain ⟨fs, hclass⟩ := placeClass_eq p u (inherited p.hash st.tables c) st.log
      rw [hclass]
    rw [visit_of_some hfind] at htables ⊢
    refine ⟨htables, hinits, fun m changes hget => ?_, fun u' hu' d hd hd' x hx => ?_⟩
    · by_cases hholder : m.holder = u.shell.type
      · exact ⟨_, List.mem_append_right _ (List.mem_singleton_self _), by rw [hholder, htype]⟩
      · obtain ⟨d, hd, heq⟩ := h.holders m changes (hother m hholder ▸ hget)
        exact ⟨d, List.mem_append_left _ hd, heq⟩
    · rcases List.mem_append.1 hd with hd | hd
      · have hold := h.sized u' hu' d hd hd' x hx
        refine hold.congr (hother x.2.ref ?_)
        rw [hold.holder, hu]
        exact hfresh d hd
      · rw [List.mem_singleton] at hd
        obtain rfl : u' = u := by
          have hsame := hunique u' hu'
          rw [← hd', hd, htype, hunique u (List.mem_of_find?_eq_some hfind)] at hsame
          exact (Option.some.inj hsame).symm
        rw [hd']
        exact hsized x (hd ▸ hx)

/-- **The walk over all classes.** -/
theorem measured_foldl_visit (hvoid : ∀ t, (p.merges.type t).isVoid = t.isVoid)
    (hunique : ∀ u ∈ classes, classes.find? (·.shell.type == u.shell.type) = some u) {cs : List ClassDef} {st : Progress}
    (h : Measured classes st) (hnodup : (cs.map ClassDef.type).Nodup) (hfresh : ∀ d ∈ st.placed, d.type ∉ cs.map ClassDef.type) :
    Measured classes (cs.foldl (p.visit classes) st) := by
  induction cs generalizing st with
  | nil => exact h
  | cons c cs ih =>
    rw [List.map_cons, List.nodup_cons] at hnodup
    simp only [List.map_cons, List.mem_cons, not_or] at hfresh
    refine ih (measured_visit hvoid hunique h fun d hd => (hfresh d hd).1) hnodup.2 fun d hd => ?_
    cases hfind : classes.find? (·.shell.type == c.type) with
    | none =>
      rw [visit, hfind] at hd
      exact (hfresh d hd).2
    | some u =>
      rw [visit_of_some hfind] at hd
      rcases List.mem_append.1 hd with hd | hd
      · exact (hfresh d hd).2
      · obtain ⟨fs, hclass⟩ := placeClass_eq p u (inherited p.hash st.tables c) st.log
        have hu : u.shell.type = c.type := by simpa using List.find?_some hfind
        rw [List.mem_singleton.1 hd, hclass]
        simp only
        rw [hu]
        exact hnodup.1

end

end Placement

end DexShrinker
