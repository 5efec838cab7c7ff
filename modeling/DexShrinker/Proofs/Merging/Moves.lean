/-
  DexShrinker/Proofs/Merging/Moves.lean
  =====================================
  **Which members a merge records as moved, and which ones stay.**

  A member is recorded when it is placed. If it gets a name that is not just its old one under
  the new types, it is recorded once more for every class that inherits it. Before that, the
  initializers of groups with a class id move to their dispatching initializers. Nothing else
  is recorded (`Plan.Valid.obeys`), and what has been recorded stays (`Recorder.lasting_grows`),
  so in the end all of it is recorded, unless there was a conflict (`Plan.Valid.recorded`).

  Let the types that a member names stay. A method then keeps its signature exactly when
  nothing in sight of its class takes it and no other method of its class gets it
  (`Placement.Trail.signature_eq_iff`). A field keeps its name, because only another field of
  the same type could take it (`Placement.fields_placeFields`).
-/
import DexShrinker.Proofs.Lens.Rules
import DexShrinker.Proofs.Merging.Lasting
import DexShrinker.Proofs.Merging.Merged
import DexShrinker.Proofs.Merging.Slots

namespace DexShrinker

open Std
open Recorder (Rules lasting_grows lastingInGroups_grows)

/-- Subtypes that inherit a member do not declare it. -/
theorem Program.exists_of_mem_inheritors {p : Program} {t sub : Descriptor} {declares : ClassDef → Bool}
    (h : sub ∈ p.inheritors t declares) : ∃ c ∈ p.classes, c.type = sub ∧ declares c = false := by
  have hfrom (pool : List ClassDef) (work : List Descriptor) (hpool : ∀ c ∈ pool, c ∈ p.classes)
      (hsub : sub ∈ p.inheritorsFrom declares pool work) : ∃ c ∈ p.classes, c.type = sub ∧ declares c = false := by
    induction pool, work using Program.inheritorsFrom.induct p declares with
    | case1 => simp [inheritorsFrom] at hsub
    | case2 pool t work hfind ih =>
      rw [inheritorsFrom, hfind] at hsub
      exact ih hpool hsub
    | case3 pool t work c hfind hdeclares ih =>
      rw [inheritorsFrom, hfind] at hsub
      simp only [hdeclares, if_true] at hsub
      exact ih (fun c hc => hpool c (List.mem_filter.1 hc).1) hsub
    | case4 pool t work c hfind hdeclares ih =>
      rw [inheritorsFrom, hfind] at hsub
      simp only [hdeclares] at hsub
      rcases List.mem_cons.1 hsub with rfl | hsub
      · exact ⟨c, hpool c (List.mem_of_find?_eq_some hfind), by simpa using List.find?_some hfind, by simpa using hdeclares⟩
      · exact ih (fun c hc => hpool c (List.mem_filter.1 hc).1) hsub
  rw [inheritors, TreeSet.mem_toList, TreeSet.mem_ofList, List.contains_iff_mem] at h
  exact hfrom p.classes _ (fun _ hc => hc) h

theorem exists_zip_of_mem {α β : Type} {xs : List α} {ys : List β} (h : xs.length = ys.length) {x : α} (hx : x ∈ xs) :
    ∃ y, (x, y) ∈ xs.zip ys := by
  rw [← List.map_fst_zip (Nat.le_of_eq h)] at hx
  obtain ⟨z, hz, rfl⟩ := List.mem_map.1 hx
  exact ⟨z.2, hz⟩

/-- Lists that name everything once do not pair one name with two things. -/
theorem eq_of_mem_zip {α β γ : Type} {f : α → γ} {xs : List α} {ys : List β} (hlength : xs.length = ys.length) (h : (xs.map f).Nodup)
    {x y : α × β} (hx : x ∈ xs.zip ys) (hy : y ∈ xs.zip ys) (heq : f x.1 = f y.1) : x = y := by
  rw [← List.map_fst_zip (Nat.le_of_eq hlength), List.map_map] at h
  exact List.inj_on_of_nodup_map h hx hy heq

namespace Placement

variable {p : Placement} {R : Rules} {r : Recorder}

/-! ### Members that are placed -/

/-- The subtypes of its holder that inherit a field. -/
def fieldInheritors (p : Placement) (f : FieldRef) : List Descriptor :=
  p.program.inheritors f.holder fun c => (c.field? { f with holder := c.type }).isSome

/-- The subtypes of its holder that inherit a method. -/
def methodInheritors (p : Placement) (m : MethodRef) : List Descriptor :=
  p.program.inheritors m.holder fun c => (c.methodBySignature? m.signature).isSome

/-- The rules allow what is recorded of a field that is placed. -/
def AllowsField (p : Placement) (R : Rules) (old new : FieldRef) : Prop :=
  old ≠ new → R.field old new ∧ (new ≠ p.merges.field old → ∀ sub ∈ p.fieldInheritors old,
    { old with holder := sub } ≠ { new with holder := p.merges.type sub } →
      R.field { old with holder := sub } { new with holder := p.merges.type sub })

/-- The rules allow what is recorded of a method that is placed. -/
structure AllowsMethod (p : Placement) (R : Rules) (m m' : MethodDef) : Prop where
  moved : m.ref ≠ m'.ref → R.method m.ref m'.ref
  inherited : m.ref ≠ m'.ref → m.isInstanceInitializer = false → m'.ref ≠ p.merges.method m.ref → ∀ sub ∈ p.methodInheritors m.ref,
    { m.ref with holder := sub } ≠ { m'.ref with holder := p.merges.type sub } →
      R.method { m.ref with holder := sub } { m'.ref with holder := p.merges.type sub }
  padded : m.isInstanceInitializer = true → ∀ n, 0 < n → m'.ref.proto = InitMerge.pad (p.merges.proto m.ref.proto) p.argument n →
    R.definition m'.ref (p.paddingChanges n)

/-- The rules allow what is recorded when the members of `u` become those of `d`. -/
structure Allows (p : Placement) (R : Rules) (u : UnplacedClass) (d : ClassDef) : Prop where
  slots : ∀ x ∈ u.fieldMoves, p.AllowsField R x.1 x.2
  fields : ∀ x ∈ u.fields.zip (d.fields.drop u.shell.fields.length), p.AllowsField R x.1.ref x.2.ref
  methods : ∀ x ∈ u.methods.zip (d.methods.drop u.shell.methods.length), p.AllowsMethod R x.1 x.2

/-- All moves of a field are recorded. -/
theorem allowsField_recordField {old new : FieldRef} (hconflict : (p.recordField r old new).conflict = none) :
    p.AllowsField (p.recordField r old new).entries old new := by
  intro hne
  simp only [recordField, if_neg hne] at hconflict ⊢
  split at hconflict
  · next hmapped =>
    rw [if_pos hmapped]
    exact ⟨Recorder.getElem?_moveField hne hconflict, fun hnew => absurd hmapped hnew⟩
  · next hmapped =>
    rw [if_neg hmapped]
    obtain ⟨hgrows, hmoved⟩ := Recorder.foldl_moveField (fun sub => { old with holder := sub })
      (fun sub => { new with holder := p.merges.type sub }) (p.fieldInheritors old) (r.moveField old new)
    exact ⟨hgrows.fields _ _ (Recorder.getElem?_moveField hne (hgrows.conflict hconflict)), fun _ => hmoved hconflict⟩

/-- All moves of a method are recorded. -/
theorem allowsMethod_placeMethod {holder : Descriptor} {st : MethodState} {m : MethodDef}
    (hconflict : (p.placeMethod holder st m).2.log.recorder.conflict = none) :
    p.AllowsMethod (p.placeMethod holder st m).2.log.recorder.entries m (p.placeMethod holder st m).1 := by
  simp only [placeMethod, recordMethod] at hconflict ⊢
  generalize (if m.isInstanceInitializer = true then st.log.recorder.recordDefinition (p.place holder st m).ref
    (p.paddingChanges (p.place holder st m).padding) else st.log.recorder) = r at hconflict ⊢
  by_cases hne : m.ref = (p.place holder st m).ref
  · exact ⟨fun h => absurd hne h, fun h => absurd hne h, fun _ _ _ _ => trivial⟩
  rw [if_neg hne] at hconflict ⊢
  split at hconflict
  · next hstops =>
    rw [if_pos hstops]
    refine ⟨fun _ => Recorder.getElem?_moveMethod hne hconflict, fun _ hinit hnew => ?_, fun _ _ _ _ => trivial⟩
    simp only [hinit, Bool.false_or, beq_iff_eq] at hstops
    exact absurd hstops hnew
  · next hstops =>
    rw [if_neg hstops]
    obtain ⟨hgrows, hmoved⟩ := Recorder.foldl_moveMethod (fun sub => { m.ref with holder := sub })
      (fun sub => { (p.place holder st m).ref with holder := p.merges.type sub }) (p.methodInheritors m.ref)
      (r.moveMethod m.ref (p.place holder st m).ref)
    refine ⟨fun _ => ?_, fun _ _ _ => hmoved hconflict, fun _ _ _ _ => trivial⟩
    exact hgrows.methods _ _ (Recorder.getElem?_moveMethod hne (hgrows.conflict hconflict))

theorem AllowsField.mono {r r' : Recorder} {old new : FieldRef} (h : p.AllowsField r.entries old new) (hgrows : r.Grows r') :
    p.AllowsField r'.entries old new := by
  intro hne
  obtain ⟨hmoved, hinherited⟩ := h hne
  exact ⟨hgrows.fields _ _ hmoved, fun hnew sub hsub hsubne => hgrows.fields _ _ (hinherited hnew sub hsub hsubne)⟩

theorem AllowsMethod.mono {r r' : Recorder} {m m' : MethodDef} (h : p.AllowsMethod r.entries m m') (hgrows : r.Grows r') :
    p.AllowsMethod r'.entries m m' where
  moved hne := hgrows.methods _ _ (h.moved hne)
  inherited hne hinit hnew sub hsub hsubne := hgrows.methods _ _ (h.inherited hne hinit hnew sub hsub hsubne)
  padded _ _ _ _ := trivial

theorem Allows.mono {r r' : Recorder} {u : UnplacedClass} {d : ClassDef} (h : p.Allows r.entries u d) (hgrows : r.Grows r') :
    p.Allows r'.entries u d where
  slots x hx := (h.slots x hx).mono hgrows
  fields x hx := (h.fields x hx).mono hgrows
  methods x hx := (h.methods x hx).mono hgrows

theorem obeys_recordField (h : r.Obeys R) {old new : FieldRef} (hallows : p.AllowsField R old new) :
    (p.recordField r old new).Obeys R := by
  simp only [recordField]
  split
  · exact h
  · next hne =>
    obtain ⟨hmove, hinherited⟩ := hallows hne
    split
    · exact h.moveField fun _ => hmove
    · next hnew =>
      refine List.foldlRecOn _ _ (h.moveField fun _ => hmove) fun r hr sub hsub => ?_
      exact hr.moveField (hinherited hnew sub hsub)

theorem obeys_placeMethod {holder : Descriptor} {st : MethodState} {m : MethodDef} (h : st.log.recorder.Obeys R)
    (hallows : p.AllowsMethod R m (p.placeMethod holder st m).1) : (p.placeMethod holder st m).2.log.recorder.Obeys R := by
  have hdefinition : (if m.isInstanceInitializer then st.log.recorder.recordDefinition (p.place holder st m).ref
      (p.paddingChanges (p.place holder st m).padding) else st.log.recorder).Obeys R := by
    split
    · next hinit =>
      refine h.recordDefinition fun hne => hallows.padded hinit _ ?_ ?_
      · rw [Nat.pos_iff_ne_zero]
        intro hzero
        rw [hzero] at hne
        exact absurd hne (by simp [paddingChanges, ProtoChanges.isEmpty, ProtoChanges.none])
      · simp only [placeMethod, place, hinit, if_true, initializer]
        rfl
    · exact h
  simp only [placeMethod, recordMethod]
  split
  · exact hdefinition
  · next hne =>
    have hmoved := hdefinition.moveMethod fun _ : m.ref ≠ (p.place holder st m).ref => hallows.moved hne
    split
    · exact hmoved
    · next hnew =>
      simp only [Bool.or_eq_true, beq_iff_eq, not_or, Bool.not_eq_true] at hnew
      refine List.foldlRecOn _ _ hmoved fun r hr sub hsub => ?_
      exact hr.moveMethod (hallows.inherited hne hnew.1 hnew.2 sub hsub)

/-- What a field becomes in a class with the given fields. -/
def placedField (p : Placement) (shell : ClassDef) (f : FieldDef) : FieldDef :=
  { f with ref := ⟨shell.type, freshName f.ref.name ((shell.fields.filter (·.ref.type == p.merges.type f.ref.type)).map (·.ref.name)),
      p.merges.type f.ref.type⟩ }

theorem placeFields_cons (p : Placement) (shell : ClassDef) (r : Recorder) (f : FieldDef) (fields : List FieldDef) :
    p.placeFields shell r (f :: fields) = p.placeFields { shell with fields := shell.fields ++ [p.placedField shell f] }
      (p.recordField r f.ref (p.placedField shell f).ref) fields := rfl

/-- The fields `fields` have been placed as `fs` in the class `holder`, which has taken what is
    recorded from `r` to `r'`. -/
structure FieldsPlaced (p : Placement) (holder : Descriptor) (r r' : Recorder) (fields fs : List FieldDef) : Prop where
  length : fs.length = fields.length
  place : ∀ x ∈ fields.zip fs, x.2.ref.holder = holder ∧ x.2.ref.type = p.merges.type x.1.ref.type
  obeys : ∀ R : Rules, r.Obeys R → (∀ x ∈ fields.zip fs, p.AllowsField R x.1.ref x.2.ref) → r'.Obeys R
  grows : r.Grows r'
  recorded : r'.conflict = none → ∀ x ∈ fields.zip fs, p.AllowsField r'.entries x.1.ref x.2.ref

/-- The fields that are placed stand behind those of the shell. -/
theorem exists_fields (p : Placement) (shell : ClassDef) (r : Recorder) (fields : List FieldDef) :
    ∃ fs, (p.placeFields shell r fields).1 = { shell with fields := shell.fields ++ fs } ∧
      FieldsPlaced p shell.type r (p.placeFields shell r fields).2 fields fs := by
  induction fields generalizing shell r with
  | nil => exact ⟨[], by simp [placeFields], rfl, by simp, fun _ h _ => h, .refl r, by simp⟩
  | cons f fields ih =>
    rw [placeFields_cons]
    obtain ⟨fs, hfs, hplaced⟩ := ih { shell with fields := shell.fields ++ [p.placedField shell f] }
      (p.recordField r f.ref (p.placedField shell f).ref)
    refine ⟨p.placedField shell f :: fs, by rw [hfs]; simp, by rw [List.length_cons, hplaced.length, List.length_cons], ?_,
      fun R h hallows => ?_, (lasting_recordField (lasting_grows r) (.refl r) _ _).trans hplaced.grows, fun hconflict => ?_⟩
    · rw [List.zip_cons_cons, List.forall_mem_cons]
      exact ⟨⟨rfl, rfl⟩, hplaced.place⟩
    · rw [List.zip_cons_cons, List.forall_mem_cons] at hallows
      exact hplaced.obeys R (obeys_recordField h hallows.1) hallows.2
    · rw [List.zip_cons_cons, List.forall_mem_cons]
      exact ⟨(allowsField_recordField (hplaced.grows.conflict hconflict)).mono hplaced.grows, hplaced.recorded hconflict⟩

/-- Where the fields went that have been placed before. -/
theorem foldl_recordField (p : Placement) (moves : List (FieldRef × FieldRef)) (r : Recorder) :
    let r' := moves.foldl (fun r x => p.recordField r x.1 x.2) r
    (∀ R : Rules, r.Obeys R → (∀ x ∈ moves, p.AllowsField R x.1 x.2) → r'.Obeys R) ∧
      (r'.conflict = none → ∀ x ∈ moves, p.AllowsField r'.entries x.1 x.2) := by
  refine ⟨fun R h hallows => List.foldlRecOn _ _ h fun r hr x hx => obeys_recordField hr (hallows x hx), ?_⟩
  induction moves generalizing r with
  | nil => simp
  | cons x moves ih =>
    intro hconflict
    have hgrows : (p.recordField r x.1 x.2).Grows (moves.foldl (fun r x => p.recordField r x.1 x.2) (p.recordField r x.1 x.2)) :=
      List.foldlRecOn _ _ (.refl _) fun r' hr y _ => lasting_recordField (lasting_grows _) hr _ _
    exact List.forall_mem_cons.2 ⟨(allowsField_recordField (hgrows.conflict hconflict)).mono hgrows, ih _ hconflict⟩

theorem Trail.obeys {holder : Descriptor} {st last : MethodState} {xs : List (MethodDef × MethodDef)}
    (h : Trail p holder st xs last) (hst : st.log.recorder.Obeys R) (hallows : ∀ x ∈ xs, p.AllowsMethod R x.1 x.2) :
    last.log.recorder.Obeys R := by
  induction h with
  | nil => exact hst
  | cons m _ ih =>
    obtain ⟨hm, hrest⟩ := List.forall_mem_cons.1 hallows
    exact ih (obeys_placeMethod hst hm) hrest

/-- **A class that is placed**, member by member. -/
theorem exists_placeClass (p : Placement) (u : UnplacedClass) (inherited : VirtualTable) (log : PlacementLog) :
    let r := p.placeClass u inherited log
    let start := u.fieldMoves.foldl (fun r x => p.recordField r x.1 x.2) log.recorder
    ∃ fs ms first rest st last, r.1 = { u.shell with fields := u.shell.fields ++ fs, methods := u.shell.methods ++ ms } ∧
      ms.length = u.methods.length ∧ r.2.1 = last.table ∧ r.2.2 = last.log ∧
      st.reserved = u.shell.methods.map (·.ref.signature) ∧ st.table = inherited ∧
      FieldsPlaced p u.shell.type start st.log.recorder u.fields fs ∧
      Trail p u.shell.type st (first ++ rest) last ∧ (first ++ rest).Perm (u.methods.zip ms) ∧
      (∀ x ∈ first, p.overrides inherited x.1 = true) ∧ (∀ x ∈ rest, p.overrides inherited x.1 = false) := by
  let start := u.fieldMoves.foldl (fun r x => p.recordField r x.1 x.2) log.recorder
  obtain ⟨fs, hfs, hplaced⟩ := exists_fields p u.shell start u.fields
  let st : MethodState := ⟨u.shell.methods.map (·.ref.signature), inherited,
    { log with recorder := (p.placeFields u.shell start u.fields).2 }⟩
  obtain ⟨first, rest, htrail, hperm, hms, hfirst, hrest⟩ := exists_trail p u.shell.type st u.methods
  have hclass : p.placeClass u inherited log =
      ({ u.shell with fields := u.shell.fields ++ fs, methods := u.shell.methods ++ (p.placeMethods u.shell.type st u.methods).1 },
        (p.placeMethods u.shell.type st u.methods).2.table, (p.placeMethods u.shell.type st u.methods).2.log) := by
    simp only [placeClass]
    rw [show p.placeFields u.shell (u.fieldMoves.foldl (fun r x => p.recordField r x.1 x.2) log.recorder) u.fields =
      ({ u.shell with fields := u.shell.fields ++ fs }, (p.placeFields u.shell start u.fields).2) from Prod.ext hfs rfl]
  rw [hclass]
  exact ⟨fs, _, first, rest, st, _, rfl, hms.symm, rfl, rfl, rfl, rfl, hplaced, htrail, hperm, hfirst, hrest⟩

theorem obeys_placeClass {u : UnplacedClass} {inherited : VirtualTable} {log : PlacementLog} (h : log.recorder.Obeys R)
    (hallows : p.Allows R u (p.placeClass u inherited log).1) : (p.placeClass u inherited log).2.2.recorder.Obeys R := by
  obtain ⟨fs, ms, first, rest, st, last, hd, -, -, hlog, -, -, hplaced, htrail, hperm, -, -⟩ := exists_placeClass p u inherited log
  rw [hd] at hallows
  rw [hlog]
  have hfields := hallows.fields
  have hmethods := hallows.methods
  simp only [List.drop_left] at hfields hmethods
  exact htrail.obeys (hplaced.obeys R ((foldl_recordField p u.fieldMoves log.recorder).1 R h hallows.slots) hfields)
    fun x hx => hmethods x (hperm.mem_iff.1 hx)

theorem obeys_foldl_visit {classes : List UnplacedClass} (cs : List ClassDef) {st : Progress} (h : st.log.recorder.Obeys R)
    (hallows : ∀ u ∈ classes, ∀ d ∈ (cs.foldl (p.visit classes) st).placed, d.type = u.shell.type → p.Allows R u d) :
    (cs.foldl (p.visit classes) st).log.recorder.Obeys R := by
  induction cs generalizing st with
  | nil => exact h
  | cons c cs ih =>
    rw [List.foldl_cons] at hallows ⊢
    refine ih ?_ hallows
    cases hfind : classes.find? (·.shell.type == c.type) with
    | none =>
      rw [log_visit_of_none hfind]
      exact h
    | some u =>
      obtain ⟨_, _, _, _, _, _, hd, -⟩ := exists_placeClass p u (inherited p.hash st.tables c) st.log
      have hsubset := (foldl_visit p classes cs (p.visit classes st c)).1.subset
      have hmem : (p.placeClass u (inherited p.hash st.tables c) st.log).1 ∈ (p.visit classes st c).placed := by
        rw [visit_of_some hfind]
        simp
      have hallowed := hallows u (List.mem_of_find?_eq_some hfind) _ (hsubset hmem) (by rw [hd])
      rw [visit_of_some hfind]
      exact obeys_placeClass h hallowed

/-! ### What is recorded of a class -/

theorem Trail.grows {holder : Descriptor} {st last : MethodState} {xs : List (MethodDef × MethodDef)}
    (h : Trail p holder st xs last) : st.log.recorder.Grows last.log.recorder :=
  h.lasting (lasting_grows _) (.refl _)

/-- All moves of the methods of a trail are recorded. -/
theorem Trail.recorded {holder : Descriptor} {st last : MethodState} {xs : List (MethodDef × MethodDef)}
    (h : Trail p holder st xs last) (hconflict : last.log.recorder.conflict = none) :
    ∀ x ∈ xs, p.AllowsMethod last.log.recorder.entries x.1 x.2 := by
  induction h with
  | nil => simp
  | @cons st last m rest h ih =>
    exact List.forall_mem_cons.2 ⟨(allowsMethod_placeMethod (h.grows.conflict hconflict)).mono h.grows, ih hconflict⟩

/-- All moves of the members of a class are recorded. -/
theorem allows_placeClass (u : UnplacedClass) (inherited : VirtualTable) {log : PlacementLog}
    (hconflict : (p.placeClass u inherited log).2.2.recorder.conflict = none) :
    p.Allows (p.placeClass u inherited log).2.2.recorder.entries u (p.placeClass u inherited log).1 := by
  obtain ⟨fs, ms, first, rest, st, last, hd, -, -, hlog, -, -, hplaced, htrail, hperm, -, -⟩ := exists_placeClass p u inherited log
  rw [hlog] at hconflict ⊢
  rw [hd]
  have hst := htrail.grows.conflict hconflict
  have hfields : (u.fieldMoves.foldl (fun r x => p.recordField r x.1 x.2) log.recorder).Grows st.log.recorder :=
    hplaced.grows
  refine ⟨fun x hx => ?_, fun x hx => ?_, fun x hx => ?_⟩
  · exact ((foldl_recordField p u.fieldMoves log.recorder).2 (hfields.conflict hst) x hx).mono (hfields.trans htrail.grows)
  · simp only [List.drop_left] at hx
    exact (hplaced.recorded hst x hx).mono htrail.grows
  · simp only [List.drop_left] at hx
    exact htrail.recorded hconflict x (hperm.mem_iff.2 hx)

end Placement

/-! ### Initializers that are merged -/

/-- The rules allow what is recorded of a bucket of initializers. -/
def InitMerge.AllowsBucket (R : Rules) (m : MergeMap) (target argument : Descriptor) (bucket : Prototype × List MemberInit) : Prop :=
  ∀ i ∈ bucket.2, R.method i.method.ref (dispatcher target argument bucket) ∧
    R.representsMethod (dispatcher target argument bucket) i.method.ref ∧
    (∀ n, R.representsMethod ⟨target, helperName n, m.proto i.method.ref.proto⟩ i.method.ref) ∧
    ((callChanges argument i (bucket.2.length > 1)).isEmpty = false → R.call i.method.ref (callChanges argument i (bucket.2.length > 1)))

namespace InitMerge

variable {R : Rules} {p : Program} {m : MergeMap} {g : MergeGroup} {target argument : Descriptor}

theorem obeys_mergeProto {classIdField : FieldRef} {taken : List Signature} {acc acc' : InitMerge × Nat}
    {bucket : Prototype × List MemberInit} (h : acc.1.recorder.Obeys R) (hallows : AllowsBucket R m target argument bucket)
    (heq : mergeProto m target classIdField argument taken acc bucket.1 bucket.2 = .ok acc') : acc'.1.recorder.Obeys R := by
  obtain ⟨body, -, rfl⟩ := mergeProto_eq_ok heq
  have hnamed := forall₂_nameHelpers target taken (bucket.2.map fun i => m.proto i.method.ref.proto) acc.2
  rw [List.forall₂_map_right_iff] at hnamed
  simp only [recordBucket]
  generalize (nameHelpers target taken acc.2 (bucket.2.map fun i => m.proto i.method.ref.proto)).1 = helpers at hnamed ⊢
  have hhelpers := List.foldlRecOn (motive := Recorder.Obeys R) (helpers.zip bucket.2)
    (fun (r : Recorder) x => r.representMethod x.1 x.2.method.ref) h fun r hr x hx => by
      obtain ⟨n, hn⟩ := (List.forall₂_iff_zip.1 hnamed).2 hx
      refine hr.representMethod ?_
      rw [hn]
      exact (hallows x.2 (List.of_mem_zip hx).2).2.2.1 n
  have hmoves : (recordMoves argument (dispatcher target argument bucket) (bucket.2.length > 1)
      ((helpers.zip bucket.2).foldl (fun r x => r.representMethod x.1 x.2.method.ref) acc.1.recorder) bucket.2).Obeys R :=
    List.foldlRecOn _ _ hhelpers fun r hr i hi => (hr.moveMethod fun _ => (hallows i hi).1).recordCall (hallows i hi).2.2.2
  cases hhead : bucket.2.head? with
  | none => exact hmoves
  | some i => exact hmoves.representMethod (hallows i (List.mem_of_mem_head? hhead)).2.1

theorem obeys_ofGroup {r : Recorder} {merge : InitMerge} (h : r.Obeys R)
    (hallows : g.classIdField.isSome = true → ∀ target, g.target = some target →
      ∀ bucket ∈ buckets p m argument g, AllowsBucket R m target argument bucket)
    (heq : ofGroup p m argument g r = .ok merge) : merge.recorder.Obeys R := by
  rcases ofGroup_cases heq with ⟨target, classIdField, next, htarget, hid, hfold⟩ | ⟨-, rfl⟩
  · replace hallows := hallows (by rw [hid]; rfl) target htarget
    exact foldlM_preserves (P := fun acc : InitMerge × Nat => acc.1.recorder.Obeys R)
      (fun acc bucket hbucket acc' hacc hstep => obeys_mergeProto hacc (hallows bucket hbucket) hstep) h hfold
  · exact h

end InitMerge

namespace Merging

/-- The rules allow what is recorded of a group before members are placed. -/
structure AllowsGroup (p : Placement) (R : Rules) (g : MergeGroup) : Prop where
  slots : ∀ target, g.target.bind p.program.class? = some target →
    ∀ x ∈ (FieldMerge.ofGroup p.program p.merges g target).representatives, R.representsField x.1 x.2
  initializers : g.classIdField.isSome = true → ∀ target, g.target = some target →
    ∀ bucket ∈ InitMerge.buckets p.program p.merges p.argument g, InitMerge.AllowsBucket R p.merges target p.argument bucket

theorem obeys_mergeGroup {p : Placement} {R : Rules} {st st' : State} {g : MergeGroup} (h : st.log.recorder.Obeys R)
    (hallows : AllowsGroup p R g) (heq : mergeGroup p st g = .ok st') : st'.log.recorder.Obeys R := by
  rcases mergeGroup_cases heq with ⟨-, rfl⟩ | ⟨target, inits, hmerges⟩
  · exact h
  · rw [hmerges.recorder]
    refine InitMerge.obeys_ofGroup ?_ hallows.initializers hmerges.initialized
    exact List.foldlRecOn _ _ h fun r hr x hx => hr.representField (hallows.slots target hmerges.found x hx)

theorem obeys_recordTypes {R : Rules} {r : Recorder} (h : r.Obeys R) (g : MergeGroup) : (recordTypes r g).Obeys R := by
  unfold recordTypes
  split
  · exact h
  · exact List.foldlRecOn _ _ (h.moveType _ _) fun r hr t _ => hr.moveType t _

theorem grows_foldl_recordTypes (groups : List MergeGroup) (r : Recorder) : r.Grows (groups.foldl recordTypes r) := by
  refine List.foldlRecOn _ _ (.refl r) fun r' hr g _ => ?_
  unfold recordTypes
  split
  · exact hr
  · refine List.foldlRecOn _ _ (hr.trans (r'.grows_moveType _ _)) fun r'' hr' t _ => ?_
    exact hr'.trans (r''.grows_moveType _ _)

/-! ### Where classes come from -/

/-- The class `u` is what the group `g` has been merged to, and what was recorded then is still
    there in `st`. -/
def ComesFrom (p : Placement) (st : State) (g : MergeGroup) (u : UnplacedClass) : Prop :=
  ∃ target r inits, g.target.bind p.program.class? = some target ∧
    InitMerge.ofGroup p.program p.merges p.argument g r = .ok inits ∧ u = mergedClass p g target inits ∧
    inits.recorder.Grows st.log.recorder

theorem comesFrom_of_unplaced {p : Placement} {groups : List MergeGroup} {st st' : State}
    (h : groups.foldlM (mergeGroup p) st = .ok st') (hst : ∀ t : Descriptor, st.unplaced[t]? = none) {t : Descriptor} {u : UnplacedClass}
    (hu : st'.unplaced[t]? = some u) : ∃ g ∈ groups, ComesFrom p st' g u := by
  refine of_unplaced (Q := fun st u => ∃ g ∈ groups, ComesFrom p st g u)
    (fun st st' target inits g hg hmerges => ⟨?_, fun u hu => ?_⟩) h hst hu
  · refine ⟨g, hg, target, _, inits, hmerges.found, hmerges.initialized, rfl, ?_⟩
    rw [hmerges.recorder]
    exact .refl _
  · obtain ⟨g', hg', target', r, inits', htarget, hinits, heq, hbefore⟩ := hu
    exact ⟨g', hg', target', r, inits', htarget, hinits, heq, hbefore.trans (hmerges.lasting (lastingInGroups_grows _) (.refl _))⟩

theorem pending_of_ofGroup {p : Program} {m : MergeMap} {argument : Descriptor} {g : MergeGroup} {r : Recorder} {merge : InitMerge}
    (h : InitMerge.ofGroup p m argument g r = .ok merge) : ∀ d ∈ merge.pending, ∃ x ∈ InitMerge.initializers p g, d = x.2 := by
  rcases InitMerge.ofGroup_cases h with ⟨target, classIdField, next, -, -, hfold⟩ | ⟨-, rfl⟩
  · have hpending : merge.pending = [] := by
      refine foldlM_preserves (P := fun acc : InitMerge × Nat => acc.1.pending = []) ?_ rfl hfold
      rintro acc bucket - acc' hacc hstep
      obtain ⟨body, -, rfl⟩ := InitMerge.mergeProto_eq_ok hstep
      exact hacc
    simp [hpending]
  · intro d hd
    obtain ⟨x, hx, rfl⟩ := List.mem_map.1 hd
    exact ⟨x, hx, rfl⟩

theorem exists_class_of_initializers {p : Program} {g : MergeGroup} {x : Nat × MethodDef} (hx : x ∈ InitMerge.initializers p g) :
    ∃ t ∈ g.classes, ∃ c, p.class? t = some c ∧ x.2 ∈ c.methods := by
  obtain ⟨t, ht, hx⟩ := List.mem_flatMap.1 hx
  obtain ⟨d, hd, rfl⟩ := List.mem_map.1 hx
  obtain ⟨c, hc, hd⟩ := List.mem_flatMap.1 hd
  exact ⟨t, ht, c, Option.mem_toList.1 hc, (List.mem_filter.1 hd).1⟩

/-- The methods to be placed come from the classes of the group. -/
theorem ComesFrom.methods {p : Placement} {st : State} {g : MergeGroup} {u : UnplacedClass} (h : ComesFrom p st g u) {m : MethodDef}
    (hm : m ∈ u.methods) : ∃ t ∈ g.classes, ∃ c, p.program.class? t = some c ∧ m ∈ c.methods := by
  obtain ⟨target, r, inits, -, hinits, rfl, -⟩ := h
  rcases List.mem_append.1 hm with hm | hm
  · obtain ⟨c, hc, hm⟩ := List.mem_flatMap.1 (List.mem_filter.1 hm).1
    obtain ⟨t, ht, hc⟩ := List.mem_filterMap.1 hc
    exact ⟨t, ht, c, hc, hm⟩
  · obtain ⟨x, hx, rfl⟩ := pending_of_ofGroup hinits m hm
    exact exists_class_of_initializers hx

/-- The fields to be placed come from the classes of the group. -/
theorem ComesFrom.fields {p : Placement} {st : State} {g : MergeGroup} {u : UnplacedClass} (h : ComesFrom p st g u) {f : FieldDef}
    (hf : f ∈ u.fields) : ∃ t ∈ g.classes, ∃ c, p.program.class? t = some c ∧ f ∈ c.fields := by
  obtain ⟨target, r, inits, -, -, rfl, -⟩ := h
  obtain ⟨c, hc, hf⟩ := List.mem_flatMap.1 hf
  obtain ⟨t, ht, hc⟩ := List.mem_filterMap.1 hc
  exact ⟨t, ht, c, hc, (List.mem_filter.1 hf).1⟩

theorem Plan.Reaches.grows {P : Plan} {u : UnplacedClass} {st : Placement.Progress} (h : P.Reaches u st) :
    (P.place u st).2.2.recorder.Grows P.last.log.recorder := by
  obtain ⟨cs, hlast⟩ := h.after
  rw [hlast]
  exact List.foldlRecOn (motive := fun st' : Placement.Progress => (P.place u st).2.2.recorder.Grows st'.log.recorder) _ _ (.refl _)
    fun st' hst' c _ => Placement.lasting_visit (lasting_grows _) hst' c

namespace Plan.Valid

variable {v : View} {P : Plan}

/-- **Where the classes come from whose members are placed**: each is a class of no group, or what
    a group is merged to. -/
theorem classes_cases (h : P.Valid v) {u : UnplacedClass} (hu : u ∈ P.classes) :
    (∃ c ∈ v.program.programClasses, (∀ g ∈ P.groups, c.type ∉ g.classes) ∧ u = .ofClass P.placement.merges c) ∨
      ∃ g ∈ P.groups, ComesFrom P.placement P.state g u := by
  obtain ⟨c, hc, hu⟩ := List.mem_filterMap.1 hu
  rw [h.program] at hc
  obtain ⟨report, hmerged⟩ := h.merged
  cases hget : P.state.unplaced[c.type]? with
  | some u' =>
    rw [unplaced?, hget] at hu
    cases hu
    exact .inr (comesFrom_of_unplaced hmerged (fun t => by simp) hget)
  | none =>
    refine .inl ⟨c, hc, fun g hg hmem => ?_, ?_⟩
    · rcases h.unplaced?_cases hc with ⟨hno, -⟩ | ⟨g', hg', hmem', ⟨htarget, -⟩ | ⟨-, hnone⟩⟩
      · exact hno g hg hmem
      · obtain ⟨u', -, hu'⟩ := h.unplaced_spec.1 g' hg' c (by
          rw [htarget, h.program]
          exact (Program.mem_programClasses.1 hc).1)
        cases hu'.symm.trans hget
      · cases hnone.symm.trans hu
    · rw [unplaced?, hget] at hu
      simp only at hu
      split at hu
      · cases hu
      · exact (Option.some.inj hu).symm

/-- The fields that are kept in slots come from the classes of the group. -/
theorem exists_of_fieldMoves (h : P.Valid v) {g : MergeGroup} (hg : g ∈ P.groups) {u : UnplacedClass}
    (hu : ComesFrom P.placement P.state g u) {x : FieldRef × FieldRef} (hx : x ∈ u.fieldMoves) :
    ∃ e ∈ v.program.classes, e.type ∈ g.classes ∧ ∃ f ∈ e.fields, x.1 = f.ref := by
  obtain ⟨target, r, inits, htarget, -, rfl, -⟩ := hu
  have hmem := List.mem_map_of_mem (f := Prod.fst) hx
  rw [show (mergedClass P.placement g target inits).fieldMoves = (FieldMerge.ofGroup _ _ g target).moves from rfl,
    (FieldMerge.moves_ofGroup _ _ g target).1] at hmem
  obtain ⟨f, hf, hfx⟩ := List.mem_map.1 hmem
  obtain ⟨e, he, hf⟩ := List.mem_flatMap.1 hf
  have hfield : ∃ f ∈ e.fields, x.1 = f.ref := ⟨f, (List.mem_filter.1 hf).1, hfx.symm⟩
  rcases List.mem_cons.1 he with rfl | he
  · obtain ⟨e', he', -, hmem, hbind⟩ := h.target_class hg
    obtain rfl : e = e' := Option.some.inj (htarget.symm.trans hbind)
    exact ⟨e, Program.mem_classes_of_mem_programClasses he', hmem, hfield⟩
  · obtain ⟨t, ht, hget⟩ := List.mem_filterMap.1 he
    rw [h.program] at hget
    obtain rfl := Program.type_of_class? hget
    exact ⟨e, Program.mem_classes.2 hget, (List.mem_filter.1 ht).1, hfield⟩

/-- **What a merge records.** -/
theorem obeys (h : P.Valid v) {R : Rules} (hgroups : ∀ g ∈ P.groups, AllowsGroup P.placement R g)
    (hclasses : ∀ u ∈ P.classes, ∀ d ∈ P.last.placed, d.type = u.shell.type → P.placement.Allows R u d) :
    P.recorder.Obeys R := by
  obtain ⟨report, hmerged⟩ := h.merged
  have hstart : P.state.log.recorder.Obeys R :=
    foldlM_preserves (P := fun st : State => st.log.recorder.Obeys R)
      (fun st g hg st' hst hstep => obeys_mergeGroup hst (hgroups g hg) hstep) (Recorder.obeys_start R _) hmerged
  refine List.foldlRecOn _ _ ?_ fun r hr g _ => obeys_recordTypes hr g
  exact Placement.obeys_foldl_visit _ hstart hclasses

/-- **All moves of members have been recorded**, unless there was a conflict. -/
theorem recorded (h : P.Valid v) (hconflict : P.recorder.conflict = none) {u : UnplacedClass}
    (hu : u ∈ P.classes) {d : ClassDef} (hd : d ∈ P.last.placed) (htype : d.type = u.shell.type) :
    P.placement.Allows P.recorder.entries u d := by
  obtain ⟨st, hst⟩ := h.exists_reached hu
  have hgrows : (P.place u st).2.2.recorder.Grows P.recorder := hst.grows.trans (grows_foldl_recordTypes P.groups _)
  rw [h.eq_place hst hd htype]
  exact (Placement.allows_placeClass u _ (hgrows.conflict hconflict)).mono hgrows

end Plan.Valid

end Merging

/-! ### Methods that stay where they are -/

theorem firstFree_eq_zero {α : Type} [BEq α] [LawfulBEq α] {candidate : Nat → α} {taken : List α} (h : candidate 0 ∉ taken) :
    firstFree candidate taken = 0 := by
  simp [firstFree, List.range_succ_eq_map, h]

namespace Placement

variable {p : Placement} {holder : Descriptor}

theorem signature_renamed_iff {m : MethodRef} (hs : p.merges.signature m.signature = m.signature) (taken : List Signature) :
    (p.renamed holder m taken).ref.signature = m.signature ↔ m.signature ∉ taken := by
  constructor
  · intro heq hmem
    exact renamed_not_mem p holder m taken (heq ▸ hmem)
  · intro hno
    rw [renamed, hs, if_neg (by simpa using hno), signature_ofSignature]

theorem signature_initializer_iff {m : MethodRef} (hs : p.merges.signature m.signature = m.signature) (reserved : List Signature) :
    (p.initializer holder m reserved).ref.signature = m.signature ↔ m.signature ∉ reserved := by
  constructor
  · intro heq hmem
    exact initializer_not_mem p holder m reserved (heq ▸ hmem)
  · intro hno
    have hzero : ({ m.signature with proto := InitMerge.pad m.signature.proto p.argument 0 } : Signature) = m.signature := by
      simp [InitMerge.pad, Prototype.append]
    simp only [initializer, hs]
    rw [firstFree_eq_zero (by rwa [hzero]), signature_ofSignature, hzero]

/-- Nothing in the table takes the signature of the method. A virtual method that overrides
    something follows it; any other one must not meet its signature. A method that is not
    dispatched may hide what it hid before, and nothing gets in the way of an initializer. -/
def LeftAlone (p : Program) (t : VirtualTable) (m : MethodDef) : Prop :=
  if m.isInstanceInitializer then True
  else if m.isVirtual then
    t.overridden? p m.ref = some m.ref.signature ∨ (t.overridden? p m.ref = none ∧ m.ref.signature ∉ t.keys)
  else ∀ x ∈ t, x.1 = m.ref.signature → x.2.signature = m.ref.signature

instance (p : Program) (t : VirtualTable) (m : MethodDef) : Decidable (LeftAlone p t m) :=
  inferInstanceAs (Decidable (if m.isInstanceInitializer then True
    else if m.isVirtual then
      t.overridden? p m.ref = some m.ref.signature ∨ (t.overridden? p m.ref = none ∧ m.ref.signature ∉ t.keys)
    else ∀ x ∈ t, x.1 = m.ref.signature → x.2.signature = m.ref.signature))

/-- **When a method is placed under its own signature.** -/
theorem signature_place_iff {c : Descriptor} {inherited : VirtualTable} {st : MethodState} {m : MethodDef}
    (h : Owns (·.holder = c) inherited st) (hm : m.ref.holder = c) (hs : p.merges.signature m.ref.signature = m.ref.signature) :
    (p.place holder st m).ref.signature = m.ref.signature ↔
      LeftAlone p.program inherited m ∧ (p.overrides inherited m = false → m.ref.signature ∉ st.reserved) := by
  obtain ⟨own, htable, hown⟩ := id h
  cases hinit : m.isInstanceInitializer with
  | true =>
    have hover : p.overrides inherited m = false := by simp [overrides, MethodDef.isVirtual, MethodDef.isDirect, hinit]
    simp [place, LeftAlone, hinit, hover, signature_initializer_iff hs]
  | false =>
    cases hvirtual : m.isVirtual with
    | true =>
      rw [place_of_isVirtual hvirtual, Placement.virtual, h.overridden?_eq (unrelated_holder c) hm]
      cases hover : inherited.overridden? p.program m.ref with
      | some s => simp [LeftAlone, overrides, hinit, hvirtual, hover]
      | none =>
        have hkeys : m.ref.signature ∈ own.map Prod.fst → m.ref.signature ∈ st.reserved := by
          intro hmem
          obtain ⟨x, hx, heq⟩ := List.mem_map.1 hmem
          exact heq ▸ (hown x hx).2
        simp only [signature_renamed_iff hs, LeftAlone, overrides, hinit, hvirtual, hover, htable, VirtualTable.keys, List.map_append,
          List.mem_append]
        grind
    | false =>
      have hkeys : ∀ x ∈ own, x.1 = m.ref.signature → m.ref.signature ∈ st.reserved := fun x hx heq => heq ▸ (hown x hx).2
      have hplace : p.place holder st m = p.direct holder m.ref st.table st.reserved := by simp [place, hinit, hvirtual]
      have halone : LeftAlone p.program inherited m ↔ ∀ x ∈ inherited, x.1 = m.ref.signature → x.2.signature = m.ref.signature := by
        simp [LeftAlone, hinit, hvirtual]
      rw [hplace, direct, signature_renamed_iff hs, halone, htable]
      simp only [overrides, hvirtual, List.mem_append, List.mem_map, List.mem_filter, bne_iff_ne]
      grind

/-- **When a method of a trail keeps its signature**: nothing in sight takes it, and no other
    method gets it. -/
theorem Trail.signature_eq_iff {c : Descriptor} {inherited : VirtualTable} {st last : MethodState}
    {first rest : List (MethodDef × MethodDef)} (h : Trail p holder st (first ++ rest) last) (hst : Owns (·.holder = c) inherited st)
    (hreserved : st.reserved = []) (hnodup : inherited.keys.Nodup) (hholder : ∀ x ∈ first ++ rest, x.1.ref.holder = c)
    (hfirst : ∀ x ∈ first, p.overrides inherited x.1 = true) (hrest : ∀ x ∈ rest, p.overrides inherited x.1 = false)
    (hdistinct : ((first ++ rest).map (·.1.ref.signature)).Nodup) {x : MethodDef × MethodDef} (hx : x ∈ first ++ rest)
    (hs : p.merges.signature x.1.ref.signature = x.1.ref.signature) :
    x.2.ref.signature = x.1.ref.signature ↔ LeftAlone p.program inherited x.1 ∧
      ∀ y ∈ first ++ rest, y.1.ref.signature ≠ x.1.ref.signature → y.2.ref.signature ≠ x.1.ref.signature := by
  obtain ⟨before, after, hsplit⟩ := List.append_of_mem hx
  obtain ⟨mid, howns, hmid, href⟩ := h.exists_state hst (fun x hx _ => hholder x hx) hsplit
  have hplace : (p.place holder mid x.1).ref.signature = x.1.ref.signature ↔ _ := signature_place_iff howns (hholder x hx) hs
  rw [← href] at hplace
  constructor
  · intro heq
    refine ⟨(hplace.1 heq).1, fun y hy hne htaken => hne (congrArg MethodRef.signature ?_)⟩
    exact h.ref_inj hst (unrelated_holder c) (fun x hx _ => hholder x hx) hnodup hfirst hrest hy hx (htaken.trans heq.symm)
  · rintro ⟨halone, hothers⟩
    refine hplace.2 ⟨halone, fun _ hmem => ?_⟩
    rw [hmid, hreserved, List.nil_append] at hmem
    obtain ⟨z, hz, htaken⟩ := List.mem_map.1 hmem
    have hz' : z ∈ first ++ rest := by simp [hsplit, hz]
    refine hothers z hz' (fun heq => ?_) htaken
    rw [hsplit, List.map_append, List.map_cons, List.nodup_append] at hdistinct
    exact hdistinct.2.2 _ (List.mem_map_of_mem hz) _ List.mem_cons_self heq

/-! ### Fields that stay where they are -/

theorem freshName_eq_self {name : String} {taken : List String} (h : name ∉ taken) : freshName name taken = name := by
  simp [freshName, h]

/-- Fields keep their names if no other type comes to be theirs. -/
theorem fields_placeFields {τ : Descriptor} (hτ : ∀ t, p.merges.type t = τ ↔ t = τ) (shell : ClassDef) (r : Recorder)
    (fields : List FieldDef) (hnodup : ((fields.filter (·.ref.type == τ)).map (·.ref.name)).Nodup)
    (hshell : ∀ g ∈ shell.fields, g.ref.type = τ → ∀ f ∈ fields, f.ref.type = τ → g.ref.name ≠ f.ref.name) :
    ∀ x ∈ fields.zip ((p.placeFields shell r fields).1.fields.drop shell.fields.length), x.1.ref.type = τ →
      x.2.ref = { x.1.ref with holder := shell.type } := by
  induction fields generalizing shell r with
  | nil => simp
  | cons f fields ih =>
    rw [placeFields_cons]
    let shell' : ClassDef := { shell with fields := shell.fields ++ [p.placedField shell f] }
    let r' := p.recordField r f.ref (p.placedField shell f).ref
    obtain ⟨fs, hfs, -⟩ := exists_fields p shell' r' fields
    have htype : (p.placedField shell f).ref.type = p.merges.type f.ref.type := rfl
    have hname : f.ref.type = τ → (p.placedField shell f).ref = { f.ref with holder := shell.type } := by
      intro hf
      have hfree : f.ref.name ∉ (shell.fields.filter (·.ref.type == p.merges.type f.ref.type)).map (·.ref.name) := by
        intro hmem
        obtain ⟨g, hg, heq⟩ := List.mem_map.1 hmem
        obtain ⟨hg, hgtype⟩ := List.mem_filter.1 hg
        rw [(hτ f.ref.type).2 hf, beq_iff_eq] at hgtype
        exact hshell g hg hgtype f List.mem_cons_self hf heq
      rw [placedField, freshName_eq_self hfree, (hτ f.ref.type).2 hf, ← hf]
    have hnodup' : ((fields.filter (·.ref.type == τ)).map (·.ref.name)).Nodup := by
      rw [List.filter_cons] at hnodup
      split at hnodup
      · exact (List.nodup_cons.1 hnodup).2
      · exact hnodup
    have hrest := ih shell' r' hnodup' (by
      intro g hg hgtype f' hf' hf'type
      rcases List.mem_append.1 hg with hg | hg
      · exact hshell g hg hgtype f' (List.mem_cons_of_mem f hf') hf'type
      · rw [List.mem_singleton.1 hg] at hgtype ⊢
        have hf : f.ref.type = τ := (hτ _).1 (htype.symm.trans hgtype)
        rw [hname hf]
        rw [List.filter_cons, if_pos (by simpa using hf), List.map_cons, List.nodup_cons] at hnodup
        intro heq
        exact hnodup.1 (List.mem_map.2 ⟨f', List.mem_filter.2 ⟨hf', by simpa using hf'type⟩, heq.symm⟩))
    change ∀ x ∈ (f :: fields).zip ((p.placeFields shell' r' fields).1.fields.drop shell.fields.length), _
    rw [hfs] at hrest ⊢
    have hdrop : ((shell'.fields ++ fs).drop shell.fields.length) = p.placedField shell f :: fs := by
      simp [shell']
    simp only [List.drop_left] at hrest
    simp only [hdrop, List.zip_cons_cons, List.forall_mem_cons]
    exact ⟨hname, hrest⟩

theorem fields_placeClass (p : Placement) (u : UnplacedClass) (t : VirtualTable) (log : PlacementLog) :
    ∃ r, (p.placeClass u t log).1.fields = (p.placeFields u.shell r u.fields).1.fields := ⟨_, rfl⟩

end Placement

end DexShrinker
