/-
  DexShrinker/Proofs/Lens/Rules.lean
  ==================================
  **What a pass may record.**

  A set of rules says which fields and methods may move where, which new names may be set to
  stand for which old ones, and what may happen to definitions. A recorder obeys the rules if
  all its entries are ones that the rules allow, and a conflict is one between two moves that
  they allow. Each way of recording keeps that, as long as what it records is allowed, so a pass
  that only records what is allowed ends with a recorder that obeys. What has been recorded of a
  member is never changed (`Recorder.Grows`): a second move of it is a conflict. Without a
  conflict the entries of a recorder are rules that allow all moves that were asked for
  (`Recorder.entries`).

  What happened to definitions is recorded in one way only, and all others leave it alone. So
  the number of parameters that a definition is padded with (`Renaming.Pads`) can be followed
  through a pass.
-/
import DexShrinker.Lens.Recorder
import DexShrinker.Program

namespace DexShrinker

open Std

/-- What may be recorded. -/
structure Recorder.Rules where
  /-- A field may move from the first name to the second. -/
  field : FieldRef → FieldRef → Prop
  /-- A method may move from the first name to the second. -/
  method : MethodRef → MethodRef → Prop
  /-- The first, new name may be set to stand for the second. -/
  representsField : FieldRef → FieldRef → Prop
  representsMethod : MethodRef → MethodRef → Prop
  definition : MethodRef → ProtoChanges → Prop
  /-- Calls of a method may change like that. -/
  call : MethodRef → ProtoChanges → Prop

/-- A conflict is one between two moves that the rules allow. Rules say nothing about types. -/
def Recorder.Rules.Explains (R : Rules) : LensError → Prop
  | .typeConflict _ _ _ => True
  | .fieldConflict old first second => R.field old first ∧ R.field old second ∧ first ≠ second
  | .methodConflict old first second => R.method old first ∧ R.method old second ∧ first ≠ second

namespace Recorder

/-! ### What a recording leaves alone -/

theorem exists_moveType (r : Recorder) (old new : Descriptor) :
    ∃ types formerTypes conflict, r.moveType old new = ⟨{ r.moves with types := types, formerTypes := formerTypes }, conflict⟩ := by
  simp only [moveType]
  split
  · split <;> exact ⟨_, _, _, rfl⟩
  · split
    · split <;> exact ⟨_, _, _, rfl⟩
    · split <;> exact ⟨_, _, _, rfl⟩

theorem exists_moveField (r : Recorder) (old new : FieldRef) :
    ∃ fields formerFields conflict, r.moveField old new = ⟨{ r.moves with fields := fields, formerFields := formerFields }, conflict⟩ := by
  unfold moveField
  split
  · exact ⟨_, _, _, rfl⟩
  · split
    · split <;> exact ⟨_, _, _, rfl⟩
    · exact ⟨_, _, _, rfl⟩

theorem exists_moveMethod (r : Recorder) (old new : MethodRef) :
    ∃ methods formerMethods conflict, r.moveMethod old new = ⟨{ r.moves with methods := methods, formerMethods := formerMethods }, conflict⟩ := by
  unfold moveMethod
  split
  · exact ⟨_, _, _, rfl⟩
  · split
    · split <;> exact ⟨_, _, _, rfl⟩
    · exact ⟨_, _, _, rfl⟩

theorem exists_recordDefinition (r : Recorder) (new : MethodRef) (changes : ProtoChanges) :
    ∃ definitionChanges, r.recordDefinition new changes = { r with moves := { r.moves with definitionChanges := definitionChanges } } := by
  unfold recordDefinition
  split <;> exact ⟨_, rfl⟩

/-! ### Rules -/

/-- Every entry is one that the rules allow. A new name stands for itself, for something that
    moved to it, or for what it was set to stand for. A conflict comes from two moves that the
    rules allow. -/
structure Obeys (R : Rules) (r : Recorder) : Prop where
  fields : ∀ old new : FieldRef, r.moves.fields[old]? = some new → R.field old new
  methods : ∀ old new : MethodRef, r.moves.methods[old]? = some new → R.method old new
  formerFields : ∀ new old : FieldRef, r.moves.formerFields[new]? = some old →
    old = new ∨ R.field old new ∨ R.representsField new old
  formerMethods : ∀ new old : MethodRef, r.moves.formerMethods[new]? = some old →
    old = new ∨ R.method old new ∨ R.representsMethod new old
  definitions : ∀ (m : MethodRef) (changes : ProtoChanges), r.moves.definitionChanges[m]? = some changes → R.definition m changes
  calls : ∀ (m : MethodRef) (changes : ProtoChanges), r.moves.callChanges[m]? = some changes → R.call m changes
  conflict : ∀ e, r.conflict = some e → R.Explains e

variable {R : Rules} {r : Recorder}

theorem obeys_start (R : Rules) (kind : LayerKind) : (start kind).Obeys R := by
  refine ⟨?_, ?_, ?_, ?_, ?_, ?_, fun e he => by cases he⟩ <;> intro _ _ h <;> simp [start] at h

namespace Obeys

theorem report (h : r.Obeys R) {e : LensError} (he : R.Explains e) : (r.report e).Obeys R := by
  refine ⟨h.fields, h.methods, h.formerFields, h.formerMethods, h.definitions, h.calls, fun e' he' => ?_⟩
  cases hconflict : r.conflict with
  | some first =>
    rw [Recorder.report, hconflict] at he'
    cases he'
    exact h.conflict _ hconflict
  | none =>
    rw [Recorder.report, hconflict] at he'
    cases he'
    exact he

theorem moveType (h : r.Obeys R) (old new : Descriptor) : (r.moveType old new).Obeys R := by
  unfold Recorder.moveType
  dsimp only
  split
  · split <;> exact ⟨h.fields, h.methods, h.formerFields, h.formerMethods, h.definitions, h.calls, h.conflict⟩
  · split
    · split
      · exact h
      · exact h.report trivial
    · split <;> exact ⟨h.fields, h.methods, h.formerFields, h.formerMethods, h.definitions, h.calls, h.conflict⟩

theorem moveField (h : r.Obeys R) {old new : FieldRef} (hmove : old ≠ new → R.field old new) : (r.moveField old new).Obeys R := by
  have hformer (new' old' : FieldRef) (hget : (r.moves.formerFields.insertIfNew new old)[new']? = some old') :
      old' = new' ∨ R.field old' new' ∨ R.representsField new' old' := by
    rw [TreeMap.getElem?_insertIfNew] at hget
    split at hget
    · next hnew =>
      obtain rfl : new = new' := LawfulEqOrd.eq_of_compare hnew.1
      cases hget
      by_cases heq : old = new
      · exact .inl heq
      · exact .inr (.inl (hmove heq))
    · exact h.formerFields new' old' hget
  unfold Recorder.moveField
  split
  · exact ⟨h.fields, h.methods, hformer, h.formerMethods, h.definitions, h.calls, h.conflict⟩
  · next hne =>
    split
    · next first hfirst =>
      split
      · exact h
      · next hother => exact h.report ⟨h.fields old first hfirst, hmove hne, hother⟩
    · refine ⟨fun old' new' hget => ?_, h.methods, hformer, h.formerMethods, h.definitions, h.calls, h.conflict⟩
      simp only [TreeMap.getElem?_insert] at hget
      split at hget
      · next heq =>
        obtain rfl : old = old' := LawfulEqOrd.eq_of_compare heq
        cases hget
        exact hmove hne
      · exact h.fields old' new' hget

theorem moveMethod (h : r.Obeys R) {old new : MethodRef} (hmove : old ≠ new → R.method old new) : (r.moveMethod old new).Obeys R := by
  have hformer (new' old' : MethodRef) (hget : (r.moves.formerMethods.insertIfNew new old)[new']? = some old') :
      old' = new' ∨ R.method old' new' ∨ R.representsMethod new' old' := by
    rw [TreeMap.getElem?_insertIfNew] at hget
    split at hget
    · next hnew =>
      obtain rfl : new = new' := LawfulEqOrd.eq_of_compare hnew.1
      cases hget
      by_cases heq : old = new
      · exact .inl heq
      · exact .inr (.inl (hmove heq))
    · exact h.formerMethods new' old' hget
  unfold Recorder.moveMethod
  split
  · exact ⟨h.fields, h.methods, h.formerFields, hformer, h.definitions, h.calls, h.conflict⟩
  · next hne =>
    split
    · next first hfirst =>
      split
      · exact h
      · next hother => exact h.report ⟨h.methods old first hfirst, hmove hne, hother⟩
    · refine ⟨h.fields, fun old' new' hget => ?_, h.formerFields, hformer, h.definitions, h.calls, h.conflict⟩
      simp only [TreeMap.getElem?_insert] at hget
      split at hget
      · next heq =>
        obtain rfl : old = old' := LawfulEqOrd.eq_of_compare heq
        cases hget
        exact hmove hne
      · exact h.methods old' new' hget

theorem representField (h : r.Obeys R) {new old : FieldRef} (hrep : R.representsField new old) :
    (r.representField new old).Obeys R := by
  refine ⟨h.fields, h.methods, fun new' old' hget => ?_, h.formerMethods, h.definitions, h.calls, h.conflict⟩
  simp only [Recorder.representField, TreeMap.getElem?_insert] at hget
  split at hget
  · next heq =>
    obtain rfl : new = new' := LawfulEqOrd.eq_of_compare heq
    cases hget
    exact .inr (.inr hrep)
  · exact h.formerFields new' old' hget

theorem representMethod (h : r.Obeys R) {new old : MethodRef} (hrep : R.representsMethod new old) :
    (r.representMethod new old).Obeys R := by
  refine ⟨h.fields, h.methods, h.formerFields, fun new' old' hget => ?_, h.definitions, h.calls, h.conflict⟩
  simp only [Recorder.representMethod, TreeMap.getElem?_insert] at hget
  split at hget
  · next heq =>
    obtain rfl : new = new' := LawfulEqOrd.eq_of_compare heq
    cases hget
    exact .inr (.inr hrep)
  · exact h.formerMethods new' old' hget

theorem recordCall (h : r.Obeys R) {old : MethodRef} {changes : ProtoChanges} (hcall : changes.isEmpty = false → R.call old changes) :
    (r.recordCall old changes).Obeys R := by
  unfold Recorder.recordCall
  split
  · exact h
  · next hne =>
    refine ⟨h.fields, h.methods, h.formerFields, h.formerMethods, h.definitions, fun m changes' hget => ?_, h.conflict⟩
    simp only [TreeMap.getElem?_insert] at hget
    split at hget
    · next heq =>
      obtain rfl : old = m := LawfulEqOrd.eq_of_compare heq
      cases hget
      exact hcall (by simpa using hne)
    · exact h.calls m changes' hget

theorem recordDefinition (h : r.Obeys R) {new : MethodRef} {changes : ProtoChanges}
    (hdef : changes.isEmpty = false → R.definition new changes) : (r.recordDefinition new changes).Obeys R := by
  unfold Recorder.recordDefinition
  split
  · exact h
  · next hne =>
    refine ⟨h.fields, h.methods, h.formerFields, h.formerMethods, fun m changes' hget => ?_, h.calls, h.conflict⟩
    simp only [TreeMap.getElem?_insert] at hget
    split at hget
    · next heq =>
      obtain rfl : new = m := LawfulEqOrd.eq_of_compare heq
      cases hget
      exact hdef (by simpa using hne)
    · exact h.definitions m changes' hget

theorem recordInvokeKind (h : r.Obeys R) (new : MethodRef) (kind : InvokeKind) : (r.recordInvokeKind new kind).Obeys R :=
  ⟨h.fields, h.methods, h.formerFields, h.formerMethods, h.definitions, h.calls, h.conflict⟩

end Obeys

end Recorder

/-! ### What was recorded stays -/

namespace Recorder

variable {r r' r'' : Recorder}

/-- What was recorded in `r` still is in `r'`. -/
structure Grows (r r' : Recorder) : Prop where
  types : ∀ t t' : Descriptor, r.moves.types[t]? = some t' → r'.moves.types[t]? = some t'
  fields : ∀ f f' : FieldRef, r.moves.fields[f]? = some f' → r'.moves.fields[f]? = some f'
  methods : ∀ m m' : MethodRef, r.moves.methods[m]? = some m' → r'.moves.methods[m]? = some m'
  calls : ∀ m : MethodRef, (r.moves.callChanges[m]?).isSome = true → (r'.moves.callChanges[m]?).isSome = true
  conflict : r'.conflict = none → r.conflict = none

theorem Grows.refl (r : Recorder) : r.Grows r := ⟨fun _ _ h => h, fun _ _ h => h, fun _ _ h => h, fun _ h => h, id⟩

theorem Grows.trans (h : r.Grows r') (h' : r'.Grows r'') : r.Grows r'' :=
  ⟨fun t t' ht => h'.types t t' (h.types t t' ht), fun f f' hf => h'.fields f f' (h.fields f f' hf), fun m m' hm => h'.methods m m' (h.methods m m' hm),
    fun m hm => h'.calls m (h.calls m hm), fun hc => h.conflict (h'.conflict hc)⟩

theorem conflict_report (r : Recorder) (e : LensError) : (r.report e).conflict ≠ none := by
  unfold report
  cases r.conflict <;> simp

theorem grows_moveMethod (r : Recorder) (old new : MethodRef) : r.Grows (r.moveMethod old new) := by
  unfold moveMethod
  split
  · exact ⟨fun _ _ h => h, fun _ _ h => h, fun _ _ h => h, fun _ h => h, id⟩
  · split
    · split
      · exact Grows.refl r
      · exact ⟨fun _ _ h => h, fun _ _ h => h, fun _ _ h => h, fun _ h => h, fun h => absurd h (conflict_report r _)⟩
    · next hnone =>
      refine ⟨fun _ _ h => h, fun _ _ h => h, fun m m' hm => ?_, fun _ h => h, id⟩
      simp only [TreeMap.getElem?_insert]
      rw [if_neg]
      · exact hm
      · intro heq
        rw [LawfulEqOrd.eq_of_compare heq, hm] at hnone
        cases hnone

theorem grows_moveField (r : Recorder) (old new : FieldRef) : r.Grows (r.moveField old new) := by
  unfold moveField
  split
  · exact ⟨fun _ _ h => h, fun _ _ h => h, fun _ _ h => h, fun _ h => h, id⟩
  · split
    · split
      · exact Grows.refl r
      · exact ⟨fun _ _ h => h, fun _ _ h => h, fun _ _ h => h, fun _ h => h, fun h => absurd h (conflict_report r _)⟩
    · next hnone =>
      refine ⟨fun _ _ h => h, fun f f' hf => ?_, fun _ _ h => h, fun _ h => h, id⟩
      simp only [TreeMap.getElem?_insert]
      rw [if_neg]
      · exact hf
      · intro heq
        rw [LawfulEqOrd.eq_of_compare heq, hf] at hnone
        cases hnone

theorem grows_recordDefinition (r : Recorder) (new : MethodRef) (changes : ProtoChanges) :
    r.Grows (r.recordDefinition new changes) := by
  unfold recordDefinition
  split
  · exact Grows.refl r
  · exact ⟨fun _ _ h => h, fun _ _ h => h, fun _ _ h => h, fun _ h => h, id⟩

theorem grows_moveType (r : Recorder) (old new : Descriptor) : r.Grows (r.moveType old new) := by
  simp only [moveType]
  split
  · split <;> exact ⟨fun _ _ h => h, fun _ _ h => h, fun _ _ h => h, fun _ h => h, id⟩
  · split
    · split
      · exact Grows.refl r
      · exact ⟨fun _ _ h => h, fun _ _ h => h, fun _ _ h => h, fun _ h => h, fun h => absurd h (conflict_report r _)⟩
    · next hnone =>
      have hinsert (t t' : Descriptor) (ht : r.moves.types[t]? = some t') : (r.moves.types.insert old new)[t]? = some t' := by
        rw [TreeMap.getElem?_insert, if_neg]
        · exact ht
        · intro heq
          rw [LawfulEqOrd.eq_of_compare heq, ht] at hnone
          cases hnone
      split <;> exact ⟨hinsert, fun _ _ h => h, fun _ _ h => h, fun _ h => h, id⟩

theorem grows_recordInvokeKind (r : Recorder) (new : MethodRef) (kind : InvokeKind) : r.Grows (r.recordInvokeKind new kind) :=
  ⟨fun _ _ h => h, fun _ _ h => h, fun _ _ h => h, fun _ h => h, id⟩

theorem grows_representField (r : Recorder) (new old : FieldRef) : r.Grows (r.representField new old) :=
  ⟨fun _ _ h => h, fun _ _ h => h, fun _ _ h => h, fun _ h => h, id⟩

theorem grows_representMethod (r : Recorder) (new old : MethodRef) : r.Grows (r.representMethod new old) :=
  ⟨fun _ _ h => h, fun _ _ h => h, fun _ _ h => h, fun _ h => h, id⟩

theorem grows_recordCall (r : Recorder) (old : MethodRef) (changes : ProtoChanges) : r.Grows (r.recordCall old changes) := by
  unfold recordCall
  split
  · exact Grows.refl r
  · refine ⟨fun _ _ h => h, fun _ _ h => h, fun _ _ h => h, fun m hm => ?_, id⟩
    simp only [TreeMap.getElem?_insert]
    split
    · rfl
    · exact hm

/-- Changes of a call are recorded, if there are any. -/
theorem isSome_recordCall (r : Recorder) {old : MethodRef} {changes : ProtoChanges} (h : changes.isEmpty = false) :
    ((r.recordCall old changes).moves.callChanges[old]?).isSome = true := by
  simp [recordCall, h]

/-- The rules that allow the moves that have been recorded. -/
def entries (r : Recorder) : Rules where
  field old new := r.moves.fields[old]? = some new
  method old new := r.moves.methods[old]? = some new
  representsField _ _ := True
  representsMethod _ _ := True
  definition _ _ := True
  call _ _ := True

/-- A move without a conflict is recorded. -/
theorem getElem?_moveMethod {old new : MethodRef} (hne : old ≠ new) (h : (r.moveMethod old new).conflict = none) :
    (r.moveMethod old new).moves.methods[old]? = some new := by
  unfold moveMethod at h ⊢
  simp only [hne, if_false] at h ⊢
  split at h
  · next first hfirst =>
    split at h
    · next heq =>
      simp only [hfirst, heq, if_true]
    · exact absurd h (conflict_report r _)
  · next hnone =>
    exact TreeMap.getElem?_insert_self

theorem getElem?_moveField {old new : FieldRef} (hne : old ≠ new) (h : (r.moveField old new).conflict = none) :
    (r.moveField old new).moves.fields[old]? = some new := by
  unfold moveField at h ⊢
  simp only [hne, if_false] at h ⊢
  split at h
  · next first hfirst =>
    split at h
    · next heq =>
      simp only [hfirst, heq, if_true]
    · exact absurd h (conflict_report r _)
  · exact TreeMap.getElem?_insert_self

theorem getElem?_moveType {old new : Descriptor} (hne : old ≠ new) (h : (r.moveType old new).conflict = none) :
    (r.moveType old new).moves.types[old]? = some new := by
  simp only [moveType, hne, if_false] at h ⊢
  split at h
  · next first hfirst =>
    split at h
    · next heq =>
      simp only [hfirst, heq, if_true]
    · exact absurd h (conflict_report r _)
  · split <;> exact TreeMap.getElem?_insert_self

/-- Without a conflict all moves of a list are recorded. -/
theorem foldl_moveMethod {α : Type} (old new : α → MethodRef) (xs : List α) (r : Recorder) :
    let r' := xs.foldl (fun r x => r.moveMethod (old x) (new x)) r
    r.Grows r' ∧ (r'.conflict = none → ∀ x ∈ xs, old x ≠ new x → r'.moves.methods[old x]? = some (new x)) := by
  induction xs generalizing r with
  | nil => exact ⟨.refl r, by simp⟩
  | cons x xs ih =>
    obtain ⟨hgrows, hmoved⟩ := ih (r.moveMethod (old x) (new x))
    refine ⟨(r.grows_moveMethod _ _).trans hgrows, fun hconflict => List.forall_mem_cons.2 ⟨fun hne => ?_, hmoved hconflict⟩⟩
    exact hgrows.methods _ _ (getElem?_moveMethod hne (hgrows.conflict hconflict))

theorem foldl_moveField {α : Type} (old new : α → FieldRef) (xs : List α) (r : Recorder) :
    let r' := xs.foldl (fun r x => r.moveField (old x) (new x)) r
    r.Grows r' ∧ (r'.conflict = none → ∀ x ∈ xs, old x ≠ new x → r'.moves.fields[old x]? = some (new x)) := by
  induction xs generalizing r with
  | nil => exact ⟨.refl r, by simp⟩
  | cons x xs ih =>
    obtain ⟨hgrows, hmoved⟩ := ih (r.moveField (old x) (new x))
    refine ⟨(r.grows_moveField _ _).trans hgrows, fun hconflict => List.forall_mem_cons.2 ⟨fun hne => ?_, hmoved hconflict⟩⟩
    exact hgrows.fields _ _ (getElem?_moveField hne (hgrows.conflict hconflict))

end Recorder

/-! ### Definitions -/

/-- The layer adds `k` parameters to the definition of `m` and changes no other. -/
def Renaming.Pads (n : Renaming) (m : MethodRef) (k : Nat) : Prop :=
  (n.definitionChanges.getD m .none).arguments.isEmpty = true ∧ (n.definitionChanges.getD m .none).extra.length = k

theorem Renaming.pads_of_getElem? {n : Renaming} {m : MethodRef} (h : n.definitionChanges[m]? = none) : n.Pads m 0 := by
  rw [Pads, TreeMap.getD_eq_getD_getElem?, h]
  exact ⟨TreeMap.isEmpty_emptyc, rfl⟩

theorem Renaming.Pads.congr {n n' : Renaming} {m : MethodRef} {k : Nat} (h : n.Pads m k)
    (heq : n'.definitionChanges[m]? = n.definitionChanges[m]?) : n'.Pads m k := by
  rw [Pads, TreeMap.getD_eq_getD_getElem?] at h ⊢
  rwa [heq]

theorem ProtoChanges.foldl_addParameter (extra : List ExtraParameter) (c : ProtoChanges) :
    extra.foldl addParameter c = { c with extra := c.extra ++ extra } := by
  induction extra generalizing c with
  | nil => simp
  | cons e extra ih =>
    rw [List.foldl_cons, ih]
    simp [addParameter]

namespace Recorder

variable {r : Recorder}

@[simp] theorem definitionChanges_moveType (r : Recorder) (old new : Descriptor) :
    (r.moveType old new).moves.definitionChanges = r.moves.definitionChanges := by
  obtain ⟨_, _, _, heq⟩ := r.exists_moveType old new
  rw [heq]

@[simp] theorem definitionChanges_moveField (r : Recorder) (old new : FieldRef) :
    (r.moveField old new).moves.definitionChanges = r.moves.definitionChanges := by
  obtain ⟨_, _, _, heq⟩ := r.exists_moveField old new
  rw [heq]

@[simp] theorem definitionChanges_moveMethod (r : Recorder) (old new : MethodRef) :
    (r.moveMethod old new).moves.definitionChanges = r.moves.definitionChanges := by
  obtain ⟨_, _, _, heq⟩ := r.exists_moveMethod old new
  rw [heq]

theorem getElem?_recordDefinition (r : Recorder) (new : MethodRef) (changes : ProtoChanges) (m : MethodRef) :
    (r.recordDefinition new changes).moves.definitionChanges[m]? =
      if new = m ∧ changes.isEmpty = false then some changes else r.moves.definitionChanges[m]? := by
  unfold recordDefinition
  cases hempty : changes.isEmpty with
  | true => simp
  | false =>
    simp only [Bool.false_eq_true, if_false, TreeMap.getElem?_insert, and_true]
    by_cases h : new = m
    · simp [h]
    · rw [if_neg h, if_neg fun heq => h (LawfulEqOrd.eq_of_compare heq)]

/-- A definition that was untouched is padded with what is recorded. -/
theorem pads_recordDefinition {m : MethodRef} (h : r.moves.definitionChanges[m]? = none) (extra : List ExtraParameter) :
    (r.recordDefinition m (extra.foldl ProtoChanges.addParameter .none)).moves.Pads m extra.length := by
  rw [Renaming.Pads, TreeMap.getD_eq_getD_getElem?, getElem?_recordDefinition, ProtoChanges.foldl_addParameter]
  cases extra with
  | nil =>
    rw [if_neg (by simp [ProtoChanges.isEmpty, ProtoChanges.none]), h]
    exact ⟨TreeMap.isEmpty_emptyc, rfl⟩
  | cons e extra =>
    rw [if_pos (by simp [ProtoChanges.isEmpty])]
    exact ⟨TreeMap.isEmpty_emptyc, by simp [ProtoChanges.none]⟩

end Recorder

/-- A lens that is not the one before has what was recorded as its top layer. -/
theorem Recorder.eq_push_of_build {r : Recorder} {l l' : Lens} (h : r.build l = .ok l') (hne : l'.same l = false) :
    l' = l.push (.renames r.layer) := by
  unfold build at h
  split at h
  · cases h
  · split at h
    · cases h
      simp [Lens.same] at hne
    · cases h
      rfl

/-- A lens on which a renamed type was put has one layer more. -/
theorem Recorder.eq_push_of_type {r : Recorder} {l l' : Lens} (h : r.build l = .ok l') {t t' : Descriptor} (ht : r.moves.types[t]? = some t') :
    l' = l.push (.renames r.layer) := by
  have hne : r.isEmpty = false := by
    refine Bool.eq_false_iff.2 fun hempty => ?_
    simp only [isEmpty, Bool.and_eq_true] at hempty
    obtain ⟨⟨⟨⟨⟨⟨⟨⟨htypes, -⟩, -⟩, -⟩, -⟩, -⟩, -⟩, -⟩, -⟩ := hempty
    cases (TreeMap.getElem?_of_isEmpty htypes).symm.trans ht
  unfold build at h
  split at h
  · cases h
  · rw [hne] at h
    cases h
    rfl

/-- The layer pads the definition of `m'` with as many parameters as it has more than `m`. -/
def Renaming.Sizes (n : Renaming) (m m' : MethodDef) : Prop :=
  ∃ k, n.Pads m'.ref k ∧ m'.argumentTypes.length = m.argumentTypes.length + k

theorem Renaming.Sizes.congr {n n' : Renaming} {m m' : MethodDef} (h : n.Sizes m m')
    (heq : n'.definitionChanges[m'.ref]? = n.definitionChanges[m'.ref]?) : n'.Sizes m m' := by
  obtain ⟨k, hpads, hlength⟩ := h
  exact ⟨k, hpads.congr heq, hlength⟩

/-- A method with the same flags. -/
theorem MethodDef.length_argumentTypes {m m' : MethodDef} (haccess : m'.isStatic = m.isStatic) {k : Nat}
    (h : m'.ref.proto.parameters.length = m.ref.proto.parameters.length + k) :
    m'.argumentTypes.length = m.argumentTypes.length + k := by
  simp only [argumentTypes, MethodRef.argumentTypes, haccess]
  split
  · exact h
  · simp only [List.length_cons, h]
    omega

/-! ### Types -/

theorem Descriptor.eq_void {t : Descriptor} (h : t.isVoid = true) : t = .void := by
  obtain ⟨text⟩ := t
  obtain rfl : text = "V" := by simpa [Descriptor.isVoid] using h
  rfl

theorem Descriptor.isVoid_of_isArray {t : Descriptor} (h : t.isArray = true) : t.isVoid = false := by
  cases hvoid : t.isVoid with
  | false => rfl
  | true =>
    rw [eq_void hvoid] at h
    cases h

theorem Descriptor.isVoid_of_isClass {t : Descriptor} (h : t.isClass = true) : t.isVoid = false := by
  cases hvoid : t.isVoid with
  | false => rfl
  | true =>
    rw [eq_void hvoid] at h
    cases h

end DexShrinker
