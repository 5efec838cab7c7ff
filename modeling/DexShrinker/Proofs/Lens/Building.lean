/-
  DexShrinker/Proofs/Lens/Building.lean
  =====================================
  **What building a layer reports.**

  A pass asks for moves of types, fields and methods, one after the other and in any mixture. A move
  of something to itself asks for nothing. Two moves contradict each other if they take one thing to
  two others (`Move.Contradicts`), and a list of moves is consistent if no two of its moves do. That is
  said of the list alone: a recorder keeps no more than the first target of each name and the first
  contradiction it met.

  As long as there is no contradiction the recorder holds exactly the moves of the list
  (`Recorder.Holds`), so the next move is a contradiction exactly if it contradicts one before it
  (`Holds.conflict_perform`). What is reported once stays reported. So building fails exactly if the
  list is not consistent, with the first move that contradicts an earlier one, and else all moves of
  the list have their way (`Recorder.build_ofCalls`).
-/
import DexShrinker.Proofs.Lens.Rules
import DexShrinker.Proofs.Lens.Tracing
import Mathlib.Data.List.Induction

namespace DexShrinker

open Std

/-! ### Moves -/

/-- A move that a pass asks for. -/
inductive Move where
  | type (old new : Descriptor)
  | field (old new : FieldRef)
  | method (old new : MethodRef)
deriving DecidableEq

namespace Move

/-- Something is moved to itself. -/
def IsSelf : Move → Prop
  | type old new => old = new
  | field old new => old = new
  | method old new => old = new

instance : DecidablePred IsSelf
  | type old new => inferInstanceAs (Decidable (old = new))
  | field old new => inferInstanceAs (Decidable (old = new))
  | method old new => inferInstanceAs (Decidable (old = new))

/-- The first move takes something to one place and the second takes it to another, none of which is
    its own. The error names it, the first place and the second. -/
inductive Contradicts : Move → Move → LensError → Prop
  | type {old first second : Descriptor} (hfirst : old ≠ first) (hsecond : old ≠ second) (hne : first ≠ second) :
      Contradicts (.type old first) (.type old second) (.typeConflict old first second)
  | field {old first second : FieldRef} (hfirst : old ≠ first) (hsecond : old ≠ second) (hne : first ≠ second) :
      Contradicts (.field old first) (.field old second) (.fieldConflict old first second)
  | method {old first second : MethodRef} (hfirst : old ≠ first) (hsecond : old ≠ second) (hne : first ≠ second) :
      Contradicts (.method old first) (.method old second) (.methodConflict old first second)

/-- The renaming takes what is moved to where it is moved. Array types go where their base goes, and
    a move of an array type has no say in that. -/
def Lands (n : Renaming) : Move → Prop
  | type old new => old.isArray = false → n.mapType old = new
  | field old new => n.mapField old = new
  | method old new => n.mapMethod old = new

/-- No two moves of the list contradict each other. -/
def Consistent (calls : List Move) : Prop := ∀ first ∈ calls, ∀ c ∈ calls, ∀ e, ¬ first.Contradicts c e

/-- The error is that of the first move in the list that contradicts one before it. -/
def FirstContradiction (calls : List Move) (e : LensError) : Prop :=
  ∃ before c after, calls = before ++ c :: after ∧ Consistent before ∧ ∃ first ∈ before, first.Contradicts c e

theorem FirstContradiction.not_consistent {calls : List Move} {e : LensError} (h : FirstContradiction calls e) :
    ¬ Consistent calls := by
  obtain ⟨before, c, after, rfl, -, first, hfirst, hcontradicts⟩ := h
  intro hconsistent
  exact hconsistent first (List.mem_append_left _ hfirst) c (by simp) e hcontradicts

end Move

namespace Recorder

/-! ### One table of names -/

section Table

variable {K : Type} [Ord K] {table : TreeMap K K} {asked : K → K → Prop}
  {old new first : K}

/-- The table after a move: a name keeps the first target it got. -/
def moved [DecidableEq K] (table : TreeMap K K) (old new : K) : TreeMap K K :=
  if old = new then table else if table[old]?.isSome then table else table.insert old new

/-- The target that the table has for a name that is now to move somewhere else. -/
def otherTarget? [DecidableEq K] (table : TreeMap K K) (old new : K) : Option K :=
  if old = new then none else table[old]?.filter (· ≠ new)

/-- The table has exactly the moves that were asked for, but for those of something to itself. -/
def Tells (table : TreeMap K K) (asked : K → K → Prop) : Prop := ∀ old new, table[old]? = some new ↔ old ≠ new ∧ asked old new

theorem Tells.otherTarget?_eq_some_iff [DecidableEq K] (h : Tells table asked) :
    otherTarget? table old new = some first ↔ (old ≠ first ∧ asked old first) ∧ old ≠ new ∧ first ≠ new := by
  rw [← h, otherTarget?]
  split
  · next heq => simp [heq]
  · next hne => simp [Option.filter_eq_some_iff, hne]

theorem Tells.congr {asked' : K → K → Prop} (h : Tells table asked) (heq : ∀ old new, asked' old new ↔ asked old new) :
    Tells table asked' := fun old new => (h old new).trans (and_congr_right' (heq old new).symm)

theorem Tells.moved [DecidableEq K] [TransOrd K] [LawfulEqOrd K] (h : Tells table asked) (hother : otherTarget? table old new = none) :
    Tells (moved table old new) fun o n => asked o n ∨ (o = old ∧ n = new) := by
  intro o n
  unfold Recorder.moved
  split
  · next heq =>
    rw [h]
    constructor
    · exact fun ⟨hne, hasked⟩ => ⟨hne, .inl hasked⟩
    · rintro ⟨hne, hasked | ⟨rfl, rfl⟩⟩
      · exact ⟨hne, hasked⟩
      · exact absurd heq hne
  · next hne =>
    rw [otherTarget?, if_neg hne] at hother
    cases hget : table[old]? with
    | some target =>
      -- The name has its target already, and it is the one asked for.
      obtain rfl : target = new := by simpa [hget, Option.filter] using hother
      rw [Option.isSome_some, if_pos rfl, h]
      constructor
      · exact fun ⟨hne', hasked⟩ => ⟨hne', .inl hasked⟩
      · rintro ⟨hne', hasked | ⟨rfl, rfl⟩⟩
        · exact ⟨hne', hasked⟩
        · exact (h _ _).1 hget
    | none =>
      rw [if_neg (by simp), TreeMap.getElem?_insert]
      by_cases heq : old = o
      · subst heq
        have hasked : ∀ n, old ≠ n → ¬ asked old n := by
          intro n hn hn'
          rw [(h old n).2 ⟨hn, hn'⟩] at hget
          cases hget
        simp only [compare_self, if_true, Option.some.injEq, true_and]
        constructor
        · rintro rfl
          exact ⟨hne, .inr rfl⟩
        · rintro ⟨hn, hn' | rfl⟩
          · exact absurd hn' (hasked n hn)
          · rfl
      · rw [if_neg fun hcompare => heq (LawfulEqOrd.eq_of_compare hcompare), h]
        simp [Ne.symm heq]

end Table

/-! ### One move -/

open Move

def perform (r : Recorder) : Move → Recorder
  | .type old new => r.moveType old new
  | .field old new => r.moveField old new
  | .method old new => r.moveMethod old new

/-- A recorder after some moves. -/
def ofCalls (kind : LayerKind) (calls : List Move) : Recorder := calls.foldl perform (start kind)

variable {r : Recorder} {calls : List Move} {c : Move} {e : LensError} {kind : LayerKind}

theorem moveType_spec (r : Recorder) (old new : Descriptor) :
    (r.moveType old new).moves.types = moved r.moves.types old new ∧
      (r.moveType old new).conflict = (r.conflict <|> (otherTarget? r.moves.types old new).map (.typeConflict old · new)) := by
  simp only [moveType, moved, otherTarget?]
  by_cases heq : old = new
  · simp only [heq, if_true]
    split <;> simp
  · cases hget : r.moves.types[old]? with
    | none =>
      simp only [heq, if_false]
      split <;> simp
    | some first =>
      by_cases hfirst : first = new <;> simp [heq, hfirst, Option.filter, report]

theorem moveField_spec (r : Recorder) (old new : FieldRef) :
    (r.moveField old new).moves.fields = moved r.moves.fields old new ∧
      (r.moveField old new).conflict = (r.conflict <|> (otherTarget? r.moves.fields old new).map (.fieldConflict old · new)) := by
  simp only [moveField, moved, otherTarget?]
  by_cases heq : old = new
  · simp [heq]
  · cases hget : r.moves.fields[old]? with
    | none => simp [heq]
    | some first => by_cases hfirst : first = new <;> simp [heq, hfirst, Option.filter, report]

theorem moveMethod_spec (r : Recorder) (old new : MethodRef) :
    (r.moveMethod old new).moves.methods = moved r.moves.methods old new ∧
      (r.moveMethod old new).conflict = (r.conflict <|> (otherTarget? r.moves.methods old new).map (.methodConflict old · new)) := by
  simp only [moveMethod, moved, otherTarget?]
  by_cases heq : old = new
  · simp [heq]
  · cases hget : r.moves.methods[old]? with
    | none => simp [heq]
    | some first => by_cases hfirst : first = new <;> simp [heq, hfirst, Option.filter, report]

/-- The recorder has met no contradiction and holds the moves of the list. -/
structure Holds (r : Recorder) (calls : List Move) : Prop where
  types : Tells r.moves.types fun old new => .type old new ∈ calls
  fields : Tells r.moves.fields fun old new => .field old new ∈ calls
  methods : Tells r.moves.methods fun old new => .method old new ∈ calls
  conflict : r.conflict = none

theorem holds_start (kind : LayerKind) : (start kind).Holds [] := by
  refine ⟨?_, ?_, ?_, rfl⟩ <;> intro old new <;> simp [start]

/-- **A move is a contradiction exactly if it contradicts one of those before it.** -/
theorem Holds.conflict_perform (h : r.Holds calls) (c : Move) (e : LensError) :
    (r.perform c).conflict = some e ↔ ∃ first ∈ calls, first.Contradicts c e := by
  cases c with
  | type old new =>
    rw [perform, (r.moveType_spec old new).2, h.conflict, Option.orElse_eq_orElse, Option.orElse_none, Option.map_eq_some_iff]
    constructor
    · rintro ⟨first, hfirst, rfl⟩
      obtain ⟨⟨hne, hasked⟩, hne', hother⟩ := h.types.otherTarget?_eq_some_iff.1 hfirst
      exact ⟨_, hasked, .type hne hne' hother⟩
    · rintro ⟨_, hasked, hcontradicts⟩
      cases hcontradicts with | _ hne hne' hother
      exact ⟨_, h.types.otherTarget?_eq_some_iff.2 ⟨⟨hne, hasked⟩, hne', hother⟩, rfl⟩
  | field old new =>
    rw [perform, (r.moveField_spec old new).2, h.conflict, Option.orElse_eq_orElse, Option.orElse_none, Option.map_eq_some_iff]
    constructor
    · rintro ⟨first, hfirst, rfl⟩
      obtain ⟨⟨hne, hasked⟩, hne', hother⟩ := h.fields.otherTarget?_eq_some_iff.1 hfirst
      exact ⟨_, hasked, .field hne hne' hother⟩
    · rintro ⟨_, hasked, hcontradicts⟩
      cases hcontradicts with | _ hne hne' hother
      exact ⟨_, h.fields.otherTarget?_eq_some_iff.2 ⟨⟨hne, hasked⟩, hne', hother⟩, rfl⟩
  | method old new =>
    rw [perform, (r.moveMethod_spec old new).2, h.conflict, Option.orElse_eq_orElse, Option.orElse_none, Option.map_eq_some_iff]
    constructor
    · rintro ⟨first, hfirst, rfl⟩
      obtain ⟨⟨hne, hasked⟩, hne', hother⟩ := h.methods.otherTarget?_eq_some_iff.1 hfirst
      exact ⟨_, hasked, .method hne hne' hother⟩
    · rintro ⟨_, hasked, hcontradicts⟩
      cases hcontradicts with | _ hne hne' hother
      exact ⟨_, h.methods.otherTarget?_eq_some_iff.2 ⟨⟨hne, hasked⟩, hne', hother⟩, rfl⟩

/-- A move that is no contradiction has its way. -/
theorem Holds.perform (h : r.Holds calls) (hnone : (r.perform c).conflict = none) : (r.perform c).Holds (calls ++ [c]) := by
  cases c with
  | type old new =>
    obtain ⟨types, formerTypes, conflict, heq⟩ := r.exists_moveType old new
    obtain ⟨htypes, hconflict⟩ := r.moveType_spec old new
    rw [Recorder.perform] at hnone ⊢
    have hother : otherTarget? r.moves.types old new = none := by
      rw [hnone, h.conflict, Option.orElse_eq_orElse, Option.orElse_none] at hconflict
      exact Option.map_eq_none_iff.1 hconflict.symm
    refine ⟨?_, ?_, ?_, hnone⟩
    · rw [htypes]
      exact (h.types.moved hother).congr (by simp)
    · rw [heq]
      exact h.fields.congr (by simp)
    · rw [heq]
      exact h.methods.congr (by simp)
  | field old new =>
    obtain ⟨fields, formerFields, conflict, heq⟩ := r.exists_moveField old new
    obtain ⟨hfields, hconflict⟩ := r.moveField_spec old new
    rw [Recorder.perform] at hnone ⊢
    have hother : otherTarget? r.moves.fields old new = none := by
      rw [hnone, h.conflict, Option.orElse_eq_orElse, Option.orElse_none] at hconflict
      exact Option.map_eq_none_iff.1 hconflict.symm
    refine ⟨?_, ?_, ?_, hnone⟩
    · rw [heq]
      exact h.types.congr (by simp)
    · rw [hfields]
      exact (h.fields.moved hother).congr (by simp)
    · rw [heq]
      exact h.methods.congr (by simp)
  | method old new =>
    obtain ⟨methods, formerMethods, conflict, heq⟩ := r.exists_moveMethod old new
    obtain ⟨hmethods, hconflict⟩ := r.moveMethod_spec old new
    rw [Recorder.perform] at hnone ⊢
    have hother : otherTarget? r.moves.methods old new = none := by
      rw [hnone, h.conflict, Option.orElse_eq_orElse, Option.orElse_none] at hconflict
      exact Option.map_eq_none_iff.1 hconflict.symm
    refine ⟨?_, ?_, ?_, hnone⟩
    · rw [heq]
      exact h.types.congr (by simp)
    · rw [heq]
      exact h.fields.congr (by simp)
    · rw [hmethods]
      exact (h.methods.moved hother).congr (by simp)

/-- No move of a list that a recorder holds has two targets, since a table has one for each name. -/
theorem Holds.consistent (h : r.Holds calls) : Consistent calls := by
  intro first hfirst c hc e hcontradicts
  cases hcontradicts with
  | type hne hne' hother =>
    have htwo := ((h.types _ _).2 ⟨hne, hfirst⟩).symm.trans ((h.types _ _).2 ⟨hne', hc⟩)
    exact hother (Option.some.inj htwo)
  | field hne hne' hother =>
    have htwo := ((h.fields _ _).2 ⟨hne, hfirst⟩).symm.trans ((h.fields _ _).2 ⟨hne', hc⟩)
    exact hother (Option.some.inj htwo)
  | method hne hne' hother =>
    have htwo := ((h.methods _ _).2 ⟨hne, hfirst⟩).symm.trans ((h.methods _ _).2 ⟨hne', hc⟩)
    exact hother (Option.some.inj htwo)

/-! ### All moves of a list -/

/-- What is reported once stays reported. -/
theorem conflict_perform_of_some (h : r.conflict = some e) (c : Move) : (r.perform c).conflict = some e := by
  cases c with
  | type old new => rw [perform, (r.moveType_spec old new).2, h, Option.orElse_eq_orElse, Option.orElse_some]
  | field old new => rw [perform, (r.moveField_spec old new).2, h, Option.orElse_eq_orElse, Option.orElse_some]
  | method old new => rw [perform, (r.moveMethod_spec old new).2, h, Option.orElse_eq_orElse, Option.orElse_some]

theorem ofCalls_append (kind : LayerKind) (calls : List Move) (c : Move) :
    ofCalls kind (calls ++ [c]) = (ofCalls kind calls).perform c := List.foldl_append

theorem conflict_ofCalls_append (h : (ofCalls kind calls).conflict = some e) (after : List Move) :
    (ofCalls kind (calls ++ after)).conflict = some e := by
  rw [ofCalls, List.foldl_append]
  exact List.foldlRecOn (motive := fun r : Recorder => r.conflict = some e) after _ h fun _ hr c _ => conflict_perform_of_some hr c

/-- Without a contradiction the recorder holds all the moves. -/
theorem holds_ofCalls (h : (ofCalls kind calls).conflict = none) : (ofCalls kind calls).Holds calls := by
  induction calls using List.reverseRecOn with
  | nil => exact holds_start kind
  | append_singleton calls c ih =>
    rw [ofCalls_append] at h ⊢
    cases hbefore : (ofCalls kind calls).conflict with
    | none => exact (ih hbefore).perform h
    | some e =>
      rw [conflict_perform_of_some hbefore] at h
      cases h

/-- What is reported is a first contradiction. -/
theorem firstContradiction_of_conflict (h : (ofCalls kind calls).conflict = some e) : FirstContradiction calls e := by
  induction calls using List.reverseRecOn with
  | nil => cases h
  | append_singleton calls c ih =>
    cases hbefore : (ofCalls kind calls).conflict with
    | none =>
      have hholds := holds_ofCalls hbefore
      rw [ofCalls_append, hholds.conflict_perform] at h
      exact ⟨calls, c, [], rfl, hholds.consistent, h⟩
    | some e' =>
      obtain rfl : e' = e := by
        rw [conflict_ofCalls_append hbefore [c]] at h
        exact Option.some.inj h
      obtain ⟨before, c', after, rfl, hconsistent, hfirst⟩ := ih hbefore
      exact ⟨before, c', after ++ [c], by simp, hconsistent, hfirst⟩

/-- A consistent list is not complained about. -/
theorem conflict_ofCalls_of_consistent (kind : LayerKind) (h : Consistent calls) : (ofCalls kind calls).conflict = none := by
  cases hconflict : (ofCalls kind calls).conflict with
  | none => rfl
  | some e => exact absurd h (firstContradiction_of_conflict hconflict).not_consistent

theorem conflict_ofCalls_eq_some_iff (kind : LayerKind) (calls : List Move) (e : LensError) :
    (ofCalls kind calls).conflict = some e ↔ FirstContradiction calls e := by
  refine ⟨firstContradiction_of_conflict, ?_⟩
  rintro ⟨before, c, after, rfl, hconsistent, hfirst⟩
  rw [List.append_cons]
  apply conflict_ofCalls_append
  rw [ofCalls_append]
  exact ((holds_ofCalls (conflict_ofCalls_of_consistent kind hconsistent)).conflict_perform c e).2 hfirst

theorem conflict_ofCalls_eq_none_iff (kind : LayerKind) (calls : List Move) :
    (ofCalls kind calls).conflict = none ↔ Consistent calls :=
  ⟨fun h => (holds_ofCalls h).consistent, conflict_ofCalls_of_consistent kind⟩

/-! ### The layer -/

theorem isEmpty_perform_self (h : r.isEmpty = true) (hself : c.IsSelf) : (r.perform c).isEmpty = true := by
  cases c with
  | type old new =>
    obtain rfl : old = new := hself
    exact isEmpty_moveType_self h old
  | field old new =>
    obtain rfl : old = new := hself
    simp only [perform, moveField, if_true, isEmpty, Bool.and_eq_true] at h ⊢
    obtain ⟨⟨hfront, hformer⟩, hmethods⟩ := h
    exact ⟨⟨hfront, all_insertIfNew_self hformer old⟩, hmethods⟩
  | method old new =>
    obtain rfl : old = new := hself
    simp only [perform, moveMethod, if_true, isEmpty, Bool.and_eq_true] at h ⊢
    exact ⟨h.1, all_insertIfNew_self h.2 old⟩

/-- Moves of things to themselves leave nothing to put on top of a lens. -/
theorem isEmpty_ofCalls (kind : LayerKind) (h : ∀ c ∈ calls, c.IsSelf) : (ofCalls kind calls).isEmpty = true :=
  List.foldlRecOn (motive := fun r : Recorder => r.isEmpty = true) calls perform rfl fun _ hr c hc => isEmpty_perform_self hr (h c hc)

/-- Any other move does. -/
theorem Holds.isEmpty_eq_false (h : r.Holds calls) (hc : c ∈ calls) (hself : ¬ c.IsSelf) : r.isEmpty = false := by
  cases c with
  | type old new =>
    have hget := (h.types old new).2 ⟨hself, hc⟩
    cases hempty : r.moves.types.isEmpty with
    | false => simp [isEmpty, hempty]
    | true => simp [TreeMap.getElem?_of_isEmpty hempty] at hget
  | field old new =>
    have hget := (h.fields old new).2 ⟨hself, hc⟩
    cases hempty : r.moves.fields.isEmpty with
    | false => simp [isEmpty, hempty]
    | true => simp [TreeMap.getElem?_of_isEmpty hempty] at hget
  | method old new =>
    have hget := (h.methods old new).2 ⟨hself, hc⟩
    cases hempty : r.moves.methods.isEmpty with
    | false => simp [isEmpty, hempty]
    | true => simp [TreeMap.getElem?_of_isEmpty hempty] at hget

theorem kind_ofCalls (kind : LayerKind) (calls : List Move) : (ofCalls kind calls).moves.kind = kind := by
  refine List.foldlRecOn (motive := fun r : Recorder => r.moves.kind = kind) calls perform rfl fun r hr c _ => ?_
  cases c with
  | type old new =>
    obtain ⟨_, _, _, heq⟩ := r.exists_moveType old new
    rw [perform, heq, hr]
  | field old new =>
    obtain ⟨_, _, _, heq⟩ := r.exists_moveField old new
    rw [perform, heq, hr]
  | method old new =>
    obtain ⟨_, _, _, heq⟩ := r.exists_moveMethod old new
    rw [perform, heq, hr]

/-- What moves, moves as it was asked for. -/
theorem Holds.lands_layer (h : r.Holds calls) (hc : c ∈ calls) (hself : ¬ c.IsSelf) : c.Lands r.layer := by
  cases c with
  | type old new =>
    intro harray
    rw [Renaming.mapType, Descriptor.mapBase, if_neg (by simp [harray]), mapClass_layer, (h.types old new).2 ⟨hself, hc⟩]
    rfl
  | field old new =>
    have hget := (h.fields old new).2 ⟨hself, hc⟩
    rw [Lands, Renaming.mapField, layer, TreeMap.getD_eq_getD_getElem?, hget]
    rfl
  | method old new =>
    have hget := (h.methods old new).2 ⟨hself, hc⟩
    rw [Lands, Renaming.mapMethod, layer, TreeMap.getD_eq_getD_getElem?, hget]
    rfl

/-- **Building a layer reports conflicts exactly.** For every list of moves it fails if and only if two of
    them contradict each other, and the error is that of the first move in the list that contradicts
    an earlier one, with the target it had before and the other one. If it does not fail it gives the
    lens below itself if there were only moves of things to themselves, and else puts a layer on top
    by which everything that was moved goes where it was moved. -/
theorem build_ofCalls (kind : LayerKind) (calls : List Move) (l : Lens) :
    ((∃ e, (ofCalls kind calls).build l = .error e) ↔ ¬ Consistent calls) ∧
      (∀ e, (ofCalls kind calls).build l = .error e ↔ FirstContradiction calls e) ∧
      ∀ l', (ofCalls kind calls).build l = .ok l' →
        ((∀ c ∈ calls, c.IsSelf) → l' = l) ∧
          ((∃ c ∈ calls, ¬ c.IsSelf) → ∃ layer : Renaming, l' = l.push (.renames layer) ∧ layer.kind = kind ∧
            ∀ c ∈ calls, ¬ c.IsSelf → c.Lands layer) := by
  have herror (e : LensError) : (ofCalls kind calls).build l = .error e ↔ (ofCalls kind calls).conflict = some e := by
    unfold build
    cases (ofCalls kind calls).conflict <;> simp
  refine ⟨?_, fun e => (herror e).trans (conflict_ofCalls_eq_some_iff kind calls e), fun l' hl' => ?_⟩
  · simp only [herror]
    rw [← conflict_ofCalls_eq_none_iff kind calls, ← ne_eq, Option.ne_none_iff_exists']
  · have hnone : (ofCalls kind calls).conflict = none := by
      cases hconflict : (ofCalls kind calls).conflict with
      | none => rfl
      | some e =>
        rw [(herror e).2 hconflict] at hl'
        cases hl'
    have hholds := holds_ofCalls hnone
    rw [build, hnone] at hl'
    constructor
    · intro hself
      rw [isEmpty_ofCalls kind hself] at hl'
      exact (Except.ok.inj hl').symm
    · rintro ⟨c, hc, hself⟩
      rw [hholds.isEmpty_eq_false hc hself] at hl'
      exact ⟨_, (Except.ok.inj hl').symm, kind_ofCalls kind calls, fun c hc hself => hholds.lands_layer hc hself⟩

/-! ### Sample -/

/-- `f` of the class `A` moves to the class `B` with `A`. One move is repeated and one asks for nothing. -/
def agreeing : List Move :=
  [.type ⟨"LB;"⟩ ⟨"LB;"⟩, .type ⟨"LA;"⟩ ⟨"LB;"⟩, .field ⟨⟨"LA;"⟩, "f", .int⟩ ⟨⟨"LB;"⟩, "f", .int⟩,
    .method ⟨⟨"LA;"⟩, "m", .void⟩ ⟨⟨"LB;"⟩, "m$1", .void⟩, .type ⟨"LA;"⟩ ⟨"LB;"⟩]

/-- Then `f` moves somewhere else, and after that `A` does, too. -/
def contradictory : List Move :=
  agreeing ++ .field ⟨⟨"LA;"⟩, "f", .int⟩ ⟨⟨"LB;"⟩, "f$1", .int⟩ :: [.type ⟨"LA;"⟩ ⟨"LC;"⟩]

/-- The field is the first to be given two names, and without that everything moves. -/
theorem build_agreeing_and_contradictory :
    (ofCalls .treeFixer contradictory).build .identity =
        .error (.fieldConflict ⟨⟨"LA;"⟩, "f", .int⟩ ⟨⟨"LB;"⟩, "f", .int⟩ ⟨⟨"LB;"⟩, "f$1", .int⟩) ∧
      ∃ layer : Renaming, (ofCalls .treeFixer agreeing).build .identity = .ok (Lens.identity.push (.renames layer)) ∧
        layer.mapType ⟨"LA;"⟩ = ⟨"LB;"⟩ ∧ layer.mapField ⟨⟨"LA;"⟩, "f", .int⟩ = ⟨⟨"LB;"⟩, "f", .int⟩ ∧
        layer.mapMethod ⟨⟨"LA;"⟩, "m", .void⟩ = ⟨⟨"LB;"⟩, "m$1", .void⟩ := by
  have hnone : (ofCalls .treeFixer agreeing).conflict = none := by decide
  constructor
  · refine ((build_ofCalls .treeFixer contradictory .identity).2.1 _).2 ⟨agreeing, _, _, rfl, ?_, .field _ _, ?_, .field ?_ ?_ ?_⟩
    · exact (conflict_ofCalls_eq_none_iff .treeFixer agreeing).1 hnone
    all_goals decide
  · obtain ⟨l', hl'⟩ : ∃ l', (ofCalls .treeFixer agreeing).build .identity = .ok l' := ⟨_, by rw [build, hnone]⟩
    obtain ⟨layer, rfl, -, hlands⟩ := ((build_ofCalls .treeFixer agreeing .identity).2.2 l' hl').2 ⟨.type ⟨"LA;"⟩ ⟨"LB;"⟩, by decide, by decide⟩
    refine ⟨layer, hl', hlands (.type _ _) (by decide) (by decide) (by decide), ?_, ?_⟩
    · exact hlands (.field _ _) (by decide) (by decide)
    · exact hlands (.method _ _) (by decide) (by decide)

end Recorder

end DexShrinker
