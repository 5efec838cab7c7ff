/-
  DexShrinker/Proofs/Packed/Naming.lean
  =====================================
  **The names that unpacking gives to values.**

  A value index gets a name at its first mention and keeps it. While a stream is read,
  named indices and values stand in one-to-one correspondence, only indices of
  definitions have names, and every index whose definition has been read has a value
  with an origin (`Unpacker.Names`). A renaming `f` that agrees with the names given so
  far is one that `Calls` allows; names never change, so what a state allows a later
  state can only narrow down.

  `Unpacking.Runs m s Q` says that the step `m` succeeds from `s` and ends as `Q` demands.
-/
import DexShrinker.Packed.Unpack
import Mathlib.Data.List.Basic

namespace DexShrinker

/-! ### Steps that succeed -/

namespace Unpacking

/-- The step succeeds from `s`, and its answer and the state after it satisfy `Q`. -/
def Runs {α : Type} (m : Unpacking α) (s : Unpacker) (Q : α → Unpacker → Prop) : Prop :=
  ∃ a s', m.run s = .ok (a, s') ∧ Q a s'

variable {α β : Type} {m : Unpacking α} {s : Unpacker}

theorem Runs.mono {Q R : α → Unpacker → Prop} (h : Runs m s Q) (himp : ∀ a s', Q a s' → R a s') : Runs m s R := by
  obtain ⟨a, s', hrun, hq⟩ := h
  exact ⟨a, s', hrun, himp a s' hq⟩

theorem Runs.bind {f : α → Unpacking β} {Q : α → Unpacker → Prop} {R : β → Unpacker → Prop} (h : Runs m s Q)
    (hnext : ∀ a s', Q a s' → Runs (f a) s' R) : Runs (m >>= f) s R := by
  obtain ⟨a, s', hrun, hq⟩ := h
  obtain ⟨b, s'', hrun', hr⟩ := hnext a s' hq
  refine ⟨b, s'', ?_, hr⟩
  rw [StateT.run_bind, hrun]
  exact hrun'

theorem Runs.pure {Q : α → Unpacker → Prop} {a : α} (h : Q a s) : Runs (Pure.pure a) s Q := ⟨a, s, rfl, h⟩

theorem Runs.modify {Q : Unit → Unpacker → Prop} {f : Unpacker → Unpacker} (h : Q () (f s)) :
    Runs (modify f : Unpacking Unit) s Q := ⟨(), f s, rfl, h⟩

/-- A step that begins by looking at the state. -/
theorem Runs.get_bind {f : Unpacker → Unpacking β} {R : β → Unpacker → Prop} (h : Runs (f s) s R) :
    Runs (get >>= f) s R := h

/-- A step that begins with a computation beside the state. -/
theorem Runs.lift_bind {x : Except PackedError α} {a : α} (hx : x = .ok a) {f : α → Unpacking β}
    {R : β → Unpacker → Prop} (h : Runs (f a) s R) : Runs (liftM x >>= f) s R := by
  subst hx
  exact h

/-- A run over a list, from what each item does to the invariant of its position. -/
theorem Runs.forM {items : List α} {f : α → Unpacking Unit} (I : Nat → Unpacker → Prop)
    (hstep : ∀ k item s, items[k]? = some item → I k s → Runs (f item) s fun _ => I (k + 1)) (hs : I 0 s) :
    Runs (items.forM f) s fun _ => I items.length := by
  induction items generalizing s I with
  | nil => exact Runs.pure hs
  | cons item items ih =>
    change Runs (f item >>= fun _ => items.forM f) s _
    refine (hstep 0 item s rfl hs).bind fun _ s' hs' => ?_
    exact ih (fun k => I (k + 1)) (fun k item s hk => hstep (k + 1) item s hk) hs'

end Unpacking

/-! ### Names -/

namespace Unpacker

open Unpacking

/-- What is known of the values of a body with the slots `table` once the definitions
    below value index `n` have been read. -/
structure Names (table : List (Option ValueId)) (n : Nat) (s : Unpacker) : Prop where
  length : s.slots.length = table.length
  known : ∀ (i j : Nat), s.slots[i]? = some (some j) → ∃ v, table[i]? = some (some v)
  bounded : ∀ (i j : Nat), s.slots[i]? = some (some j) → j < s.values.length
  unique : ∀ (i i' j : Nat), s.slots[i]? = some (some j) → s.slots[i']? = some (some j) → i = i'
  onto : ∀ j : Nat, j < s.values.length → ∃ i : Nat, s.slots[i]? = some (some j)
  done : ∀ (i : Nat) (v : ValueId), i < n → table[i]? = some (some v) →
    ∃ j x, s.slots[i]? = some (some j) ∧ s.values[j]? = some x ∧ x.origin ≠ .unresolved

/-- `s'` is `s` with possibly more names. -/
structure Grows (s s' : Unpacker) : Prop where
  slots : ∀ (i j : Nat), s.slots[i]? = some (some j) → s'.slots[i]? = some (some j)
  blocks : s'.blocks = s.blocks
  current : s'.current = s.current
  line : s'.line = s.line
  linesAhead : s'.linesAhead = s.linesAhead

/-- The renaming agrees with the names given so far. -/
def Calls (table : List (Option ValueId)) (s : Unpacker) (f : ValueId → ValueId) : Prop :=
  ∀ (i : Nat) (v j : ValueId), table[i]? = some (some v) → s.slots[i]? = some (some j) → f v = j

variable {table : List (Option ValueId)} {n i : Nat} {v : ValueId} {s s' s'' : Unpacker} {f : ValueId → ValueId}

theorem Grows.refl (s : Unpacker) : Grows s s := ⟨fun _ _ h => h, rfl, rfl, rfl, rfl⟩

theorem Grows.trans (h : Grows s s') (h' : Grows s' s'') : Grows s s'' :=
  ⟨fun i j hij => h'.slots i j (h.slots i j hij), h'.blocks.trans h.blocks, h'.current.trans h.current,
    h'.line.trans h.line, h'.linesAhead.trans h.linesAhead⟩

theorem Grows.calls (h : Grows s s') (hf : Calls table s' f) : Calls table s f :=
  fun i v j hv hj => hf i v j hv (h.slots i j hj)

/-- An instruction without a result has nothing to name. -/
theorem Names.skip (h : Names table n s) (hn : table[n]? = some none) : Names table (n + 1) s := by
  refine ⟨h.length, h.known, h.bounded, h.unique, h.onto, fun i v hi hv => h.done i v ?_ hv⟩
  have hne : i ≠ n := by
    rintro rfl
    simp [hn] at hv
  omega

/-- A new name for an index that has none. -/
theorem Names.fresh (h : Names table n s) (hv : table[i]? = some (some v)) (hnone : s.slots[i]? = some none) :
    Names table n { s with
      values := s.values ++ [⟨.void, .unresolved⟩], slots := s.slots.set i (some s.values.length) } := by
  have hi : i < s.slots.length := (List.getElem?_eq_some_iff.1 hnone).1
  have hget (k j : Nat) : (s.slots.set i (some s.values.length))[k]? = some (some j) ↔
      k = i ∧ j = s.values.length ∨ s.slots[k]? = some (some j) := by
    rw [List.getElem?_set]
    split
    · next heq =>
      subst heq
      rw [hnone]
      simp [eq_comm]
    · next hne => simp [Ne.symm hne]
  refine ⟨by simp [h.length], ?_, ?_, ?_, ?_, ?_⟩
  · intro k j hk
    rcases (hget k j).1 hk with ⟨rfl, -⟩ | hk
    · exact ⟨v, hv⟩
    · exact h.known k j hk
  · intro k j hk
    rcases (hget k j).1 hk with ⟨-, rfl⟩ | hk
    · simp
    · have hlt := h.bounded k j hk
      rw [List.length_append]
      omega
  · intro k k' j hk hk'
    rcases (hget k j).1 hk with ⟨rfl, rfl⟩ | hold
    · rcases (hget k' _).1 hk' with ⟨rfl, -⟩ | hold'
      · rfl
      · exact absurd (h.bounded k' _ hold') (Nat.lt_irrefl _)
    · rcases (hget k' j).1 hk' with ⟨rfl, rfl⟩ | hold'
      · exact absurd (h.bounded k _ hold) (Nat.lt_irrefl _)
      · exact h.unique k k' j hold hold'
  · intro j hj
    rw [List.length_append, List.length_singleton] at hj
    rcases Nat.lt_or_ge j s.values.length with hlt | hge
    · obtain ⟨k, hk⟩ := h.onto j hlt
      exact ⟨k, (hget k j).2 (.inr hk)⟩
    · exact ⟨i, (hget i j).2 (.inl ⟨rfl, by omega⟩)⟩
  · intro k w hk hw
    obtain ⟨j, x, hj, hx, horigin⟩ := h.done k w hk hw
    refine ⟨j, x, (hget k j).2 (.inr hj), ?_, horigin⟩
    rw [List.getElem?_append_left (List.getElem?_eq_some_iff.1 hx).1]
    exact hx

/-- A value with an origin for an index that has a name. -/
theorem Names.defined (h : Names table n s) (hv : table[n]? = some (some v)) {j : Nat}
    (hj : s.slots[n]? = some (some j)) {x : Value} (horigin : x.origin ≠ .unresolved) :
    Names table (n + 1) { s with values := s.values.set j x } := by
  have hlt := h.bounded n j hj
  refine ⟨h.length, h.known, ?_, h.unique, ?_, ?_⟩
  · intro i k hk
    rw [List.length_set]
    exact h.bounded i k hk
  · intro k hk
    rw [List.length_set] at hk
    exact h.onto k hk
  · intro i w hi hw
    rcases Nat.lt_or_ge i n with hin | hin
    · obtain ⟨k, y, hk, hy, hyo⟩ := h.done i w hin hw
      have hne : j ≠ k := by
        rintro rfl
        exact absurd (h.unique i n j hk hj) (Nat.ne_of_lt hin)
      exact ⟨k, y, hk, by rw [List.getElem?_set_ne hne]; exact hy, hyo⟩
    · obtain rfl : i = n := by omega
      exact ⟨j, x, hj, List.getElem?_set_self hlt, horigin⟩

/-- **Mentioning a value** names its index if need be. -/
theorem runs_value (h : Names table n s) (hv : table[i]? = some (some v)) :
    Runs (value i) s fun j s' => Names table n s' ∧ Grows s s' ∧ s'.slots[i]? = some (some j) := by
  have hi : i < s.slots.length := by
    rw [h.length]
    exact (List.getElem?_eq_some_iff.1 hv).1
  unfold value
  refine Runs.get_bind ?_
  cases hslot : s.slots[i] with
  | some j =>
    have hget : s.slots[i]? = some (some j) := by rw [List.getElem?_eq_getElem hi, hslot]
    simp only [hget]
    exact Runs.pure ⟨h, Grows.refl s, hget⟩
  | none =>
    have hget : s.slots[i]? = some none := by rw [List.getElem?_eq_getElem hi, hslot]
    simp only [hget]
    refine ⟨s.values.length, _, rfl, h.fresh hv hget, ⟨?_, rfl, rfl, rfl, rfl⟩, ?_⟩
    · intro k j hk
      have hne : i ≠ k := by
        rintro rfl
        simp [hget] at hk
      rw [List.getElem?_set_ne hne]
      exact hk
    · exact List.getElem?_set_self hi

/-- **Defining a value** settles the next index. -/
theorem runs_define (h : Names table n s) (hv : table[n]? = some (some v)) (type : Descriptor) {origin : Origin}
    (horigin : origin ≠ .unresolved) :
    Runs (define n type origin) s fun j s' => Names table (n + 1) s' ∧ Grows s s' ∧ s'.slots[n]? = some (some j) := by
  unfold define
  refine (runs_value h hv).bind fun j s' hs' => ?_
  obtain ⟨hnames, hgrows, hslot⟩ := hs'
  refine ⟨j, { s' with values := s'.values.set j ⟨type, origin⟩ }, rfl, hnames.defined hv hslot horigin, ?_, hslot⟩
  exact ⟨hgrows.slots, hgrows.blocks, hgrows.current, hgrows.line, hgrows.linesAhead⟩

/-- Mentioning values one after the other gives the new names of what they stand for. -/
theorem runs_values {index : ValueId → Nat} (vs : List ValueId) (hvs : ∀ v ∈ vs, table[index v]? = some (some v))
    (h : Names table n s) :
    Runs ((vs.map index).mapM value) s fun js s' =>
      Names table n s' ∧ Grows s s' ∧ ∀ f, Calls table s' f → js = vs.map f := by
  induction vs generalizing s with
  | nil => exact Runs.pure ⟨h, Grows.refl s, fun _ _ => rfl⟩
  | cons v vs ih =>
    rw [List.map_cons, List.mapM_cons]
    refine (runs_value h (hvs v (by simp))).bind fun j s' ⟨hnames, hgrows, hslot⟩ => ?_
    refine (ih (fun w hw => hvs w (by simp [hw])) hnames).bind fun js s'' ⟨hnames', hgrows', hjs⟩ => ?_
    refine Runs.pure ⟨hnames', hgrows.trans hgrows', fun f hf => ?_⟩
    rw [List.map_cons, hjs f hf, hf _ v j (hvs v (by simp)) (hgrows'.slots _ _ hslot)]

end Unpacker

end DexShrinker
