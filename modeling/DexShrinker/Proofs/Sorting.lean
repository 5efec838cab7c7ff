/-
  DexShrinker/Proofs/Sorting.lean
  ===============================
  **A sorted list is in order and has the same elements.**

  What compares equal stays in the order in which it came (`pairwise_sortBy_stable`).

  Halving keeps the end of the first elements that have a property inside the part that is left, so
  it finds this end (`partitionPoint_eq`).
-/
import DexShrinker.Sorting
import Mathlib.Data.List.Basic
import Mathlib.Data.List.TakeWhile

namespace DexShrinker

variable {α : Type} {le : α → α → Bool}

theorem perm_insertBy (x : α) (ys : List α) : (insertBy le x ys).Perm (x :: ys) := by
  induction ys with
  | nil => exact .refl _
  | cons y ys ih =>
    unfold insertBy
    split
    · exact .refl _
    · exact (ih.cons y).trans (.swap x y ys)

theorem perm_sortBy (le : α → α → Bool) (xs : List α) : (sortBy le xs).Perm xs := by
  induction xs with
  | nil => exact .refl _
  | cons x xs ih => exact (perm_insertBy x _).trans (ih.cons x)

/-- An element is inserted behind those that it may not stand before, and so before those that came after it. -/
theorem pairwise_insertBy {R : α → α → Prop} (htrans : ∀ a b c, le a b → le b c → le a c) (htotal : ∀ a b, le a b || le b a)
    {x : α} {ys : List α} (hx : ∀ y ∈ ys, R x y) (h : ys.Pairwise fun a b => le a b = true ∧ (le b a = true → R a b)) :
    (insertBy le x ys).Pairwise fun a b => le a b = true ∧ (le b a = true → R a b) := by
  induction ys with
  | nil => simp [insertBy]
  | cons y ys ih =>
    obtain ⟨hy, hys⟩ := List.pairwise_cons.1 h
    unfold insertBy
    split
    · next hle =>
      refine List.pairwise_cons.2 ⟨fun z hz => ⟨?_, fun _ => hx z hz⟩, h⟩
      rcases List.mem_cons.1 hz with rfl | hz
      · exact hle
      · exact htrans x y z hle (hy z hz).1
    · next hle =>
      refine List.pairwise_cons.2 ⟨fun z hz => ?_, ih (fun z hz => hx z (List.mem_cons_of_mem y hz)) hys⟩
      rcases List.mem_cons.1 ((perm_insertBy x ys).mem_iff.1 hz) with rfl | hz
      · exact ⟨by simpa [hle] using htotal z y, fun hle' => absurd hle' hle⟩
      · exact hy z hz

/-- **Sorting is stable:** the list is in order, and what compares equal is in the order in which it came. -/
theorem pairwise_sortBy_stable {R : α → α → Prop} (htrans : ∀ a b c, le a b → le b c → le a c)
    (htotal : ∀ a b, le a b || le b a) {xs : List α} (h : xs.Pairwise R) :
    (sortBy le xs).Pairwise fun a b => le a b = true ∧ (le b a = true → R a b) := by
  induction xs with
  | nil => exact .nil
  | cons x xs ih =>
    obtain ⟨hx, hxs⟩ := List.pairwise_cons.1 h
    exact pairwise_insertBy htrans htotal (fun y hy => hx y ((perm_sortBy le xs).mem_iff.1 hy)) (ih hxs)

/-- **A sorted list is in order.** -/
theorem pairwise_sortBy (htrans : ∀ a b c, le a b → le b c → le a c) (htotal : ∀ a b, le a b || le b a) (xs : List α) :
    (sortBy le xs).Pairwise fun a b => le a b = true :=
  (pairwise_sortBy_stable (R := fun _ _ => True) htrans htotal (List.pairwise_of_forall fun _ _ => trivial)).imp And.left

theorem pairwise_sortBy_cmp (cmp : α → α → Ordering) [Std.TransCmp cmp] (xs : List α) :
    (sortBy (fun a b => (cmp a b).isLE) xs).Pairwise fun a b => (cmp a b).isLE = true := by
  refine pairwise_sortBy (fun a b c => Std.TransCmp.isLE_trans) (fun a b => ?_) xs
  have hswap : (cmp a b).isGE = (cmp b a).isLE := Std.OrientedCmp.isGE_eq_isLE
  rw [← hswap]
  cases cmp a b <;> rfl

theorem pairwise_sortBy_key (key : α → Nat) (xs : List α) :
    (sortBy (fun a b => key a ≤ key b) xs).Pairwise fun a b => key a ≤ key b := by
  refine (pairwise_sortBy (fun a b c => ?_) (fun a b => ?_) xs).imp fun hle => by simpa using hle
  · simpa using Nat.le_trans
  · simpa using Nat.le_total (key a) (key b)

/-! ### Halving -/

/-- The part that is left begins before the end `n` of the elements with the property, unless it begins with the list,
    and goes on at least up to it. -/
theorem halve_spec {p : α → Bool} {xs : List α} {n : Nat} (hn : ∀ i, xs[i]?.any p = true ↔ i < n) (base size : Nat)
    (hbase : base = 0 ∨ base < n) (hsize : n ≤ base + size) :
    (halve p xs base size = 0 ∨ halve p xs base size < n) ∧ n ≤ halve p xs base size + 1 := by
  induction size using Nat.strongRecOn generalizing base with
  | ind size ih =>
    rw [halve]
    split
    · exact ⟨hbase, by omega⟩
    · by_cases hmiddle : base + size / 2 < n
      · simp only [hn, hmiddle, if_true]
        exact ih (size - size / 2) (by omega) _ (.inr hmiddle) (by omega)
      · simp only [hn, hmiddle, if_false]
        exact ih (size - size / 2) (by omega) _ hbase (by omega)

/-- **Halving finds where the first elements with the property end,** if no element after that has it. -/
theorem partitionPoint_eq {p : α → Bool} {xs : List α} (h : xs.Pairwise fun a b => p b = true → p a = true) :
    partitionPoint p xs = (xs.takeWhile p).length := by
  have hn (i : Nat) : xs[i]?.any p = true ↔ i < (xs.takeWhile p).length := by
    induction xs generalizing i with
    | nil => simp
    | cons x xs ih =>
      obtain ⟨hx, hxs⟩ := List.pairwise_cons.1 h
      by_cases hp : p x = true
      · rw [List.takeWhile_cons_of_pos hp, List.length_cons]
        cases i with
        | zero => simp [hp]
        | succ i => rw [List.getElem?_cons_succ, ih hxs, Nat.succ_lt_succ_iff]
      · rw [List.takeWhile_cons_of_neg hp]
        have hnone : ∀ y ∈ xs, p y = false := fun y hy => Bool.eq_false_iff.2 fun hpy => hp (hx y hy hpy)
        cases i with
        | zero => simp [hp]
        | succ i => cases hget : xs[i]? with
          | none => simp [hget]
          | some y => simp [hget, hnone y (List.mem_of_getElem? hget)]
  have hsize : (xs.takeWhile p).length ≤ 0 + xs.length := by
    rw [Nat.zero_add]
    exact (List.takeWhile_prefix p).length_le
  obtain ⟨hbelow, habove⟩ := halve_spec hn 0 xs.length (.inl rfl) hsize
  unfold partitionPoint
  simp only [hn]
  split <;> omega

end DexShrinker
