/-
  DexShrinker/Sorting.lean
  ========================
  **Putting a list into order, and finding a place in it.**

  The order is stable: what compares equal stays in the order in which it came. In a list
  whose first elements have a property that the others do not have, the place where
  it ends is found by halving.
-/

namespace DexShrinker

variable {α : Type}

/-- Insert an element before the first one that it may stand before. -/
def insertBy (le : α → α → Bool) (x : α) : List α → List α
  | [] => [x]
  | y :: ys => if le x y then x :: y :: ys else y :: insertBy le x ys

/-- The list in order. -/
def sortBy (le : α → α → Bool) (xs : List α) : List α := xs.foldr (insertBy le) []

/-- Halve the part of the list that starts at `base` and has `size` elements until one is left:
    the upper half goes on if its first element has the property. -/
def halve (p : α → Bool) (xs : List α) (base size : Nat) : Nat :=
  if size ≤ 1 then base
  else
    let middle := base + size / 2
    halve p xs (if xs[middle]?.any p then middle else base) (size - size / 2)
termination_by size

/-- The number of elements that have the property, if they come before all others. -/
def partitionPoint (p : α → Bool) (xs : List α) : Nat :=
  let i := halve p xs 0 xs.length
  if xs[i]?.any p then i + 1 else i

end DexShrinker
