/-
  DexShrinker/Flow/Forest.lean
  ============================
  **Trees that say which nodes are connected.**

  Every node has a parent that does not come after it, and a root is its own. Two nodes are
  connected when their roots are the same, and joining two nodes puts the later of their
  roots under the earlier one. Looking for a root leaves shorter paths behind: every second
  node on the way gets its grandparent as its parent.
-/

namespace DexShrinker

/-- Nodes `0`, `1` and so on, each with a parent. -/
structure Forest where
  parents : List Nat
  ordered : ∀ i p : Nat, parents[i]? = some p → p ≤ i

namespace Forest

/-- The parent of a node; one that is not there is its own. -/
def parent (f : Forest) (i : Nat) : Nat := f.parents.getD i i

theorem parent_le (f : Forest) (i : Nat) : f.parent i ≤ i := by
  rw [parent, List.getD_eq_getElem?_getD]
  cases h : f.parents[i]? with
  | none => exact Nat.le_refl i
  | some p => exact f.ordered i p h

theorem parent_parent_lt {f : Forest} {i : Nat} (h : f.parent i ≠ i) : f.parent (f.parent i) < i :=
  Nat.lt_of_le_of_lt (f.parent_le _) (Nat.lt_of_le_of_ne (f.parent_le i) h)

/-- Nodes none of which is connected with another. -/
def singletons (n : Nat) : Forest where
  parents := List.range n
  ordered := by
    intro i p h
    obtain ⟨-, rfl⟩ := List.getElem?_eq_some_iff.1 h
    simp

/-- Put a node under one that does not come after it. -/
def link (f : Forest) (i p : Nat) (h : p ≤ i) : Forest where
  parents := f.parents.set i p
  ordered := by
    intro k q hq
    rw [List.getElem?_set] at hq
    split at hq
    · next heq =>
      split at hq
      · cases hq
        exact heq ▸ h
      · cases hq
    · exact f.ordered k q hq

/-- The root of a node. -/
def find (f : Forest) (i : Nat) : Nat × Forest :=
  if h : f.parent i = i then (i, f)
  else (f.link i (f.parent (f.parent i)) (Nat.le_of_lt (parent_parent_lt h))).find (f.parent (f.parent i))
termination_by i
decreasing_by exact parent_parent_lt h

/-- Join two nodes. -/
def union (f : Forest) (a b : Nat) : Forest :=
  let (a, f) := f.find a
  let (b, f) := f.find b
  f.link (max a b) (min a b) (by omega)

/-- The roots of some nodes, which are looked for one after the other. -/
def findAll (f : Forest) : List Nat → List Nat
  | [] => []
  | i :: is =>
    let (root, f) := f.find i
    root :: f.findAll is

/-- The roots of all nodes. -/
def roots (f : Forest) : List Nat := f.findAll (List.range f.parents.length)

end Forest

end DexShrinker
