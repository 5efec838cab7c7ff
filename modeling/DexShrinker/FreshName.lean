/-
  DexShrinker/FreshName.lean
  ==========================
  **Names that are not taken.**

  Candidates are numbered from zero and tried in order. Among one more candidate than
  there are taken names one is free, as long as the candidates differ, so the search
  is over a finite list.
-/

namespace DexShrinker

/-- The number of the first candidate that is not taken. -/
def firstFree {α : Type} [BEq α] (candidate : Nat → α) (taken : List α) : Nat :=
  ((List.range (taken.length + 1)).find? fun i => !taken.contains (candidate i)).getD 0

/-- The name followed by a dollar sign and a number. -/
def numbered (name : String) (n : Nat) : String := name ++ "$" ++ toString n

/-- The first of `name$1`, `name$2`, … that is not taken. -/
def numberedFresh (name : String) (taken : List String) : String :=
  let candidate (i : Nat) := numbered name (i + 1)
  candidate (firstFree candidate taken)

/-- The name itself, or the first of `name$1`, `name$2`, … that is not taken. -/
def freshName (name : String) (taken : List String) : String :=
  if taken.contains name then numberedFresh name taken else name

end DexShrinker
