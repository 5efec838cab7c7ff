/-
  DexShrinker/Fault.lean
  ======================
  **Computations that leave the domain on which they are defined.**

  Bodies, hierarchies and lens layers come from outside and may be malformed: an
  instruction can name a value its body does not have, a chain of superclasses can
  bite its own tail. No operation invents an answer for such an input. It stops
  with a `Fault`, which is a value like any other, so statements about an operation
  can say exactly when it stops.

  `Failure ε` puts the typed errors `ε` of an operation beside the faults, and
  `Outcome ε α` is the result of an operation that may end either way.
-/

namespace DexShrinker

/-- Reasons for which an operation has no answer at all. -/
inductive Fault where
  /-- A value number beyond the values of the body. -/
  | valueOutOfRange (value : Nat)
  /-- A block number beyond the blocks of the body. -/
  | blockOutOfRange (block : Nat)
  /-- A position beyond the end of a list or table. -/
  | indexOutOfRange (index : Nat)
  /-- A descriptor whose text has no class name in it. -/
  | malformedDescriptor (text : String)
  /-- A number that does not fit, where arithmetic is checked for overflow. -/
  | overflow
  /-- Two states or changes that cannot be combined. -/
  | incompatible
  /-- A definition that must be present is absent. -/
  | missing (what : String)
  /-- The operation never comes to an end. -/
  | diverges
deriving DecidableEq

/-- What an operation with typed errors `ε` fails with. -/
inductive Failure (ε : Type) where
  /-- A typed error. -/
  | error (cause : ε)
  /-- A fault. -/
  | fault (cause : Fault)
deriving DecidableEq

/-- An answer, a typed error or a fault. -/
abbrev Outcome (ε α : Type) := Except (Failure ε) α

/-- An answer or a fault: the result of an operation without typed errors. -/
abbrev Guarded (α : Type) := Except Fault α

namespace Outcome

variable {ε δ α : Type}

/-- Stop with the typed error `e`. -/
def raise (e : ε) : Outcome ε α := .error (.error e)

/-- Stop with the fault `f`. -/
def stop (f : Fault) : Outcome ε α := .error (.fault f)

/-- An operation without typed errors, seen as one that has some. -/
def lift : Guarded α → Outcome ε α
  | .ok a => .ok a
  | .error f => stop f

/-- Read every typed error through `f`; faults and answers stay. -/
def mapError (f : ε → δ) : Outcome ε α → Outcome δ α
  | .ok a => .ok a
  | .error (.error e) => raise (f e)
  | .error (.fault c) => stop c

/-- An operation that raises typed errors only, seen as one that may fault. -/
def ofExcept (f : ε → δ) : Except ε α → Outcome δ α
  | .ok a => .ok a
  | .error e => raise (f e)

end Outcome

instance {ε : Type} : MonadLift (Except Fault) (Except (Failure ε)) := ⟨Outcome.lift⟩

/-- The entry of `xs` at `i`, or the fault `f` when there is none. -/
def entryOr {α : Type} (xs : List α) (i : Nat) (f : Fault) : Guarded α :=
  match xs[i]? with
  | some x => .ok x
  | none => .error f

end DexShrinker
