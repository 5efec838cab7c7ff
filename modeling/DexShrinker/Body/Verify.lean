/-
  DexShrinker/Body/Verify.lean
  ============================
  **Structural checks on bodies.**

  A body is well formed when every target exists, nothing jumps to the entry, every
  phi has one operand for each predecessor, and every value that is read has a
  definition. The checks run in this order and the first violation is reported.
-/
import DexShrinker.Body.Flow

namespace DexShrinker

/-- Ways in which a body is not well formed. -/
inductive BodyError where
  | missingBlock (block target : BlockId)
  | phiArity (block : BlockId) (operands predecessors : Nat)
  | entryHasPredecessors
  | missingFallthrough
  | undefinedValue (value : ValueId)
  | unterminatedBlock (block : BlockId)
deriving DecidableEq

/-- The wording of a violation. -/
def BodyError.message : BodyError → String
  | missingBlock b t => s!"block {b} targets missing block {t}"
  | phiArity b o p => s!"block {b} has a phi with {o} operands but {p} predecessors"
  | entryHasPredecessors => "the entry block must not have predecessors"
  | missingFallthrough => "conditional branch in the last block has no fallthrough"
  | undefinedValue v => s!"value v{v} is used but never defined"
  | unterminatedBlock b => s!"block {b} was never terminated"

namespace Body

/-- The first target of block `b` that does not exist. -/
def targetError? (c : Body) (b : BlockId) (block : Block) : Option BodyError :=
  (block.targets b).findSome? fun t =>
    if t < c.blocks.length then none
    else if block.terminator.isBranch && t == b + 1 then some .missingFallthrough
    else some (.missingBlock b t)

/-- The first phi of block `b` with a wrong number of operands. -/
def phiError? (c : Body) (b : BlockId) (block : Block) : Option BodyError :=
  let n := (c.predecessorsOf b).length
  block.phis.findSome? fun p =>
    if p.operands.length = n then none else some (.phiArity b p.operands.length n)

/-- The first violation a check finds, going through the blocks in order. -/
def firstError? (c : Body) (check : BlockId → Block → Option BodyError) : Option BodyError :=
  (c.blocks.mapIdx check).findSome? id

/-- The values a body gives a definition: its arguments, phis and instructions. -/
def defs (c : Body) : List ValueId := c.arguments ++ c.blocks.flatMap Block.defs

/-- The first value that is read without a definition. -/
def undefined? (c : Body) : Option BodyError :=
  let defs := c.defs
  let reads := c.reads
  (c.values.mapIdx fun v data =>
    if reads.contains v && (!defs.contains v || data.origin == .unresolved) then
      some (BodyError.undefinedValue v)
    else
      none).findSome? id

/-- Every definition and every reading has a place among the values. -/
def valuesInRange (c : Body) : Guarded Unit :=
  match (c.defs ++ c.reads).find? (c.values.length ≤ ·) with
  | some v => .error (.valueOutOfRange v)
  | none => .ok ()

/-- Check that the body is well formed. -/
def verify (c : Body) : Outcome BodyError Unit := do
  if let some e := c.firstError? c.targetError? then Outcome.raise e
  if !(c.predecessorsOf 0).isEmpty then Outcome.raise .entryHasPredecessors
  if let some e := c.firstError? c.phiError? then Outcome.raise e
  Outcome.lift c.valuesInRange
  if let some e := c.undefined? then Outcome.raise e

end Body

end DexShrinker
