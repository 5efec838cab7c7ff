/-
  DexShrinker/Packed/Pack.lean
  ============================
  **From bodies to packed bodies.**

  Every phi, instruction and terminator becomes one packed instruction, in layout
  order. The layout says which value index each value gets and where each block
  starts; a jump to the next block of the layout is written without a target.
-/
import DexShrinker.Packed.Packer

namespace DexShrinker.Body

/-- The number of packed instructions a block takes. -/
def blockSize (b : Block) : Nat := b.phis.length + b.body.length + 1

/-- The values of a block in the order of their instructions. -/
def slotsOf (b : Block) : List (Option ValueId) :=
  b.phis.map (some ·.dest) ++ b.body.map Instr.dest ++ [none]

/-- What each value index stands for: arguments first, then one entry for each
    instruction. -/
def slots (c : Body) : List (Option ValueId) :=
  c.arguments.map some ++ c.blocks.flatMap slotsOf

/-- The value index of a value: the last place that defines it. -/
def valueIndex (slots : List (Option ValueId)) (v : ValueId) : Except (Failure PackedError) Nat :=
  match (slots.mapIdx fun i s => (i, s)).findRev? fun (_, s) => s == some v with
  | some (i, _) => .ok i
  | none => Outcome.raise (.unresolvedValue v)

/-- The number of instructions that blocks take together. -/
def blocksSize : List Block → Nat
  | [] => 0
  | b :: bs => blockSize b + blocksSize bs

/-- The instruction index at which a block starts. -/
def blockStart (c : Body) (b : BlockId) : Except (Failure PackedError) Nat :=
  if b < c.blocks.length then .ok (blocksSize (c.blocks.take b))
  else Outcome.stop (.blockOutOfRange b)

/-- Write the terminator of block `b`. -/
def packTerminator (c : Body) (index : ValueId → Except (Failure PackedError) Nat) (p : Packer) (b : BlockId) :
    Terminator → Outcome PackedError Packer
  | .goto target =>
    if target = b + 1 then return p.push .fallthrough
    else return p.push (.goto (← c.blockStart target))
  | .branch kind type lhs rhs target => do
    let rhs ← rhs.mapM index
    let target ← c.blockStart target
    let lhs ← index lhs
    return p.push (.branch kind type target lhs rhs)
  | .ret value => return p.push (.ret (← value.mapM index))
  | .throw value => return p.push (.throw (← index value))

/-- Write block `b`. -/
def packBlock (c : Body) (index : ValueId → Except (Failure PackedError) Nat) (p : Packer) (b : BlockId)
    (block : Block) : Outcome PackedError Packer := do
  let start ← c.blockStart b
  let handlers ← block.handlers.mapM fun h => return { h with target := (← c.blockStart h.target) }
  let p ← block.phis.foldlM (fun p phi => do
    let operands ← phi.operands.mapM index
    let v ← entryOr c.values phi.dest (.valueOutOfRange phi.dest)
    return p.addPhi v.type operands) (p.addHandlers start handlers)
  let p ← block.body.foldlM (fun p insn =>
    return (p.setLine insn.line).addOp (← insn.op.traverseReads index)) p
  c.packTerminator index (p.setLine block.terminatorLine) b block.terminator

/-- Pack a body. It must define every value it reads, and its branches must be ones
    that an opcode exists for. -/
def pack (c : Body) : Outcome PackedError PackedBody := do
  if let some v := (c.arguments ++ c.blocks.flatMap Block.defs).find? (c.values.length ≤ ·) then
    Outcome.stop (.valueOutOfRange v)
  let slots := c.slots
  let p ← (c.blocks.mapIdx fun b block => (b, block)).foldlM
    (fun p (b, block) => c.packBlock (valueIndex slots) p b block)
    { argumentCount := c.arguments.length }
  Outcome.ofExcept id p.finish

end DexShrinker.Body
