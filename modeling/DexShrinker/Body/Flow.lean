/-
  DexShrinker/Body/Flow.lean
  ==========================
  **Control flow and clean-up of bodies.**

  Predecessors are computed from the successors, in layout order, and a phi has one
  operand for each predecessor in that order. Removing blocks that the entry does
  not reach therefore also drops the phi operands that came from them; removing
  instructions nobody reads goes on until a round removes nothing.
-/
import DexShrinker.Fault
import DexShrinker.Body.Basic

namespace DexShrinker.Body

/-- The successors of block `b`; none for a block that does not exist. -/
def successors (c : Body) (b : BlockId) : List BlockId :=
  match c.blocks[b]? with
  | some block => block.successors b
  | none => []

/-- The predecessors of block `b`, in layout order. -/
def predecessorsOf (c : Body) (b : BlockId) : List BlockId :=
  (List.range c.blocks.length).filter fun p => b ∈ c.successors p

/-- The predecessors of every block. -/
def predecessors (c : Body) : List (List BlockId) :=
  (List.range c.blocks.length).map c.predecessorsOf

/-! ### How often values are read -/

/-- The number of readings of every value; a reading of a missing value is a fault. -/
def useCounts (c : Body) : Guarded (List Nat) :=
  match c.reads.find? (c.values.length ≤ ·) with
  | some v => .error (.valueOutOfRange v)
  | none => .ok ((List.range c.values.length).map fun v => c.reads.count v)

/-! ### Unreachable blocks -/

/-- Mark what the blocks on the stack reach. -/
def markReachable (c : Body) (marks : List Bool) : List BlockId → Guarded (List Bool)
  | [] => .ok marks
  | b :: stack =>
    match _ : marks[b]? with
    | none => .error (.blockOutOfRange b)
    | some true => c.markReachable marks stack
    | some false => c.markReachable (marks.set b true) (c.successors b ++ stack)
termination_by stack => (marks.count false, stack.length)
decreasing_by
  · exact Prod.Lex.right _ (Nat.lt_succ_self _)
  · apply Prod.Lex.left
    obtain ⟨hb, hf⟩ := List.getElem?_eq_some_iff.1 ‹marks[b]? = some false›
    have hpos : 0 < marks.count false := List.count_pos_iff.2 (hf ▸ List.getElem_mem hb)
    rw [List.count_set hb, hf, if_pos (by decide), if_neg (by decide)]
    omega

/-- For every block, whether the entry reaches it. -/
def reachable (c : Body) : Guarded (List Bool) :=
  c.markReachable (List.replicate c.blocks.length false) [0]

/-- Keep the elements whose flag is set; elements without a flag stay. -/
def keepFlagged {α : Type} : List Bool → List α → List α
  | _, [] => []
  | [], xs => xs
  | k :: ks, x :: xs => if k then x :: keepFlagged ks xs else keepFlagged ks xs

/-- The new position of block `b` once the unmarked blocks are gone. -/
def renumbered (marks : List Bool) (b : BlockId) : BlockId := (marks.take b).count true

/-- A block that stays when the unmarked ones go: its phis lose the operands of
    vanished predecessors and its targets are renumbered. -/
def trimBlock (c : Body) (marks : List Bool) (b : BlockId) (block : Block) : Block :=
  let keep := (c.predecessorsOf b).map fun p => marks.getD p false
  { block with
    phis := block.phis.map fun p => { p with operands := keepFlagged keep p.operands }
    terminator := block.terminator.mapTargets (renumbered marks)
    handlers := block.handlers.map fun h => { h with target := renumbered marks h.target } }

/-- Drop the blocks the entry does not reach, and say whether there were any. -/
def removeUnreachable (c : Body) : Guarded (Bool × Body) := do
  let marks ← c.reachable
  if marks.all id then
    return (false, c)
  else
    return (true, { c with blocks := keepFlagged marks (c.blocks.mapIdx (c.trimBlock marks)) })

/-! ### Dead instructions -/

/-- A phi stays when its value is read. -/
def keepsPhi (counts : List Nat) (p : Phi) : Bool := counts.getD p.dest 0 != 0

/-- An instruction stays when it has an effect, defines nothing or is read. -/
def keepsInstr (counts : List Nat) (i : Instr) : Bool :=
  match i.dest with
  | some d => !(counts.getD d 0 == 0 && i.op.isRemovable)
  | none => true

/-- The blocks after one round of removals under the given use counts. -/
def sweepBlock (counts : List Nat) (b : Block) : Block :=
  { b with phis := b.phis.filter (keepsPhi counts), body := b.body.filter (keepsInstr counts) }

/-- The number of phis and instructions of a body. -/
def itemCount (c : Body) : Nat := (c.blocks.flatMap Block.phis).length + (c.blocks.flatMap Block.body).length

/-- One round: everything unread under the current counts goes. -/
def sweep (c : Body) (counts : List Nat) : Body := { c with blocks := c.blocks.map (sweepBlock counts) }

/-- The definitions of a body all have a place among its values. -/
def definesInRange (c : Body) : Guarded Unit :=
  match (c.blocks.flatMap Block.defs).find? (c.values.length ≤ ·) with
  | some v => .error (.valueOutOfRange v)
  | none => .ok ()

/-- Remove unread phis and effect-free instructions until nothing changes, and count
    them. -/
def removeDead (c : Body) : Guarded (Nat × Body) :=
  match c.useCounts, c.definesInRange with
  | .error f, _ => .error f
  | _, .error f => .error f
  | .ok counts, .ok () =>
    if _ : (c.sweep counts).itemCount < c.itemCount then
      (removeDead (c.sweep counts)).map fun (n, c') => (n + (c.itemCount - (c.sweep counts).itemCount), c')
    else
      .ok (0, c)
termination_by c.itemCount

end DexShrinker.Body
