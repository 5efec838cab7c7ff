/-
  DexShrinker/Packed/Packer.lean
  ==============================
  **Writing a packed body one instruction at a time.**

  The packer is given operations whose values are absolute value indices. It puts the
  constants of an operation into the pool, where each stands once in the order of
  first use, writes the instruction, and notes the source line when it changed. The
  first instruction that cannot be written makes the whole body fail.
-/
import DexShrinker.Packed.Instr

namespace DexShrinker

open Std

/-- A packed body under construction. -/
structure Packer where
  constants : List Constant := []
  bytes : List UInt8 := []
  argumentCount : Nat := 0
  instructionCount : Nat := 0
  lines : List LineEntry := []
  /-- The line of the instructions to come. -/
  line : Line := 0
  /-- The line the table of lines ends with. -/
  notedLine : Line := 0
  handlers : TreeMap Nat (List Handler) := ∅
  error : Option PackedError := none

namespace Packer

/-- The value index of the next instruction. -/
def nextValue (p : Packer) : Nat := valueIndexOf p.argumentCount p.instructionCount

/-- Declare one more argument. -/
def addArgument (p : Packer) : Nat × Packer :=
  (p.argumentCount, { p with argumentCount := p.argumentCount + 1 })

/-- Give the instructions that follow the source line `line`. -/
def setLine (p : Packer) (line : Line) : Packer := { p with line := line }

/-- Put a constant into the pool, unless it is there, and give its index. -/
def intern (p : Packer) (c : Constant) : Nat × Packer :=
  match p.constants.idxOf? c with
  | some i => (i, p)
  | none => (p.constants.length, { p with constants := p.constants ++ [c] })

/-- Count an instruction and note its line if that changed. -/
def advance (p : Packer) : Packer :=
  { p with
    lines := if p.line = p.notedLine then p.lines else p.lines ++ [⟨p.instructionCount, p.line⟩]
    notedLine := p.line
    instructionCount := p.instructionCount + 1 }

/-- Write an instruction. -/
def push (p : Packer) (i : PackedInstr) : Packer :=
  match i.encode p.nextValue with
  | .ok bytes => { p.advance with bytes := p.bytes ++ bytes }
  | .error e => { p.advance with error := p.error <|> some e }

/-- Write an instruction over a pool constant. -/
def pushWith (p : Packer) (c : Constant) (i : Nat → PackedInstr) : Packer :=
  let (index, p) := p.intern c
  p.push (i index)

/-- Write an operation whose values are value indices. -/
def addOp (p : Packer) : Op → Packer
  | .constNull => p.push .constNull
  | .constInt v => p.push (.constInt v)
  | .constLong v => p.push (.constLong v)
  | .constString s => p.pushWith (.string s) .loadConstant
  | .constClass t => p.pushWith (.type t) .loadConstant
  | .constHandle h => p.pushWith (.handle h) .loadConstant
  | .constMethodType q => p.pushWith (.proto q) .loadConstant
  | .newInstance t => p.pushWith (.type t) .newInstance
  | .newArray t size => p.pushWith (.type t) (.newArray · size)
  | .newUnboxedEnum t ordinal => p.pushWith (.type t) (.newUnboxedEnum · ordinal)
  | .arrayGet t array index => p.pushWith (.type t) (.arrayGet · array index)
  | .arrayPut array index value => p.push (.arrayPut array index value)
  | .arrayLength array => p.push (.arrayLength array)
  | .staticGet f => p.pushWith (.field f) .staticGet
  | .staticPut f value => p.pushWith (.field f) (.staticPut · value)
  | .instanceGet f object => p.pushWith (.field f) (.instanceGet · object)
  | .instancePut f object value => p.pushWith (.field f) (.instancePut · object value)
  | .invoke kind m args itf => p.pushWith (.method m) (.invoke kind itf · args)
  | .invokeCustom site args => p.pushWith (.callSite site) (.invokeCustom · args)
  | .checkCast t value => p.pushWith (.type t) (.checkCast · value)
  | .instanceOf t value => p.pushWith (.type t) (.instanceOf · value)
  | .binary op t lhs rhs => p.push (.binary op t lhs rhs)
  | .debugPosition => p.push .debugPosition

/-- Write a phi. -/
def addPhi (p : Packer) (t : Descriptor) (operands : List Nat) : Packer :=
  p.pushWith (.type t) (.phi · operands)

/-- Set the exception handlers of the block that starts at `block`. -/
def addHandlers (p : Packer) (block : Nat) (handlers : List Handler) : Packer :=
  if handlers.isEmpty then p else { p with handlers := p.handlers.insert block handlers }

/-- The packed body, or the first error. -/
def finish (p : Packer) : Except PackedError PackedBody :=
  match p.error with
  | some e => .error e
  | none => .ok ⟨p.constants, p.bytes, p.argumentCount, p.instructionCount, p.lines, p.handlers⟩

end Packer

end DexShrinker
