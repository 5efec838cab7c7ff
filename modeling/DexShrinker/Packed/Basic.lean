/-
  DexShrinker/Packed/Basic.lean
  =============================
  **Packed bodies: the form in which methods are stored.**

  A packed body is a stream of bytes with side tables. Instructions are numbered in
  stream order. Arguments take the value indices below the argument count, and the
  instruction at index `i` has value index `argument count + i` whether or not it
  produces a value. A block is named by the index of its first instruction; the
  entry block starts at instruction `0`.

  The side tables are the pool of constants, the lines (one entry for each change)
  and the exception handlers of every guarded block.
-/
import DexShrinker.Body.Verify
import DexShrinker.Sorting

namespace DexShrinker

open Std

/-- What a constant is needed for. -/
inductive ConstantRole where
  | type
  | field
  | method
  | loadable
  | callSite
deriving DecidableEq

/-- The word for a role in messages. -/
def ConstantRole.text : ConstantRole → String
  | type => "type"
  | field => "field"
  | method => "method"
  | loadable => "loadable"
  | callSite => "call site"

/-- Reasons for which a body cannot be packed or unpacked. -/
inductive PackedError where
  | operandsTooLarge (bytes : Nat)
  | truncated (offset : Nat)
  | unknownOpcode (opcode : UInt8) (offset : Nat)
  | constantKind (index : Nat) (expected : ConstantRole)
  | constantIndex (index : Nat)
  /-- A value operand leads to an index beyond thirty-two bits. -/
  | valueIndex (index : Int)
  | blockTarget (target : Nat)
  | malformedBlock (index : Nat)
  | unresolvedValue (value : Nat)
  | unsupportedBranch (kind : Comparison)
  | argumentCount (expected actual : Nat)
  | body (cause : BodyError)
deriving DecidableEq

/-- One byte in two hexadecimal digits. -/
def hexByte (b : UInt8) : String :=
  String.ofList [Nat.digitChar (b.toNat / 16), Nat.digitChar (b.toNat % 16)]

/-- The index of a value does not fit in sixty-four bits. -/
def PackedError.overflows : PackedError → Bool
  | valueIndex i => decide (Int64.maxValue.toInt < i)
  | _ => false

/-- The wording of an error. -/
def PackedError.message : PackedError → String
  | operandsTooLarge n => s!"instruction operands take {n} bytes, more than the 255-byte limit"
  | truncated n => s!"instruction stream truncated at byte {n}"
  | unknownOpcode op n => "unknown opcode 0x" ++ hexByte op ++ s!" at byte {n}"
  | constantKind i role => s!"constant {i} is not a " ++ role.text ++ " constant"
  | constantIndex i => s!"constant index {i} is out of range"
  | valueIndex i => s!"value index {Int64.ofInt i} is out of range"
  | blockTarget t => s!"block target {t} does not start a block"
  | malformedBlock i => s!"instruction {i} is a jump target in the middle of a block"
  | unresolvedValue v => s!"value v{v} is referenced but never defined"
  | unsupportedBranch kind => kind.text ++ " branches cannot compare references"
  | argumentCount expected actual =>
    s!"code has {actual} arguments but {expected} argument types were given"
  | body e => e.message

/-- An entry of the constant pool. -/
inductive Constant where
  | type (type : Descriptor)
  | field (field : FieldRef)
  | method (method : MethodRef)
  | string (value : String)
  | proto (proto : Prototype)
  | handle (handle : MethodHandle)
  | callSite (site : CallSite)
deriving DecidableEq

/-- From instruction `start` on, the source line is `line`. -/
structure LineEntry where
  start : Nat
  line : Line
deriving DecidableEq

/-- The value index of an instruction: those of the arguments come first. It has
    thirty-two bits and wraps around. -/
def valueIndexOf (argumentCount instruction : Nat) : Nat := (argumentCount + instruction) % UInt32.size

/-- A packed body. -/
structure PackedBody where
  constants : List Constant
  bytes : List UInt8
  argumentCount : Nat
  instructionCount : Nat
  lines : List LineEntry
  /-- Exception handlers by the start of the block they guard. Targets are block starts. -/
  handlers : TreeMap Nat (List Handler)

namespace PackedBody

/-- Two packed bodies with the same bytes and the same tables. -/
def same (p q : PackedBody) : Bool :=
  p.constants == q.constants && p.bytes == q.bytes && p.argumentCount == q.argumentCount
    && p.instructionCount == q.instructionCount && p.lines == q.lines
    && p.handlers.toList == q.handlers.toList

/-- The constant at an index. -/
def constant (p : PackedBody) (index : Nat) : Except PackedError Constant :=
  match p.constants[index]? with
  | some c => .ok c
  | none => .error (.constantIndex index)

/-- The type constant at an index. -/
def typeAt (p : PackedBody) (index : Nat) : Except PackedError Descriptor := do
  match ← p.constant index with
  | .type t => return t
  | _ => throw (.constantKind index .type)

/-- The field constant at an index. -/
def fieldAt (p : PackedBody) (index : Nat) : Except PackedError FieldRef := do
  match ← p.constant index with
  | .field f => return f
  | _ => throw (.constantKind index .field)

/-- The method constant at an index. -/
def methodAt (p : PackedBody) (index : Nat) : Except PackedError MethodRef := do
  match ← p.constant index with
  | .method m => return m
  | _ => throw (.constantKind index .method)

/-- The source line in effect at an instruction, of the last entry that starts at or before it.
    The table of lines is in the order of instructions. -/
def lineAt (p : PackedBody) (instruction : Nat) : Line :=
  match partitionPoint (fun l : LineEntry => l.start ≤ instruction) p.lines with
  | 0 => 0
  | i + 1 => (p.lines[i]?.map LineEntry.line).getD 0

/-- The guards of all exception handlers. -/
def guards (p : PackedBody) : List Descriptor :=
  p.handlers.toList.flatMap fun (_, hs) => hs.map Handler.guard

end PackedBody

end DexShrinker
