/-
  DexShrinker/Packed/Opcode.lean
  ==============================
  **The opcode table of packed bodies.**

  Opcodes below `firstWithOperands` stand alone; all others are followed by a length
  byte and operands. Calls, arithmetic and branches form families in which the
  opcode is a base plus the number of the variant.
-/
import DexShrinker.Body.Basic

namespace DexShrinker

/-- The number of an operator in its opcode family. -/
def BinaryOp.ordinal : BinaryOp → Nat
  | add => 0
  | sub => 1
  | mul => 2
  | div => 3
  | rem => 4
  | and => 5
  | or => 6
  | xor => 7
  | shl => 8
  | shr => 9
  | ushr => 10

/-- The operator with a number. -/
def BinaryOp.ofOrdinal? : Nat → Option BinaryOp
  | 0 => some add
  | 1 => some sub
  | 2 => some mul
  | 3 => some div
  | 4 => some rem
  | 5 => some and
  | 6 => some or
  | 7 => some xor
  | 8 => some shl
  | 9 => some shr
  | 10 => some ushr
  | _ => none

/-- The number of a comparison in its opcode family. -/
def Comparison.ordinal : Comparison → Nat
  | eq => 0
  | ne => 1
  | lt => 2
  | ge => 3
  | gt => 4
  | le => 5

/-- The comparison with a number. -/
def Comparison.ofOrdinal? : Nat → Option Comparison
  | 0 => some eq
  | 1 => some ne
  | 2 => some lt
  | 3 => some ge
  | 4 => some gt
  | 5 => some le
  | _ => none

namespace Opcode

def constNull : UInt8 := 0x01
/-- The first of six opcodes for the integers `0` to `5`. -/
def constIntZero : UInt8 := 0x02
def returnVoid : UInt8 := 0x08
def debugPosition : UInt8 := 0x09
def fallthrough : UInt8 := 0x0A
/-- Opcodes from here on carry operands. -/
def firstWithOperands : UInt8 := 0x10
def constInt : UInt8 := 0x10
def constLong : UInt8 := 0x11
/-- Loads a string, class, method handle or method type from the pool. -/
def loadConstant : UInt8 := 0x12
def newInstance : UInt8 := 0x13
def newArray : UInt8 := 0x14
def newUnboxedEnum : UInt8 := 0x15
def arrayGet : UInt8 := 0x16
def arrayPut : UInt8 := 0x17
def arrayLength : UInt8 := 0x18
def staticGet : UInt8 := 0x19
def staticPut : UInt8 := 0x1A
def instanceGet : UInt8 := 0x1B
def instancePut : UInt8 := 0x1C
def invokeCustom : UInt8 := 0x28
def checkCast : UInt8 := 0x29
def instanceOf : UInt8 := 0x2A
def goto : UInt8 := 0x50
def returnValue : UInt8 := 0x61
def throw : UInt8 := 0x62
def phi : UInt8 := 0x63

/-- The opcode stands alone, without length byte and operands. -/
def isOneByte (op : UInt8) : Bool := op < firstWithOperands

/-- The opcode of a call. Virtual and interface calls have one opcode each, whatever the
    kind of their holder. -/
def ofInvoke : InvokeKind → Bool → UInt8
  | .static, false => 0x20
  | .static, true => 0x21
  | .virtual, _ => 0x22
  | .interface, _ => 0x23
  | .direct, false => 0x24
  | .direct, true => 0x25
  | .super, false => 0x26
  | .super, true => 0x27

/-- The call of an opcode, and whether its holder is an interface. -/
def invoke? (op : UInt8) : Option (InvokeKind × Bool) :=
  match op.toNat with
  | 0x20 => some (.static, false)
  | 0x21 => some (.static, true)
  | 0x22 => some (.virtual, false)
  | 0x23 => some (.interface, true)
  | 0x24 => some (.direct, false)
  | 0x25 => some (.direct, true)
  | 0x26 => some (.super, false)
  | 0x27 => some (.super, true)
  | _ => none

/-- The opcode of an arithmetic operation. -/
def ofBinary (op : BinaryOp) : NumericType → UInt8
  | .int => 0x30 + op.ordinal.toUInt8
  | .long => 0x40 + op.ordinal.toUInt8

/-- The arithmetic operation of an opcode. -/
def binary? (op : UInt8) : Option (BinaryOp × NumericType) :=
  let n := op.toNat
  if 0x30 ≤ n ∧ n < 0x40 then (BinaryOp.ofOrdinal? (n - 0x30)).map (·, .int)
  else if 0x40 ≤ n ∧ n < 0x50 then (BinaryOp.ofOrdinal? (n - 0x40)).map (·, .long)
  else none

/-- The opcode of a branch, with or without a right-hand side. References cannot be
    compared by order. -/
def ofBranch? (kind : Comparison) : ComparedType → Bool → Option UInt8
  | .int, false => some (0x51 + kind.ordinal.toUInt8)
  | .int, true => some (0x59 + kind.ordinal.toUInt8)
  | .object, false =>
    match kind with
    | .eq => some 0x57
    | .ne => some 0x58
    | _ => none
  | .object, true =>
    match kind with
    | .eq => some 0x5F
    | .ne => some 0x60
    | _ => none

/-- The branch of an opcode, and whether it has a right-hand side. -/
def branch? (op : UInt8) : Option (Comparison × ComparedType × Bool) :=
  match op.toNat with
  | 0x57 => some (.eq, .object, false)
  | 0x58 => some (.ne, .object, false)
  | 0x5F => some (.eq, .object, true)
  | 0x60 => some (.ne, .object, true)
  | n =>
    if 0x51 ≤ n ∧ n < 0x57 then (Comparison.ofOrdinal? (n - 0x51)).map (·, .int, false)
    else if 0x59 ≤ n ∧ n < 0x5F then (Comparison.ofOrdinal? (n - 0x59)).map (·, .int, true)
    else none

end Opcode

end DexShrinker
