/-
  DexShrinker/Packed/Instr.lean
  =============================
  **Packed instructions and their bytes.**

  An instruction is an opcode and, unless the opcode stands alone, a length byte and
  that many operand bytes. Pool and block operands are unsigned numbers, literals are
  folded signed numbers, and a value operand is the folded distance from the value
  index of the instruction back to the value. Some operations end in any number of
  values, which run to the end of the operands.

  `PackedInstr.encode` writes an instruction and `InstrView.decode` reads one;
  `PackedBody.views` cuts a stream into instructions.
-/
import DexShrinker.Packed.Basic
import DexShrinker.Packed.Opcode
import DexShrinker.Packed.Varint

namespace DexShrinker

/-- An instruction with absolute value indices, pool indices and block starts. -/
inductive PackedInstr where
  | constNull
  | constInt (value : Int32)
  | constLong (value : Int64)
  | loadConstant (constant : Nat)
  | newInstance (type : Nat)
  | newArray (type size : Nat)
  | newUnboxedEnum (type : Nat) (ordinal : Int32)
  | arrayGet (type array index : Nat)
  | arrayPut (array index value : Nat)
  | arrayLength (array : Nat)
  | staticGet (field : Nat)
  | staticPut (field value : Nat)
  | instanceGet (field object : Nat)
  | instancePut (field object value : Nat)
  | invoke (kind : InvokeKind) (isInterface : Bool) (method : Nat) (args : List Nat)
  | invokeCustom (callSite : Nat) (args : List Nat)
  | checkCast (type value : Nat)
  | instanceOf (type value : Nat)
  | binary (op : BinaryOp) (type : NumericType) (lhs rhs : Nat)
  | debugPosition
  | goto (target : Nat)
  /-- Goes on with the block that starts at the next instruction. -/
  | fallthrough
  | branch (kind : Comparison) (type : ComparedType) (target lhs : Nat) (rhs : Option Nat)
  | ret (value : Option Nat)
  | throw (value : Nat)
  | phi (type : Nat) (operands : List Nat)
deriving DecidableEq

/-! ### Writing -/

namespace PackedInstr

/-- The instruction ends a block. -/
def isTerminator : PackedInstr → Bool
  | goto _ | fallthrough | branch .. | ret _ | throw _ => true
  | _ => false

/-- The integer constants with an opcode of their own. -/
def smallInt? (value : Int32) : Option UInt8 :=
  if 0 ≤ value ∧ value ≤ 5 then some value.toInt.toNat.toUInt8 else none

/-- The opcode of an instruction. -/
def opcode : PackedInstr → Except PackedError UInt8
  | constNull => .ok Opcode.constNull
  | constInt value =>
    match smallInt? value with
    | some small => .ok (Opcode.constIntZero + small)
    | none => .ok Opcode.constInt
  | constLong _ => .ok Opcode.constLong
  | loadConstant _ => .ok Opcode.loadConstant
  | newInstance _ => .ok Opcode.newInstance
  | newArray _ _ => .ok Opcode.newArray
  | newUnboxedEnum _ _ => .ok Opcode.newUnboxedEnum
  | arrayGet _ _ _ => .ok Opcode.arrayGet
  | arrayPut _ _ _ => .ok Opcode.arrayPut
  | arrayLength _ => .ok Opcode.arrayLength
  | staticGet _ => .ok Opcode.staticGet
  | staticPut _ _ => .ok Opcode.staticPut
  | instanceGet _ _ => .ok Opcode.instanceGet
  | instancePut _ _ _ => .ok Opcode.instancePut
  | invoke kind itf _ _ => .ok (Opcode.ofInvoke kind itf)
  | invokeCustom _ _ => .ok Opcode.invokeCustom
  | checkCast _ _ => .ok Opcode.checkCast
  | instanceOf _ _ => .ok Opcode.instanceOf
  | binary op type _ _ => .ok (Opcode.ofBinary op type)
  | debugPosition => .ok Opcode.debugPosition
  | goto _ => .ok Opcode.goto
  | fallthrough => .ok Opcode.fallthrough
  | branch kind type _ _ rhs =>
    match Opcode.ofBranch? kind type rhs.isSome with
    | some op => .ok op
    | none => .error (.unsupportedBranch kind)
  | ret none => .ok Opcode.returnVoid
  | ret (some _) => .ok Opcode.returnValue
  | throw _ => .ok Opcode.throw
  | phi _ _ => .ok Opcode.phi

/-- A pool index or a block start. -/
def indexBytes (index : Nat) : List UInt8 := Varint.write index.toUInt64

/-- A literal. -/
def intBytes (value : Int64) : List UInt8 := Varint.write (Varint.zigzag value)

/-- A value, as seen from the instruction with value index `current`. -/
def valueBytes (current value : Nat) : List UInt8 := intBytes (Int64.ofInt ((current : Int) - value))

/-- Any number of values. -/
def valuesBytes (current : Nat) (values : List Nat) : List UInt8 := values.flatMap (valueBytes current)

/-- The operand bytes of the instruction with value index `current`. -/
def operandBytes (current : Nat) : PackedInstr → List UInt8
  | constInt value => if (smallInt? value).isSome then [] else intBytes value.toInt64
  | constLong value => intBytes value
  | loadConstant c => indexBytes c
  | newInstance t => indexBytes t
  | newArray t size => indexBytes t ++ valueBytes current size
  | newUnboxedEnum t ordinal => indexBytes t ++ intBytes ordinal.toInt64
  | arrayGet t array index => indexBytes t ++ valueBytes current array ++ valueBytes current index
  | arrayPut array index value =>
    valueBytes current array ++ valueBytes current index ++ valueBytes current value
  | arrayLength array => valueBytes current array
  | staticGet f => indexBytes f
  | staticPut f value => indexBytes f ++ valueBytes current value
  | instanceGet f object => indexBytes f ++ valueBytes current object
  | instancePut f object value => indexBytes f ++ valueBytes current object ++ valueBytes current value
  | invoke _ _ m args => indexBytes m ++ valuesBytes current args
  | invokeCustom site args => indexBytes site ++ valuesBytes current args
  | checkCast t value => indexBytes t ++ valueBytes current value
  | instanceOf t value => indexBytes t ++ valueBytes current value
  | binary _ _ lhs rhs => valueBytes current lhs ++ valueBytes current rhs
  | goto target => indexBytes target
  | branch _ _ target lhs rhs =>
    indexBytes target ++ valueBytes current lhs ++ valuesBytes current rhs.toList
  | ret value => valuesBytes current value.toList
  | throw value => valueBytes current value
  | phi t operands => indexBytes t ++ valuesBytes current operands
  | constNull | debugPosition | fallthrough => []

/-- The head of an instruction with operands: its opcode and the length of the operands. -/
def headBytes (op : UInt8) (operandCount : Nat) : Except PackedError (List UInt8) :=
  if operandCount ≤ 255 then .ok [op, operandCount.toUInt8] else .error (.operandsTooLarge operandCount)

/-- The bytes of the instruction with value index `current`. -/
def encode (current : Nat) (i : PackedInstr) : Except PackedError (List UInt8) := do
  let op ← i.opcode
  let operands := i.operandBytes current
  if Opcode.isOneByte op then
    return [op]
  else
    return (← headBytes op operands.length) ++ operands

end PackedInstr

/-! ### Reading -/

/-- An instruction of a stream with its operands still in bytes. -/
structure InstrView where
  /-- The index of the instruction. -/
  index : Nat
  valueIndex : Nat
  /-- Where the opcode stands in the stream. -/
  offset : Nat
  opcode : UInt8
  operands : List UInt8
deriving DecidableEq

/-- Where the reading of operands stands. -/
structure OperandCursor where
  rest : List UInt8
  offset : Nat
deriving DecidableEq

/-- Readers of operands. -/
abbrev OperandReader := StateT OperandCursor (Except PackedError)

namespace OperandReader

/-- One number at a cursor, with the cursor behind it. -/
def next (c : OperandCursor) : Except PackedError (UInt64 × OperandCursor) :=
  match Varint.read? c.rest with
  | some (v, rest) => .ok (v, ⟨rest, c.offset + (c.rest.length - rest.length)⟩)
  | none => .error (.truncated (c.offset + c.rest.length))

/-- An unsigned number. -/
def word : OperandReader UInt64 := fun c => next c

/-- A pool index or a block start; it has thirty-two bits. -/
def index : OperandReader Nat := do
  let start := (← get).offset
  let raw ← word
  if raw.toNat < UInt32.size then return raw.toNat else throw (.truncated start)

/-- A literal of sixty-four bits. -/
def long : OperandReader Int64 := return Varint.unzigzag (← word)

/-- A literal of thirty-two bits. -/
def int : OperandReader Int32 := do
  let start := (← get).offset
  let v ← long
  if v.toInt32.toInt64 = v then return v.toInt32 else throw (.truncated start)

/-- The value at a distance before the value index `current`. The difference has sixty-four bits and wraps around, to a
    negative number. Where arithmetic is checked for overflow, that is a fault (see `PackedBody.unpackChecked`), so the
    error keeps the exact difference. -/
def valueAt (current : Nat) (distance : Int64) : Except PackedError Nat :=
  let i := (Int64.ofInt current - distance).toInt
  if 0 ≤ i ∧ i.toNat < UInt32.size then .ok i.toNat else .error (.valueIndex (current - distance.toInt))

/-- A value, as seen from the instruction with value index `current`. -/
def value (current : Nat) : OperandReader Nat := do
  let distance ← long
  valueAt current distance

/-- The values up to the end of the operands. -/
def valuesFrom (current : Nat) (c : OperandCursor) : Except PackedError (List Nat) :=
  if c.rest.isEmpty then .ok []
  else
    match _ : Varint.read? c.rest with
    | none => .error (.truncated (c.offset + c.rest.length))
    | some (v, rest) => do
      let value ← valueAt current (Varint.unzigzag v)
      let values ← valuesFrom current ⟨rest, c.offset + (c.rest.length - rest.length)⟩
      return value :: values
termination_by c.rest.length
decreasing_by exact Varint.length_of_read? ‹_›

/-- The values up to the end of the operands; nothing is left behind them. -/
def values (current : Nat) : OperandReader (List Nat) := fun c => do
  let vs ← valuesFrom current c
  return (vs, ⟨[], c.offset + c.rest.length⟩)

end OperandReader

namespace InstrView

open OperandReader

/-- Read the operands an opcode asks for. -/
def instruction (view : InstrView) : OperandReader PackedInstr :=
  let index := OperandReader.index
  let value := OperandReader.value view.valueIndex
  let values := OperandReader.values view.valueIndex
  match view.opcode.toNat with
  | 0x01 => return .constNull
  | 0x02 => return .constInt 0
  | 0x03 => return .constInt 1
  | 0x04 => return .constInt 2
  | 0x05 => return .constInt 3
  | 0x06 => return .constInt 4
  | 0x07 => return .constInt 5
  | 0x08 => return .ret none
  | 0x09 => return .debugPosition
  | 0x0A => return .fallthrough
  | 0x10 => return .constInt (← int)
  | 0x11 => return .constLong (← long)
  | 0x12 => return .loadConstant (← index)
  | 0x13 => return .newInstance (← index)
  | 0x14 => return .newArray (← index) (← value)
  | 0x15 => return .newUnboxedEnum (← index) (← int)
  | 0x16 => return .arrayGet (← index) (← value) (← value)
  | 0x17 => return .arrayPut (← value) (← value) (← value)
  | 0x18 => return .arrayLength (← value)
  | 0x19 => return .staticGet (← index)
  | 0x1A => return .staticPut (← index) (← value)
  | 0x1B => return .instanceGet (← index) (← value)
  | 0x1C => return .instancePut (← index) (← value) (← value)
  | 0x28 => return .invokeCustom (← index) (← values)
  | 0x29 => return .checkCast (← index) (← value)
  | 0x2A => return .instanceOf (← index) (← value)
  | 0x50 => return .goto (← index)
  | 0x61 => return .ret (some (← value))
  | 0x62 => return .throw (← value)
  | 0x63 => return .phi (← index) (← values)
  | _ =>
    match Opcode.invoke? view.opcode, Opcode.binary? view.opcode, Opcode.branch? view.opcode with
    | some (kind, itf), _, _ => return .invoke kind itf (← index) (← values)
    | none, some (op, type), _ => return .binary op type (← value) (← value)
    | none, none, some (kind, type, true) =>
      return .branch kind type (← index) (← value) (some (← value))
    | none, none, some (kind, type, false) => return .branch kind type (← index) (← value) none
    | none, none, none => throw (.unknownOpcode view.opcode view.offset)

/-- Read an instruction. Operands left over count as a broken stream. -/
def decode (view : InstrView) : Except PackedError PackedInstr := do
  let (insn, c) ← view.instruction.run ⟨view.operands, view.offset + 2⟩
  if c.rest.isEmpty then return insn else throw (.truncated c.offset)

end InstrView

/-- Cut a stream into instructions, numbering them from `index`; the first instruction
    that runs over the end is the last item. -/
def scanBytes (argumentCount offset index : Nat) : List UInt8 → List (Except PackedError InstrView)
  | [] => []
  | op :: rest =>
    if Opcode.isOneByte op then
      .ok ⟨index, valueIndexOf argumentCount index, offset, op, []⟩ :: scanBytes argumentCount (offset + 1) (index + 1) rest
    else
      match rest with
      | [] => [.error (.truncated (offset + 1))]
      | len :: tail =>
        if tail.length < len.toNat then [.error (.truncated (offset + 2 + tail.length))]
        else
          .ok ⟨index, valueIndexOf argumentCount index, offset, op, tail.take len.toNat⟩ ::
            scanBytes argumentCount (offset + 2 + len.toNat) (index + 1) (tail.drop len.toNat)
termination_by bytes => bytes.length
decreasing_by
  · exact Nat.lt_succ_self _
  · rw [List.length_drop]
    exact Nat.lt_succ_of_le (Nat.le_succ_of_le (Nat.sub_le _ _))

/-- The instructions of a packed body. -/
def PackedBody.views (p : PackedBody) : List (Except PackedError InstrView) :=
  scanBytes p.argumentCount 0 0 p.bytes

end DexShrinker
