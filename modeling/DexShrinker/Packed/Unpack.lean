/-
  DexShrinker/Packed/Unpack.lean
  ==============================
  **From packed bodies to bodies.**

  The stream is read once, front to back. A value gets a place when it is first
  mentioned; if that is before its definition it is unresolved until the definition
  is read. Blocks are collected under their starts, a start becomes known when it is
  jumped to or reached, and at the end the blocks are laid out by start. A stream is
  refused when a block runs into a known start, when a target never becomes a block,
  when a value stays unresolved, or when the result is not well formed.
-/
import DexShrinker.Body.Assembly
import DexShrinker.Packed.Instr

namespace DexShrinker

open Std

/-- What has been read of a stream. -/
structure Unpacker where
  values : List Value
  /-- The value of each value index that has been mentioned. -/
  slots : List (Option ValueId)
  /-- Blocks by start. Targets are still starts. -/
  blocks : TreeMap Nat DraftBlock := ∅
  /-- The start of the block being read. -/
  current : Option Nat := none
  line : Line := 0
  /-- Lines that start later in the stream. -/
  linesAhead : List LineEntry

/-- Steps that read a stream. -/
abbrev Unpacking := StateT Unpacker (Except PackedError)

namespace Unpacking

/-- The value with a value index, a new unresolved one at first mention. -/
def value (index : Nat) : Unpacking ValueId := do
  let s ← get
  match s.slots[index]? with
  | none => throw (.valueIndex index)
  | some (some v) => return v
  | some none =>
    let fresh : Value := ⟨.void, .unresolved⟩
    set { s with
      values := s.values ++ [fresh]
      slots := s.slots.set index (some s.values.length) }
    return s.values.length

/-- Define the value with a value index. -/
def define (index : Nat) (type : Descriptor) (origin : Origin) : Unpacking ValueId := do
  let v ← value index
  modify fun s => { s with values := s.values.set v ⟨type, origin⟩ }
  return v

/-- Make `start` a known block start. -/
def openBlock (start : Nat) : Unpacking Unit :=
  modify fun s =>
    if s.blocks.contains start then s else { s with blocks := s.blocks.insert start {} }

/-- Make the target of a jump a known block start. Nothing jumps to the entry or beyond
    the last instruction. -/
def openTarget (count start : Nat) : Unpacking Unit :=
  if start = 0 ∨ count ≤ start then throw (.blockTarget start) else openBlock start

/-- Change the block being read. -/
def onCurrent (f : DraftBlock → DraftBlock) : Unpacking Unit :=
  modify fun s =>
    let start := s.current.getD 0
    { s with blocks := s.blocks.insert start (f (s.blocks.getD start {})) }

/-- The operation of an instruction that is neither a phi nor a terminator, and the type
    of its result. -/
def operation (p : PackedBody) : PackedInstr → Unpacking (Op × Option Descriptor)
  | .constNull => return (.constNull, some .object)
  | .constInt v => return (.constInt v, some .int)
  | .constLong v => return (.constLong v, some .long)
  | .loadConstant c => do
    match ← p.constant c with
    | .string s => return (.constString s, some .string)
    | .type t => return (.constClass t, some .classObject)
    | .handle h => return (.constHandle h, some .methodHandle)
    | .proto q => return (.constMethodType q, some .methodType)
    | _ => throw (.constantKind c .loadable)
  | .newInstance t => do
    let t ← p.typeAt t
    return (.newInstance t, some t)
  | .newArray t size => do
    let t ← p.typeAt t
    return (.newArray t (← value size), some t)
  | .newUnboxedEnum t ordinal => do
    let t ← p.typeAt t
    return (.newUnboxedEnum t ordinal, some t)
  | .arrayGet t array index => do
    let t ← p.typeAt t
    return (.arrayGet t (← value array) (← value index), some t)
  | .arrayPut array index v => return (.arrayPut (← value array) (← value index) (← value v), none)
  | .arrayLength array => return (.arrayLength (← value array), some .int)
  | .staticGet f => do
    let f ← p.fieldAt f
    return (.staticGet f, some f.type)
  | .staticPut f v => do
    let f ← p.fieldAt f
    return (.staticPut f (← value v), none)
  | .instanceGet f object => do
    let f ← p.fieldAt f
    return (.instanceGet f (← value object), some f.type)
  | .instancePut f object v => do
    let f ← p.fieldAt f
    return (.instancePut f (← value object) (← value v), none)
  | .invoke kind itf m args => do
    let m ← p.methodAt m
    let args ← args.mapM value
    return (.invoke kind m args itf, resultType m.proto)
  | .invokeCustom site args => do
    match ← p.constant site with
    | .callSite cs =>
      let args ← args.mapM value
      return (.invokeCustom cs args, resultType cs.proto)
    | _ => throw (.constantKind site .callSite)
  | .checkCast t v => do
    let t ← p.typeAt t
    return (.checkCast t (← value v), some t)
  | .instanceOf t v => do
    let t ← p.typeAt t
    return (.instanceOf t (← value v), some .boolean)
  | .binary op .int lhs rhs => return (.binary op .int (← value lhs) (← value rhs), some .int)
  | .binary op .long lhs rhs => return (.binary op .long (← value lhs) (← value rhs), some .long)
  | _ => return (.debugPosition, none)
where
  /-- A call has a result unless its prototype returns nothing. -/
  resultType (proto : Prototype) : Option Descriptor :=
    if proto.returnType.isVoid then none else some proto.returnType

/-- End the block being read. -/
def terminate (t : Terminator) : Unpacking Unit := do
  let line := (← get).line
  onCurrent fun b => { b with terminator := some (t, line) }
  modify fun s => { s with current := none }

/-- Read one instruction into the current block. -/
def instruction (p : PackedBody) (view : InstrView) : PackedInstr → Unpacking Unit
  | .phi t operands => do
    let t ← p.typeAt t
    let dest ← define view.valueIndex t .phi
    let operands ← operands.mapM value
    onCurrent fun b => { b with phis := b.phis ++ [⟨dest, operands⟩] }
  | .goto target => do
    openTarget p.instructionCount target
    terminate (.goto target)
  | .fallthrough => do
    openTarget p.instructionCount (view.index + 1)
    terminate (.goto (view.index + 1))
  | .branch kind type target lhs rhs => do
    openTarget p.instructionCount target
    openTarget p.instructionCount (view.index + 1)
    let lhs ← value lhs
    let rhs ← rhs.mapM value
    terminate (.branch kind type lhs rhs target)
  | .ret v => do
    terminate (.ret (← v.mapM value))
  | .throw v => do
    terminate (.throw (← value v))
  | insn => do
    let (op, result) ← operation p insn
    let dest ← result.mapM fun t => define view.valueIndex t .instruction
    let line := (← get).line
    onCurrent fun b => { b with body := b.body ++ [⟨dest, op, line⟩] }

/-- Move on to the line in effect at an instruction. -/
def passLines (index : Nat) : Unpacking Unit :=
  modify fun s =>
    let passed := s.linesAhead.takeWhile (·.start ≤ index)
    { s with
      line := (passed.getLast?.map LineEntry.line).getD s.line
      linesAhead := s.linesAhead.drop passed.length }

/-- Enter the block that starts at an instruction if none is being read; a block being
    read must not run into another one's start. -/
def enterBlock (index : Nat) : Unpacking Unit := do
  let s ← get
  match s.current with
  | none =>
    set { s with current := some index }
    openBlock index
  | some start => if start ≠ index ∧ s.blocks.contains index then throw (.malformedBlock index)

/-- Read one item of the stream. -/
def step (p : PackedBody) (item : Except PackedError InstrView) : Unpacking Unit := do
  let view ← item
  passLines view.index
  enterBlock view.index
  instruction p view (← view.decode)

end Unpacking

namespace PackedBody

/-- The position of a block start in the layout. -/
def layoutIndex (starts : List Nat) (start : Nat) : Except PackedError BlockId :=
  match starts.idxOf? start with
  | some i => .ok i
  | none => .error (.blockTarget start)

/-- The handlers of the block that starts at `start`, with targets in the layout. -/
def layoutHandlers (p : PackedBody) (starts : List Nat) (start : Nat) : Except PackedError (List Handler) :=
  (p.handlers.getD start []).mapM fun h => return { h with target := (← layoutIndex starts h.target) }

/-- Every guarded block and every handler target is a block. -/
def checkHandlers (p : PackedBody) (starts : List Nat) : Except PackedError Unit :=
  p.handlers.toList.forM fun (start, hs) => do
    discard <| layoutIndex starts start
    hs.forM fun h => discard <| layoutIndex starts h.target

/-- Give a terminator its targets in the layout. -/
def layoutTerminator (starts : List Nat) : Terminator → Except PackedError Terminator
  | .goto t => return .goto (← layoutIndex starts t)
  | .branch kind type lhs rhs t => return .branch kind type lhs rhs (← layoutIndex starts t)
  | t => return t

/-- The blocks in layout order. -/
def layoutBlocks (p : PackedBody) (blocks : List (Nat × DraftBlock)) : Except PackedError (List Block) :=
  let starts := blocks.map Prod.fst
  blocks.mapM fun (start, b) => do
    match b.terminator with
    | none => throw (.blockTarget start)
    | some (t, line) =>
      let t ← layoutTerminator starts t
      return ⟨b.phis, b.body, t, line, ← p.layoutHandlers starts start⟩

/-- Lay out what was read and check it. -/
def close (p : PackedBody) (code : Body) (s : Unpacker) : Outcome PackedError Body := do
  if let some start := s.current then
    Outcome.raise (.body (.unterminatedBlock start))
  let blocks := s.blocks.toList
  Outcome.ofExcept id (p.checkHandlers (blocks.map Prod.fst))
  let laidOut ← Outcome.ofExcept id (p.layoutBlocks blocks)
  if let some v := s.values.findIdx? (·.origin == .unresolved) then
    Outcome.raise (.unresolvedValue v)
  let code := { code with values := s.values, blocks := laidOut }
  Outcome.mapError .body code.verify
  return code

/-- Unpack a body of `method` whose arguments have the given types. -/
def unpack (p : PackedBody) (method : MethodRef) (isStatic : Bool) (types : List Descriptor) :
    Outcome PackedError Body := do
  if types.length ≠ p.argumentCount then
    Outcome.raise (.argumentCount p.argumentCount types.length)
  let code := Body.withArguments method isStatic types
  let start : Unpacker :=
    { values := code.values
      slots := code.arguments.map some ++ List.replicate p.instructionCount none
      linesAhead := p.lines }
  let (_, s) ← Outcome.ofExcept id ((p.views.forM (Unpacking.step p)).run start)
  if p.instructionCount = 0 then
    Outcome.raise (.body (.unterminatedBlock 0))
  p.close code s

/-- Unpack a body where arithmetic is checked for overflow: a value operand whose index does not fit in sixty-four bits
    is a fault. What else is added up are numbers of instructions and values, which have thirty-two bits. -/
def unpackChecked (p : PackedBody) (method : MethodRef) (isStatic : Bool) (types : List Descriptor) :
    Outcome PackedError Body :=
  match p.unpack method isStatic types with
  | .error (.error e) => if e.overflows then Outcome.stop .overflow else Outcome.raise e
  | result => result

end PackedBody

end DexShrinker
