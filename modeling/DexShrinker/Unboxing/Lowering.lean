/-
  DexShrinker/Unboxing/Lowering.lean
  ==================================
  **Bodies without enum objects.**

  A body is lowered under the names from before unboxing, and goes through the lens
  afterwards. Whatever needs an enum as an object becomes an operation on numbers: a
  constant becomes its number, null becomes `0` where an enum is expected, methods of the
  base class become calls of utilities, reads of instance fields become getter calls, and
  casts to an enum go. New types are left to the lens.
-/
import DexShrinker.Body.Flow
import DexShrinker.Unboxing.Dissolve

namespace DexShrinker

open Std

/-- What a lowering has to know about the enums that became numbers. -/
structure UnboxedEnums where
  /-- The enums as they were. -/
  classes : TypeMap ClassDef
  shared : SharedUtility
  locals : TypeMap LocalUtility
  data : EnumTable

namespace UnboxedEnums

def types (u : UnboxedEnums) : TypeSet := .ofList u.classes.keys

/-- The type is an enum that became a number. -/
def isUnboxed (u : UnboxedEnums) (t : Descriptor) : Bool := u.classes.contains t

/-- The type is such an enum or an array of it. -/
def mentions (u : UnboxedEnums) (t : Descriptor) : Bool := u.isUnboxed t.base

def fieldMentions (u : UnboxedEnums) (f : FieldRef) : Bool := u.mentions f.holder || u.mentions f.type

def methodMentions (u : UnboxedEnums) (m : MethodRef) : Bool := u.mentions m.holder || m.proto.types.any u.mentions

/-- A constant of a packed body names an enum. -/
def constantMentions (u : UnboxedEnums) : Constant → Bool
  | .type t => u.mentions t
  | .field f => u.fieldMentions f
  | .method m => u.methodMentions m
  | .proto p => p.types.any u.mentions
  | .handle h =>
    match h.member with
    | .field f => u.fieldMentions f
    | .method m => u.methodMentions m
  | .callSite c => c.proto.types.any u.mentions
  | .string _ => false

/-- A packed body names an enum. -/
def mentionedBy (u : UnboxedEnums) (p : PackedBody) : Bool := p.constants.any u.constantMentions

/-! ### Casts -/

/-- The values that casts to enums define, and what they cast. -/
def casts (u : UnboxedEnums) (c : Body) : TreeMap ValueId ValueId :=
  (c.blocks.flatMap Block.body).foldl (fun aliases i =>
    match i.op, i.dest with
    | .checkCast t v, some d => if u.isUnboxed t then aliases.insert d v else aliases
    | _, _ => aliases) ∅

/-- The instruction is a cast to an enum that defines a value. -/
def isCast (u : UnboxedEnums) (i : Instr) : Bool :=
  match i.op, i.dest with
  | .checkCast t _, some _ => u.isUnboxed t
  | _, _ => false

/-- Follow casts back to the value that went into the first of them. A way through more casts
    than there are, of which `fuel` is one more, comes back to itself and never ends. -/
def followCasts (aliases : TreeMap ValueId ValueId) : (fuel : Nat) → ValueId → Guarded ValueId
  | 0, _ => .error .diverges
  | fuel + 1, v =>
    match aliases[v]? with
    | some w => followCasts aliases fuel w
    | none => .ok v

/-- Take out the casts to enums, and read what they cast in place of their results. -/
def removeCasts (u : UnboxedEnums) (c : Body) : Guarded Body := do
  let aliases := u.casts c
  let kept : Body := { c with blocks := c.blocks.map fun b => { b with body := b.body.filter (!u.isCast ·) } }
  aliases.keys.foldlM (fun (c : Body) v => do
    return c.replaceReads v (← followCasts aliases (aliases.size + 1) v)) kept

/-! ### Operations -/

/-- What is known about the values of a body. -/
structure BodyFacts where
  /-- Values that are a constant of an enum, with the ordinal. -/
  ordinals : TreeMap ValueId Int32 := ∅
  /-- Values that are null. -/
  nulls : TreeSet ValueId := ∅

/-- What one instruction tells about the value it defines. -/
def learn (u : UnboxedEnums) (facts : BodyFacts) (i : Instr) : BodyFacts :=
  match i.dest, i.op with
  | some d, .constNull => { facts with nulls := facts.nulls.insert d }
  | some d, .newUnboxedEnum _ ordinal => { facts with ordinals := facts.ordinals.insert d ordinal }
  | some d, .staticGet f =>
    match u.data.constantFor? f with
    | some c => { facts with ordinals := facts.ordinals.insert d c.ordinal }
    | none => facts
  | _, _ => facts

/-- The values of the body, which grow, and the value that is `0` once there is one. -/
structure LoweringState where
  values : List Value
  zero : Option ValueId := none

/-- Steps of a lowering. -/
abbrev Lowering := StateT LoweringState (Except Fault)

namespace Lowering

/-- A new number. -/
def newInt : Lowering ValueId :=
  modifyGet fun s => (s.values.length, { s with values := s.values ++ [⟨.int, .instruction⟩] })

/-- The value that is `0`. -/
def zeroValue : Lowering ValueId := do
  match (← get).zero with
  | some v => return v
  | none =>
    let v ← newInt
    modify fun s => { s with zero := some v }
    return v

/-- The type of a value. -/
def typeOf (v : ValueId) : Lowering Descriptor := do
  return (← StateT.lift (entryOr (← get).values v (.valueOutOfRange v))).type

end Lowering

open Lowering

/-- A value that goes where an enum is expected or not: null becomes `0` for an enum. -/
def unboxValue (facts : BodyFacts) (v : ValueId) (intoEnum : Bool) : Lowering ValueId :=
  if intoEnum && facts.nulls.contains v then zeroValue else return v

/-- The enum of a value, if it has one. -/
def valueEnum (u : UnboxedEnums) (v : ValueId) : Lowering (Option Descriptor) := do
  let t ← typeOf v
  return if u.isUnboxed t then some t else none

/-- Arguments of a call, which are beyond the parameters where they have no type. -/
def unboxArguments (u : UnboxedEnums) (facts : BodyFacts) : List ValueId → List Descriptor → Lowering (List ValueId)
  | [], _ => return []
  | v :: vs, [] => return v :: (← u.unboxArguments facts vs [])
  | v :: vs, t :: ts => return (← unboxValue facts v (u.isUnboxed t)) :: (← u.unboxArguments facts vs ts)

/-- A call of a static utility. -/
def utilityCall (m : MethodRef) (args : List ValueId) : Op := .invoke .static m args false

/-- A call of a method of the base class on `enum`. The ordinal of a constant is known. -/
def baseCall (u : UnboxedEnums) (facts : BodyFacts) (enum : Descriptor) (method : EnumMethod) (args : List ValueId) :
    Lowering Op := do
  let args ← match method.isBinary, args with
    | true, receiver :: other :: rest => pure (receiver :: (← unboxValue facts other true) :: rest)
    | _, args => pure args
  let named := (u.locals[enum]?).map LocalUtility.nameMethod
  match method, args.head?.bind (facts.ordinals[·]?), named with
  | .ordinal, some n, _ | .hashCode, some n, _ => return .constInt n
  | .ordinal, none, _ | .hashCode, none, _ => return utilityCall u.shared.ordinal args
  | .compareTo, _, _ => return utilityCall u.shared.compareTo args
  | .equals, _, _ => return utilityCall u.shared.equals args
  | .name, _, some m | .toString, _, some m => return utilityCall m args
  | .name, _, none | .toString, _, none => throw (.missing enum.text)

/-- A call of `values`, with the number of constants as its argument. -/
def valuesCall (u : UnboxedEnums) (d : EnumData) : Lowering (List Instr × Op) := do
  let size ← newInt
  return ([⟨some size, .constInt (.ofNat d.size), 0⟩], utilityCall u.shared.values [size])

/-- A call whose receiver is a value of `enum`, if it is one that unboxing knows. -/
def receiverCall (u : UnboxedEnums) (facts : BodyFacts) (enum : Descriptor) (kind : InvokeKind) (m : MethodRef)
    (args : List ValueId) : Lowering (Option Op) := do
  match ReceiverCall.classify u.classes[enum]? kind m with
  | .declared =>
    let args ← u.unboxArguments facts args (m.argumentTypes false)
    return some (.invoke .virtual { m with holder := enum } args false)
  | .supported method => return some (← u.baseCall facts enum method args)
  | .invalid => return none

/-- A static call that has a utility in its place. -/
def staticCall (u : UnboxedEnums) (m : MethodRef) (args : List ValueId) : Lowering (Option (List Instr × Op)) := do
  match (u.data[m.holder]?).filter fun _ => m.isEnumValues m.holder with
  | some d => return some (← u.valuesCall d)
  | none =>
    match args with
    | v :: _ =>
      if !m.isRequireNonNull then return none
      else if (← u.valueEnum v).isSome then
        let check := if args.length = 2 then u.shared.checkNotZeroWithMessage else u.shared.checkNotZero
        return some ([], utilityCall check args)
      else return none
    | [] => return none

/-- A call, with the instructions that it needs in front. -/
def call (u : UnboxedEnums) (facts : BodyFacts) (kind : InvokeKind) (m : MethodRef) (args : List ValueId)
    (isInterface : Bool) : Lowering (List Instr × Op) := do
  let special ← match kind, args with
    | .static, args => u.staticCall m args
    | _, [] => pure none
    | kind, v :: vs =>
      match ← u.valueEnum v with
      | some e => pure ((← u.receiverCall facts e kind m (v :: vs)).map fun op => ([], op))
      | none => pure none
  match special with
  | some replaced => return replaced
  | none =>
    let args ← u.unboxArguments facts args (m.argumentTypes (kind == .static))
    return ([], .invoke kind m args isInterface)

/-- A call defines a value only if it returns one. -/
def callDest (dest : Option ValueId) : Op → Option ValueId
  | .invoke _ m _ _ => if m.proto.returnType.isVoid then none else dest
  | _ => dest

/-- One instruction. -/
def instr (u : UnboxedEnums) (facts : BodyFacts) (i : Instr) : Lowering (List Instr) := do
  match i.op with
  | .newUnboxedEnum _ ordinal => return [{ i with op := .constInt (unboxedValue ordinal) }]
  | .staticGet f =>
    match u.data.constantFor? f with
    | some c => return [{ i with op := .constInt (unboxedValue c.ordinal) }]
    | none => return [i]
  | .staticPut f v => return [{ i with op := .staticPut f (← unboxValue facts v (u.isUnboxed f.type)) }]
  | .instancePut f object v =>
    return [{ i with op := .instancePut f object (← unboxValue facts v (u.isUnboxed f.type)) }]
  | .instanceGet f object =>
    match u.locals[f.holder]? with
    | some l => return [{ i with op := utilityCall (l.getter f (f.type.unbox u.types)) [object] }]
    | none => return [i]
  | .arrayPut array index v =>
    let intoEnum := (← typeOf array).element?.any u.isUnboxed
    return [{ i with op := .arrayPut array index (← unboxValue facts v intoEnum) }]
  | .invoke kind m args isInterface =>
    let (before, op) ← u.call facts kind m args isInterface
    return before ++ [{ i with op := op, dest := callDest i.dest op }]
  | _ => return [i]

/-- A terminator. A comparison with an enum value compares numbers. -/
def terminator (u : UnboxedEnums) (facts : BodyFacts) (returnsEnum : Bool) : Terminator → Lowering Terminator
  | .ret (some v) => return .ret (some (← unboxValue facts v returnsEnum))
  | .branch kind .object lhs rhs target => do
    let comparesEnum ← match ← u.valueEnum lhs, rhs with
      | some _, _ => pure true
      | none, some r => pure (← u.valueEnum r).isSome
      | none, none => pure false
    if comparesEnum then
      let lhs ← unboxValue facts lhs true
      let rhs ← match rhs with
        | some r => some <$> unboxValue facts r true
        | none => pure none
      return .branch kind .int lhs rhs target
    else return .branch kind .object lhs rhs target
  | t => return t

/-- A phi. -/
def phi (u : UnboxedEnums) (facts : BodyFacts) (p : Phi) : Lowering Phi := do
  let intoEnum := u.isUnboxed (← typeOf p.dest)
  return { p with operands := ← p.operands.mapM (unboxValue facts · intoEnum) }

/-- A block. -/
def block (u : UnboxedEnums) (facts : BodyFacts) (returnsEnum : Bool) (b : Block) : Lowering Block := do
  let phis ← b.phis.mapM (u.phi facts)
  let body ← b.body.mapM (u.instr facts)
  return { b with phis := phis, body := body.flatten, terminator := ← u.terminator facts returnsEnum b.terminator }

/-- Define the value that is `0` where the body starts. -/
def defineZero (zero : Option ValueId) : List Block → List Block
  | [] => []
  | b :: bs => { b with body := zero.toList.map (fun v => ⟨some v, .constInt 0, 0⟩) ++ b.body } :: bs

/-- Lower a body that is written under the names from before unboxing. -/
def lower (u : UnboxedEnums) (c : Body) : Guarded Body := do
  let c ← u.removeCasts c
  let facts := (c.blocks.flatMap Block.body).foldl u.learn {}
  let returnsEnum := u.isUnboxed c.method.proto.returnType
  let (blocks, s) ← StateT.run (c.blocks.mapM (u.block facts returnsEnum)) { values := c.values }
  return (← ({ c with values := s.values, blocks := defineZero s.zero blocks }).removeDead).2

end UnboxedEnums

end DexShrinker
