/-
  DexShrinker/Unboxing/UseSites.lean
  ==================================
  **Every place where an enum value is used.**

  An enum value may go wherever the enum is expected, and null may stand for it. It may
  be compared with values of the same enum, have the methods of the base class that are
  supported and its own methods called, and its own fields read. Any other use shows
  that it is an object, and rejects the enum.

  A scan of a body gives its findings in order: reasons to reject an enum, and instance
  fields that are read.
-/
import DexShrinker.Unboxing.Candidates
import DexShrinker.Body.Flow

namespace DexShrinker

namespace UseSites

/-- What a use shows. -/
inductive Finding where
  | rejects (enum : Descriptor) (reason : Reason)
  | reads (field : FieldRef)

/-- The body under scan. -/
structure Site where
  program : Program
  tracked : TypeSet
  /-- The method that has the body. -/
  method : MethodDef
  body : Body
  defs : Definitions
  useCounts : List Nat

namespace Site

/-- The tracked enum that a type is, or is an array of. -/
def enumOf (s : Site) (t : Descriptor) : Option Descriptor :=
  if s.tracked.contains t.base then some t.base else none

/-- The tracked enum that a type is itself. -/
def exactEnum (s : Site) (t : Descriptor) : Option Descriptor :=
  (s.enumOf t).filter (· == t)

/-- The tracked enum of a value's type. -/
def valueEnum (s : Site) (v : ValueId) : Guarded (Option Descriptor) := return s.enumOf (← s.body.typeOf v)

/-- The body belongs to the class initializer of `enum`. -/
def initializes (s : Site) (enum : Descriptor) : Bool :=
  s.method.isClassInitializer && s.method.ref.holder == enum

/-- The body lets an enum escape. -/
def escape (s : Site) (enum : Option Descriptor) : List Finding :=
  enum.toList.map (.rejects · (.escapes s.method.ref))

/-- All enums among the types escape. -/
def escapeAll (s : Site) (types : List Descriptor) : List Finding :=
  types.flatMap fun t => s.escape (s.enumOf t)

/-- A value goes where the type `expected` is expected. -/
def flow (s : Site) (v : ValueId) (expected : Descriptor) : Guarded (List Finding) := do
  let actual ← s.body.typeOf v
  if actual = expected then return []
  else return s.escape (s.enumOf actual) ++ if s.defs.isNull v then [] else s.escape (s.enumOf expected)

/-- An access to a static field. -/
def staticField (s : Site) (f : FieldRef) (isWrite : Bool) : List Finding :=
  match s.exactEnum f.holder with
  | none => []
  | some e =>
    match (s.program.class? e).bind (·.field? f) with
    | none => [.rejects e (.invalidFieldAccess f)]
    | some d =>
      if d.isEnumConstant e || d.isEnumValues e then
        if isWrite && !s.initializes e then [.rejects e (.invalidFieldAccess f)] else []
      else if isWrite then [] else [.rejects e (.unexpectedStaticField f)]

/-- The enum whose instance field is accessed: that of the object, or else the holder. -/
def accessedEnum (s : Site) (f : FieldRef) (object : ValueId) : Guarded (Option Descriptor) :=
  return (← s.valueEnum object) <|> s.enumOf f.holder

/-- The types a handle names. -/
def handleTypes (h : MethodHandle) : List Descriptor :=
  match h.member with
  | .field f => [f.holder, f.type]
  | .method m => m.holder :: m.proto.types

/-- The types a bootstrap argument names. -/
def bootstrapTypes : BootstrapArg → List Descriptor
  | .type t => [t]
  | .proto p => p.types
  | .handle h => handleTypes h
  | .int _ | .string _ => []

/-- A call seen from its receiver. Also says whether it compares two enum values. -/
def receiver (s : Site) (kind : InvokeKind) (m : MethodRef) : Option Descriptor → List Finding × Bool
  | some e =>
    match ReceiverCall.classify (s.program.class? e) kind m with
    | .declared =>
      (if m.isInstanceInitializer && !s.initializes e then [.rejects e (.invalidInvoke m)] else [], false)
    | .supported method => ([], method.isBinary)
    | .invalid => ([.rejects e (.invalidInvoke m)], false)
  | none =>
    match s.exactEnum m.holder with
    | some e =>
      (if ((s.program.class? e).bind (·.method? m)).isSome then [] else [.rejects e (.invalidInvoke m)], false)
    | none => ([], false)

/-- An argument of a call. The second operand of a comparison must have the enum of the
    receiver. -/
def argument (s : Site) (m : MethodRef) (compared : Option Descriptor) (arg : ValueId) (param : Descriptor) :
    Guarded (List Finding) := do
  match compared with
  | none => s.flow arg param
  | some e =>
    if (← s.body.typeOf arg) = e || s.defs.isNull arg then return []
    else return .rejects e (.invalidInvoke m) :: (← s.flow arg param)

/-- A check for null: its result must not be used. -/
def nullCheck (s : Site) (args : List ValueId) (dest : Option ValueId) : Guarded (List Finding) := do
  match args.head? with
  | none => return []
  | some v =>
    match ← s.valueEnum v with
    | none => return []
    | some e =>
      match dest with
      | none => return []
      | some d =>
        let uses ← entryOr s.useCounts d (.valueOutOfRange d)
        return if uses > 0 then s.escape (some e) else []

/-- A call. -/
def invoke (s : Site) (kind : InvokeKind) (m : MethodRef) (args : List ValueId) (dest : Option ValueId) :
    Guarded (List Finding) := do
  let enum ← match kind, args.head? with
    | .static, _ | _, none => pure none
    | _, some r => s.valueEnum r
  let (found, isComparison) := s.receiver kind m enum
  if m.isRequireNonNull then return found ++ (← s.nullCheck args dest)
  else
    let passed := if kind = .static then args else args.drop 1
    let compared := if isComparison then enum else none
    return found ++ (← (passed.zip m.proto.parameters).mapM fun (arg, param) => s.argument m compared arg param).flatten

/-- One operation. -/
def operation (s : Site) (dest : Option ValueId) : Op → Guarded (List Finding)
  | .constClass t => return (s.enumOf t).toList.map (.rejects · .invalidConstClass)
  | .constHandle h => return s.escapeAll (handleTypes h)
  | .constMethodType p => return s.escapeAll p.types
  | .newInstance t =>
    return if s.tracked.contains t && !s.initializes t then [.rejects t (.unexpectedNewInstance s.method.ref)] else []
  | .arrayPut array _ value => do
    let element := (← s.body.typeOf array).element?.getD .object
    let actual ← s.body.typeOf value
    if actual = element then return []
    else
      let expected := if s.defs.isNull value then none else s.enumOf element
      return ((s.enumOf actual).toList ++ expected.toList).map (.rejects · .invalidArrayStore)
  | .staticGet f => return s.staticField f false
  | .staticPut f value => return (← s.flow value f.type) ++ s.staticField f true
  | .instanceGet f object => do
    match ← s.accessedEnum f object with
    | none => return []
    | some e =>
      let isDeclared := ((s.program.class? e).bind (·.field? f)).any (!·.isStatic)
      return if f.holder == e && isDeclared then [.reads f] else [.rejects e (.invalidFieldAccess f)]
  | .instancePut f object value => do
    let found ← s.flow value f.type
    return found ++ (← s.accessedEnum f object).toList.map (.rejects · (.invalidFieldAccess f))
  | .invoke kind m args _ => s.invoke kind m args dest
  | .invokeCustom site args => do
    let passed ← args.mapM s.body.typeOf
    return s.escapeAll (site.proto.types ++ passed ++ site.bootstrapArgs.flatMap bootstrapTypes)
  | .checkCast t value => s.flow value t
  | .instanceOf t value =>
    return ((s.enumOf t).toList ++ (← s.valueEnum value).toList).map (.rejects · .invalidInstanceOf)
  | _ => return []

/-- A terminator. Two values are only compared within one enum, or with null. -/
def terminator (s : Site) : Terminator → Guarded (List Finding)
  | .ret (some v) => s.flow v s.body.method.proto.returnType
  | .branch _ .object lhs (some rhs) _ => do
    let l ← s.body.typeOf lhs
    let r ← s.body.typeOf rhs
    if (s.enumOf l).isSome && !s.defs.isNull rhs then s.flow rhs l
    else if (s.enumOf r).isSome && !s.defs.isNull lhs then s.flow lhs r
    else return []
  | _ => return []

/-- A phi. -/
def phi (s : Site) (p : Phi) : Guarded (List Finding) := do
  let t ← s.body.typeOf p.dest
  return (← p.operands.mapM (s.flow · t)).flatten

/-- A block. -/
def block (s : Site) (b : Block) : Guarded (List Finding) := do
  return (← b.phis.mapM s.phi).flatten ++ (← b.body.mapM fun i => s.operation i.dest i.op).flatten
    ++ (← s.terminator b.terminator)

end Site

/-- The findings in the body of a method. -/
def ofMethod (p : Program) (tracked : TypeSet) (m : MethodDef) (c : Body) : Guarded (List Finding) := do
  let s : Site := ⟨p, tracked, m, c, .ofBody c, ← c.useCounts⟩
  return (← c.blocks.mapM s.block).flatten

/-- The findings in all bodies, except those that unboxing replaces. -/
def scan (p : Program) (tracked : TypeSet) : Outcome EnumError (List Finding) := do
  if tracked.isEmpty then return []
  let found ← (p.programClasses.flatMap fun c => c.methods.map fun m => (c, m)).mapM
    fun ((c, m) : ClassDef × MethodDef) => do
      if tracked.contains c.type && m.isReplacedInEnum c.type then return ([] : List Finding)
      match ← m.decoded with
      | none => return []
      | some body => ofMethod p tracked m body
  return found.flatten

/-- The reasons with those that were found. -/
def reject (r : Rejections) (found : List Finding) : Rejections :=
  found.foldl (fun (r : Rejections) f =>
    match f with
    | .rejects e reason => r.add e reason
    | .reads _ => r) r

/-- The instance fields that were found to be read. -/
def readFields (found : List Finding) : FieldSet :=
  .ofList (found.filterMap fun
    | .reads f => some f
    | .rejects .. => none)

end UseSites

end DexShrinker
