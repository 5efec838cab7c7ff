/-
  DexShrinker/Flow/Scan.lean
  ==========================
  **What calls pass and what assignments store.**

  Every body of a program class is gone through. What is known on the spot about an
  argument or an assigned value becomes a state right away: constants, new objects, null.
  Values that come from a parameter of the method or from a field become sources. Methods
  that can be called from elsewhere may get anything: pinned ones, those behind method
  handles, and those that override a library method.
-/
import DexShrinker.App.View
import DexShrinker.Flow.MethodState
import DexShrinker.Packed.Unpack

namespace DexShrinker

open Std

/-- Why arguments could not be propagated. -/
inductive FlowError where
  | decode (method : MethodRef) (cause : PackedError)
deriving DecidableEq

/-- The wording of an error. -/
def FlowError.message : FlowError → String
  | decode m e => "cannot decode " ++ m.text ++ ": " ++ e.message

namespace Program

/-- The class with a type, if it is a program class. -/
def ownClass? (p : Program) (t : Descriptor) : Option ClassDef := (p.class? t).filter (·.isProgram)

/-- The methods below that override `m` and have a body, in the order of types. -/
def overrides (p : Program) (m : MethodDef) : List MethodDef :=
  ((p.subtypes m.ref.holder).toList.filterMap p.ownClass?).filterMap fun c =>
    (c.methodBySignature? m.ref.signature).filter fun d => d.isVirtual && !d.isAbstract

/-- Some library class above `c` has a method with the signature of `m`. -/
def overridesLibrary (p : Program) (c : ClassDef) (m : MethodDef) : Bool :=
  m.isVirtual && ((c.supertypes.flatMap p.ancestors).filterMap p.class?).any fun d =>
    d.isLibrary && (d.methodBySignature? m.ref.signature).isSome

end Program

/-- The states of methods and fields. -/
structure FlowStates where
  methods : MethodStates := ∅
  fields : FieldStates := ∅

namespace Scan

/-- The body under scan. -/
structure Site where
  joiner : Joiner
  body : Body
  /-- The operation that defines a value. -/
  definitions : TreeMap ValueId Op

namespace Site

/-- The scan of a body; of several definitions of a value the last one counts. -/
def ofBody (j : Joiner) (c : Body) : Site where
  joiner := j
  body := c
  definitions := (c.blocks.flatMap Block.body).foldl (fun defs i =>
    match i.dest with
    | some v => defs.insert v i.op
    | none => defs) ∅

def program (s : Site) : Program := s.joiner.program

/-- The parameter that a value is. -/
def parameter? (s : Site) (v : ValueId) : Guarded (Option FlowSource) := do
  match (← entryOr s.body.values v (.valueOutOfRange v)).origin with
  | .argument i => return some (.parameter ⟨s.body.method, i⟩)
  | _ => return none

/-- The integer that a value is. -/
def integer? (s : Site) (v : ValueId) : Option Int64 :=
  match s.definitions[v]? with
  | some (.constInt n) => some n.toInt64
  | some (.constLong n) => some n
  | _ => none

/-- A parameter combined with a constant, in the given order. -/
def orWith (s : Site) (v constant : ValueId) : Guarded (Option FlowFunction) := do
  match ← s.parameter? v with
  | none => return none
  | some p => return (s.integer? constant).map (.or p)

/-- What the operation that defines a value says about it, where `static` is the type of the
    place that the value goes to. -/
def definedState (s : Site) (static : Descriptor) : Op → Guarded ValueState
  | .constInt n => return if static.isPrimitive then .primitive (.single n.toInt64) else .unknown
  | .constLong n => return if static.isPrimitive then .primitive (.single n) else .unknown
  | .constNull =>
    return if static.isArray then .array .definitelyNull
      else if static.isReference then .object .null (.below static .definitelyNull)
      else .unknown
  | .constString t => return .object (.string t) (.exact .string)
  | .newInstance t => return .object .unknown (.exact t)
  | .newArray _ _ => return .array .definitelyNotNull
  | .checkCast t v => do
    match ← s.parameter? v with
    | some p => return .ofInFlow static (.function (.cast p t))
    | none => return .unknown
  | .binary .or _ lhs rhs => do
    match ← s.orWith lhs rhs with
    | some f => return .ofInFlow static (.function f)
    | none =>
      match ← s.orWith rhs lhs with
      | some f => return .ofInFlow static (.function f)
      | none => return .unknown
  | .instanceGet f object => do
    if (s.program.field? f).isNone then return .unknown
    else
      match ← s.parameter? object with
      | some p => return .ofInFlow static (.function (.fieldRead p f))
      | none => return .unknown
  | .staticGet f =>
    return if (s.program.ownClass? f.holder).isSome && (s.program.field? f).isSome
      then .ofInFlow static (.source (.field f)) else .unknown
  | _ => return .unknown

/-- What is known about a value that goes to a place of type `static`. -/
def argumentState (s : Site) (v : ValueId) (static : Descriptor) : Guarded ValueState := do
  match ← s.parameter? v with
  | some p => return .ofInFlow static (.source p)
  | none =>
    match s.definitions[v]? with
    | some op => s.definedState static op
    | none => return .unknown

/-- The classes that a call may dispatch on. -/
def receiverBound (kind : InvokeKind) (m : MethodRef) (target : MethodDef) (receiver : ValueState) : DynamicType :=
  match kind with
  | .direct | .super => .exact target.ref.holder
  | _ =>
    let known := (receiver.concrete?.map (·.known.dynamicType)).filter fun d => !d.isBottom && !d.isUnknown
    ((known.getD (.below m.holder .definitelyNotNull)).withNullability .definitelyNotNull).widenReceiver target.ref.holder

/-- The method of a program class that a reference resolves to. -/
def ownTarget? (s : Site) (m : MethodRef) : Guarded (Option MethodDef) := do
  return (← s.program.resolveMethod m).filter fun d => (s.program.ownClass? d.ref.holder).isSome

/-- The states of the arguments of a call, the receiver first. -/
def argumentStates (s : Site) (target : MethodDef) (args : List ValueId) : Guarded (List ValueState) :=
  ((args.zip target.argumentTypes).zipIdx).mapM fun ((v, t), i) => do
    let state ← s.argumentState v t
    let state := if i == 0 && !target.isStatic then state.toReceiver else state
    return state.widen s.program t

/-- A call, with the method that it resolves to. A call on null throws, and calls that do not
    fit the method are left out. -/
def invoke (s : Site) (states : FlowStates) (kind : InvokeKind) (m : MethodRef) (args : List ValueId) :
    Guarded FlowStates := do
  if args.isEmpty || m.holder.isArray then return states
  match ← s.ownTarget? m with
  | none => return states
  | some target =>
    let fits := target.argumentTypes.length == args.length && target.isStatic == (kind == .static)
    let onNull := !target.isStatic && (args.head?.bind (s.definitions[·]?)) == some .constNull
    if !fits || onNull then return states
    let arguments ← s.argumentStates target args
    let called := MethodState.ofArguments arguments
    let state :=
      if target.isVirtual && !(s.program.overrides target).isEmpty then
        .ofBound (receiverBound kind m target (arguments.headD .unknown)) called
      else called
    return { states with methods := ← states.methods.add s.joiner target.ref state }

/-- An assignment to a field. -/
def write (s : Site) (states : FlowStates) (f : FieldRef) (v : ValueId) : Guarded FlowStates := do
  if (s.program.ownClass? f.holder).isNone || (s.program.field? f).isNone then return states
  let state ← s.argumentState v f.type
  return { states with fields := ← states.fields.add s.joiner f (state.widen s.program f.type) }

/-- The methods that a handle lets be called from anywhere. -/
def handle (s : Site) (h : MethodHandle) : Guarded (List MethodRef) := do
  match h.member with
  | .field _ => return []
  | .method m =>
    match ← s.ownTarget? m with
    | none => return []
    | some target =>
      let below := if target.isVirtual then s.program.overrides target else []
      return target.ref :: below.map MethodDef.ref

/-- The handles of a call site. -/
def handlesOf (c : CallSite) : List MethodHandle :=
  c.bootstrap :: c.bootstrapArgs.filterMap fun
    | .handle h => some h
    | _ => none

/-- One operation. Gives the states, and the methods that may be called from anywhere. -/
def operation (s : Site) (acc : FlowStates × List MethodRef) : Op → Guarded (FlowStates × List MethodRef)
  | .invoke kind m args _ => return (← s.invoke acc.1 kind m args, acc.2)
  | .invokeCustom c _ => return (acc.1, acc.2 ++ (← (handlesOf c).mapM s.handle).flatten)
  | .constHandle h => return (acc.1, acc.2 ++ (← s.handle h))
  | .staticPut f v | .instancePut f _ v => return (← s.write acc.1 f v, acc.2)
  | _ => return acc

end Site

/-- The unpacked body of a method. -/
def bodyOf (m : MethodDef) : Outcome FlowError (Option Body) := do
  match m.code with
  | none => return none
  | some (.body b) => return some b
  | some (.packed p) =>
    return some (← Outcome.mapError (.decode m.ref) (p.unpack m.ref m.isStatic m.argumentTypes))

/-- One method of a class. -/
def method (j : Joiner) (c : ClassDef) (acc : FlowStates × List MethodRef) (m : MethodDef) :
    Outcome FlowError (FlowStates × List MethodRef) := do
  let acc := if j.program.overridesLibrary c m then (acc.1, acc.2 ++ [m.ref]) else acc
  match ← bodyOf m with
  | none => return acc
  | some body =>
    Outcome.lift (((body.blocks.flatMap Block.body).map Instr.op).foldlM (Site.ofBody j body).operation acc)

/-- The states found in a class, joined into those of the classes before. -/
def classDef (j : Joiner) (acc : FlowStates × List MethodRef) (c : ClassDef) :
    Outcome FlowError (FlowStates × List MethodRef) := do
  let (found, escaping) ← c.methods.foldlM (method j c) ({}, [])
  return (⟨← acc.1.methods.addAll j found.methods, ← acc.1.fields.addAll j found.fields⟩, acc.2 ++ escaping)

/-- The states found in all bodies. Whatever is pinned or can be called from elsewhere is
    unknown. -/
def run (v : View) (j : Joiner) : Outcome FlowError FlowStates := do
  let (states, escaping) ← v.program.programClasses.foldlM (classDef j) ({}, [])
  let methods := (escaping ++ v.pins.methods.toList).foldl
    (fun (c : MethodStates) m => c.insert m .unknown) states.methods
  let fields := v.pins.fields.toList.foldl (fun (c : FieldStates) f => c.setState f .unknown) states.fields
  return ⟨methods, fields⟩

end Scan

end DexShrinker
