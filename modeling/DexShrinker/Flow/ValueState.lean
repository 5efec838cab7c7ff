/-
  DexShrinker/Flow/ValueState.lean
  ================================
  **The state of a parameter or field.**

  A state pairs what is known about the values seen so far with the sources from which
  more may come. States grow by joining; one with too many sources is given up on. A
  state of a number cannot be joined with a state of a reference.
-/
import DexShrinker.Flow.AbstractValue
import DexShrinker.Flow.DynamicType
import DexShrinker.Flow.InFlow

namespace DexShrinker

/-- What is known about the values of a place, by the kind of the place. -/
inductive Knowledge where
  | array (nullability : Nullability)
  | object (value : AbstractValue) (type : DynamicType)
  | primitive (value : AbstractValue)
  /-- The receiver of an instance method, which is never null. -/
  | receiver (type : DynamicType)
deriving DecidableEq

namespace Knowledge

def isPrimitive : Knowledge → Bool
  | primitive _ => true
  | _ => false

/-- What is known about the value itself. -/
def abstractValue : Knowledge → AbstractValue
  | object v _ | primitive v => v
  | array .bottom => .bottom
  | array .definitelyNull => .null
  | array .definitelyNotNull | array .maybeNull | receiver _ => .unknown

def dynamicType : Knowledge → DynamicType
  | object _ d | receiver d => d
  | array _ | primitive _ => .unknown

def nullability : Knowledge → Nullability
  | array n => n
  | object _ d => d.nullability
  | receiver _ => .definitelyNotNull
  | primitive _ => .bottom

/-- Nothing has been seen. -/
def isBottom : Knowledge → Bool
  | array n => n == .bottom
  | object v d => v.isBottom && d.isBottom
  | primitive v => v.isBottom
  | receiver d => d.isBottom

/-- Nothing is known that the static type does not say. -/
def isUnknown : Knowledge → Bool
  | array n => n.isMaybeNull
  | object v d => v.isUnknown && d.isUnknown
  | primitive v => v.isUnknown
  | receiver d => d.isUnknown

/-- The dynamic type for a join of different kinds of references. -/
def joinableType : Knowledge → DynamicType
  | array .bottom => .bottom
  | array _ => .unknown
  | receiver d => d.withNullability .definitelyNotNull
  | k => k.dynamicType

/-- The least upper bound. Different kinds of references meet as objects. -/
def join (p : Program) (a b : Knowledge) : Guarded Knowledge :=
  match a, b with
  | primitive v, primitive w => .ok (primitive (v.join w))
  | primitive _, _ | _, primitive _ => .error .incompatible
  | array n, array m => .ok (array (n.join m))
  | receiver d, receiver e => .ok (receiver (d.join p e))
  | a, b => .ok (object (a.abstractValue.join b.abstractValue) (a.joinableType.join p b.joinableType))

/-- What is known beyond the static type. -/
def widen (p : Program) (static : Descriptor) : Knowledge → Knowledge
  | object v d => object v (d.widen p static)
  | receiver d => receiver (d.widenReceiver static)
  | k => k

/-- What is known after a cast that succeeds. -/
def cast (p : Program) (t : Descriptor) : Knowledge → Knowledge
  | object v d => object v (d.cast p t)
  | receiver d => receiver (d.cast p t)
  | k => k

end Knowledge

/-- What is known, and where more may come from. -/
structure ConcreteState where
  known : Knowledge
  inFlow : InFlows := []
deriving DecidableEq

/-- The state of a parameter or field. -/
inductive ValueState where
  /-- Nothing gets there. -/
  | bottom
  | concrete (state : ConcreteState)
  /-- Anything may get there. -/
  | unknown
deriving DecidableEq

/-- What joins depend on: the hierarchy, and the number of sources up to which a state is not
    given up on. -/
structure Joiner where
  program : Program
  maxInFlow : Nat

namespace ValueState

/-- The state with nothing known, or unknown if that is all there is to know. -/
def ofKnowledge (k : Knowledge) (inFlow : InFlows) : ValueState :=
  if k.isUnknown then unknown else concrete ⟨k, inFlow⟩

/-- Nothing is known yet about a place of type `static`. -/
def bottomKnowledge (static : Descriptor) : Knowledge :=
  if static.isPrimitive then .primitive .bottom
  else if static.isArray then .array .bottom
  else .object .bottom .bottom

/-- All values come from one source. -/
def ofInFlow (static : Descriptor) (flow : InFlow) : ValueState := concrete ⟨bottomKnowledge static, [flow]⟩

def primitive (v : AbstractValue) : ValueState := ofKnowledge (.primitive v) []

def object (v : AbstractValue) (d : DynamicType) : ValueState := ofKnowledge (.object v d) []

def array (n : Nullability) : ValueState := ofKnowledge (.array n) []

def receiver (d : DynamicType) : ValueState := ofKnowledge (.receiver d) []

/-- The value of a field that nobody has assigned: zero or null. -/
def default (static : Descriptor) : ValueState :=
  if static.isPrimitive then primitive (.single 0)
  else if static.isArray then array .definitelyNull
  else object .null (.below static .definitelyNull)

def isBottom : ValueState → Bool
  | bottom => true
  | _ => false

def isUnknown : ValueState → Bool
  | unknown => true
  | _ => false

def concrete? : ValueState → Option ConcreteState
  | concrete s => some s
  | _ => none

/-- The sources that the state waits for. -/
def inFlow (s : ValueState) : InFlows := (s.concrete?.map ConcreteState.inFlow).getD []

def hasInFlow (s : ValueState) : Bool := !s.inFlow.isEmpty

/-- The state without its sources. -/
def clearInFlow : ValueState → ValueState
  | concrete s => if s.known.isBottom then bottom else concrete ⟨s.known, []⟩
  | s => s

/-- The state of an object that is a receiver, and so is not null. -/
def toReceiver : ValueState → ValueState
  | concrete ⟨.object _ d, flows⟩ =>
    let d := d.withNullability .definitelyNotNull
    if d.isUnknown && flows.isEmpty then unknown else concrete ⟨.receiver d, flows⟩
  | s => s

/-- The least upper bound of two states. -/
def join (j : Joiner) (a b : ValueState) : Guarded ValueState :=
  match a, b with
  | a, bottom => .ok a
  | unknown, _ => .ok unknown
  | bottom, b => .ok b
  | _, unknown => .ok unknown
  | concrete s, concrete t => do
    let known ← s.known.join j.program t.known
    let flows := s.inFlow.union t.inFlow
    return if flows.length > j.maxInFlow then unknown else ofKnowledge known flows

/-- The state beyond the static type. -/
def widen (p : Program) (static : Descriptor) : ValueState → ValueState
  | concrete s => ofKnowledge (s.known.widen p static) s.inFlow
  | s => s

end ValueState

/-- The state after a cast that succeeds. -/
def ConcreteState.cast (p : Program) (t : Descriptor) (s : ConcreteState) : ConcreteState :=
  { s with known := s.known.cast p t }

/-- The state that comes out of a function when `s` goes in. States of places are looked up
    with `lookup`. -/
def FlowFunction.apply (p : Program) (lookup : FlowSource → ValueState) (s : ConcreteState) :
    FlowFunction → Guarded ValueState
  | identity _ => .ok (.concrete s)
  | cast _ t => .ok (.concrete (s.cast p t))
  | or _ c =>
    match s.known with
    | .primitive v => return .ofKnowledge (.primitive (← v.orInteger c)) s.inFlow
    | _ => .error .incompatible
  | fieldRead _ f => .ok (lookup (.field f))
  | unknown => .ok .unknown

end DexShrinker
