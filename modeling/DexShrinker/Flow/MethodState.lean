/-
  DexShrinker/Flow/MethodState.lean
  =================================
  **The arguments that methods are called with.**

  A method that is called with one set of arguments has a state for each of them. Calls of
  a method that may be overridden are kept apart by the bound on their receiver, so that
  calls on one class do not mix with those on another. Methods and fields without a state
  are not reached.
-/
import DexShrinker.Flow.ValueState

namespace DexShrinker

/-- The arguments a method is called with. -/
inductive MethodState where
  /-- It is not called. -/
  | bottom
  /-- A state for every argument, the receiver first. -/
  | monomorphic (arguments : List ValueState)
  /-- A state for every bound on the receiver, in the order of bounds. -/
  | polymorphic (cases : List (DynamicType × MethodState))
  /-- It may be called with anything. -/
  | unknown

namespace MethodState

def isBottom : MethodState → Bool
  | bottom => true
  | _ => false

def isUnknown : MethodState → Bool
  | unknown => true
  | _ => false

/-- States of arguments, which are no state if nothing is known about any. -/
def ofArguments (arguments : List ValueState) : MethodState :=
  if arguments.all ValueState.isUnknown then unknown else monomorphic arguments

/-- Calls whose receiver has a bound. -/
def ofBound (bound : DynamicType) (s : MethodState) : MethodState :=
  if bound.isUnknown && s.isUnknown then unknown else polymorphic [(bound, s)]

/-- The states of the arguments, where they are not kept apart. -/
def arguments? : MethodState → Option (List ValueState)
  | monomorphic arguments => some arguments
  | _ => none

/-- The state of an argument. -/
def argument (s : MethodState) (i : Nat) : ValueState :=
  match s with
  | bottom => .bottom
  | monomorphic arguments => arguments.getD i .unknown
  | polymorphic _ | unknown => .unknown

/-- The case of a bound. -/
def caseOf (cases : List (DynamicType × MethodState)) (bound : DynamicType) : MethodState :=
  (cases.lookup bound).getD bottom

/-- Set the case of a bound, in the order of bounds. -/
def setCase (bound : DynamicType) (s : MethodState) : List (DynamicType × MethodState) → List (DynamicType × MethodState)
  | [] => [(bound, s)]
  | (b, t) :: rest =>
    match compare bound b with
    | .lt => (bound, s) :: (b, t) :: rest
    | .eq => (bound, s) :: rest
    | .gt => (b, t) :: setCase bound s rest

/-- Cases, unless anything may be passed to any receiver. -/
def ofCases (cases : List (DynamicType × MethodState)) : MethodState :=
  if (caseOf cases .unknown).isUnknown then unknown else polymorphic cases

/-- Join states of arguments one by one. -/
def joinArguments (j : Joiner) (ours theirs : List ValueState) : Guarded MethodState := do
  if ours.length = theirs.length then
    return ofArguments (← (ours.zip theirs).mapM fun (a, b) => a.join j b)
  else return unknown

mutual

/-- The least upper bound of two states. -/
def join (j : Joiner) : MethodState → MethodState → Guarded MethodState
  | bottom, s => .ok s
  | unknown, _ => .ok unknown
  | s, bottom => .ok s
  | _, unknown => .ok unknown
  | monomorphic ours, monomorphic theirs => joinArguments j ours theirs
  | polymorphic ours, polymorphic theirs => do
    return ofCases (← joinCases j ours theirs)
  | monomorphic _, polymorphic _ | polymorphic _, monomorphic _ => .ok unknown

/-- Join every case of the second list into the first. -/
def joinCases (j : Joiner) (ours : List (DynamicType × MethodState)) :
    List (DynamicType × MethodState) → Guarded (List (DynamicType × MethodState))
  | [] => .ok ours
  | (bound, s) :: theirs => do
    let joined ← join j (caseOf ours bound) s
    joinCases j (setCase bound joined ours) theirs

end

end MethodState

/-! ### Collections -/

/-- The states of the methods that are called. -/
abbrev MethodStates := MethodMap MethodState

namespace MethodStates

def state (c : MethodStates) (m : MethodRef) : MethodState := c.getD m .bottom

/-- Replace the state of a method. -/
def setState (c : MethodStates) (m : MethodRef) (s : MethodState) : MethodStates :=
  if s.isBottom then c.erase m else c.insert m s

/-- Join a state into that of a method. -/
def add (j : Joiner) (c : MethodStates) (m : MethodRef) (s : MethodState) : Guarded MethodStates :=
  match s with
  | .bottom => .ok c
  | .unknown => .ok (c.insert m .unknown)
  | s => return c.insert m (← (c.state m).join j s)

/-- Join all states of another collection. -/
def addAll (j : Joiner) (c more : MethodStates) : Guarded MethodStates :=
  more.toList.foldlM (fun (c : MethodStates) (m, s) => c.add j m s) c

end MethodStates

/-- The states of the fields that are assigned. -/
abbrev FieldStates := FieldMap ValueState

namespace FieldStates

def state (c : FieldStates) (f : FieldRef) : ValueState := c.getD f .bottom

/-- Replace the state of a field. -/
def setState (c : FieldStates) (f : FieldRef) (s : ValueState) : FieldStates :=
  if s.isBottom then c.erase f else c.insert f s

/-- Join a state into that of a field. -/
def add (j : Joiner) (c : FieldStates) (f : FieldRef) (s : ValueState) : Guarded FieldStates :=
  if s.isBottom then .ok c else return c.insert f (← (c.state f).join j s)

/-- Join all states of another collection. -/
def addAll (j : Joiner) (c more : FieldStates) : Guarded FieldStates :=
  more.toList.foldlM (fun (c : FieldStates) (f, s) => c.add j f s) c

end FieldStates

end DexShrinker
