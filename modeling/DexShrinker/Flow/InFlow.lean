/-
  DexShrinker/Flow/InFlow.lean
  ============================
  **Where the values of a parameter or field come from.**

  A value that is not known on the spot comes from a parameter or a field, as it is or
  through a function: a cast, a bitwise or, or the read of a field of an object. Sources
  are listed in a fixed order: fields before parameters before functions, and functions
  by kind.
-/
import DexShrinker.Reference.Member

namespace DexShrinker

open Std

/-- An argument of a method; the receiver is argument `0`. -/
structure MethodParameter where
  method : MethodRef
  index : Nat
deriving DecidableEq

namespace MethodParameter

instance : Ord MethodParameter := ⟨compareLex (compareOn method) (compareOn index)⟩

instance : TransOrd MethodParameter :=
  inferInstanceAs (TransCmp (compareLex (compareOn method) (compareOn index)))

/-- `Lp/A;->m(I)V#1`. -/
def text (p : MethodParameter) : String := p.method.text ++ "#" ++ toString p.index

end MethodParameter

/-- A place that holds values. -/
inductive FlowSource where
  | field (field : FieldRef)
  | parameter (parameter : MethodParameter)
deriving DecidableEq

namespace FlowSource

def field? : FlowSource → Option FieldRef
  | field f => some f
  | parameter _ => none

def parameter? : FlowSource → Option MethodParameter
  | field _ => none
  | parameter p => some p

instance : Ord FlowSource := ⟨compareLex (compareOn parameter?) (compareOn field?)⟩

instance : TransOrd FlowSource :=
  inferInstanceAs (TransCmp (compareLex (compareOn parameter?) (compareOn field?)))

end FlowSource

/-- What happens to a value on its way. -/
inductive FlowFunction where
  | identity (source : FlowSource)
  | cast (source : FlowSource) (type : Descriptor)
  | or (source : FlowSource) (constant : Int64)
  /-- Reads a field of an object that comes from `receiver`. -/
  | fieldRead (receiver : FlowSource) (field : FieldRef)
  | unknown
deriving DecidableEq

namespace FlowFunction

/-- The place of the constructor in the order of listings. -/
def rank : FlowFunction → Nat
  | identity _ => 0
  | cast .. => 1
  | or .. => 2
  | fieldRead .. => 3
  | unknown => 4

def source? : FlowFunction → Option FlowSource
  | identity s | cast s _ | or s _ | fieldRead s _ => some s
  | unknown => none

def type? : FlowFunction → Option Descriptor
  | cast _ t => some t
  | _ => none

def constant? : FlowFunction → Option Int64
  | or _ c => some c
  | _ => none

def field? : FlowFunction → Option FieldRef
  | fieldRead _ f => some f
  | _ => none

instance : Ord FlowFunction :=
  ⟨compareLex (compareOn rank) (compareLex (compareOn source?) (compareLex (compareOn type?)
    (compareLex (compareOn constant?) (compareOn field?))))⟩

instance : TransOrd FlowFunction :=
  inferInstanceAs (TransCmp (compareLex (compareOn rank) (compareLex (compareOn source?) (compareLex (compareOn type?)
    (compareLex (compareOn constant?) (compareOn field?))))))

/-- The places a function looks at. -/
def sources : FlowFunction → List FlowSource
  | identity s | cast s _ | or s _ => [s]
  | fieldRead s f => [s, .field f]
  | unknown => []

/-- The function looks at the state of a place besides the value that comes in. -/
def looksUp : FlowFunction → Bool
  | fieldRead .. => true
  | _ => false

end FlowFunction

/-- One source of values. -/
inductive InFlow where
  | source (source : FlowSource)
  | function (function : FlowFunction)
deriving DecidableEq

namespace InFlow

def source? : InFlow → Option FlowSource
  | source s => some s
  | function _ => none

def function? : InFlow → Option FlowFunction
  | source _ => none
  | function f => some f

instance : Ord InFlow := ⟨compareLex (compareOn function?) (compareOn source?)⟩

instance : TransOrd InFlow :=
  inferInstanceAs (TransCmp (compareLex (compareOn function?) (compareOn source?)))

end InFlow

/-- Sources of values, in order and without repetitions. -/
abbrev InFlows := List InFlow

namespace InFlows

/-- The given sources in order. -/
def ofList (flows : List InFlow) : InFlows := (.ofList flows : TreeSet InFlow).toList

/-- The sources of both. -/
def union (a b : InFlows) : InFlows := ofList (a ++ b)

end InFlows

end DexShrinker
