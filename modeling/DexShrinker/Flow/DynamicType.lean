/-
  DexShrinker/Flow/DynamicType.lean
  =================================
  **What is known about the class of an object, and whether it is null.**

  A dynamic type is a bound on the class of an object. It says something only beyond the
  static type of the place that holds the object: `widen` drops what the static type says
  already.
-/
import DexShrinker.App.Hierarchy

namespace DexShrinker

open Std

/-- Whether a reference is null. -/
inductive Nullability where
  | bottom
  | definitelyNull
  | definitelyNotNull
  | maybeNull
deriving DecidableEq

namespace Nullability

/-- The place in the order of listings. -/
def rank : Nullability → Nat
  | bottom => 0
  | definitelyNull => 1
  | definitelyNotNull => 2
  | maybeNull => 3

def join (a b : Nullability) : Nullability :=
  match a, b with
  | bottom, n | n, bottom => n
  | a, b => if a = b then a else maybeNull

def isMaybeNull (n : Nullability) : Bool := n == maybeNull

def isDefinitelyNull (n : Nullability) : Bool := n == definitelyNull

end Nullability

/-- A bound on the class of an object. -/
inductive DynamicType where
  /-- No object has been seen. -/
  | bottom
  /-- The class is `bound`, or below it unless the bound is exact. -/
  | bounded (bound : Descriptor) (isExact : Bool) (nullability : Nullability)
  /-- Nothing beyond the static type. -/
  | unknown
deriving DecidableEq

namespace DynamicType

/-- A new object of a class. -/
def exact (t : Descriptor) : DynamicType := bounded t true .definitelyNotNull

/-- An object of a class or below it. -/
def below (t : Descriptor) (n : Nullability) : DynamicType := bounded t false n

def isBottom (d : DynamicType) : Bool := d == bottom

def isUnknown (d : DynamicType) : Bool := d == unknown

/-- The place of the constructor in the order of listings. -/
def rank : DynamicType → Nat
  | bottom => 0
  | bounded .. => 1
  | unknown => 2

def bound? : DynamicType → Option Descriptor
  | bounded t _ _ => some t
  | _ => none

def isExact : DynamicType → Bool
  | bounded _ e _ => e
  | _ => false

def nullability : DynamicType → Nullability
  | bottom => .bottom
  | bounded _ _ n => n
  | unknown => .maybeNull

/-- Dynamic types are listed by constructor, bound, exactness and nullability. -/
instance : Ord DynamicType :=
  ⟨compareLex (compareOn rank) (compareLex (compareOn bound?)
    (compareLex (compareOn isExact) (compareOn fun d => d.nullability.rank)))⟩

instance : TransOrd DynamicType :=
  inferInstanceAs (TransCmp (compareLex (compareOn rank) (compareLex (compareOn bound?)
    (compareLex (compareOn isExact) (compareOn fun d => d.nullability.rank)))))

/-- The same bound on an object that is null or not. -/
def withNullability (n : Nullability) : DynamicType → DynamicType
  | bounded t e _ => bounded t e n
  | d => d

/-- The least upper bound. Different bounds meet at a common superclass. -/
def join (p : Program) (a b : DynamicType) : DynamicType :=
  match a, b with
  | bottom, d | d, bottom => d
  | unknown, _ | _, unknown => unknown
  | bounded t e n, bounded t' e' n' =>
    if t = t' then bounded t (e && e') (n.join n') else below (p.leastUpperBound t t') (n.join n')

/-- The bound as far as it says more than the static type. -/
def widen (p : Program) (static : Descriptor) : DynamicType → DynamicType
  | bounded t e n =>
    let (t, e) := if p.isSubtype t static then (t, e) else (static, false)
    if !e && t == static && n.isMaybeNull then unknown else bounded t e n
  | d => d

/-- The bound of a receiver as far as it says more than the class that has the method. -/
def widenReceiver (holder : Descriptor) : DynamicType → DynamicType
  | bounded t e n => if !e && t == holder then unknown else bounded t e n
  | d => d

/-- The bound after a cast that succeeds. -/
def cast (p : Program) (t : Descriptor) : DynamicType → DynamicType
  | bounded s e n => if p.isSubtype s t then bounded s e n else below t n
  | unknown => below t .maybeNull
  | bottom => bottom

end DynamicType

end DexShrinker
