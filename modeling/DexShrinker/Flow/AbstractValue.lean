/-
  DexShrinker/Flow/AbstractValue.lean
  ===================================
  **What is known about the value of a parameter or field.**

  Integers are kept one by one up to a limit; beyond it, only the bits on which all of
  them agree are kept. `admits` says which integers an abstract value stands for.
-/
import DexShrinker.Fault
import DexShrinker.Reference.Descriptor

namespace DexShrinker

open Std

/-- What is known about a value. -/
inductive AbstractValue where
  /-- No value has been seen. -/
  | bottom
  | null
  | single (value : Int64)
  /-- One of these integers, in order. -/
  | set (values : List Int64)
  /-- An integer with these bits set and these bits clear. -/
  | bits (ones zeros : Int64)
  | string (value : String)
  | unknown
deriving DecidableEq

namespace AbstractValue

/-- The largest number of integers that are kept one by one. -/
def maxSetSize : Nat := 8

def isBottom : AbstractValue → Bool
  | bottom => true
  | _ => false

def isUnknown : AbstractValue → Bool
  | unknown => true
  | _ => false

def isNull : AbstractValue → Bool
  | null => true
  | _ => false

/-- The integer, if there is only one. -/
def single? : AbstractValue → Option Int64
  | single v => some v
  | _ => none

/-- The integer is one that the abstract value stands for. -/
def admits (v : Int64) : AbstractValue → Bool
  | bottom | null | string _ => false
  | single w => w == v
  | set values => values.contains v
  | bits ones zeros => v &&& ones == ones && v &&& zeros == 0
  | unknown => true

/-- Integers in order and without repetitions. -/
def sortInts (values : List Int64) : List Int64 := (.ofList values : TreeSet Int64).toList

/-- The integers, where they are kept one by one. -/
def integers? : AbstractValue → Option (List Int64)
  | single v => some [v]
  | set values => some values
  | _ => none

/-- The bits set in all of the integers, and those clear in all of them. -/
def commonBits (values : List Int64) : Int64 × Int64 :=
  values.foldl (fun (ones, zeros) v => (ones &&& v, zeros &&& ~~~v)) (-1, -1)

/-- The bits that are known to be set, and those known to be clear. -/
def definiteBits? : AbstractValue → Option (Int64 × Int64)
  | single v => some (v, ~~~v)
  | set values => some (commonBits values)
  | bits ones zeros => some (ones, zeros)
  | _ => none

/-- An integer of which some bits are known. -/
def ofBits (ones zeros : Int64) : AbstractValue :=
  if ones ||| zeros = 0 then unknown
  else if ones ||| zeros = -1 then single ones
  else bits ones zeros

/-- One of the integers, which are in order. -/
def ofIntegers (values : List Int64) : AbstractValue :=
  match values with
  | [] => bottom
  | [v] => single v
  | values =>
    if values.length ≤ maxSetSize then set values
    else
      let (ones, zeros) := commonBits values
      ofBits ones zeros

/-- The least upper bound. -/
def join (a b : AbstractValue) : AbstractValue :=
  match a, b with
  | bottom, v | v, bottom => v
  | unknown, _ | _, unknown => unknown
  | a, b =>
    if a = b then a
    else
      match a.integers?, b.integers? with
      | some xs, some ys => ofIntegers (sortInts (xs ++ ys))
      | _, _ =>
        match a.definiteBits?, b.definiteBits? with
        | some (onesA, zerosA), some (onesB, zerosB) => ofBits (onesA &&& onesB) (zerosA &&& zerosB)
        | _, _ => unknown

/-- What is known about `x ||| c` for a value `x`, which has to be an integer. -/
def orInteger (c : Int64) : AbstractValue → Guarded AbstractValue
  | bottom => .ok bottom
  | single v => .ok (single (v ||| c))
  | set values => .ok (ofIntegers (sortInts (values.map (· ||| c))))
  | bits ones zeros => .ok (ofBits (ones ||| c) (zeros &&& ~~~c))
  | unknown => .ok (ofBits c 0)
  | null | string _ => .error .incompatible

end AbstractValue

end DexShrinker
