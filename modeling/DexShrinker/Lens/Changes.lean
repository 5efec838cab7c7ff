/-
  DexShrinker/Lens/Changes.lean
  =============================
  **How the prototype of a method changed.**

  Arguments can go, can change their type and can be added at the end, and the
  return type can change. Arguments are counted as the body sees them, receiver
  included, so a method that becomes static keeps the numbers of its arguments.

  Changes act on argument types (`apply`), can be undone on them (`restore`) and
  follow one another (`combine`). The number of an argument is a word of thirty-two
  bits. A number so large that counting up from it wraps around can meet an argument
  that is gone already, and then two changes cannot follow one another.
-/
import DexShrinker.Fault
import DexShrinker.Reference.Member

namespace DexShrinker

open Std

/-- The number of an argument. -/
abbrev ArgumentIndex := UInt32

/-- What became of an argument. -/
inductive ArgumentChange where
  /-- The argument is gone. Where it was known to be a constant, the body uses that. -/
  | removed (type : Descriptor) (constant : Option Int64)
  /-- The argument has another type. -/
  | retyped (old new : Descriptor)
deriving DecidableEq

/-- A parameter added at the end. -/
inductive ExtraParameter where
  /-- Tells two methods apart; callers pass null. -/
  | unusedNull (type : Descriptor)
  /-- Callers pass this number. -/
  | constantInt (value : Int32)
deriving DecidableEq

/-- The type of an added parameter. -/
def ExtraParameter.type : ExtraParameter → Descriptor
  | unusedNull t => t
  | constantInt _ => .int

/-- A changed return type. -/
structure ReturnChange where
  old : Descriptor
  new : Descriptor
deriving DecidableEq

/-- The changes of a prototype. -/
structure ProtoChanges where
  arguments : TreeMap ArgumentIndex ArgumentChange := ∅
  extra : List ExtraParameter := []
  returned : Option ReturnChange := none

namespace ProtoChanges

/-- No change at all. -/
def none : ProtoChanges := {}

def isEmpty (c : ProtoChanges) : Bool := c.arguments.isEmpty && c.extra.isEmpty && c.returned.isNone

/-! ### Recording -/

def removeArgument (c : ProtoChanges) (index : ArgumentIndex) (type : Descriptor) (constant : Option Int64) : ProtoChanges :=
  { c with arguments := c.arguments.insert index (.removed type constant) }

/-- A change to the same type is no change. -/
def retypeArgument (c : ProtoChanges) (index : ArgumentIndex) (old new : Descriptor) : ProtoChanges :=
  if old = new then c else { c with arguments := c.arguments.insert index (.retyped old new) }

def addParameter (c : ProtoChanges) (extra : ExtraParameter) : ProtoChanges :=
  { c with extra := c.extra ++ [extra] }

/-- A change to the same type is no change. -/
def retypeReturn (c : ProtoChanges) (old new : Descriptor) : ProtoChanges :=
  if old = new then c else { c with returned := some ⟨old, new⟩ }

/-! ### Reading -/

def argument? (c : ProtoChanges) (index : ArgumentIndex) : Option ArgumentChange := c.arguments[index]?

/-- What became of the argument at a position of a list of arguments. -/
def argumentAt? (c : ProtoChanges) (position : Nat) : Option ArgumentChange := c.argument? position.toUInt32

/-- The numbers of the arguments that are gone, in order. -/
def removed (c : ProtoChanges) : List ArgumentIndex :=
  c.arguments.toList.filterMap fun
    | (i, .removed ..) => some i
    | _ => Option.none

def removesArguments (c : ProtoChanges) : Bool := !c.removed.isEmpty

def extraTypes (c : ProtoChanges) : List Descriptor := c.extra.map ExtraParameter.type

/-- The type an argument has after the change, if it stays. -/
def applyAt (c : ProtoChanges) (position : Nat) (type : Descriptor) : Option Descriptor :=
  match c.argumentAt? position with
  | some (.removed ..) => Option.none
  | some (.retyped _ new) => some new
  | Option.none => some type

/-- The argument types after the change. -/
def apply (c : ProtoChanges) (types : List Descriptor) : List Descriptor :=
  (types.mapIdx c.applyAt).filterMap id ++ c.extraTypes

/-- Undo the change on the arguments from number `i` on, of which `kept` are left. Every
    step uses up a kept argument or a removed one, of which there are at most `fuel`. -/
def restoreFrom (c : ProtoChanges) : (fuel i : Nat) → (kept : List Descriptor) → List Descriptor
  | 0, _, _ => []
  | fuel + 1, i, kept =>
    match c.argumentAt? i, kept with
    | some (.removed t _), _ => t :: c.restoreFrom fuel (i + 1) kept
    | _, [] => []
    | some (.retyped t _), _ :: rest => t :: c.restoreFrom fuel (i + 1) rest
    | Option.none, t :: rest => t :: c.restoreFrom fuel (i + 1) rest

/-- The argument types before the change. -/
def restore (c : ProtoChanges) (types : List Descriptor) : List Descriptor :=
  let kept := types.take (types.length - c.extra.length)
  c.restoreFrom (kept.length + c.arguments.size) 0 kept

/-- The return type before the change. -/
def restoreReturn (c : ProtoChanges) (type : Descriptor) : Descriptor :=
  (c.returned.map ReturnChange.old).getD type

/-! ### One change after another -/

/-- The number that kept argument `i` had when the arguments in `removed`, given in
    order, were still there. Counting up wraps around. -/
def formerIndex : (removed : List ArgumentIndex) → (i : ArgumentIndex) → ArgumentIndex
  | [], i => i
  | r :: removed, i => if r ≤ i then formerIndex removed (i + 1) else i

/-- A newer change of an argument that may have an older one. Going back to the first
    type leaves no change; an argument that is gone cannot change again. -/
def combineAt (older : Option ArgumentChange) (newer : ArgumentChange) : Guarded (Option ArgumentChange) :=
  match older, newer with
  | Option.none, newer => .ok (some newer)
  | some (.removed ..), _ => .error .incompatible
  | some (.retyped t _), .removed _ constant => .ok (some (.removed t constant))
  | some (.retyped t _), .retyped _ new => .ok (if t = new then Option.none else some (.retyped t new))

/-- The changes of arguments after `c` and then `newer`. -/
def combineArguments (c newer : ProtoChanges) : Guarded (TreeMap ArgumentIndex ArgumentChange) :=
  let removed := c.removed
  newer.arguments.toList.foldlM (fun arguments (j, change) => do
    let i := formerIndex removed j
    match ← combineAt (c.argument? i) change with
    | some change => return arguments.insert i change
    | Option.none => return arguments.erase i) c.arguments

/-- The change of a return type after `older` and then `newer`. -/
def combineReturned : (older newer : Option ReturnChange) → Option ReturnChange
  | some a, some b => if a.old = b.new then Option.none else some ⟨a.old, b.new⟩
  | a, b => b <|> a

/-- The changes `c` and then `newer`, which counts the arguments that `c` keeps. -/
def combine (c newer : ProtoChanges) : Guarded ProtoChanges :=
  return {
    arguments := ← c.combineArguments newer
    extra := c.extra ++ newer.extra
    returned := combineReturned c.returned newer.returned }

end ProtoChanges

end DexShrinker
