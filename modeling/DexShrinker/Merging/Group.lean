/-
  DexShrinker/Merging/Group.lean
  ==============================
  **Groups of classes that become one class.**

  The classes of a group stand in the order of types. Policies shrink and split
  groups; the last one names the target, which is the first class, and may give the
  merged class a field that tells its instances apart by the position of their old
  class in the group.

  The groups of a merge say where every type goes (`MergeMap`).
-/
import DexShrinker.Reference.Member

namespace DexShrinker

/-- Classes to be merged into one. -/
structure MergeGroup where
  /-- The classes, in order and without repetitions. -/
  classes : List Descriptor
  /-- The classes are interfaces. -/
  isInterface : Bool
  /-- The class that the others are merged into. -/
  target : Option Descriptor := none
  /-- The field that holds the position of an instance's old class. -/
  classIdField : Option FieldRef := none
deriving DecidableEq

namespace MergeGroup

/-- The group of the given classes, which may come in any order. -/
def ofList (classes : List Descriptor) (isInterface : Bool) : MergeGroup where
  classes := (.ofList classes : TypeSet).toList
  isInterface := isInterface

def size (g : MergeGroup) : Nat := g.classes.length

/-- Fewer than two classes: there is nothing to merge. -/
def isTrivial (g : MergeGroup) : Bool := g.size < 2

def contains (g : MergeGroup) (t : Descriptor) : Bool := g.classes.contains t

/-- Every class but the target. -/
def sources (g : MergeGroup) : List Descriptor := g.classes.filter fun t => some t != g.target

/-- The number that stands for a class in the merged class, as long as it is one that the field
    can hold. -/
def classId? (g : MergeGroup) (t : Descriptor) : Option Nat := (g.classes.findIdx? (· == t)).filter (· < 0x80000000)

/-- The group of the same kind with other classes, and no target yet. -/
def withClasses (g : MergeGroup) (classes : List Descriptor) : MergeGroup := ofList classes g.isInterface

/-- The group without the classes that `keep` refuses. -/
def restrict (g : MergeGroup) (keep : Descriptor → Bool) : MergeGroup :=
  { g with classes := g.classes.filter keep }

/-- One group for every key that a class has, in the order in which the keys come up. -/
def splitBy {κ : Type} [BEq κ] (g : MergeGroup) (key : Descriptor → κ) : List MergeGroup :=
  (g.classes.map key).eraseDups.map fun k => g.withClasses (g.classes.filter fun t => key t == k)

end MergeGroup

/-! ### Where types go -/

/-- For every class that is merged into another one, that other class. -/
structure MergeMap where
  targets : TypeMap Descriptor := ∅

namespace MergeMap

/-- Send every class of a group to its first class. -/
def addGroup (m : MergeMap) (g : MergeGroup) : MergeMap :=
  match g.classes with
  | [] => m
  | target :: _ =>
    (g.classes.filter (· != target)).foldl (fun (m : MergeMap) t => ⟨m.targets.insert t target⟩) m

/-- Every class of every group goes to the first class of its group. -/
def ofGroups (groups : List MergeGroup) : MergeMap := groups.foldl addGroup {}

def isEmpty (m : MergeMap) : Bool := m.targets.isEmpty

/-- The type is merged into another one. -/
def isSource (m : MergeMap) (t : Descriptor) : Bool := m.targets.contains t

/-- Where a type goes; arrays follow their elements. -/
def type (m : MergeMap) (t : Descriptor) : Descriptor := t.mapBase fun b => m.targets.getD b b

def proto (m : MergeMap) (p : Prototype) : Prototype := p.mapTypes m.type

def field (m : MergeMap) (f : FieldRef) : FieldRef := ⟨m.type f.holder, f.name, m.type f.type⟩

def method (m : MergeMap) (r : MethodRef) : MethodRef := ⟨m.type r.holder, r.name, m.proto r.proto⟩

def signature (m : MergeMap) (s : Signature) : Signature := ⟨s.name, m.proto s.proto⟩

end MergeMap

end DexShrinker
