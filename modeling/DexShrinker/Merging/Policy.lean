/-
  DexShrinker/Merging/Policy.lean
  ===============================
  **Which classes may become one.**

  Candidates are grouped by superclass and kind. Policies then run one after the
  other: some judge every class on its own and take it out of its group, others look
  at whole groups and split them. After every policy the groups with fewer than two
  classes go, and the classes that fell out are noted under the policy's name.

  A class must not be merged when its identity can be seen (it is pinned, named by
  something pinned, or used in a cast, an instance test, a class constant or a catch
  guard), when its initialization could be seen, or when the classes of the group do
  not fit together: they need the same supertypes, package and shape of fields, and no
  virtual method in common.
-/
import DexShrinker.Merging.Fields
import DexShrinker.Lens.Recorder
import DexShrinker.Sorting

namespace DexShrinker

/-! ### Reports -/

/-- The outcome of a merge for every class that took part. -/
structure MergeReport where
  /-- The classes merged into a target, by target. -/
  merged : TypeMap (List Descriptor) := ∅
  /-- The classes that a policy took out, by the name of the policy. -/
  removed : Std.TreeMap String TypeSet := ∅

namespace MergeReport

/-- Note that a policy took out classes. -/
def recordRemoved (r : MergeReport) (policy : String) (classes : List Descriptor) : MergeReport :=
  if classes.isEmpty then r
  else { r with removed := r.removed.insert policy ((r.removed.getD policy ∅).insertMany classes) }

/-- Note the classes merged into a target. -/
def recordMerged (r : MergeReport) (target : Descriptor) (sources : List Descriptor) : MergeReport :=
  { r with merged := r.merged.insert target sources }

/-- The number of classes that are gone. -/
def mergedCount (r : MergeReport) : Nat := r.merged.values.flatten.length

/-- The class was merged into another one. -/
def isMerged (r : MergeReport) (t : Descriptor) : Bool := r.merged.values.any (·.contains t)

/-- The first policy, by name, that took the class out. -/
def removalReason? (r : MergeReport) (t : Descriptor) : Option String :=
  (r.removed.toList.find? fun (_, classes) => classes.contains t).map Prod.fst

/-- The classes a policy took out. -/
def removedBy (r : MergeReport) (policy : String) : List Descriptor := (r.removed.getD policy ∅).toList

end MergeReport

/-! ### Policies -/

/-- Why classes could not be merged. -/
inductive MergeError where
  /-- A body could not be read. -/
  | scan (cause : PackedError)
  /-- An initializer that was put together is malformed. -/
  | synthesize (method : MethodRef) (cause : BodyError)
  /-- Something would get two new names. -/
  | lens (cause : LensError)
deriving DecidableEq

/-- The wording of an error. -/
def MergeError.message : MergeError → String
  | scan e => "cannot scan program code: " ++ e.message
  | synthesize m e => "cannot synthesize " ++ m.text ++ ": " ++ e.message
  | lens e => e.message

/-- The policies. -/
inductive Policy where
  | noKeepRules
  | noEnums
  | noAnnotations
  | noClassInitializers
  | noDirectRuntimeTypeChecks
  | sameParentClass
  | respectPackageBoundaries
  | sameInstanceFields
  | noVirtualMethodCollisions
  | limitGroupSize
  | finalizeMergeGroup
deriving DecidableEq

namespace Policy

/-- The name of a policy in reports. -/
def name : Policy → String
  | noKeepRules => "NoKeepRules"
  | noEnums => "NoEnums"
  | noAnnotations => "NoAnnotations"
  | noClassInitializers => "NoClassInitializers"
  | noDirectRuntimeTypeChecks => "NoDirectRuntimeTypeChecks"
  | sameParentClass => "SameParentClass"
  | respectPackageBoundaries => "RespectPackageBoundaries"
  | sameInstanceFields => "SameInstanceFields"
  | noVirtualMethodCollisions => "NoVirtualMethodCollisions"
  | limitGroupSize => "LimitGroupSize"
  | finalizeMergeGroup => "FinalizeMergeGroup"

/-- All policies, in the order in which they run. -/
def all : List Policy :=
  [noKeepRules, noEnums, noAnnotations, noClassInitializers, noDirectRuntimeTypeChecks, sameParentClass,
    respectPackageBoundaries, sameInstanceFields, noVirtualMethodCollisions, limitGroupSize, finalizeMergeGroup]

/-! ### Judging one class -/

/-- The pinned types and the classes that a pinned member names. -/
def visibleTypes (k : Pins) : TypeSet :=
  let named := k.fields.toList.flatMap (fun f => [f.holder, f.type])
    ++ k.methods.toList.flatMap fun m => m.holder :: m.proto.types
  k.types.insertMany ((named.map Descriptor.base).filter Descriptor.isClass)

/-- Keep the classes of every group that have a program definition which `admits` accepts,
    and name the others. -/
def sift (v : View) (admits : ClassDef → Bool) (groups : List MergeGroup) : List MergeGroup × List Descriptor :=
  let keep (t : Descriptor) := (v.programClass? t).any admits
  (groups.map (·.restrict keep), groups.flatMap fun g => g.classes.filter (!keep ·))

/-! ### Splitting groups -/

/-- A use that shows the identity of a class. -/
def observesIdentity : TypeUse → Bool
  | .constClass | .checkCast | .instanceOf | .catchGuard => true
  | _ => false

/-- The class whose identity a use shows. -/
def observed? : Use → Option Descriptor
  | .type t how => if observesIdentity how then some t.base else none
  | _ => none

/-- The classes whose identity is seen by code of program classes. -/
def observedTypes (p : Program) : Except PackedError TypeSet :=
  ((p.programClasses.flatMap ClassDef.methods).filterMap MethodDef.code).foldlM (fun seen code => do
    return seen.insertMany ((← code.uses).filterMap observed?)) ∅

/-- The group without the classes in `evicted`, each of which makes a group of its own. -/
def evict (evicted : TypeSet) (g : MergeGroup) : List MergeGroup :=
  (g.classes.filter evicted.contains).map (fun t => g.withClasses [t]) ++ [g.restrict (!evicted.contains ·)]

/-- The superclass and the set of interfaces. -/
def parents? (p : Program) (t : Descriptor) : Option (Option Descriptor × List Descriptor) :=
  (p.class? t).map fun c => (c.superclass, (.ofList c.interfaces : TypeSet).toList)

/-- The instance fields' types, sorted, all references taken for one type. -/
def shape (p : Program) (t : Descriptor) : List Descriptor :=
  let types := ((p.class? t).toList.flatMap ClassDef.instanceFields).map (·.ref.type.relaxed)
  sortBy (fun a b => (compare a b).isLE) types

/-- The signatures of a class's virtual methods after the merge `m`. -/
def virtualSignatures (p : Program) (m : MergeMap) (t : Descriptor) : List Signature :=
  ((p.class? t).toList.flatMap ClassDef.virtualMethods).map fun d => m.signature d.ref.signature

/-- Put a class into the first bucket with none of its signatures, or into a new one. -/
def firstFit (t : Descriptor) (signatures : List Signature) :
    List (List Descriptor × List Signature) → List (List Descriptor × List Signature)
  | [] => [([t], signatures)]
  | (classes, taken) :: rest =>
    if signatures.any taken.contains then (classes, taken) :: firstFit t signatures rest
    else (classes ++ [t], taken ++ signatures) :: rest

/-- Groups whose classes have no virtual method in common. -/
def separateVirtuals (p : Program) (g : MergeGroup) : List MergeGroup :=
  let m := MergeMap.ofGroups [g]
  let buckets := g.classes.foldl (fun buckets t => firstFit t (virtualSignatures p m t) buckets) []
  buckets.map fun (classes, _) => g.withClasses classes

/-- The list in pieces of `n`, the last of which may be shorter. -/
def chunks {α : Type} (n : Nat) (xs : List α) : List (List α) :=
  (List.range ((xs.length + n - 1) / n)).map fun i => (xs.drop (i * n)).take n

/-- Groups of at most `max` classes, or two if that is more. -/
def limitSize (max : Nat) (g : MergeGroup) : List MergeGroup :=
  let max := Nat.max max 2
  if g.size ≤ max then [g] else (chunks max g.classes).map g.withClasses

/-! ### Naming the target -/

/-- Initializers of two classes of the group have the same prototype after the merge. -/
def sharesInitializer (p : Program) (m : MergeMap) (g : MergeGroup) : Bool :=
  let owned := (g.classes.filterMap p.class?).flatMap fun c =>
    c.instanceInitializers.map fun d => (c.type, m.proto d.ref.proto)
  owned.any fun (t, proto) => owned.any fun (t', proto') => t != t' && proto == proto'

/-- A name for the class id that no field of the group has. -/
def classIdName (p : Program) (g : MergeGroup) : String :=
  freshName "$classId" (((g.classes.filterMap p.class?).flatMap ClassDef.fields).map (·.ref.name))

/-- Make the first class the target, with a class id if initializers need it. -/
def finish (p : Program) (m : MergeMap) (g : MergeGroup) : List MergeGroup :=
  match g.classes with
  | [] => []
  | target :: _ =>
    let needsId := !g.isInterface && sharesInitializer p m g
    [{ g with
      target := some target
      classIdField := if needsId then some ⟨target, classIdName p g, .int⟩ else g.classIdField }]

/-! ### Running policies -/

/-- The groups after a policy, and the classes it took out one by one. -/
def apply (v : View) (maxSize : Nat) (groups : List MergeGroup) : Policy → Outcome MergeError (List MergeGroup × List Descriptor)
  | noKeepRules =>
    let visible := visibleTypes v.pins
    .ok (sift v (fun c => !visible.contains c.type) groups)
  | noEnums => .ok (sift v (!·.isEnum) groups)
  | noAnnotations => .ok (sift v (fun c => !c.isAnnotationType && c.annotations.isEmpty) groups)
  | noClassInitializers => .ok (sift v (·.classInitializer?.isNone) groups)
  | noDirectRuntimeTypeChecks => do
    let observed ← Outcome.ofExcept .scan (observedTypes v.program)
    return (groups.flatMap (evict observed), [])
  | sameParentClass => .ok (groups.flatMap (·.splitBy (parents? v.program)), [])
  | respectPackageBoundaries => do
    let named := groups.flatMap MergeGroup.classes
    match named.find? (·.package?.isNone) with
    | some t => Outcome.stop (.malformedDescriptor t.text)
    | none => return (groups.flatMap (·.splitBy Descriptor.package?), [])
  | sameInstanceFields => .ok (groups.flatMap (·.splitBy (shape v.program)), [])
  | noVirtualMethodCollisions => .ok (groups.flatMap (separateVirtuals v.program), [])
  | limitGroupSize => .ok (groups.flatMap (limitSize maxSize), [])
  | finalizeMergeGroup => .ok (groups.flatMap (finish v.program (.ofGroups groups)), [])

/-- Run one policy: trivial groups go, and whatever fell out is reported. -/
def step (v : View) (maxSize : Nat) (groups : List MergeGroup) (report : MergeReport) (policy : Policy) :
    Outcome MergeError (List MergeGroup × MergeReport) := do
  let (groups, removed) ← policy.apply v maxSize groups
  let (trivial, kept) := groups.partition MergeGroup.isTrivial
  return (kept, report.recordRemoved policy.name (removed ++ trivial.flatMap MergeGroup.classes))

/-- Run policies one after the other, until there are no groups left. -/
def runFrom (v : View) (maxSize : Nat) : List Policy → List MergeGroup → MergeReport →
    Outcome MergeError (List MergeGroup × MergeReport)
  | [], groups, report => .ok (groups, report)
  | policy :: policies, groups, report =>
    if groups.isEmpty then .ok ([], report)
    else do
      let (groups, report) ← policy.step v maxSize groups report
      runFrom v maxSize policies groups report

/-- Run policies on candidate groups. What is left has at least two classes a group. -/
def run (v : View) (maxSize : Nat) (policies : List Policy) (groups : List MergeGroup) :
    Outcome MergeError (List MergeGroup × MergeReport) :=
  runFrom v maxSize policies (groups.filter (!·.isTrivial)) {}

/-- The program classes by superclass, and apart by whether they are interfaces and
    whether they are abstract. -/
def candidates (p : Program) : List MergeGroup :=
  let classes := p.programClasses
  let supers : TypeSet := .ofList (classes.filterMap ClassDef.superclass)
  (none :: supers.toList.map some).flatMap fun s =>
    [false, true].flatMap fun itf => [false, true].map fun abstr =>
      .ofList ((classes.filter fun c => c.superclass == s && c.isInterface == itf && c.isAbstract == abstr).map
        ClassDef.type) itf

end Policy

end DexShrinker
