/-
  DexShrinker/Merging/Merger.lean
  ===============================
  **Merging classes.**

  Groups of classes that the policies let through are merged into their targets: the
  fields share slots, the initializers are brought together, and the other members move
  over. Then the members of all classes are placed, because prototypes and field types
  name merged classes everywhere. The result is a program whose bodies still use the
  old names, and a lens that says what became of them.
-/
import DexShrinker.Merging.Placement

namespace DexShrinker

/-- What a merge gives. -/
structure MergeResult where
  program : Program
  lens : Lens
  /-- The dispatching initializers, whose bodies use the new names. -/
  synthesized : List MethodRef := []
  /-- The accesses to class ids in them. -/
  fieldAccess : FieldAccess := ∅
  report : MergeReport

namespace Merging

/-- The largest group, unless another limit is given. -/
def defaultMaxGroupSize : Nat := 30

/-- The type of padding parameters: the name of the first target with a suffix, and a number
    if there is such a class already. -/
def argumentType (p : Program) (target : Descriptor) : Guarded Descriptor := do
  let suffix := "$$MergedConstructorArgument"
  match target.withSuffix? suffix with
  | none => throw (.malformedDescriptor target.text)
  | some first =>
    let candidate (i : Nat) : Descriptor :=
      if i = 0 then first else (target.withSuffix? (suffix ++ toString i)).getD first
    return candidate (firstFree candidate (p.classes.map ClassDef.type))

/-- The class of padding parameters, which has no members. -/
def argumentClass (t : Descriptor) : ClassDef where
  type := t
  access := .publicFlag ||| .finalFlag ||| .syntheticFlag
  superclass := some .object

/-- What has been merged so far. -/
structure State where
  unplaced : TypeMap UnplacedClass := ∅
  log : PlacementLog
  fieldAccess : FieldAccess := ∅
  synthesized : List MethodRef := []
  report : MergeReport

/-- The flags of a merged class: public if any class is, final only if all are. -/
def mergeAccess (target : ClassDef) (members : List ClassDef) : AccessFlags :=
  let access := if members.any (·.access.isPublic) then target.access.promoteToPublic else target.access
  if members.any (!·.access.isFinal) then access.remove .finalFlag else access

/-- Merge the members of a group into its target. -/
def mergeGroup (p : Placement) (st : State) (g : MergeGroup) : Outcome MergeError State := do
  match g.target.bind p.program.class? with
  | none => return st
  | some target =>
    let members := g.classes.filterMap p.program.class?
    let fields := FieldMerge.ofGroup p.program p.merges g target
    let recorder := fields.representatives.foldl (fun (r : Recorder) (new, old) => r.representField new old) st.log.recorder
    let inits ← InitMerge.ofGroup p.program p.merges p.argument g recorder
    let shell := (UnplacedClass.ofClass p.merges target).shell
    let unplaced : UnplacedClass := {
      shell := { shell with access := mergeAccess target members, fields := fields.fields, methods := inits.placed }
      fields := members.flatMap ClassDef.staticFields
      methods := (members.flatMap ClassDef.methods).filter (!·.isInstanceInitializer) ++ inits.pending
      fieldMoves := fields.moves }
    return {
      unplaced := st.unplaced.insert target.type unplaced
      log := ⟨inits.recorder, st.log.usesArgument || inits.usesArgument⟩
      fieldAccess := g.classIdField.toList.foldl (fun t f =>
        inits.synthesized.foldl (fun t m => FieldAccess.recordWrite t f m) t) st.fieldAccess
      synthesized := st.synthesized ++ inits.synthesized
      report := st.report.recordMerged target.type g.sources }

/-- A class with the members that are to be placed: what it was merged to, or the class itself
    unless it is merged into another. -/
def unplaced? (p : Placement) (merged : TypeMap UnplacedClass) (c : ClassDef) : Option UnplacedClass :=
  match merged[c.type]? with
  | some u => some u
  | none => if p.merges.isSource c.type then none else some (.ofClass p.merges c)

/-- The classes whose members are to be placed. -/
def unplacedClasses (p : Placement) (merged : TypeMap UnplacedClass) : List UnplacedClass :=
  p.program.programClasses.filterMap (unplaced? p merged)

/-- Record where the types of a group go. -/
def recordTypes (r : Recorder) (g : MergeGroup) : Recorder :=
  match g.target with
  | none => r
  | some target => g.sources.foldl (fun r t => r.moveType t target) (r.moveType target target)

/-- Merge the members of groups that have a target, before members are placed. -/
def prepare (hash : HashOrder) (v : View) (groups : List MergeGroup) (report : MergeReport) : Outcome MergeError (Placement × State) := do
  let merges := MergeMap.ofGroups groups
  let targets : TypeSet := .ofList (groups.filterMap MergeGroup.target)
  let argument ← argumentType v.program (targets.toList.headD .object)
  let p : Placement := ⟨v.program, merges, argument, hash⟩
  let st ← groups.foldlM (mergeGroup p)
    { log := ⟨Recorder.start .horizontalClassMerger, false⟩, report := report }
  return (p, st)

/-- Merge groups that have a target. -/
def mergeGroups (hash : HashOrder) (v : View) (groups : List MergeGroup) (report : MergeReport) : Outcome MergeError MergeResult := do
  let (p, st) ← prepare hash v groups report
  let (placed, log) := p.run (unplacedClasses p st.unplaced) st.log
  let recorder := groups.foldl recordTypes log.recorder
  let lens ← Outcome.ofExcept .lens (recorder.build v.lens)
  return {
    program := .ofList (v.program.classes.filter (·.isLibrary) ++ placed
      ++ if log.usesArgument then [argumentClass p.argument] else [])
    lens := lens
    synthesized := st.synthesized
    fieldAccess := st.fieldAccess
    report := st.report }

/-- Merge what the given policies let through. -/
def runWith (hash : HashOrder) (v : View) (policies : List Policy) (maxGroupSize : Nat) : Outcome MergeError MergeResult := do
  let (groups, report) ← Policy.run v maxGroupSize policies (Policy.candidates v.program)
  let groups := groups.filter (·.target.isSome)
  if groups.isEmpty then return { program := v.program, lens := v.lens, report := report }
  else mergeGroups hash v groups report

/-- Merge what all policies let through. -/
def run (hash : HashOrder) (v : View) (maxGroupSize : Nat) : Outcome MergeError MergeResult := runWith hash v Policy.all maxGroupSize

end Merging

end DexShrinker
