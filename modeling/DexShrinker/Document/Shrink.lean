/-
  DexShrinker/Document/Shrink.lean
  ================================
  **Passes, options and shrunken programs in documents.**

  Options are read as an environment and a list of settings, each a name and a value, and
  written by name.
-/
import DexShrinker.Document.App
import DexShrinker.Document.Flow
import DexShrinker.Shrink.Run

namespace DexShrinker

open Document

/-! ### Merging -/

instance : OfDocument MergeGroup where
  ofDocument d := return .ofList (← d.get "classes") (← d.getD "itf" false)

instance : ToDocument MergeGroup where
  toDocument g := .record [("classes", toDocument g.classes), ("itf", .bool g.isInterface), ("len", toDocument g.size),
    ("empty", .bool g.classes.isEmpty), ("trivial", .bool g.isTrivial), ("target", toDocument g.target),
    ("sources", toDocument g.sources), ("class_id_field", toDocument g.classIdField)]

instance : Named Policy := ⟨Policy.all.map fun p => (p.name, p)⟩

/-- A report on the program classes of `p`. Policies that took nothing out are not listed. -/
def MergeReport.document (r : MergeReport) (p : Program) : Document :=
  .record [("merged", toDocument r.merged.toList), ("count", toDocument r.mergedCount),
    ("removed", toDocument ((Policy.all.map fun policy => (policy.name, r.removedBy policy.name)).filter
      (!·.2.isEmpty))),
    ("classes", listOf (fun t => .list [toDocument t, .bool (r.isMerged t), toDocument (r.removalReason? t)])
      (p.programClasses.map ClassDef.type))]

/-! ### Unboxing -/

instance : ToDocument Reason := ⟨fun r => .text r.message⟩

instance : ToDocument UnboxingReport where
  toDocument r := .record [("unboxed", toDocument r.unboxed.toList), ("rejected", toDocument r.rejected.toList)]

instance : ToDocument EnumConstant where
  toDocument c := .list [toDocument c.field, toDocument c.ordinal, toDocument c.name, toDocument (unboxedValue c.ordinal)]

instance : ToDocument EnumTable where
  toDocument t := listOf (fun ((e, d) : Descriptor × EnumData) =>
    .record [("type", toDocument e), ("constants", toDocument d.constants), ("fields", toDocument d.fieldValues.toList)])
    t.toList

/-! ### Shrinking -/

instance : OfDocument Setting where
  ofDocument d := do
    match ← d.nth (α := String) 0 with
    | "jobs" => return .jobs (← d.nth 1)
    | "horizontal_class_merging" => return .mergesClasses (← d.nth 1)
    | "max_group_size" => return .maxGroupSize (← d.nth 1)
    | "enum_unboxing" => return .unboxesEnums (← d.nth 1)
    | "enum_unboxing_early_exit" => return .unboxingEarlyExit (← d.nth 1)
    | "argument_propagation" => return .propagatesArguments (← d.nth 1)
    | "max_in_flow_size" => return .maxInFlow (← d.nth 1)
    | "verify_lenses" => return .checksLens (← d.nth 1)
    | _ => throw .malformed

/-- The text a record has under a name. -/
def Document.textAt? (d : Document) (name : String) : Option String :=
  match d.field name with
  | .text value => some value
  | _ => none

instance : OfDocument Options where
  ofDocument d := do
    let settings : List Setting ← d.get "set"
    return settings.foldl Options.set (Options.withEnvironment {} (d.field "env").textAt?)

instance : ToDocument Options where
  toDocument o := .record [("jobs", toDocument o.jobs), ("horizontal_class_merging", .bool o.mergesClasses),
    ("max_group_size", toDocument o.maxGroupSize), ("enum_unboxing", .bool o.unboxesEnums),
    ("enum_unboxing_early_exit", .bool o.unboxingEarlyExit), ("argument_propagation", .bool o.propagatesArguments),
    ("max_in_flow_size", toDocument o.maxInFlow), ("verify_lenses", .bool o.checksLens),
    ("derived", .list [toDocument o.maxGroupSize, toDocument o.unboxing.maxInstanceFields,
      .bool o.unboxing.earlyExit, toDocument o.maxInFlow])]

/-- What was made of the program `p`. -/
def Shrunk.document (s : Shrunk) (p : Program) : List (String × Document) :=
  [("program", toDocument s.program), ("lens", .text s.lens.describe), ("merge", s.merging.document p),
    ("unboxing", toDocument s.unboxing), ("states", toDocument s.states)]

end DexShrinker
