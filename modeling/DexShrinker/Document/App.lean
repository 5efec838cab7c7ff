/-
  DexShrinker/Document/App.lean
  =============================
  **Lenses, pins, field accesses and statistics in documents.**

  Changes of a prototype are read as a list of recordings, applied in order, and written
  as what they amount to.
-/
import DexShrinker.Document.Program
import DexShrinker.Lens.Describe
import DexShrinker.Lens.Recorder
import DexShrinker.Updating.Program

namespace DexShrinker

open Document

/-! ### Lenses -/

instance : Named LayerKind where
  names := [("HorizontalClassMerger", .horizontalClassMerger), ("EnumUnboxing", .enumUnboxing),
    ("TreeFixer", .treeFixer), ("Synthetic", .synthetic)]

instance : ToDocument ArgumentChange where
  toDocument
    | .removed t c => tagged "removed" [toDocument t, toDocument c]
    | .retyped old new => tagged "rewritten" [toDocument old, toDocument new]

instance : ToDocument ExtraParameter where
  toDocument
    | .unusedNull t => tagged "null" [toDocument t]
    | .constantInt n => tagged "int" [toDocument n]

instance : ToDocument ReturnChange := ⟨fun r => toDocument (r.old, r.new)⟩

instance : ToDocument ProtoChanges where
  toDocument c := .record [("args", toDocument c.arguments.toList), ("extra", toDocument c.extra),
    ("return", toDocument c.returned)]

/-- One recording. -/
def ProtoChanges.readStep (c : ProtoChanges) (d : Document) : Reading ProtoChanges := do
  match ← d.nth (α := String) 0 with
  | "remove" => return c.removeArgument (← d.nth 1) (← d.nth 2) (← d.nth 3)
  | "rewrite" => return c.retypeArgument (← d.nth 1) (← d.nth 2) (← d.nth 3)
  | "extra_null" => return c.addParameter (.unusedNull (← d.nth 1))
  | "extra_int" => return c.addParameter (.constantInt (← d.nth 1))
  | "return" => return c.retypeReturn (← d.nth 1) (← d.nth 2)
  | _ => throw .malformed

instance : OfDocument ProtoChanges where
  ofDocument d := do (← readList .ok d).foldlM ProtoChanges.readStep .none

/-- One recording of a pass with its answer. -/
def Recorder.readStep (r : Recorder) (d : Document) : Reading (Document × Recorder) := do
  match ← d.nth (α := String) 0 with
  | "move_type" => return (.null, r.moveType (← d.nth 1) (← d.nth 2))
  | "move_field" => return (.null, r.moveField (← d.nth 1) (← d.nth 2))
  | "move_method" => return (.null, r.moveMethod (← d.nth 1) (← d.nth 2))
  | "rep_type" => return (.null, r.representType (← d.nth 1) (← d.nth 2))
  | "rep_field" => return (.null, r.representField (← d.nth 1) (← d.nth 2))
  | "rep_method" => return (.null, r.representMethod (← d.nth 1) (← d.nth 2))
  | "call_changes" => return (.null, r.recordCall (← d.nth 1) (← d.nth 2))
  | "def_changes" => return (.null, r.recordDefinition (← d.nth 1) (← d.nth 2))
  | "invoke_kind" => return (.null, r.recordInvokeKind (← d.nth 1) (← d.nth 2))
  | "type_target" => return (toDocument (r.typeTarget? (← d.nth 1)), r)
  | "field_target" => return (toDocument (r.fieldTarget? (← d.nth 1)), r)
  | "method_target" => return (toDocument (r.methodTarget? (← d.nth 1)), r)
  | "is_empty" => return (.bool r.isEmpty, r)
  | _ => throw .malformed

instance : ToDocument FieldLookup := ⟨fun f => toDocument (f.ref, f.readCast)⟩

instance : ToDocument MethodLookup :=
  ⟨fun m => .list [toDocument m.ref, toDocument m.kind, toDocument m.changes, .bool (!m.changes.isEmpty)]⟩

/-! ### Views -/

instance : OfDocument Pins where
  ofDocument d := do
    let types : List Descriptor ← d.get "types"
    let fields : List FieldRef ← d.get "fields"
    let methods : List MethodRef ← d.get "methods"
    return ⟨.ofList types, .ofList fields, .ofList methods⟩

instance : ToDocument Pins where
  toDocument k := .record [("types", toDocument k.types.toList), ("fields", toDocument k.fields.toList),
    ("methods", toDocument k.methods.toList)]

instance : ToDocument FieldAccess where
  toDocument t := listOf (fun ((f, a) : FieldRef × Accessors) =>
    .list [toDocument f, toDocument a.readers.toList, toDocument a.writers.toList]) t.toList

instance : ToDocument UpdateStats where
  toDocument s := .record [("unchanged", toDocument s.unchanged), ("patched", toDocument s.patched),
    ("rebuilt", toDocument s.rebuilt), ("skipped", toDocument s.skipped)]

instance : ToDocument PackedUpdate where
  toDocument
    | .unchanged => .list [.text "unchanged", .null]
    | .patched p => tagged "patched" [toDocument p]
    | .rebuilt p => tagged "rebuilt" [toDocument p]

end DexShrinker
