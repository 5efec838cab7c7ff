/-
  DexShrinker/Document/Program.lean
  =================================
  **Programs in documents.**

  A body stands under `ir`, under `ir_lir` if it is to be packed when it is read, or
  packed under `lir`. Classes, fields and methods are public unless they give their
  flags, and extend the top class unless they say otherwise. Of library classes only
  the types are written.
-/
import DexShrinker.Document.Packed
import DexShrinker.Program

namespace DexShrinker

open Document

instance : ToDocument Code where
  toDocument
    | .body b => .record [("ir", toDocument b)]
    | .packed p => .record [("lir", toDocument p)]

/-- Pack a body that a document asks to be packed. -/
def packForReading (c : Body) : Reading PackedBody :=
  match c.pack with
  | .ok p => .ok p
  | .error (.error e) => .error (.packing e)
  | .error (.fault f) => .error (.fault f)

/-- Read a body of a method. -/
def Code.ofDocument (method : Option MethodRef) (isStatic : Bool) (d : Document) : Reading Code := do
  if !(d.field "ir").isNull then
    return .body (← Body.ofDocument method isStatic (d.field "ir"))
  else if !(d.field "ir_lir").isNull then
    return .packed (← packForReading (← Body.ofDocument method isStatic (d.field "ir_lir")))
  else
    return .packed (← d.get "lir")

instance : ToDocument InitValue where
  toDocument
    | .argument n => tagged "arg" [toDocument n]
    | .int v => tagged "int" [toDocument v]
    | .string s => tagged "string" [toDocument s]
    | .null => tagged "null" []

instance : OfDocument InitValue where
  ofDocument d := do
    match ← d.nth (α := String) 0 with
    | "arg" => return .argument (← d.nth 1)
    | "int" => return .int (← d.nth 1)
    | "string" => return .string (← d.nth 1)
    | "null" => return .null
    | _ => throw .malformed

instance : ToDocument StaticValue where
  toDocument
    | .int v => tagged "int" [toDocument v]
    | .string s => tagged "string" [toDocument s]
    | .null => tagged "null" []

instance : OfDocument StaticValue where
  ofDocument d := do
    match ← d.nth (α := String) 0 with
    | "int" => return .int (← d.nth 1)
    | "string" => return .string (← d.nth 1)
    | "null" => return .null
    | _ => throw .malformed

instance : ToDocument InitSummary where
  toDocument s := .record [("ordinal", toDocument s.ordinal), ("name", toDocument s.name),
    ("writes", toDocument s.writes.toList)]

instance : OfDocument InitSummary where
  ofDocument d := do
    let writes : List (FieldRef × InitValue) ← d.get "writes"
    return ⟨← d.get "ordinal", ← d.get "name", writes.foldl (fun m (f, v) => m.insert f v) ∅⟩

instance : ToDocument FieldDef :=
  ⟨fun f => .list [toDocument f.ref, toDocument f.access, toDocument f.staticValue]⟩

instance : ToDocument MethodDef where
  toDocument m := .record [("ref", toDocument m.ref), ("access", toDocument m.access), ("code", toDocument m.code),
    ("force_inline", .bool m.forceInline), ("init", toDocument m.initSummary)]

instance : ToDocument ClassDef where
  toDocument c := .record [("type", toDocument c.type), ("access", toDocument c.access),
    ("super", toDocument c.superclass), ("interfaces", toDocument c.interfaces),
    ("annotations", toDocument c.annotations), ("fields", toDocument c.fields), ("methods", toDocument c.methods)]

/-- Read a field of the class `holder`. -/
def FieldDef.ofDocument (holder : Descriptor) (d : Document) : Reading FieldDef :=
  return ⟨⟨holder, ← d.nth 0, ← d.nth 1⟩, ← (d.item 2).orElse .publicFlag, ← d.nth 3⟩

/-- Read a method of the class `holder`. -/
def MethodDef.ofDocument (holder : Descriptor) (d : Document) : Reading MethodDef := do
  let ref : MethodRef := ⟨holder, ← d.get "name", ← d.get "ret", ← d.get "params"⟩
  let access ← d.getD "access" .publicFlag
  let code ← match d.field "code" with
    | .null => pure none
    | c => some <$> Code.ofDocument (some ref) access.isStatic c
  return ⟨ref, access, code, ← d.getD "force_inline" false, ← d.get "init"⟩

instance : OfDocument ClassDef where
  ofDocument d := do
    let type ← d.get "type"
    return {
      type := type
      kind := if ← d.getD "lib" false then .library else .program
      access := ← d.getD "access" .publicFlag
      superclass := ← if d.hasField "super" then d.get "super" else pure (some .object)
      interfaces := ← d.get "interfaces"
      annotations := ← d.get "annotations"
      fields := ← readList (FieldDef.ofDocument type) (d.field "fields")
      methods := ← readList (MethodDef.ofDocument type) (d.field "methods") }

instance : ToDocument Program where
  toDocument p := .record [("library", toDocument ((p.classes.filter (·.isLibrary)).map ClassDef.type)),
    ("classes", toDocument p.programClasses)]

instance : OfDocument Program := ⟨fun d => return .ofList (← ofDocument d)⟩

end DexShrinker
