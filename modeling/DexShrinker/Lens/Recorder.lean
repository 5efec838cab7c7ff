/-
  DexShrinker/Lens/Recorder.lean
  ==============================
  **Recording the renamings of a pass.**

  A pass moves types, fields and methods to their new names. Several old names may
  move to one new name, which then stands for the first of them unless a
  representative is set. One old name must not move to two new ones: the first such
  conflict is what building the layer reports. A move of something to itself only
  makes it its own representative; if there is nothing else, no layer is made.
-/
import DexShrinker.Lens.Basic

namespace DexShrinker

/-- One name was moved to two. -/
inductive LensError where
  | typeConflict (old first second : Descriptor)
  | fieldConflict (old first second : FieldRef)
  | methodConflict (old first second : MethodRef)
deriving DecidableEq

/-- The wording of a conflict. -/
def LensError.message : LensError → String
  | typeConflict f a b => s!"type {f} moved to both {a} and {b}"
  | fieldConflict f a b => s!"field {f} moved to both {a} and {b}"
  | methodConflict f a b => s!"method {f} moved to both {a} and {b}"

/-- Renamings as a pass records them. -/
structure Recorder where
  moves : Renaming
  conflict : Option LensError := none

namespace Recorder

open Std

/-- Nothing recorded yet. -/
def start (kind : LayerKind) : Recorder := ⟨{ kind := kind }, none⟩

/-- Report a conflict, unless there was one before. -/
def report (r : Recorder) (e : LensError) : Recorder := { r with conflict := r.conflict <|> some e }

def moveType (r : Recorder) (old new : Descriptor) : Recorder :=
  let remember (n : Renaming) : Renaming :=
    if new.isReference then { n with formerTypes := n.formerTypes.insertIfNew new old } else n
  if old = new then { r with moves := remember r.moves }
  else
    match r.moves.types[old]? with
    | some first => if first = new then r else r.report (.typeConflict old first new)
    | none => { r with moves := remember { r.moves with types := r.moves.types.insert old new } }

def moveField (r : Recorder) (old new : FieldRef) : Recorder :=
  let remember (n : Renaming) : Renaming :=
    { n with formerFields := n.formerFields.insertIfNew new old }
  if old = new then { r with moves := remember r.moves }
  else
    match r.moves.fields[old]? with
    | some first => if first = new then r else r.report (.fieldConflict old first new)
    | none => { r with moves := remember { r.moves with fields := r.moves.fields.insert old new } }

def moveMethod (r : Recorder) (old new : MethodRef) : Recorder :=
  let remember (n : Renaming) : Renaming :=
    { n with formerMethods := n.formerMethods.insertIfNew new old }
  if old = new then { r with moves := remember r.moves }
  else
    match r.moves.methods[old]? with
    | some first => if first = new then r else r.report (.methodConflict old first new)
    | none => { r with moves := remember { r.moves with methods := r.moves.methods.insert old new } }

/-- Let the new name `new` stand for `old`. -/
def representType (r : Recorder) (new old : Descriptor) : Recorder :=
  { r with moves := { r.moves with formerTypes := r.moves.formerTypes.insert new old } }

/-- Let the new name `new` stand for `old`. -/
def representField (r : Recorder) (new old : FieldRef) : Recorder :=
  { r with moves := { r.moves with formerFields := r.moves.formerFields.insert new old } }

/-- Let the new name `new` stand for `old`. Calls of `old` may go elsewhere. -/
def representMethod (r : Recorder) (new old : MethodRef) : Recorder :=
  { r with moves := { r.moves with formerMethods := r.moves.formerMethods.insert new old } }

/-- What calls of the method once called `old` have to do to their arguments. -/
def recordCall (r : Recorder) (old : MethodRef) (changes : ProtoChanges) : Recorder :=
  if changes.isEmpty then r
  else { r with moves := { r.moves with callChanges := r.moves.callChanges.insert old changes } }

/-- What happened to the definition of the method now called `new`. -/
def recordDefinition (r : Recorder) (new : MethodRef) (changes : ProtoChanges) : Recorder :=
  if changes.isEmpty then r
  else
    { r with moves := { r.moves with definitionChanges := r.moves.definitionChanges.insert new changes } }

/-- How the method now called `new` is called. -/
def recordInvokeKind (r : Recorder) (new : MethodRef) (kind : InvokeKind) : Recorder :=
  { r with moves := { r.moves with invokeKinds := r.moves.invokeKinds.insert new kind } }

def typeTarget? (r : Recorder) (t : Descriptor) : Option Descriptor := r.moves.types[t]?
def fieldTarget? (r : Recorder) (f : FieldRef) : Option FieldRef := r.moves.fields[f]?
def methodTarget? (r : Recorder) (m : MethodRef) : Option MethodRef := r.moves.methods[m]?

/-- Nothing was recorded but moves of things to themselves. -/
def isEmpty (r : Recorder) : Bool :=
  let n := r.moves
  n.types.isEmpty && n.fields.isEmpty && n.methods.isEmpty && n.callChanges.isEmpty
    && n.definitionChanges.isEmpty && n.invokeKinds.isEmpty
    && n.formerTypes.all (fun k v => k == v) && n.formerFields.all (fun k v => k == v)
    && n.formerMethods.all (fun k v => k == v)

/-- The layer without the entries that say nothing. -/
def layer (r : Recorder) : Renaming :=
  let n := r.moves
  { n with
    formerTypes := n.formerTypes.filter fun k v => k != v
    formerFields := n.formerFields.filter fun k v => k != v
    formerMethods := n.formerMethods.filter fun k v => k != v }

/-- Put what was recorded on top of a lens. -/
def build (r : Recorder) (l : Lens) : Except LensError Lens :=
  match r.conflict with
  | some e => .error e
  | none => .ok (if r.isEmpty then l else l.push (.renames r.layer))

end Recorder

end DexShrinker
