/-
  DexShrinker/App/FieldAccess.lean
  ================================
  **Which methods read and write which fields.**

  The table is computed once from all bodies and then carried through renamings;
  fields that come to be one field share their accesses. A pass that writes code of
  its own adds the accesses of that code.
-/
import DexShrinker.Lens.Lookup
import DexShrinker.Program

namespace DexShrinker

open Std

/-- The methods that access a field. -/
structure Accessors where
  readers : MethodSet := ∅
  writers : MethodSet := ∅

namespace Accessors

def isRead (a : Accessors) : Bool := !a.readers.isEmpty

def isWritten (a : Accessors) : Bool := !a.writers.isEmpty

/-- Only initializers of the field's own holder write it. -/
def writtenOnlyInInitializers (a : Accessors) (f : FieldRef) : Bool :=
  a.writers.all fun m => m.holder == f.holder && (m.isInstanceInitializer || m.isClassInitializer)

/-- The accesses of both. -/
def union (a b : Accessors) : Accessors :=
  ⟨a.readers.insertMany b.readers.toList, a.writers.insertMany b.writers.toList⟩

/-- One more access. -/
def add (a : Accessors) (isRead : Bool) (m : MethodRef) : Accessors :=
  if isRead then { a with readers := a.readers.insert m } else { a with writers := a.writers.insert m }

end Accessors

/-- The accesses of every field that has any. -/
abbrev FieldAccess := FieldMap Accessors

namespace FieldAccess

/-- Add accesses of a field. -/
def merge (t : FieldAccess) (f : FieldRef) (a : Accessors) : FieldAccess :=
  t.insert f ((t.getD f {}).union a)

/-- Note one access. -/
def record (t : FieldAccess) (f : FieldRef) (isRead : Bool) (m : MethodRef) : FieldAccess :=
  t.insert f ((t.getD f {}).add isRead m)

def recordRead (t : FieldAccess) (f : FieldRef) (m : MethodRef) : FieldAccess := t.record f true m

def recordWrite (t : FieldAccess) (f : FieldRef) (m : MethodRef) : FieldAccess := t.record f false m

/-- The accesses a list of uses in `m` makes. -/
def recordUses (m : MethodRef) (t : FieldAccess) : Use → FieldAccess
  | .field f how => t.record f how.isRead m
  | _ => t

/-- The accesses of all bodies of program classes. -/
def compute (p : Program) : Except PackedError FieldAccess :=
  (p.programClasses.flatMap ClassDef.methods).foldlM (fun t m => do
    match m.code with
    | none => return t
    | some code => return (← code.uses).foldl (recordUses m.ref) t) (∅ : FieldAccess)

def isRead (t : FieldAccess) (f : FieldRef) : Bool := (t[f]?).any Accessors.isRead

def isWritten (t : FieldAccess) (f : FieldRef) : Bool := (t[f]?).any Accessors.isWritten

/-- The same accesses under the names of `lens`, where they were under those of `applied`. -/
def rename (t : FieldAccess) (lens applied : Lens) : Guarded FieldAccess :=
  t.toList.foldlM (fun out (f, a) => do
    let readers ← lens.lookupMethods a.readers applied
    let writers ← lens.lookupMethods a.writers applied
    return out.merge (lens.lookupField f applied).ref ⟨readers, writers⟩) (∅ : FieldAccess)

/-- Both tables together. -/
def union (t more : FieldAccess) : FieldAccess := more.toList.foldl (fun t (f, a) => t.merge f a) t

end FieldAccess

end DexShrinker
