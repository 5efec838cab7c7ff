/-
  DexShrinker/App/View.lean
  =========================
  **What a pass sees.**

  A view holds the program, the lens, the lens the bodies are written against, the
  pins and the field accesses. Passes never change a view; they make the next one.

  Pinned types, fields and methods can be seen from outside the program, so no pass
  may rename, merge or retype them.
-/
import DexShrinker.App.FieldAccess
import DexShrinker.App.Hierarchy
import DexShrinker.Lens.Lookup

namespace DexShrinker

/-! ### Pins -/

/-- The pinned things. -/
structure Pins where
  types : TypeSet := ∅
  fields : FieldSet := ∅
  methods : MethodSet := ∅

namespace Pins

/-- The type, or the base of the array type, is pinned. -/
def hasType (k : Pins) (t : Descriptor) : Bool := k.types.contains t.base

def hasField (k : Pins) (f : FieldRef) : Bool := k.fields.contains f

def hasMethod (k : Pins) (m : MethodRef) : Bool := k.methods.contains m

/-- The type is pinned or holds something pinned. -/
def hasHolder (k : Pins) (t : Descriptor) : Bool :=
  k.hasType t || k.fields.any (·.holder == t) || k.methods.any (·.holder == t)

/-- The same pins under the names of `lens`, where they were under those of `applied`. -/
def rename (k : Pins) (lens applied : Lens) : Guarded Pins :=
  return {
    types := .ofList (k.types.toList.map fun t => lens.lookupType t applied)
    fields := .ofList (k.fields.toList.map fun f => (lens.lookupField f applied).ref)
    methods := ← lens.lookupMethods k.methods applied }

end Pins

/-! ### Views -/

/-- A program with what is known about it. -/
structure View where
  program : Program
  /-- From the first names to the present ones. -/
  lens : Lens := .identity
  /-- The lens all bodies are written against. -/
  codeLens : Lens := .identity
  pins : Pins := {}
  fieldAccess : FieldAccess := ∅

namespace View

/-- The class with a type, if it is a program class. -/
def programClass? (v : View) (t : Descriptor) : Option ClassDef :=
  (v.program.class? t).filter (·.isProgram)

/-- The view after a pass that gave a new program and put a layer on the lens. Pins and
    field accesses go over to the new names; bodies stay as they are. -/
def rename (v : View) (program : Program) (lens : Lens) : Guarded View :=
  return {
    program := program
    lens := lens
    codeLens := v.codeLens
    pins := ← v.pins.rename lens v.lens
    fieldAccess := ← v.fieldAccess.rename lens v.lens }

/-- The view after all bodies have been brought to the present names. -/
def clear (v : View) (program : Program) : View :=
  { v with program := program, lens := v.lens.clear, codeLens := v.lens.clear }

end View

end DexShrinker
