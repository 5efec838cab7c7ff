/-
  DexShrinker/Shrink/Astray.lean
  ==============================
  **Where the lens leads back.**

  Whatever the input declares and the output still has under its present name must be
  led back by the lens to something the input declares and that has the same present
  name. It need not be what one started from: things that were merged share one first
  name.
-/
import DexShrinker.App.View

namespace DexShrinker

/-- Something the lens does not lead back to the input. -/
structure Astray where
  /-- Its name in the input. -/
  first : String
  /-- Its present name. -/
  current : String
  /-- Where the lens leads back to. -/
  found : String
deriving DecidableEq

namespace Lens

/-- The lens leads a present type back to a class of `input` that has become it. -/
def restoresType (l : Lens) (input : Program) (t : Descriptor) : Bool :=
  input.contains (l.firstType t) && l.renamedType (l.firstType t) == t

/-- The lens leads a present field back to a field of `input` that has become it. -/
def restoresField (l : Lens) (input : Program) (f : FieldRef) : Bool :=
  (input.field? (l.firstField f)).isSome && l.renamedField (l.firstField f) == f

/-- The lens leads a present method back to a method of `input` that has become it. -/
def restoresMethod (l : Lens) (input : Program) (m : MethodRef) : Bool :=
  (input.method? (l.firstMethod m)).isSome && l.renamedMethod (l.firstMethod m) == m

end Lens

namespace View

/-- The class of `input`, if the lens does not lead back to it. -/
def strayType? (v : View) (input : Program) (t : Descriptor) : Option Astray :=
  let current := v.lens.renamedType t
  if (v.programClass? current).isNone || v.lens.restoresType input current then none
  else some ⟨t.text, current.text, (v.lens.firstType current).text⟩

/-- The field of `input`, if the lens does not lead back to it. -/
def strayField? (v : View) (input : Program) (f : FieldRef) : Option Astray :=
  let current := v.lens.renamedField f
  if (v.program.field? current).isNone || v.lens.restoresField input current then none
  else some ⟨f.text, current.text, (v.lens.firstField current).text⟩

/-- The method of `input`, if the lens does not lead back to it. -/
def strayMethod? (v : View) (input : Program) (m : MethodRef) : Option Astray :=
  let current := v.lens.renamedMethod m
  if (v.program.method? current).isNone || v.lens.restoresMethod input current then none
  else some ⟨m.text, current.text, (v.lens.firstMethod current).text⟩

/-- Everything of a class of `input` that has gone astray. -/
def straysOf (v : View) (input : Program) (c : ClassDef) : List Astray :=
  (v.strayType? input c.type).toList ++ c.fields.filterMap (fun f => v.strayField? input f.ref)
    ++ c.methods.filterMap fun m => v.strayMethod? input m.ref

/-- Everything of the program classes of `input` that has gone astray. -/
def strays (v : View) (input : Program) : List Astray := input.programClasses.flatMap (v.straysOf input)

end View

end DexShrinker
