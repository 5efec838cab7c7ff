/-
  DexShrinker/Updating/Program.lean
  =================================
  **Bringing all bodies of a program up to date.**

  Every body of a program class is brought to the present lens and left packed.
  Bodies that a pass wrote against the present lens are only packed. What happened to
  how many bodies is counted.
-/
import DexShrinker.App.View
import DexShrinker.Updating.Packed

namespace DexShrinker

/-- Why bodies could not be brought up to date. -/
inductive UpdateError where
  | packed (method : MethodRef) (cause : PackedError)
  | scan (cause : PackedError)
deriving DecidableEq

/-- The wording of an error. -/
def UpdateError.message : UpdateError → String
  | packed m e => "cannot rewrite " ++ m.text ++ ": " ++ e.message
  | scan e => "cannot scan program code: " ++ e.message

/-- How many bodies were left alone, patched, rebuilt, or taken as they were written. -/
structure UpdateStats where
  unchanged : Nat := 0
  patched : Nat := 0
  rebuilt : Nat := 0
  skipped : Nat := 0
deriving DecidableEq

/-- What happens to one body. -/
inductive BodyFate where
  | unchanged
  | patched
  | rebuilt
  | skipped
deriving DecidableEq

/-- Count one more body. -/
def UpdateStats.count (s : UpdateStats) : BodyFate → UpdateStats
  | .unchanged => { s with unchanged := s.unchanged + 1 }
  | .patched => { s with patched := s.patched + 1 }
  | .rebuilt => { s with rebuilt := s.rebuilt + 1 }
  | .skipped => { s with skipped := s.skipped + 1 }

namespace Update

/-- Bring the code of a method up to date. -/
def methodCode (u : Update) (isSynthesized : Bool) (m : MethodDef) : Code → Outcome PackedError (Code × BodyFate)
  | .body b => do
    if isSynthesized then
      return (.packed (← b.pack), .skipped)
    else
      let b ← Outcome.lift (u.body b m.ref m.isStatic)
      return (.packed (← b.pack), .rebuilt)
  | .packed p => do
    if isSynthesized then
      return (.packed p, .skipped)
    else
      match ← u.packed p m.ref m.isStatic with
      | .unchanged => return (.packed p, .unchanged)
      | .patched q => return (.packed q, .patched)
      | .rebuilt q => return (.packed q, .rebuilt)

/-- Bring a method up to date and count its body. -/
def methodDef (u : Update) (synthesized : MethodSet) (m : MethodDef) (s : UpdateStats) :
    Outcome UpdateError (MethodDef × UpdateStats) := do
  match m.code with
  | none => return (m, s)
  | some c =>
    let (c, fate) ← Outcome.mapError (.packed m.ref) (u.methodCode (synthesized.contains m.ref) m c)
    return ({ m with code := some c }, s.count fate)

end Update

/-- Apply a step to every method of the program classes, in order, with a state. -/
def Program.mapMethodsM {ε σ : Type} (p : Program) (f : MethodDef → σ → Outcome ε (MethodDef × σ)) (s : σ) :
    Outcome ε (Program × σ) :=
  p.classes.foldlM (fun (out, s) c =>
    if c.isLibrary then return (out.insert c, s)
    else do
      let (methods, s) ← StateT.run (c.methods.mapM fun m => (f m : StateT σ (Except (Failure ε)) MethodDef)) s
      return (out.insert { c with methods := methods }, s)) (Program.empty, s)

/-- Bring all bodies up to date. Those in `synthesized` are written against the present
    lens already. -/
def View.updateCode (v : View) (synthesized : MethodSet) : Outcome UpdateError (Program × UpdateStats) :=
  v.program.mapMethodsM (Update.methodDef ⟨v.lens, v.codeLens⟩ synthesized) {}

end DexShrinker
