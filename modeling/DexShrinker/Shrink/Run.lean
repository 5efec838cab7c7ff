/-
  DexShrinker/Shrink/Run.lean
  ===========================
  **Shrinking a program.**

  First every body is packed. Then classes are merged and enums become numbers. Each of
  these passes puts a layer on the lens, after which all bodies are brought up to date and
  the lens is cleared, so that the next pass reads bodies under the present names. At the
  end the values of parameters and fields are worked out.
-/
import DexShrinker.Shrink.Astray
import DexShrinker.Shrink.Options

namespace DexShrinker

/-- The passes that put layers on the lens. -/
inductive Pass where
  | classMerging
  | enumUnboxing
deriving DecidableEq

/-- What a pass is called. -/
def Pass.name : Pass → String
  | classMerging => "horizontal class merging"
  | enumUnboxing => "enum unboxing"

/-- Why a program could not be shrunk. -/
inductive ShrinkError where
  /-- Bodies could not be packed or brought up to date. -/
  | update (cause : UpdateError)
  | merging (cause : MergeError)
  | unboxing (cause : EnumError)
  | flow (cause : FlowError)
  /-- After a pass the lens does not lead back. -/
  | lens (pass : Pass) (stray : Astray)

/-- The wording of an error. -/
def ShrinkError.message : ShrinkError → String
  | update e => e.message
  | merging e => "horizontal class merging failed: " ++ e.message
  | unboxing e => "enum unboxing failed: " ++ e.message
  | flow e => "argument propagation failed: " ++ e.message
  | lens pass s =>
    "after " ++ pass.name ++ ", " ++ s.current ++ " (renamed from " ++ s.first ++ ") maps back to " ++ s.found

/-- The shrunken program and what the passes found out. -/
structure Shrunk where
  /-- All bodies are packed and written under the names of `lens`. -/
  program : Program
  /-- From the names of the input to those of `program`. -/
  lens : Lens
  merging : MergeReport := {}
  unboxing : UnboxingReport := {}
  states : FlowStates := {}

/-- The view in which a pass has put its program, its layer and its field accesses. -/
def View.install (v : View) (program : Program) (lens : Lens) (more : FieldAccess) : Guarded View := do
  let w ← v.rename program lens
  return { w with fieldAccess := w.fieldAccess.union more }

namespace Shrink

/-- Pack the body of a method. -/
def packMethod (m : MethodDef) : Outcome UpdateError MethodDef := do
  match m.code with
  | some (.body b) => return { m with code := some (.packed (← Outcome.mapError (.packed m.ref) b.pack)) }
  | _ => return m

/-- Pack all bodies of a program. -/
def packAll (p : Program) : Outcome UpdateError Program :=
  Prod.fst <$> p.mapMethodsM (fun m (_ : Unit) => return (← packMethod m, ())) ()

/-- The view that passes start from. -/
def start (program : Program) (pins : Pins) : Outcome UpdateError View := do
  let packed ← packAll program
  return { program := packed, pins := pins, fieldAccess := ← Outcome.ofExcept .scan (FieldAccess.compute packed) }

/-- Merge classes and bring the bodies up to date. -/
def mergeClasses (hash : HashOrder) (o : Options) (v : View) : Outcome ShrinkError (View × MergeReport) := do
  let r ← Outcome.mapError .merging (Merging.run hash v o.maxGroupSize)
  if r.lens.same v.lens then return (v, r.report)
  else
    let w ← v.install r.program r.lens r.fieldAccess
    let (program, _) ← Outcome.mapError .update (w.updateCode (.ofList r.synthesized))
    return (w.clear program, r.report)

/-- Turn enums into numbers and bring the bodies up to date. -/
def unboxEnums (o : Options) (v : View) : Outcome ShrinkError (View × UnboxingReport) :=
  Outcome.mapError .unboxing do
    let v : View := { v with program := ← v.program.summarizeInitializers }
    let r ← Unboxing.run v o.unboxing
    if r.lens.same v.lens then return (v, r.report)
    else
      let w ← v.install r.program r.lens r.fieldAccess
      let (program, _) ← r.updateCode w
      return (w.clear program, r.report)

/-- Stop if the lens of a view does not lead back to `input`. -/
def check (o : Options) (pass : Pass) (input : Program) (v : View) : Outcome ShrinkError Unit :=
  match (if o.checksLens then v.strays input else []) with
  | [] => return ()
  | s :: _ => Outcome.raise (.lens pass s)

/-- Run a pass, if it is switched on, and check its lens. -/
def runPass {ρ : Type} (o : Options) (input : Program) (isOn : Bool) (pass : Pass)
    (step : Options → View → Outcome ShrinkError (View × ρ)) (nothing : ρ) (v : View) : Outcome ShrinkError (View × ρ) := do
  if isOn then
    let (v, report) ← step o v
    check o pass input v
    return (v, report)
  else return (v, nothing)

/-- Shrink a program in which nothing pinned may change its name. Maps are gone through in the orders of `hash`, and the
    values are worked out within a number of visits. -/
def run (hash : HashOrder) (visits : Nat) (o : Options) (program : Program) (pins : Pins) : Outcome ShrinkError Shrunk := do
  let v ← Outcome.mapError .update (start program pins)
  let (v, merging) ← runPass o program o.mergesClasses .classMerging (mergeClasses hash) {} v
  let (v, unboxing) ← runPass o program o.unboxesEnums .enumUnboxing unboxEnums {} v
  let states ←
    if o.propagatesArguments then Outcome.mapError .flow (FlowStates.ofView v o.maxInFlow visits)
    else pure {}
  return ⟨v.program, v.lens, merging, unboxing, states⟩

end Shrink

end DexShrinker
