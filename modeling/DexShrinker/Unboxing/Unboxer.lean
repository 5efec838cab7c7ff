/-
  DexShrinker/Unboxing/Unboxer.lean
  =================================
  **Unboxing enums.**

  Candidates that are neither rejected for their declaration nor for a use, and whose
  class initializers can be understood, become numbers. The result is a program in which
  their members have moved to utility classes, and a lens that says so. Bodies still use
  the old names and the enums until `UnboxingResult.updateCode` has gone over them.
-/
import DexShrinker.Unboxing.Initializers
import DexShrinker.Unboxing.Lowering
import DexShrinker.Unboxing.UseSites

namespace DexShrinker

/-- What unboxing gives. -/
structure UnboxingResult where
  program : Program
  lens : Lens
  /-- The utility methods, whose bodies use the new names. -/
  synthesized : List MethodRef := []
  /-- The accesses in them. -/
  fieldAccess : FieldAccess := ∅
  report : UnboxingReport
  /-- The enums that became numbers, if there are any. -/
  unboxed : Option UnboxedEnums := none

/-- What is known about the enums that became numbers. -/
def UnboxingResult.enums (r : UnboxingResult) : EnumTable := (r.unboxed.map UnboxedEnums.data).getD ∅

namespace Unboxing

/-- Enums whose class initializers have been lowered. -/
abbrev Fixed := TypeMap FixedEnum

/-- Lower the class initializers of the given enums, or reject the enum. -/
def fixAll (classes : List ClassDef) (read : FieldSet) (r : Rejections) : Outcome EnumError (Fixed × Rejections) :=
  classes.foldlM (fun ((fixed, r) : Fixed × Rejections) c => do
    match ← FixedEnum.ofClass c read with
    | .ok f => return (fixed.insert c.type f, r)
    | .error reasons => return (fixed, reasons.foldl (fun (r : Rejections) reason => r.add c.type reason) r)) (∅, r)

/-- The enums that can become numbers, and why the others cannot. -/
def analyze (v : View) (o : UnboxingOptions) : Outcome EnumError (Fixed × Rejections) := do
  let (tracked, r) := Candidates.find v o
  let found ← UseSites.scan v.program tracked
  let r := UseSites.reject r found
  let remaining := (tracked.toList.filter (!r.isRejected ·)).filterMap v.program.class?
  fixAll remaining (UseSites.readFields found) r

/-- The local classes of enums. -/
def localUtilities (p : Program) (enums : List Descriptor) : Guarded (TypeMap LocalUtility) :=
  enums.foldlM (fun (out : TypeMap LocalUtility) t => return out.insert t (← LocalUtility.ofProgram p t)) ∅

/-- Put every enum into its local class. Gives the classes, the methods that were put
    together and the moves. -/
def dissolveAll (p : Program) (enums : TypeSet) (fixed : Fixed) (locals : TypeMap LocalUtility) (r : Recorder) :
    Outcome EnumError (List ClassDef × List MethodRef × Recorder) :=
  fixed.toList.foldlM (fun ((classes, methods, r) : List ClassDef × List MethodRef × Recorder) (t, f) => do
    match p.class? t, locals[t]? with
    | some c, some l =>
      let (d, more, r) ← l.dissolve enums c f r
      return (classes ++ [d], methods ++ more, r)
    | _, _ => return (classes, methods, r)) ([], [], r)

/-- Retype the classes that are not enums. -/
def retypeAll (p : Program) (enums : TypeSet) (padding : Descriptor) (r : Recorder) : List ClassDef × Recorder :=
  let start : Retyping := {
    enums := enums
    padding := padding
    taken := (p.programClasses.flatMap ClassDef.methods).map (·.ref.signature)
    recorder := r }
  let (classes, s) := (p.programClasses.filter (!enums.contains ·.type)).foldl
    (fun ((out, s) : List ClassDef × Retyping) c =>
      let (c, s) := s.classDef c
      (out ++ [c], s)) ([], start)
  (classes, s.recorder)

/-- Turn the given enums, of which `first` is the first, into numbers. -/
def unbox (v : View) (first : Descriptor) (fixed : Fixed) (report : UnboxingReport) : Outcome EnumError UnboxingResult := do
  let p := v.program
  let enums : TypeSet := .ofList fixed.keys
  let data : EnumTable := fixed.map fun _ f => f.data
  let shared ← SharedUtility.ofProgram p first data.maxSize
  let locals ← localUtilities p fixed.keys
  let (localClasses, methods, r) ← dissolveAll p enums fixed locals (Recorder.start .enumUnboxing)
  let (others, r) := retypeAll p enums shared.type r
  let sharedClass ← shared.build
  let lens ← Outcome.ofExcept .lens (r.build v.lens)
  return {
    program := .ofList (p.classes.filter (·.isLibrary) ++ localClasses ++ others ++ [sharedClass])
    lens := lens
    synthesized := methods ++ sharedClass.methods.map MethodDef.ref
    fieldAccess := shared.fieldAccess
    report := report
    unboxed := some {
      classes := .ofList (fixed.keys.filterMap fun t => (p.class? t).map fun c => (t, c))
      shared := shared
      locals := locals
      data := data } }

/-- Unbox all enums that can be. -/
def run (v : View) (o : UnboxingOptions) : Outcome EnumError UnboxingResult := do
  let (fixed, r) ← analyze v o
  let report : UnboxingReport := ⟨.ofList fixed.keys, r.byEnum.filter fun _ reasons => !reasons.isEmpty⟩
  match fixed.keys with
  | [] => return { program := v.program, lens := v.lens, report := report }
  | first :: _ => unbox v first fixed report

end Unboxing

namespace UnboxingResult

/-- Lower a body that may handle enum values, and bring it up to date. -/
def rebuild (u : UnboxedEnums) (update : Update) (m : MethodDef) (c : Body) : Outcome EnumError (Code × BodyFate) := do
  let c ← u.lower c
  let c ← update.body c m.ref m.isStatic
  return (.packed (← Outcome.mapError (.encode m.ref) c.pack), .rebuilt)

/-- Bring the code of a method up to date. A packed body that names no enum only goes through
    the lens. -/
def methodCode (u : UnboxedEnums) (update : Update) (isSynthesized : Bool) (m : MethodDef) (code : Code) :
    Outcome EnumError (Code × BodyFate) := do
  let plain := Outcome.mapError (fun e => EnumError.update (.packed m.ref e)) (update.methodCode isSynthesized m code)
  if isSynthesized then plain
  else
    match code with
    | .body c => rebuild u update m c
    | .packed p =>
      let previous := update.lens.previousMethod m.ref update.code
      if !u.mentionedBy p && !u.methodMentions previous then plain
      else
        let c ← Outcome.mapError (.decode m.ref) (p.unpack previous m.isStatic (previous.argumentTypes m.isStatic))
        rebuild u update m c

/-- Bring all bodies of a view up to date: the view that was unboxed, under the program and
    the lens of the result. -/
def updateCode (r : UnboxingResult) (v : View) : Outcome EnumError (Program × UpdateStats) :=
  match r.unboxed with
  | none => Outcome.mapError .update (v.updateCode ∅)
  | some u =>
    let synthesized : MethodSet := .ofList r.synthesized
    v.program.mapMethodsM (fun m s => do
      match m.code with
      | none => return (m, s)
      | some code =>
        let (code, fate) ← methodCode u ⟨v.lens, v.codeLens⟩ (synthesized.contains m.ref) m code
        return ({ m with code := some code }, s.count fate)) {}

end UnboxingResult

end DexShrinker
