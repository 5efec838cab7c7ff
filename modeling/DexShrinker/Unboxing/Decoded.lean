/-
  DexShrinker/Unboxing/Decoded.lean
  =================================
  **Bodies as the analyses of enums see them.**

  All analyses look at unpacked bodies under the present names, and ask which operation
  defines a value and whether that is a constant.
-/
import DexShrinker.Lens.Recorder
import DexShrinker.Updating.Program
import DexShrinker.Unboxing.Members

namespace DexShrinker

open Std

/-- Why enums could not be unboxed. -/
inductive EnumError where
  | decode (method : MethodRef) (cause : PackedError)
  | encode (method : MethodRef) (cause : PackedError)
  /-- A body that was put together is malformed. -/
  | synthesize (method : MethodRef) (cause : BodyError)
  | lens (cause : LensError)
  | update (cause : UpdateError)
deriving DecidableEq

/-- The wording of an error. -/
def EnumError.message : EnumError → String
  | decode m e => "cannot decode " ++ m.text ++ ": " ++ e.message
  | encode m e => "cannot encode " ++ m.text ++ ": " ++ e.message
  | synthesize m e => "cannot synthesize " ++ m.text ++ ": " ++ e.message
  | lens e => e.message
  | update e => e.message

/-- The unpacked body of a method. -/
def MethodDef.decoded (m : MethodDef) : Outcome EnumError (Option Body) := do
  match m.code with
  | none => return none
  | some (.body b) => return some b
  | some (.packed p) =>
    return some (← Outcome.mapError (.decode m.ref) (p.unpack m.ref m.isStatic m.argumentTypes))

/-- The operation that defines a value, for every value that is defined by one. -/
abbrev Definitions := TreeMap ValueId Op

namespace Definitions

/-- The definitions of a body; of several for one value the last one counts. -/
def ofBody (c : Body) : Definitions :=
  (c.blocks.flatMap Block.body).foldl (fun defs i =>
    match i.dest with
    | some v => defs.insert v i.op
    | none => defs) ∅

/-- The constant that a value is. -/
def constant? (defs : Definitions) (v : ValueId) : Option StaticValue :=
  match defs[v]? with
  | some (.constInt n) => some (.int n.toInt64)
  | some (.constLong n) => some (.int n)
  | some (.constString s) => some (.string s)
  | some .constNull => some .null
  | _ => none

def isNull (defs : Definitions) (v : ValueId) : Bool := defs[v]? == some .constNull

/-- What a value of an initializer is for a call with the given arguments. -/
def resolve (defs : Definitions) (args : List ValueId) : InitValue → Option StaticValue
  | .argument i => args[i]?.bind defs.constant?
  | .int n => some (.int n)
  | .string s => some (.string s)
  | .null => some .null

end Definitions

/-- The type of a value. -/
def Body.typeOf (c : Body) (v : ValueId) : Guarded Descriptor :=
  return (← entryOr c.values v (.valueOutOfRange v)).type

end DexShrinker
