/-
  DexShrinker/Usage.lean
  ======================
  **The references a body makes.**

  Analyses that only ask what a body touches look at its list of uses and never at
  the body itself. Both forms of body give such a list: a body in single-assignment
  form goes block by block with the guards of each block first, a packed body lists
  the guards of all blocks before the instructions.
-/
import DexShrinker.Packed.Instr

namespace DexShrinker

/-- How an instruction mentions a type. -/
inductive TypeUse where
  | constClass
  | newInstance
  | newArray
  | checkCast
  | instanceOf
  | catchGuard
deriving DecidableEq

/-- How an instruction touches a field. -/
inductive FieldUse where
  | staticRead
  | staticWrite
  | instanceRead
  | instanceWrite
deriving DecidableEq

/-- The field is read. -/
def FieldUse.isRead : FieldUse → Bool
  | staticRead | instanceRead => true
  | _ => false

/-- One reference. -/
inductive Use where
  | type (type : Descriptor) (how : TypeUse)
  | field (field : FieldRef) (how : FieldUse)
  | invoke (method : MethodRef) (kind : InvokeKind) (isInterface : Bool)
  | handle (handle : MethodHandle)
  | callSite (site : CallSite)
deriving DecidableEq

/-- The reference an operation makes. -/
def Op.use? : Op → Option Use
  | constClass t => some (.type t .constClass)
  | newInstance t => some (.type t .newInstance)
  | newArray t _ => some (.type t .newArray)
  | checkCast t _ => some (.type t .checkCast)
  | instanceOf t _ => some (.type t .instanceOf)
  | staticGet f => some (.field f .staticRead)
  | staticPut f _ => some (.field f .staticWrite)
  | instanceGet f _ => some (.field f .instanceRead)
  | instancePut f _ _ => some (.field f .instanceWrite)
  | invoke kind m _ itf => some (.invoke m kind itf)
  | invokeCustom site _ => some (.callSite site)
  | constHandle h => some (.handle h)
  | _ => none

/-- The references of a block. -/
def Block.uses (b : Block) : List Use :=
  b.handlers.map (.type ·.guard .catchGuard) ++ b.body.filterMap (·.op.use?)

/-- The references of a body. -/
def Body.uses (c : Body) : List Use := c.blocks.flatMap Block.uses

namespace PackedBody

/-- The reference a packed instruction makes. -/
def useOf (p : PackedBody) : PackedInstr → Except PackedError (Option Use)
  | .loadConstant c => do
    match ← p.constant c with
    | .type t => return some (.type t .constClass)
    | .handle h => return some (.handle h)
    | _ => return none
  | .newInstance t => return some (.type (← p.typeAt t) .newInstance)
  | .newArray t _ => return some (.type (← p.typeAt t) .newArray)
  | .checkCast t _ => return some (.type (← p.typeAt t) .checkCast)
  | .instanceOf t _ => return some (.type (← p.typeAt t) .instanceOf)
  | .staticGet f => return some (.field (← p.fieldAt f) .staticRead)
  | .staticPut f _ => return some (.field (← p.fieldAt f) .staticWrite)
  | .instanceGet f _ => return some (.field (← p.fieldAt f) .instanceRead)
  | .instancePut f _ _ => return some (.field (← p.fieldAt f) .instanceWrite)
  | .invoke kind itf m _ => return some (.invoke (← p.methodAt m) kind itf)
  | .invokeCustom site _ => do
    match ← p.constant site with
    | .callSite cs => return some (.callSite cs)
    | _ => return none
  | _ => return none

/-- The references of instructions up to the first one that cannot be read. -/
def usesOfViews (p : PackedBody) : List (Except PackedError InstrView) → List Use × Option PackedError
  | [] => ([], none)
  | item :: items =>
    match item >>= InstrView.decode >>= p.useOf with
    | .error e => ([], some e)
    | .ok use =>
      let (uses, e) := p.usesOfViews items
      (use.toList ++ uses, e)

/-- The references of a packed body up to the first instruction that cannot be read, and
    what was wrong with that. -/
def usesSoFar (p : PackedBody) : List Use × Option PackedError :=
  let (uses, e) := p.usesOfViews p.views
  (p.guards.map (.type · .catchGuard) ++ uses, e)

/-- The references of a packed body. -/
def uses (p : PackedBody) : Except PackedError (List Use) :=
  match p.usesSoFar with
  | (uses, none) => .ok uses
  | (_, some e) => .error e

end PackedBody

end DexShrinker
