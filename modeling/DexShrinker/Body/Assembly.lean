/-
  DexShrinker/Body/Assembly.lean
  ==============================
  **Building a body step by step.**

  A draft holds blocks that may still lack a terminator. Instructions go to the
  current block at the current source line; blocks are laid out in the order in
  which they are made, so a branch falls through to the block made right after its
  own. `Draft.finish` checks the result. `Assembly` is the monad of such steps.
-/
import DexShrinker.Body.Verify

namespace DexShrinker

/-- A block that may still lack its terminator. -/
structure DraftBlock where
  phis : List Phi := []
  body : List Instr := []
  terminator : Option (Terminator × Line) := none
  handlers : List Handler := []

/-- A body under construction. -/
structure Draft where
  /-- The method, the arguments and the values; it has no blocks yet. -/
  code : Body
  blocks : List DraftBlock
  current : BlockId
  line : Line

/-- Steps that build a body. A step that faults leaves behind what it did before. -/
abbrev Assembly := ExceptT Fault (StateM Draft)

namespace Draft

/-- The draft for `method` with an empty entry block. -/
def start (method : MethodRef) (isStatic : Bool) : Draft where
  code := Body.empty method isStatic
  blocks := [{}]
  current := 0
  line := 0

/-- Turn finished blocks into the blocks of a body. -/
def closeBlocks (blocks : List DraftBlock) : Except BodyError (List Block) :=
  (blocks.mapIdx fun i (b : DraftBlock) => (i, b)).mapM fun ((i, b) : BlockId × DraftBlock) =>
    match b.terminator with
    | some (t, line) => .ok ⟨b.phis, b.body, t, line, b.handlers⟩
    | none => .error (.unterminatedBlock i)

/-- Finish the body: every block must have a terminator and the result be well formed. -/
def finish (d : Draft) : Outcome BodyError Body := do
  let blocks ← Outcome.ofExcept id (closeBlocks d.blocks)
  let code := { d.code with blocks := blocks }
  code.verify
  return code

end Draft

namespace Assembly

/-- A computation beside the draft. -/
def liftExcept {α : Type} (x : Guarded α) : Assembly α := ExceptT.mk (pure x)

/-- The argument at an index. -/
def argument (i : Nat) : Assembly ValueId := do
  liftExcept (entryOr (← get).code.arguments i (.indexOutOfRange i))

/-- Every argument. -/
def arguments : Assembly (List ValueId) := return (← get).code.arguments

/-- The type of a value. -/
def valueType (v : ValueId) : Assembly Descriptor := do
  return (← liftExcept (entryOr (← get).code.values v (.valueOutOfRange v))).type

/-- Add an empty block to the layout. -/
def newBlock : Assembly BlockId :=
  modifyGet fun d => (d.blocks.length, { d with blocks := d.blocks ++ [{}] })

/-- Go on in `block`. -/
def switchTo (block : BlockId) : Assembly Unit := modify fun d => { d with current := block }

/-- Give the steps that follow the source line `line`. -/
def setLine (line : Line) : Assembly Unit := modify fun d => { d with line := line }

/-- Change the current block, which must exist. -/
def onCurrent (f : DraftBlock → DraftBlock) : Assembly Unit := do
  let d ← get
  let b ← liftExcept (entryOr d.blocks d.current (.blockOutOfRange d.current))
  set { d with blocks := d.blocks.set d.current (f b) }

/-- Add an instruction without a result. -/
def emit (op : Op) : Assembly Unit := do
  let line := (← get).line
  onCurrent fun b => { b with body := b.body ++ [⟨none, op, line⟩] }

/-- A new value of the body. -/
def newValue (type : Descriptor) (origin : Origin) : Assembly ValueId :=
  modifyGet fun d => let (v, code) := d.code.newValue type origin; (v, { d with code := code })

/-- Add an instruction with a result of the given type. -/
def emitValue (op : Op) (type : Descriptor) : Assembly ValueId := do
  let v ← newValue type .instruction
  let line := (← get).line
  onCurrent fun b => { b with body := b.body ++ [⟨some v, op, line⟩] }
  return v

/-- Add a phi. -/
def phi (type : Descriptor) (operands : List ValueId) : Assembly ValueId := do
  let v ← newValue type .phi
  onCurrent fun b => { b with phis := b.phis ++ [⟨v, operands⟩] }
  return v

/-- Add an exception handler to the current block. -/
def addHandler (guard : Descriptor) (target : BlockId) : Assembly Unit :=
  onCurrent fun b => { b with handlers := b.handlers ++ [⟨guard, target⟩] }

/-- End the current block. -/
def terminate (t : Terminator) : Assembly Unit := do
  let line := (← get).line
  onCurrent fun b => { b with terminator := some (t, line) }

def constInt (value : Int32) : Assembly ValueId := emitValue (.constInt value) .int

def constNull : Assembly ValueId := emitValue .constNull .object

def constString (value : String) : Assembly ValueId := emitValue (.constString value) .string

/-- Add a call; it has a result unless the method returns nothing. -/
def invoke (kind : InvokeKind) (method : MethodRef) (args : List ValueId) : Assembly (Option ValueId) := do
  let op := Op.invoke kind method args (kind == .interface)
  if method.proto.returnType.isVoid then
    emit op
    return none
  else
    return some (← emitValue op method.proto.returnType)

def staticGet (field : FieldRef) : Assembly ValueId := emitValue (.staticGet field) field.type

def instanceGet (field : FieldRef) (object : ValueId) : Assembly ValueId :=
  emitValue (.instanceGet field object) field.type

def instancePut (field : FieldRef) (object value : ValueId) : Assembly Unit :=
  emit (.instancePut field object value)

/-- Return from the method. -/
def ret (value : Option ValueId) : Assembly Unit := terminate (.ret value)

/-- The body that the steps build. -/
def build (method : MethodRef) (isStatic : Bool) (steps : Assembly Unit) : Outcome BodyError Body := do
  let (result, d) := steps.run.run (Draft.start method isStatic)
  Outcome.lift result
  d.finish

end Assembly

end DexShrinker
