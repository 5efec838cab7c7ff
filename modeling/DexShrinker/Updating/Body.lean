/-
  DexShrinker/Updating/Body.lean
  ==============================
  **Bringing bodies in single-assignment form up to date.**

  Beside its references a body changes in four ways. Its own arguments follow the
  changes of its definition: a removed argument becomes a constant at the start of
  the entry block, an added one becomes a new argument. A value read from a field of
  another type than the code expects is cast. A call drops arguments that are gone
  and passes the added ones. Guards of a block that have become equal are reduced to
  the first, and blocks nothing reaches any more go.
-/
import DexShrinker.Body.Flow
import DexShrinker.Updating.Reference

namespace DexShrinker

/-- Steps that may add values to a body. -/
abbrev WithValues := StateT (List Value) Guarded

/-- A new value. -/
def WithValues.fresh (type : Descriptor) (origin : Origin) : WithValues ValueId :=
  modifyGet fun values => (values.length, values ++ [⟨type, origin⟩])

/-! ### Arguments -/

/-- What a body sees in place of an argument that is no longer passed. -/
def removedArgumentOp (type : Descriptor) (constant : Option Int64) : Op :=
  if type.isReference then .constNull
  else if type = .long then .constLong (constant.getD 0)
  else
    match constant with
    | some c => if c.toInt32.toInt64 = c then .constInt c.toInt32 else .constInt 0
    | none => .constInt 0

namespace Body

/-- Change a value. -/
def modifyValue (values : List Value) (v : ValueId) (f : Value → Value) : List Value :=
  match values[v]? with
  | some d => values.set v (f d)
  | none => values

/-- Let a body follow the changes of its definition. -/
def updateArguments (c : Body) (changes : ProtoChanges) : Body :=
  if changes.isEmpty then c
  else
    let old := c.arguments.mapIdx fun i v => (v, changes.argumentAt? i)
    let constants := old.filterMap fun
      | (v, some (.removed t constant)) => some (⟨some v, removedArgumentOp t constant, 0⟩ : Instr)
      | _ => none
    let kept := old.filterMap fun
      | (_, some (.removed ..)) => none
      | (v, _) => some v
    let values := old.foldl (fun values (v, change) =>
      match change with
      | some (.removed ..) => modifyValue values v fun d => { d with origin := .instruction }
      | some (.retyped _ t) => modifyValue values v fun d => { d with type := t }
      | none => values) c.values
    let extra := changes.extraTypes.map fun t => (⟨t, .argument 0⟩ : Value)
    let arguments := kept ++ List.range' values.length extra.length
    let numbered := arguments.mapIdx fun i v => (i, v)
    { c with
      arguments := arguments
      values := numbered.foldl (fun values (i, v) => modifyValue values v fun d => { d with origin := .argument i })
        (values ++ extra)
      blocks :=
        match c.blocks with
        | [] => []
        | entry :: rest => { entry with body := constants ++ entry.body } :: rest }

end Body

/-! ### Instructions -/

namespace Update

/-- A read of a field, followed by a cast where one is needed. -/
def fieldRead (dest : Option ValueId) (op : Op) (result : FieldLookup) (line : Line) : WithValues (List Instr) :=
  match result.readCast, dest with
  | some cast, some d => do
    let raw ← WithValues.fresh result.ref.type .instruction
    return [⟨some raw, op, line⟩, ⟨some d, .checkCast cast raw, line⟩]
  | _, _ => return [⟨dest, op, line⟩]

/-- The constant a call passes for an added parameter. -/
def extraOp : ExtraParameter → Op
  | .unusedNull _ => .constNull
  | .constantInt n => .constInt n

/-- The arguments of a call that are still passed. -/
def keptArguments (changes : ProtoChanges) (args : List ValueId) : List ValueId :=
  (args.mapIdx fun i v => (i, v)).filterMap fun (i, v) =>
    match changes.argumentAt? i with
    | some (.removed ..) => none
    | _ => some v

/-- A call with the constants it passes. -/
def invoke (u : Update) (context : MethodRef) (dest : Option ValueId) (kind : InvokeKind) (m : MethodRef)
    (args : List ValueId) (isInterface : Bool) (line : Line) : WithValues (List Instr) := do
  let result ← u.method context m kind
  let extra ← result.changes.extra.mapM fun e => return (← WithValues.fresh e.type .instruction, e)
  let constants := extra.map fun (v, e) => (⟨some v, extraOp e, line⟩ : Instr)
  let args := keptArguments result.changes args ++ extra.map Prod.fst
  let isInterface := if result.kind = kind then isInterface else result.kind = .interface
  let dest := if result.ref.proto.returnType.isVoid then none else dest
  return constants ++ [⟨dest, .invoke result.kind result.ref args isInterface, line⟩]

/-- Bring an instruction up to date. It may become several. -/
def instr (u : Update) (context : MethodRef) (i : Instr) : WithValues (List Instr) :=
  let keep (op : Op) : WithValues (List Instr) := return [{ i with op := op }]
  match i.op with
  | .constClass t => keep (.constClass (u.type t))
  | .constHandle h => do keep (.constHandle (← u.handle context h))
  | .constMethodType p => keep (.constMethodType (u.proto p))
  | .newInstance t => keep (.newInstance (u.type t))
  | .newArray t size => keep (.newArray (u.type t) size)
  | .arrayGet t array index => keep (.arrayGet (u.type t) array index)
  | .checkCast t v => keep (.checkCast (u.type t) v)
  | .instanceOf t v => keep (.instanceOf (u.type t) v)
  | .staticGet f =>
    let result := u.field f
    fieldRead i.dest (.staticGet result.ref) result i.line
  | .instanceGet f object =>
    let result := u.field f
    fieldRead i.dest (.instanceGet result.ref object) result i.line
  | .staticPut f v => keep (.staticPut (u.field f).ref v)
  | .instancePut f object v => keep (.instancePut (u.field f).ref object v)
  | .invoke kind m args itf => u.invoke context i.dest kind m args itf i.line
  | .invokeCustom site args => do keep (.invokeCustom (← u.callSite context site) args)
  | op => keep op

/-- Bring a block up to date. -/
def block (u : Update) (context : MethodRef) (b : Block) : WithValues Block := do
  let body ← b.body.mapM (u.instr context)
  return { b with
    body := body.flatten
    handlers := b.handlers.map fun h => { h with guard := u.type h.guard } }

end Update

/-! ### Equal guards -/

namespace Body

/-- The handlers whose guard no earlier handler of the block has. -/
def distinctGuards (handlers : List Handler) : List Handler :=
  handlers.foldl (fun kept h => if kept.any (·.guard == h.guard) then kept else kept ++ [h]) []

/-- Choose the operands of a phi for the predecessors that are left. -/
def selectOperands (before after : List BlockId) (p : Phi) : Guarded Phi := do
  let kept := after.filterMap fun b => before.idxOf? b
  let operands ← kept.mapM fun k => entryOr p.operands k (.indexOutOfRange k)
  return { p with operands := operands }

/-- The block without handlers that repeat a guard. -/
def dropEqualGuards (b : Block) : Block := { b with handlers := distinctGuards b.handlers }

/-- Reduce equal guards of a block to the first of them. -/
def pruneGuards (c : Body) : Guarded Body :=
  if c.blocks.all fun b => (distinctGuards b.handlers).length == b.handlers.length then .ok c
  else do
    let pruned : Body := { c with blocks := c.blocks.map dropEqualGuards }
    let blocks ← (pruned.blocks.mapIdx fun i b => (i, b)).mapM fun ((i, b) : BlockId × Block) => do
      let before := c.predecessorsOf i
      let after := pruned.predecessorsOf i
      if before = after then return b
      else return { b with phis := ← b.phis.mapM (selectOperands before after) }
    let (_, reduced) ← removeUnreachable { pruned with blocks := blocks }
    return reduced

end Body

/-! ### Bodies -/

/-- Bring a body up to date; it becomes the body of `method`, which is its present name. -/
def Update.body (u : Update) (c : Body) (method : MethodRef) (isStatic : Bool) : Guarded Body := do
  let retyped : Body := { c with values := c.values.map fun v => ({ v with type := u.type v.type } : Value) }
  let c := retyped.updateArguments (← u.definitionChanges method)
  let (blocks, values) ← (c.blocks.mapM (u.block method)).run c.values
  let c ← Body.pruneGuards { c with blocks := blocks, values := values }
  return { c with method := method, isStatic := isStatic }

end DexShrinker
