/-
  DexShrinker/Updating/Packed.lean
  ================================
  **Bringing packed bodies up to date.**

  Where no instruction has to be added or removed it is enough to rename the entries
  of the constant pool and the guards, and to replace the opcodes of calls that have
  become another kind of call. Otherwise the body is unpacked against its previous
  signature, brought up to date and packed again.
-/
import DexShrinker.Packed.Pack
import DexShrinker.Packed.Unpack
import DexShrinker.Updating.Body

namespace DexShrinker

open Std

/-- What became of a packed body. -/
inductive PackedUpdate where
  | unchanged
  /-- The pool, the guards or some opcodes were replaced. -/
  | patched (code : PackedBody)
  /-- The body was unpacked and packed again. -/
  | rebuilt (code : PackedBody)

namespace Update

/-- Bring a constant up to date, and say whether calls of it may change their kind. A
    recorded kind replaces whatever kind a call has, so trying two kinds shows it. There
    is no answer if calls of the constant change their arguments. -/
def constant? (u : Update) (context : MethodRef) : Constant → Guarded (Option (Constant × Bool))
  | .type t => return some (.type (u.type t), false)
  | .field f => return some (.field (u.field f).ref, false)
  | .method m => do
    let result ← u.method context m .virtual
    if result.changes.isEmpty then
      let probe ← u.method context m .static
      return some (.method result.ref, result.kind != .virtual || probe.kind != .static)
    else
      return none
  | .string s => return some (.string s, false)
  | .proto p => return some (.proto (u.proto p), false)
  | .handle h => return some (.handle (← u.handle context h), false)
  | .callSite c => return some (.callSite (← u.callSite context c), false)

/-- Bring constants up to date, and say whether calls of any of them may change their
    kind. The first whose calls change their arguments ends it. -/
def constants? (u : Update) (context : MethodRef) : List Constant → Guarded (Option (List Constant × Bool))
  | [] => return some ([], false)
  | c :: rest => do
    let some (c, changesKind) ← u.constant? context c | return none
    let some (rest, changeKinds) ← u.constants? context rest | return none
    return some (c :: rest, changesKind || changeKinds)

/-- Values read from the field constant have to be cast. -/
def castsReads (u : Update) : Constant → Bool
  | .field f => (u.field f).readCast.isSome
  | _ => false

/-- Handlers with their guards up to date. -/
def handlers (u : Update) (hs : List Handler) : List Handler :=
  hs.map fun h => { h with guard := u.type h.guard }

/-- The opcode of a call that has become another kind of call. Only interface calls have
    the flag of interface calls. -/
def callOpcode (old new : InvokeKind) (isInterface : Bool) : UInt8 :=
  Opcode.ofInvoke new (if new = .interface then true else if old = .interface then false else isInterface)

/-- The opcodes to replace, by offset, or `none` if a read has to be cast. -/
def opcodePatches (u : Update) (p : PackedBody) (context : MethodRef) :
    List (Except PackedError InstrView) → Outcome PackedError (Option (List (Nat × UInt8)))
  | [] => return some []
  | item :: items => do
    let view ← Outcome.ofExcept id item
    let casts (f : Nat) : Bool := (p.constants[f]?).any u.castsReads
    match ← Outcome.ofExcept id view.decode with
    | .staticGet f => if casts f then return none else u.opcodePatches p context items
    | .instanceGet f _ => if casts f then return none else u.opcodePatches p context items
    | .invoke kind itf m _ =>
      let result ← Outcome.lift (u.method context (← Outcome.ofExcept id (p.methodAt m)) kind)
      let rest ← u.opcodePatches p context items
      if result.kind = kind then return rest
      else return rest.map ((view.offset, callOpcode kind result.kind itf) :: ·)
    | _ => u.opcodePatches p context items

/-- Unpack, bring up to date and pack again. The body was static if it has as many
    arguments as its signature then had parameters. -/
def rebuild (u : Update) (p : PackedBody) (method : MethodRef) (isStatic : Bool) :
    Outcome PackedError PackedUpdate := do
  let previous := u.lens.previousMethod method u.code
  let wasStatic := p.argumentCount == previous.proto.arity
  let body ← p.unpack previous wasStatic (previous.argumentTypes wasStatic)
  let body ← Outcome.lift (u.body body method isStatic)
  return .rebuilt (← body.pack)

/-- Patch a body whose constants and handlers have been brought up to date. -/
def patch (u : Update) (p : PackedBody) (method : MethodRef) (isStatic : Bool) (constants : List Constant)
    (kindsChanged : Bool) (handlers : TreeMap Nat (List Handler)) : Outcome PackedError PackedUpdate := do
  let poolChanged := constants != p.constants
  let handlersChanged := handlers.toList != p.handlers.toList
  if !poolChanged && !handlersChanged && !kindsChanged then
    return .unchanged
  else
    let patches ← if poolChanged || kindsChanged then u.opcodePatches p method p.views else pure (some [])
    match patches with
    | none => u.rebuild p method isStatic
    | some patches =>
      if patches.isEmpty && !poolChanged && !handlersChanged then
        return .unchanged
      else
        return .patched { p with
          constants := constants
          bytes := patches.foldl (fun bytes (offset, op) => bytes.set offset op) p.bytes
          handlers := handlers }

/-- Bring a packed body up to date; it becomes the body of `method`, which is its present
    name. -/
def packed (u : Update) (p : PackedBody) (method : MethodRef) (isStatic : Bool) :
    Outcome PackedError PackedUpdate := do
  let changes ← Outcome.lift (u.definitionChanges method)
  if !changes.isEmpty then
    u.rebuild p method isStatic
  else
    match ← Outcome.lift (u.constants? method p.constants) with
    | none => u.rebuild p method isStatic
    | some (constants, kindsChanged) =>
      let handlers := p.handlers.map fun _ hs => u.handlers hs
      if handlers.any fun _ hs => (Body.distinctGuards hs).length != hs.length then
        u.rebuild p method isStatic
      else
        u.patch p method isStatic constants kindsChanged handlers

end Update

end DexShrinker
