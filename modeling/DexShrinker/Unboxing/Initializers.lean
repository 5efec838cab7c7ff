/-
  DexShrinker/Unboxing/Initializers.lean
  ======================================
  **What the instance initializers of enums do.**

  An initializer of an enum hands a name and an ordinal to the base class and assigns
  fields. Where these values are arguments or constants, and nothing else happens, the
  initializer is summarized. One that delegates to another initializer of the enum is
  summarized after that one, so initializers are gone through in rounds until a round
  settles none.
-/
import DexShrinker.Unboxing.Decoded

namespace DexShrinker

namespace InitSummary

/-- What is found out about an initializer. -/
inductive Finding where
  | supported (summary : InitSummary)
  | unsupported
  /-- It delegates to an initializer without a summary. -/
  | pending

/-- The initializer of the base class. -/
def baseInitializer : MethodRef := ⟨.enumBase, MethodRef.initName, .void, [.string, .int]⟩

/-- Where a value comes from, if it is an argument or a constant. -/
def trace (c : Body) (defs : Definitions) (v : ValueId) : Guarded (Option InitValue) := do
  match (← entryOr c.values v (.valueOutOfRange v)).origin with
  | .argument i => return some (.argument i)
  | _ =>
    return (defs.constant? v).map fun
      | .int n => .int n
      | .string s => .string s
      | .null => .null

/-- A value of the callee as the caller passes it. -/
def passed (source : ValueId → Guarded (Option InitValue)) (args : List ValueId) : InitValue → Guarded (Option InitValue)
  | .argument i =>
    match args[i]? with
    | some v => source v
    | none => return none
  | v => return some v

/-- An optional value of the callee as the caller passes it. -/
def passed? (source : ValueId → Guarded (Option InitValue)) (args : List ValueId) : Option InitValue → Guarded (Option InitValue)
  | some v => passed source args v
  | none => return none

/-- The summary of the callee with its arguments replaced by what the caller passes. A
    write of a value that the caller does not know is left out. -/
def compose (callee : InitSummary) (args : List ValueId) (source : ValueId → Guarded (Option InitValue)) :
    Guarded (Option InitSummary) := do
  match ← passed? source args callee.ordinal with
  | none => return none
  | some ordinal =>
    match ← passed? source args callee.name with
    | none => return none
    | some name =>
      let writes ← callee.writes.toList.filterMapM fun (f, v) => do
        return (← passed source args v).map fun v => (f, v)
      return some ⟨some ordinal, some name, .ofList writes⟩

/-- The ordinal and the name, once they are known, and the writes so far. -/
structure Progress where
  head : Option (Option InitValue × Option InitValue) := none
  writes : FieldMap InitValue := ∅

/-- A call of an initializer on the receiver. -/
def delegate (enum : Descriptor) (known : MethodMap InitSummary) (source : ValueId → Guarded (Option InitValue))
    (p : Progress) (m : MethodRef) (args : List ValueId) : Guarded (Except Finding Progress) := do
  if m = baseInitializer then
    let name ← match args[1]? with
      | some v => source v
      | none => pure none
    let ordinal ← match args[2]? with
      | some v => source v
      | none => pure none
    if name.isSome && ordinal.isSome then return .ok { p with head := some (ordinal, name) }
    else return .error .unsupported
  else if m.holder = enum then
    match known[m]? with
    | none => return .error .pending
    | some callee =>
      match ← compose callee args source with
      | none => return .error .unsupported
      | some s => return .ok ⟨some (s.ordinal, s.name), p.writes.insertMany s.writes.toList⟩
  else return .error .unsupported

/-- One operation of an initializer. -/
def step (enum : Descriptor) (known : MethodMap InitSummary) (receiver : ValueId)
    (source : ValueId → Guarded (Option InitValue)) (p : Progress) : Op → Guarded (Except Finding Progress)
  | .debugPosition | .constNull | .constInt _ | .constLong _ | .constString _ => return .ok p
  | .invoke .direct m args _ => do
    if m.isInstanceInitializer && args.head? == some receiver && p.head.isNone then
      delegate enum known source p m args
    else return .error .unsupported
  | .instancePut f object value => do
    if object == receiver && f.holder == enum then
      match ← source value with
      | some v => return .ok { p with writes := p.writes.insert f v }
      | none => return .error .unsupported
    else return .error .unsupported
  | _ => return .error .unsupported

/-- The operations of an initializer, one after the other. -/
def walk (enum : Descriptor) (known : MethodMap InitSummary) (receiver : ValueId)
    (source : ValueId → Guarded (Option InitValue)) : Progress → List Op → Guarded Finding
  | p, [] =>
    match p.head with
    | some (ordinal, name) => return .supported ⟨ordinal, name, p.writes⟩
    | none => return .unsupported
  | p, op :: ops => do
    match ← step enum known receiver source p op with
    | .ok p => walk enum known receiver source p ops
    | .error finding => return finding

/-- Summarize the body of an initializer of `enum`, given the summaries of others. Only a
    single block that returns is supported. -/
def ofBody (enum : Descriptor) (known : MethodMap InitSummary) (c : Body) : Guarded Finding := do
  match c.blocks, c.arguments with
  | [b], receiver :: _ =>
    if b.terminator = .ret none && b.handlers.isEmpty then
      walk enum known receiver (trace c (.ofBody c)) {} (b.body.map Instr.op)
    else return .unsupported
  | _, _ => return .unsupported

/-- Initializers that wait for others, and the summaries so far. -/
abbrev Round := List (MethodRef × Body) × MethodMap InitSummary

/-- Go through the waiting initializers once. -/
def round (enum : Descriptor) (waiting : List (MethodRef × Body)) (known : MethodMap InitSummary) : Guarded Round :=
  waiting.foldlM (fun ((still, known) : Round) (m, c) => do
    match ← ofBody enum known c with
    | .supported s => return (still, known.insert m s)
    | .unsupported => return (still, known)
    | .pending => return (still ++ [(m, c)], known)) ([], known)

/-- Go through the waiting initializers until no round settles one. -/
def rounds (enum : Descriptor) (waiting : List (MethodRef × Body)) (known : MethodMap InitSummary) :
    Guarded (MethodMap InitSummary) := do
  let (still, known) ← round enum waiting known
  if _ : still.length < waiting.length then rounds enum still known else return known
termination_by waiting.length

/-- Attach summaries to methods; one that is listed twice is summarized the first time. -/
def attach (known : MethodMap InitSummary) : List MethodDef → List MethodDef
  | [] => []
  | m :: ms =>
    match known[m.ref]? with
    | some s => { m with initSummary := some s } :: attach (known.erase m.ref) ms
    | none => m :: attach known ms

/-- Summarize the initializers of an enum. -/
def ofClass (c : ClassDef) : Outcome EnumError ClassDef := do
  let bodies ← c.instanceInitializers.filterMapM fun m => do
    return (← m.decoded).map fun body => (m.ref, body)
  let known ← rounds c.type bodies ∅
  return { c with methods := attach known c.methods }

end InitSummary

/-- Summarize the initializers of all enums of a program. -/
def Program.summarizeInitializers (p : Program) : Outcome EnumError Program :=
  (p.programClasses.filter (·.isEnum)).foldlM (fun out c => return out.insert (← InitSummary.ofClass c)) p

end DexShrinker
