/-
  DexShrinker/Unboxing/Constants.lean
  ===================================
  **The constants of an enum.**

  The class initializer of an enum makes an instance for every constant field and stores
  it there. From the summaries of the instance initializers follow the ordinal and the
  name of every constant, and the values of its instance fields. The constant with
  ordinal `n` becomes the number `n + 1`, and null becomes `0`.

  The class initializer is lowered: the instances become placeholders and the calls of
  instance initializers go.
-/
import DexShrinker.Body.Flow
import DexShrinker.Sorting
import DexShrinker.Unboxing.Decoded
import DexShrinker.Unboxing.Reason

namespace DexShrinker

/-- A constant of an enum. -/
structure EnumConstant where
  field : FieldRef
  ordinal : Int32
  name : String
deriving DecidableEq

/-- The number for the constant with an ordinal. -/
def unboxedValue (ordinal : Int32) : Int32 := ordinal + 1

/-- What is known about an enum that becomes a number. -/
structure EnumData where
  /-- The constants, by ordinal. -/
  constants : List EnumConstant := []
  /-- For every instance field that is read, its value in every constant. -/
  fieldValues : FieldMap (List StaticValue) := ∅

namespace EnumData

/-- The number of constants. -/
def size (d : EnumData) : Nat := d.constants.length

/-- The constant that a field holds. -/
def constantFor? (d : EnumData) (f : FieldRef) : Option EnumConstant := d.constants.find? (·.field == f)

end EnumData

/-- An enum whose class initializer has been lowered. -/
structure FixedEnum where
  data : EnumData := {}
  classInitializer : Option Body := none

namespace FixedEnum

/-- An instance made by the class initializer, and the call that initializes it. -/
structure Allocation where
  value : ValueId
  /-- Where the instance is made: block and position. -/
  site : BlockId × Nat
  /-- Where it is initialized. -/
  call : BlockId × Nat
  ordinal : Int32
  name : String
  /-- The values that fields are set to, where they are known. -/
  fieldValues : FieldMap (Option StaticValue)

/-- The instruction at a place. -/
def instrAt? (c : Body) (place : BlockId × Nat) : Option Instr := (c.blocks[place.1]?).bind (·.body[place.2]?)

/-- The initializer call on `v` that an operation is. -/
def initCall? (enum : Descriptor) (v : ValueId) : Op → Option (MethodRef × List ValueId)
  | .invoke .direct m args _ =>
    if m.isInstanceInitializer && m.holder == enum && args.head? == some v then some (m, args) else none
  | _ => none

/-- The calls that initialize a value, with their places. -/
def initCalls (c : Body) (enum : Descriptor) (v : ValueId) : List ((BlockId × Nat) × MethodRef × List ValueId) :=
  (c.users v).filterMap fun place =>
    ((instrAt? c place).bind fun i => initCall? enum v i.op).map fun call => (place, call)

/-- The number as an ordinal, if it is in range. -/
def toOrdinal? (n : Int64) : Option Int32 := if n.toInt32.toInt64 = n then some n.toInt32 else none

/-- The instance that is made at a place, if the one call on it has a summary that gives a
    constant ordinal and a constant name. -/
def allocation (c : Body) (enum : Descriptor) (defs : Definitions) (summaries : MethodMap InitSummary)
    (site : BlockId × Nat) (v : ValueId) : Except Reason Allocation :=
  match initCalls c enum v with
  | [(call, m, args)] =>
    match summaries[m]? with
    | none => .error (.unsupportedInitializer m)
    | some s =>
      match s.ordinal.bind (defs.resolve args), s.name.bind (defs.resolve args) with
      | some (.int n), some (.string name) =>
        match toOrdinal? n with
        | some ordinal => .ok ⟨v, site, call, ordinal, name, s.writes.map fun _ w => defs.resolve args w⟩
        | none => .error .unsupportedClassInitializer
      | _, _ => .error .unsupportedClassInitializer
  | _ => .error .unsupportedClassInitializer

/-- The places where instances of `enum` are made, with the values that hold them. -/
def allocationSites (c : Body) (enum : Descriptor) : List ((BlockId × Nat) × ValueId) :=
  (c.blocks.mapIdx fun i b =>
    (b.body.mapIdx fun j insn =>
      match insn.op, insn.dest with
      | .newInstance t, some v => if t = enum then [((i, j), v)] else []
      | _, _ => []).flatten).flatten

/-- All instances of `enum` that the body makes. -/
def allocations (c : Body) (enum : Descriptor) (summaries : MethodMap InitSummary) : Except Reason (List Allocation) :=
  (allocationSites c enum).mapM fun (site, v) => allocation c enum (.ofBody c) summaries site v

/-- The instance that is stored in every constant field: each is stored to once, and there
    are as many instances, whose ordinals count from zero. -/
def assign (c : Body) (fields : List FieldRef) (found : List Allocation) : Option (FieldMap Allocation) := do
  let stores := (c.blocks.flatMap Block.body).filterMap fun i =>
    match i.op with
    | .staticPut f v => if fields.contains f then some (f, v) else none
    | _ => none
  let assigned ← stores.foldlM (fun (assigned : FieldMap Allocation) (f, v) => do
    let a ← found.find? (·.value == v)
    if assigned.contains f then none else some (assigned.insert f a)) ∅
  let ordinals := found.map (·.ordinal.toInt)
  let isCount := (List.range found.length).all fun i => ordinals.contains (Int.ofNat i)
  if assigned.size = fields.length && found.length = fields.length && isCount then some assigned else none

/-- What a field holds if no initializer assigns it. -/
def defaultValue (f : FieldRef) : StaticValue := if f.type.isPrimitive then .int 0 else .null

/-- The values of a field for the given instances, if all are known. -/
def valuesOf (byOrdinal : List Allocation) (f : FieldRef) : Option (List StaticValue) :=
  byOrdinal.mapM fun a => a.fieldValues.getD f (some (defaultValue f))

/-- Put placeholders for the instances, and take out the calls that initialize them. -/
def replaceAllocations (c : Body) (enum : Descriptor) (found : List Allocation) : Guarded Body := do
  let lower (i j : Nat) (insn : Instr) : List Instr :=
    if found.any (·.call == (i, j)) then []
    else
      match found.find? (·.site == (i, j)) with
      | some a => [{ insn with op := .newUnboxedEnum enum a.ordinal }]
      | none => [insn]
  let blocks := c.blocks.mapIdx fun i b => { b with body := (b.body.mapIdx (lower i)).flatten }
  return (← ({ c with blocks := blocks }).removeDead).2

/-- The summaries of a class's initializers. -/
def summaries (c : ClassDef) : MethodMap InitSummary :=
  c.instanceInitializers.foldl (fun known m =>
    match m.initSummary with
    | some s => known.insert m.ref s
    | none => known) ∅

/-- Find the constants of an enum and lower its class initializer, or say why not. Of the
    instance fields only those in `read` matter. -/
def ofClass (c : ClassDef) (read : FieldSet) : Outcome EnumError (Except (List Reason) FixedEnum) := do
  let fields := (c.fields.filter (·.isEnumConstant c.type)).map FieldDef.ref
  match c.classInitializer? with
  | none => return if fields.isEmpty then .ok {} else .error [.unsupportedClassInitializer]
  | some clinit =>
    match ← clinit.decoded with
    | none => return .error [.unsupportedClassInitializer]
    | some body =>
      match allocations body c.type (summaries c) with
      | .error reason => return .error [reason]
      | .ok found =>
        match assign body fields found with
        | none => return .error [.unsupportedClassInitializer]
        | some assigned =>
          let byOrdinal := sortBy (fun a b => a.ordinal ≤ b.ordinal) found
          let known := (read.toList.filter (·.holder == c.type)).map fun f => (f, valuesOf byOrdinal f)
          match known.filter (·.2.isNone) with
          | [] =>
            let constants := assigned.toList.map fun (f, a) => (⟨f, a.ordinal, a.name⟩ : EnumConstant)
            let data : EnumData := {
              constants := sortBy (fun a b => a.ordinal ≤ b.ordinal) constants
              fieldValues := .ofList (known.filterMap fun (f, vs) => vs.map fun vs => (f, vs)) }
            return .ok ⟨data, some (← replaceAllocations body c.type found)⟩
          | missing => return .error (missing.map fun (f, _) => .missingFieldData f)

end FixedEnum

/-- What is known about all enums that become numbers. -/
abbrev EnumTable := TypeMap EnumData

namespace EnumTable

/-- The constant that a field holds. -/
def constantFor? (t : EnumTable) (f : FieldRef) : Option EnumConstant := (t[f.holder]?).bind (·.constantFor? f)

/-- The largest number of constants. -/
def maxSize (t : EnumTable) : Nat := (t.values.map EnumData.size).foldl max 0

end EnumTable

end DexShrinker
