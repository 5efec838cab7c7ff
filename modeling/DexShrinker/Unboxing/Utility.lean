/-
  DexShrinker/Unboxing/Utility.lean
  =================================
  **The classes that take the place of enums.**

  One *shared* class has what all enums need: an array with the numbers of all constants,
  where index `0` stands for null, and static methods in place of those of the base class.
  Every enum has a *local* class besides, with the methods that depend on its constants:
  the name of a constant, the constant with a name, and a getter for every instance field
  that is read. All bodies are written under the new names.
-/
import DexShrinker.Body.Assembly
import DexShrinker.FreshName
import DexShrinker.Unboxing.Constants

namespace DexShrinker

namespace Utility

/-- The flags of utility classes. -/
def classAccess : AccessFlags := .publicFlag ||| .finalFlag ||| .syntheticFlag

/-- The flags of utility methods. -/
def methodAccess : AccessFlags := .publicFlag ||| .staticFlag ||| .syntheticFlag

/-- The flags of the shared class initializer. -/
def clinitAccess : AccessFlags := .staticFlag ||| .constructorFlag

/-- The first of `candidate ""`, `candidate "1"`, … that no class has. -/
def uniqueType (p : Program) (candidate : String → Descriptor) : Descriptor :=
  let numbered (i : Nat) : Descriptor := candidate (if i = 0 then "" else toString i)
  numbered (firstFree numbered (p.classes.map ClassDef.type))

/-- The method with the body that the steps build. -/
def synthesize (m : MethodRef) (access : AccessFlags) (steps : Assembly Unit) : Outcome EnumError MethodDef := do
  let body ← Outcome.mapError (.synthesize m) (Assembly.build m access.isStatic steps)
  return { ref := m, access := access, code := some (.body body) }

/-! ### Pieces of bodies -/

open Assembly

/-- An integer operation. -/
def arithmetic (op : BinaryOp) (lhs rhs : ValueId) : Assembly ValueId := emitValue (.binary op .int lhs rhs) .int

/-- Throw a new exception, with a message or without. -/
def throwNew (exception : Descriptor) (message : Option ValueId) : Assembly Unit := do
  let thrown ← emitValue (.newInstance exception) exception
  let init : MethodRef := ⟨exception, MethodRef.initName, .void, message.toList.map fun _ => .string⟩
  let _ ← invoke .direct init (thrown :: message.toList)
  terminate (.throw thrown)

/-- Go on in a new block if the comparison with `rhs` fails, and in another if it holds. The
    result is the block for the case that it holds. -/
def unlessHolds (kind : Comparison) (type : ComparedType) (lhs : ValueId) (rhs : Assembly (Option ValueId)) :
    Assembly BlockId := do
  let fallthrough ← newBlock
  let target ← newBlock
  terminate (.branch kind type lhs (← rhs) target)
  switchTo fallthrough
  return target

/-- Do `case` for the constant that `value` stands for, where the first of the given cases
    belongs to `ordinal`, and throw if it stands for none. A case has to end its block. -/
def onConstantFrom {α : Type} (value : ValueId) (case : α → Assembly Unit) : (ordinal : Nat) → List α → Assembly Unit
  | _, [] => throwNew .nullPointerException none
  | ordinal, a :: rest => do
    let miss ← unlessHolds .ne .int value (some <$> constInt (unboxedValue (.ofNat ordinal)))
    case a
    switchTo miss
    onConstantFrom value case (ordinal + 1) rest

/-- Do `case` for the constant that `value` stands for; there is a case for every ordinal. -/
def onConstant {α : Type} (value : ValueId) (cases : List α) (case : α → Assembly Unit) : Assembly Unit :=
  onConstantFrom value case 0 cases

/-- A constant of type `type`. Null is the number `0` where an enum became a number. -/
def constant (type : Descriptor) : StaticValue → Assembly ValueId
  | .int v =>
    if v.toInt32.toInt64 = v && type != .long then emitValue (.constInt v.toInt32) type
    else emitValue (.constLong v) type
  | .string s => constString s
  | .null => if type.isPrimitive then constInt 0 else emitValue .constNull type

end Utility

/-! ### The shared class -/

/-- The class that all enums share. -/
structure SharedUtility where
  type : Descriptor
  /-- The largest number of constants of an enum. -/
  maxSize : Nat

namespace SharedUtility

open Utility Assembly

/-- The shared class, named for the package of the first enum. -/
def ofProgram (p : Program) (first : Descriptor) (maxSize : Nat) : Guarded SharedUtility := do
  match first.package? with
  | none => throw (.malformedDescriptor first.text)
  | some package =>
    let directory := if package.isEmpty then "" else package ++ "/"
    return ⟨uniqueType p fun n => .ofBinaryName (directory ++ "$$EnumUnboxingSharedUtility" ++ n), maxSize⟩

def method (u : SharedUtility) (name : String) (returnType : Descriptor) (parameters : List Descriptor) : MethodRef :=
  ⟨u.type, name, returnType, parameters⟩

/-- The array with the numbers of all constants. -/
def valuesField (u : SharedUtility) : FieldRef := ⟨u.type, valuesFieldName, .intArray⟩

def clinit (u : SharedUtility) : MethodRef := u.method MethodRef.clinitName .void []
def checkNotZero (u : SharedUtility) : MethodRef := u.method "checkNotZero" .void [.int]
def checkNotZeroWithMessage (u : SharedUtility) : MethodRef := u.method "checkNotZero" .void [.int, .string]
def compareTo (u : SharedUtility) : MethodRef := u.method "compareTo" .int [.int, .int]
def equals (u : SharedUtility) : MethodRef := u.method "equals" .boolean [.int, .int]
def ordinal (u : SharedUtility) : MethodRef := u.method "ordinal" .int [.int]
def values (u : SharedUtility) : MethodRef := u.method "values" .intArray [.int]

/-- Fill the array so that every index is its own entry. An array has at most `2147483647`
    entries. -/
def clinitSteps (u : SharedUtility) : Assembly Unit := do
  let length := u.maxSize + 1
  let array ← emitValue (.newArray .intArray (← constInt (.ofNat (min length 2147483647)))) .intArray
  (List.range length).forM fun i => do
    let index ← constInt (.ofNat i)
    emit (.arrayPut array index index)
  emit (.staticPut u.valuesField array)
  ret none

/-- Throw if the number stands for null. -/
def checkSteps (hasMessage : Bool) : Assembly Unit := do
  let value ← argument 0
  let message ← if hasMessage then some <$> argument 1 else pure none
  let done ← unlessHolds .ne .int value (pure none)
  throwNew .nullPointerException message
  switchTo done
  ret none

def compareToSteps (u : SharedUtility) : Assembly Unit := do
  let lhs ← argument 0
  let rhs ← argument 1
  let _ ← invoke .static u.checkNotZero [lhs]
  let _ ← invoke .static u.checkNotZero [rhs]
  ret (some (← arithmetic .sub lhs rhs))

def equalsSteps (u : SharedUtility) : Assembly Unit := do
  let lhs ← argument 0
  let rhs ← argument 1
  let _ ← invoke .static u.checkNotZero [lhs]
  let different ← unlessHolds .ne .int lhs (pure (some rhs))
  ret (some (← emitValue (.constInt 1) .boolean))
  switchTo different
  ret (some (← emitValue (.constInt 0) .boolean))

def ordinalSteps (u : SharedUtility) : Assembly Unit := do
  let value ← argument 0
  let _ ← invoke .static u.checkNotZero [value]
  ret (some (← arithmetic .sub value (← constInt 1)))

/-- Copy entries of the array from index one on, as many as asked for. The result of the
    phi's other operand is the index that the loop leads back with. -/
def valuesSteps (u : SharedUtility) : Assembly (BlockId × ValueId) := do
  let size ← argument 0
  let header ← newBlock
  let body ← newBlock
  let exit ← newBlock
  let result ← emitValue (.newArray .intArray size) .intArray
  let lookup ← staticGet u.valuesField
  let start ← constInt 0
  terminate (.goto header)
  switchTo header
  let index ← phi .int [start, start]
  terminate (.branch .ge .int index (some size) exit)
  switchTo body
  let next ← arithmetic .add index (← constInt 1)
  let value ← emitValue (.arrayGet .int lookup next) .int
  emit (.arrayPut result index value)
  terminate (.goto header)
  switchTo exit
  ret (some result)
  return (header, next)

/-- Let the first phi of a block come round with `next`. -/
def closeLoop (c : Body) (header : BlockId) (next : ValueId) : Body :=
  { c with blocks := c.blocks.modify header fun b => { b with phis := b.phis.modify 0 fun p =>
      { p with operands := p.operands.set 1 next } } }

/-- The method that gives the numbers of the first constants. Its loop is closed once the
    value that it leads back with exists. -/
def valuesDef (u : SharedUtility) : Outcome EnumError MethodDef := do
  let (result, d) := u.valuesSteps.run.run (Draft.start u.values true)
  let (header, next) ← Outcome.lift result
  let body ← Outcome.mapError (.synthesize u.values) d.finish
  let body := closeLoop body header next
  Outcome.mapError (.synthesize u.values) body.verify
  return { ref := u.values, access := methodAccess, code := some (.body body) }

/-- The shared class. -/
def build (u : SharedUtility) : Outcome EnumError ClassDef := do
  return {
    type := u.type
    access := classAccess
    superclass := some .object
    fields := [{ ref := u.valuesField, access := methodAccess ||| .finalFlag }]
    methods := [
      ← synthesize u.clinit clinitAccess u.clinitSteps,
      ← synthesize u.checkNotZero methodAccess (checkSteps false),
      ← synthesize u.checkNotZeroWithMessage methodAccess (checkSteps true),
      ← synthesize u.compareTo methodAccess u.compareToSteps,
      ← synthesize u.equals methodAccess u.equalsSteps,
      ← synthesize u.ordinal methodAccess u.ordinalSteps,
      ← u.valuesDef] }

/-- The accesses to the array in the shared class. -/
def fieldAccess (u : SharedUtility) : FieldAccess :=
  FieldAccess.recordRead (FieldAccess.recordWrite ∅ u.valuesField u.clinit) u.valuesField u.values

end SharedUtility

/-! ### Local classes -/

/-- The class with what depends on the constants of one enum. -/
structure LocalUtility where
  type : Descriptor

namespace LocalUtility

open Utility Assembly

/-- The local class of an enum, named for it. -/
def ofProgram (p : Program) (enum : Descriptor) : Guarded LocalUtility := do
  let suffix := "$$EnumUnboxingLocalUtility"
  match enum.withSuffix? suffix with
  | none => throw (.malformedDescriptor enum.text)
  | some first => return ⟨uniqueType p fun n => (enum.withSuffix? (suffix ++ n)).getD first⟩

/-- The class without members. -/
def emptyClass (u : LocalUtility) : ClassDef where
  type := u.type
  access := classAccess
  superclass := some .object

def nameMethod (u : LocalUtility) : MethodRef := ⟨u.type, "$name", .string, [.int]⟩
def valueOf (u : LocalUtility) : MethodRef := ⟨u.type, "valueOf", .int, [.string]⟩

/-- The getter for an instance field, whose type is now `type`. -/
def getter (u : LocalUtility) (f : FieldRef) (type : Descriptor) : MethodRef :=
  ⟨u.type, "get$" ++ f.name, type, [.int]⟩

/-- The name of a constant. -/
def nameDef (u : LocalUtility) (d : EnumData) : Outcome EnumError MethodDef :=
  synthesize u.nameMethod methodAccess do
    onConstant (← argument 0) d.constants fun c => do ret (some (← constString c.name))

/-- The method that compares texts. -/
def textEquals : MethodRef := ⟨.string, "equals", .boolean, [.object]⟩

/-- Return the constant whose name is `name`, and throw if there is none. -/
def matchName (name : ValueId) : List EnumConstant → Assembly Unit
  | [] => throwNew .illegalArgumentException (some name)
  | c :: rest => do
    let hit ← newBlock
    let miss ← newBlock
    let candidate ← constString c.name
    let isEqual ← invoke .virtual textEquals [candidate, name]
    terminate (.branch .eq .int (isEqual.getD candidate) none miss)
    switchTo hit
    ret (some (← constInt (unboxedValue c.ordinal)))
    switchTo miss
    matchName name rest

/-- The constant with a name. -/
def valueOfDef (u : LocalUtility) (d : EnumData) : Outcome EnumError MethodDef :=
  synthesize u.valueOf methodAccess do
    let name ← argument 0
    let first ← unlessHolds .ne .object name (pure none)
    throwNew .nullPointerException none
    switchTo first
    matchName name d.constants

/-- The getter for a field: the value in every constant. -/
def getterDef (u : LocalUtility) (f : FieldRef) (type : Descriptor) (values : List StaticValue) :
    Outcome EnumError MethodDef :=
  synthesize (u.getter f type) methodAccess do
    onConstant (← argument 0) values fun v => do ret (some (← constant type v))

end LocalUtility

end DexShrinker
