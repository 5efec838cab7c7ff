/-
  DexShrinker/Unboxing/Members.lean
  =================================
  **The members that every enum has.**

  An enum has a static field for every constant, an array with all of them, the
  methods `values` and `valueOf`, and what it inherits from the base class. All are
  recognized by flags, name and type.
-/
import DexShrinker.Program

namespace DexShrinker

/-- Methods of the base class that can be called on an enum that became a number. -/
inductive EnumMethod where
  | ordinal
  | compareTo
  | equals
  | hashCode
  | name
  | toString
deriving DecidableEq

namespace EnumMethod

/-- The method that a name and a prototype stand for. -/
def ofSignature? (s : Signature) : Option EnumMethod :=
  match s.proto.parameters with
  | [] =>
    if s.name == "ordinal" && s.proto.returnType == .int then some ordinal
    else if s.name == "hashCode" && s.proto.returnType == .int then some hashCode
    else if s.name == "name" && s.proto.returnType == .string then some name
    else if s.name == "toString" && s.proto.returnType == .string then some toString
    else none
  | [p] =>
    if s.name == "compareTo" && s.proto.returnType == .int then some compareTo
    else if s.name == "equals" && p == .object && s.proto.returnType == .boolean then some equals
    else none
  | _ => none

/-- The method takes a second enum value. -/
def isBinary : EnumMethod → Bool
  | compareTo | equals => true
  | _ => false

end EnumMethod

/-- What a call on an enum value calls. -/
inductive ReceiverCall where
  /-- An instance method that the enum declares. -/
  | declared
  /-- A method of the base class. -/
  | supported (method : EnumMethod)
  | invalid
deriving DecidableEq

/-- What a call of `m` on a value of the enum `c` calls. An override in the enum comes
    before the method of the base class, except for a call that skips it. -/
def ReceiverCall.classify (c : Option ClassDef) (kind : InvokeKind) (m : MethodRef) : ReceiverCall :=
  match c with
  | none => invalid
  | some c =>
    if m.holder != c.type && m.holder != .enumBase && m.holder != .object then invalid
    else
      let inherited := ((EnumMethod.ofSignature? m.signature).map supported).getD invalid
      if kind = .super then inherited
      else
        match c.methodBySignature? m.signature with
        | some d => if d.isStatic then invalid else declared
        | none => inherited

/-- The field holds one of the enum's constants. -/
def FieldDef.isEnumConstant (f : FieldDef) (enum : Descriptor) : Bool :=
  f.isStatic && f.access.contains (.enumFlag ||| .finalFlag) && f.ref.type == enum

/-- The name of the array with all constants. -/
def valuesFieldName : String := "$VALUES"

/-- The field holds the array with all constants. -/
def FieldDef.isEnumValues (f : FieldDef) (enum : Descriptor) : Bool :=
  f.isStatic && f.access.contains (.syntheticFlag ||| .finalFlag) && f.ref.name == valuesFieldName
    && f.ref.type == enum.toArray

namespace MethodRef

/-- The method is `values()` of the enum. -/
def isEnumValues (m : MethodRef) (enum : Descriptor) : Bool :=
  m.holder == enum && m.name == "values" && m.proto.parameters.isEmpty && m.proto.returnType == enum.toArray

/-- The method is `valueOf(String)` of the enum. -/
def isEnumValueOf (m : MethodRef) (enum : Descriptor) : Bool :=
  m.holder == enum && m.name == "valueOf" && m.proto.parameters == [.string] && m.proto.returnType == enum

/-- The method checks that its first argument is not null; a second one is the message. -/
def isRequireNonNull (m : MethodRef) : Bool :=
  m.holder == .objects && m.name == "requireNonNull" && m.proto.returnType == .object
    && (m.proto.parameters == [.object] || m.proto.parameters == [.object, .string])

end MethodRef

/-- Unboxing gives the method a new body or none, whatever its body is. -/
def MethodDef.isReplacedInEnum (m : MethodDef) (enum : Descriptor) : Bool :=
  m.isInstanceInitializer || m.ref.isEnumValues enum || m.ref.isEnumValueOf enum

/-- The prototype names one of the types, or an array of it. -/
def Prototype.mentions (p : Prototype) (types : TypeSet) : Bool := p.types.any fun t => types.contains t.base

end DexShrinker
