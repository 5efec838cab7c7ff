/-
  DexShrinker/Program.lean
  ========================
  **Programs: classes with their fields, methods and bodies.**

  A program maps each type to at most one class, and lists its classes in the order
  of types. Program classes are what is being optimised; library classes are visible
  but never change.
-/
import DexShrinker.Access
import DexShrinker.Usage

namespace DexShrinker

open Std

/-- A method body in either form. -/
inductive Code where
  | body (body : Body)
  | packed (packed : PackedBody)

namespace Code

def isPacked : Code → Bool
  | body _ => false
  | packed _ => true

/-- The references a body makes. -/
def uses : Code → Except PackedError (List Use)
  | body b => .ok b.uses
  | packed p => p.uses

end Code

/-- Where an instance initializer takes a value from. -/
inductive InitValue where
  /-- The argument at this index; the receiver is argument `0`. -/
  | argument (index : Nat)
  | int (value : Int64)
  | string (value : String)
  | null
deriving DecidableEq

/-- What the instance initializer of an enum does: the ordinal and the name it hands to
    the initializer of the enum base class, and the fields it assigns. -/
structure InitSummary where
  ordinal : Option InitValue := none
  name : Option InitValue := none
  writes : FieldMap InitValue := ∅

/-- The value of a static field before the program runs. -/
inductive StaticValue where
  | int (value : Int64)
  | string (value : String)
  | null
deriving DecidableEq

/-- A field of a class. -/
structure FieldDef where
  ref : FieldRef
  access : AccessFlags
  staticValue : Option StaticValue := none

def FieldDef.isStatic (f : FieldDef) : Bool := f.access.isStatic

def FieldDef.isVolatile (f : FieldDef) : Bool := f.access.isVolatile

/-- A method of a class. -/
structure MethodDef where
  ref : MethodRef
  access : AccessFlags
  code : Option Code
  /-- The body has to be inlined into every caller. -/
  forceInline : Bool := false
  /-- What is known about an instance initializer. -/
  initSummary : Option InitSummary := none

namespace MethodDef

def isStatic (m : MethodDef) : Bool := m.access.isStatic
def isPrivate (m : MethodDef) : Bool := m.access.isPrivate
def isAbstract (m : MethodDef) : Bool := m.access.isAbstract
def isInstanceInitializer (m : MethodDef) : Bool := m.ref.isInstanceInitializer
def isClassInitializer (m : MethodDef) : Bool := m.ref.isClassInitializer

/-- Static methods, private methods and initializers are never dispatched. -/
def isDirect (m : MethodDef) : Bool :=
  m.isStatic || m.isPrivate || m.isInstanceInitializer || m.isClassInitializer

def isVirtual (m : MethodDef) : Bool := !m.isDirect

/-- The types of the arguments the body sees. -/
def argumentTypes (m : MethodDef) : List Descriptor := m.ref.argumentTypes m.isStatic

end MethodDef

/-- Whether a class is part of what is being optimised. -/
inductive ClassKind where
  | program
  | library
deriving DecidableEq

/-- A class or interface. -/
structure ClassDef where
  type : Descriptor
  kind : ClassKind := .program
  access : AccessFlags := .publicFlag
  superclass : Option Descriptor
  interfaces : List Descriptor := []
  annotations : List Descriptor := []
  fields : List FieldDef := []
  methods : List MethodDef := []

namespace ClassDef

def isProgram (c : ClassDef) : Bool := c.kind == .program
def isLibrary (c : ClassDef) : Bool := c.kind == .library
def isInterface (c : ClassDef) : Bool := c.access.isInterface
def isAbstract (c : ClassDef) : Bool := c.access.isAbstract
def isAnnotationType (c : ClassDef) : Bool := c.access.contains .annotationFlag

/-- A class flagged as an enum right below the enum base class. -/
def isEnum (c : ClassDef) : Bool := c.access.contains .enumFlag && c.superclass == some .enumBase

def instanceFields (c : ClassDef) : List FieldDef := c.fields.filter (!·.isStatic)
def staticFields (c : ClassDef) : List FieldDef := c.fields.filter (·.isStatic)

/-- The first field with a reference. -/
def field? (c : ClassDef) (f : FieldRef) : Option FieldDef := c.fields.find? (·.ref == f)

/-- The first method with a reference. -/
def method? (c : ClassDef) (m : MethodRef) : Option MethodDef := c.methods.find? (·.ref == m)

/-- The first method with a signature. -/
def methodBySignature? (c : ClassDef) (s : Signature) : Option MethodDef :=
  c.methods.find? (·.ref.signature == s)

def classInitializer? (c : ClassDef) : Option MethodDef := c.methods.find? (·.isClassInitializer)
def instanceInitializers (c : ClassDef) : List MethodDef := c.methods.filter (·.isInstanceInitializer)
def directMethods (c : ClassDef) : List MethodDef := c.methods.filter (·.isDirect)
def virtualMethods (c : ClassDef) : List MethodDef := c.methods.filter (·.isVirtual)

/-- The superclass, then the interfaces. -/
def supertypes (c : ClassDef) : List Descriptor := c.superclass.toList ++ c.interfaces

end ClassDef

/-- All classes that are visible, each under its type. -/
structure Program where
  classMap : TypeMap ClassDef
  /-- Every class is found under its own type. -/
  keyed (t : Descriptor) (c : ClassDef) : classMap[t]? = some c → c.type = t

namespace Program

def empty : Program where
  classMap := ∅
  keyed t c h := by simp at h

/-- Put in a class, in place of one with the same type. -/
def insert (p : Program) (c : ClassDef) : Program where
  classMap := p.classMap.insert c.type c
  keyed := by
    intro t d h
    rw [TreeMap.getElem?_insert] at h
    split at h
    · next heq =>
      cases h
      exact LawfulEqOrd.eq_of_compare heq
    · exact p.keyed t d h

/-- Take out a class. -/
def erase (p : Program) (t : Descriptor) : Program where
  classMap := p.classMap.erase t
  keyed := by
    intro s c h
    rw [TreeMap.getElem?_erase] at h
    split at h
    · cases h
    · exact p.keyed s c h

/-- The class with a type. -/
def class? (p : Program) (t : Descriptor) : Option ClassDef := p.classMap[t]?

def contains (p : Program) (t : Descriptor) : Bool := p.classMap.contains t

/-- Every class, in the order of types. -/
def classes (p : Program) : List ClassDef := p.classMap.values

/-- The program classes, in the order of types. -/
def programClasses (p : Program) : List ClassDef := p.classes.filter (·.isProgram)

def size (p : Program) : Nat := p.classMap.size

def method? (p : Program) (m : MethodRef) : Option MethodDef := (p.class? m.holder).bind (·.method? m)

def field? (p : Program) (f : FieldRef) : Option FieldDef := (p.class? f.holder).bind (·.field? f)

/-- The program with the given classes; a later class takes the place of an earlier one. -/
def ofList (classes : List ClassDef) : Program := classes.foldl insert .empty

end Program

end DexShrinker
