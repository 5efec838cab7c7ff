/-
  DexShrinker/Reference/Member.lean
  =================================
  **Prototypes and references to fields and methods.**

  A reference names a member by its holder, its name and its type or prototype. It
  is plain data: two references are equal when their parts are. The order of
  references is lexicographic in the order in which the parts are declared, and a
  prototype is compared by its return type before its parameters.
-/
import DexShrinker.Reference.Descriptor

namespace DexShrinker

open Std

/-! ### Prototypes -/

/-- The return type and the parameter types of a method. -/
@[ext] structure Prototype where
  returnType : Descriptor
  parameters : List Descriptor
deriving DecidableEq, Inhabited

namespace Prototype

instance : Ord Prototype :=
  ⟨compareLex (compareOn Prototype.returnType) (compareOn Prototype.parameters)⟩

instance : TransOrd Prototype :=
  inferInstanceAs (TransCmp (compareLex (compareOn Prototype.returnType) (compareOn Prototype.parameters)))

instance : LawfulEqOrd Prototype where
  eq_of_compare h :=
    let ⟨h₁, h₂⟩ := compareLex_eq_eq.1 h
    Prototype.ext (eq_of_compareOn h₁) (eq_of_compareOn h₂)

/-- `(IJ)V`: the parameters in brackets, then the return type. -/
def text (p : Prototype) : String :=
  "(" ++ String.join (p.parameters.map Descriptor.text) ++ ")" ++ p.returnType.text

instance : ToString Prototype := ⟨text⟩

/-- `()V`. -/
def void : Prototype := ⟨Descriptor.void, []⟩

def arity (p : Prototype) : Nat := p.parameters.length

/-- The prototype with `t` as a new first parameter. -/
def prepend (p : Prototype) (t : Descriptor) : Prototype := { p with parameters := t :: p.parameters }

/-- The prototype with `extra` after its parameters. -/
def append (p : Prototype) (extra : List Descriptor) : Prototype :=
  { p with parameters := p.parameters ++ extra }

/-- Send the return type and every parameter through `f`. -/
def mapTypes (p : Prototype) (f : Descriptor → Descriptor) : Prototype :=
  ⟨f p.returnType, p.parameters.map f⟩

/-- The return type, then the parameter types. -/
def types (p : Prototype) : List Descriptor := p.returnType :: p.parameters

end Prototype

/-! ### Fields -/

/-- A field, named by its holder, its name and its type. -/
@[ext] structure FieldRef where
  holder : Descriptor
  name : String
  type : Descriptor
deriving DecidableEq, Inhabited

namespace FieldRef

instance : Ord FieldRef :=
  ⟨compareLex (compareOn FieldRef.holder) (compareLex (compareOn FieldRef.name) (compareOn FieldRef.type))⟩

instance : TransOrd FieldRef :=
  inferInstanceAs (TransCmp
    (compareLex (compareOn FieldRef.holder) (compareLex (compareOn FieldRef.name) (compareOn FieldRef.type))))

instance : LawfulEqOrd FieldRef where
  eq_of_compare h :=
    let ⟨h₁, h⟩ := compareLex_eq_eq.1 h
    let ⟨h₂, h₃⟩ := compareLex_eq_eq.1 h
    FieldRef.ext (eq_of_compareOn h₁) (eq_of_compareOn h₂) (eq_of_compareOn h₃)

/-- `Lp/A;->x:I`. -/
def text (f : FieldRef) : String := f.holder.text ++ "->" ++ f.name ++ ":" ++ f.type.text

instance : ToString FieldRef := ⟨text⟩

end FieldRef

/-! ### Methods -/

/-- The name and the prototype of a method, without its holder. -/
@[ext] structure Signature where
  name : String
  proto : Prototype
deriving DecidableEq, Inhabited

namespace Signature

instance : Ord Signature := ⟨compareLex (compareOn Signature.name) (compareOn Signature.proto)⟩

instance : TransOrd Signature :=
  inferInstanceAs (TransCmp (compareLex (compareOn Signature.name) (compareOn Signature.proto)))

instance : LawfulEqOrd Signature where
  eq_of_compare h :=
    let ⟨h₁, h₂⟩ := compareLex_eq_eq.1 h
    Signature.ext (eq_of_compareOn h₁) (eq_of_compareOn h₂)

/-- `m(I)V`. -/
def text (s : Signature) : String := s.name ++ s.proto.text

end Signature

/-- A method, named by its holder, its name and its prototype. -/
@[ext] structure MethodRef where
  holder : Descriptor
  name : String
  proto : Prototype
deriving DecidableEq, Inhabited

namespace MethodRef

instance : Ord MethodRef :=
  ⟨compareLex (compareOn MethodRef.holder) (compareLex (compareOn MethodRef.name) (compareOn MethodRef.proto))⟩

instance : TransOrd MethodRef :=
  inferInstanceAs (TransCmp
    (compareLex (compareOn MethodRef.holder) (compareLex (compareOn MethodRef.name) (compareOn MethodRef.proto))))

instance : LawfulEqOrd MethodRef where
  eq_of_compare h :=
    let ⟨h₁, h⟩ := compareLex_eq_eq.1 h
    let ⟨h₂, h₃⟩ := compareLex_eq_eq.1 h
    MethodRef.ext (eq_of_compareOn h₁) (eq_of_compareOn h₂) (eq_of_compareOn h₃)

/-- `Lp/A;->m(I)V`. -/
def text (m : MethodRef) : String := m.holder.text ++ "->" ++ m.name ++ m.proto.text

instance : ToString MethodRef := ⟨text⟩

/-- The reference without its holder. -/
def signature (m : MethodRef) : Signature := ⟨m.name, m.proto⟩

/-- The method of `holder` with the signature `s`. -/
def ofSignature (holder : Descriptor) (s : Signature) : MethodRef := ⟨holder, s.name, s.proto⟩

/-- The name of instance initializers. -/
def initName : String := "<init>"

/-- The name of class initializers. -/
def clinitName : String := "<clinit>"

def isInstanceInitializer (m : MethodRef) : Bool := m.name == initName

def isClassInitializer (m : MethodRef) : Bool := m.name == clinitName

/-- The types of the arguments a body of the method sees: the receiver comes first
    unless the method is static. -/
def argumentTypes (m : MethodRef) (isStatic : Bool) : List Descriptor :=
  if isStatic then m.proto.parameters else m.holder :: m.proto.parameters

end MethodRef

/-- A finite map from fields, listed in the order of references. -/
abbrev FieldMap (α : Type) := TreeMap FieldRef α

/-- A finite map from methods, listed in the order of references. -/
abbrev MethodMap (α : Type) := TreeMap MethodRef α

/-- A finite set of fields, listed in the order of references. -/
abbrev FieldSet := TreeSet FieldRef

/-- A finite set of methods, listed in the order of references. -/
abbrev MethodSet := TreeSet MethodRef

end DexShrinker
