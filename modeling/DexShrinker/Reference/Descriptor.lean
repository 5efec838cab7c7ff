/-
  DexShrinker/Reference/Descriptor.lean
  =====================================
  **Type descriptors.**

  A descriptor is the text of a type: `I`, `V`, `Lpkg/Cls;`, `[[Lpkg/Cls;`. Array
  structure, package and kind are read off the text. Any text is accepted; an
  operation that needs a part the text does not have answers `none`.

  Descriptors are ordered by their text, character by character, which is also the
  order of its UTF-8 bytes.
-/
import Std.Data.TreeMap
import Std.Data.TreeSet

namespace DexShrinker

open Std

/-- Things that compare equal on a key have the same key. -/
theorem eq_of_compareOn {α β : Type} [Ord β] [LawfulEqOrd β] {f : α → β} {a b : α}
    (h : compareOn f a b = .eq) : f a = f b :=
  LawfulEqOrd.eq_of_compare h

/-- A type, given by its descriptor text. -/
@[ext] structure Descriptor where
  text : String
deriving DecidableEq, Inhabited

namespace Descriptor

instance : Ord Descriptor := ⟨compareOn Descriptor.text⟩

instance : TransOrd Descriptor := inferInstanceAs (TransCmp (compareOn Descriptor.text))

instance : LawfulEqOrd Descriptor where
  compare_self {a} := compare_self (α := String) (a := a.text)
  eq_of_compare h := Descriptor.ext (eq_of_compareOn h)

instance : ToString Descriptor := ⟨Descriptor.text⟩

/-- The class type with the given binary name, such as `java/lang/Object`. -/
def ofBinaryName (name : String) : Descriptor := ⟨"L" ++ name ++ ";"⟩

/-- The characters of the descriptor. -/
def chars (t : Descriptor) : List Char := t.text.toList

/-- The void type `V`. -/
def isVoid (t : Descriptor) : Bool := t.text == "V"

/-- A one-byte descriptor other than `V`. -/
def isPrimitive (t : Descriptor) : Bool := t.text.utf8ByteSize == 1 && !t.isVoid

/-- The types of two-register values, `J` and `D`. -/
def isWide (t : Descriptor) : Bool := t.text == "J" || t.text == "D"

/-- A class or interface type. -/
def isClass (t : Descriptor) : Bool := t.chars.head? == some 'L'

/-- An array type. -/
def isArray (t : Descriptor) : Bool := t.chars.head? == some '['

/-- A class, interface or array type. -/
def isReference (t : Descriptor) : Bool := t.isClass || t.isArray

/-- The number of leading brackets. -/
def dimensions (t : Descriptor) : Nat := (t.chars.takeWhile (· == '[')).length

/-- The type with every array dimension taken off. -/
def base (t : Descriptor) : Descriptor :=
  if t.isArray then ⟨String.ofList (t.chars.dropWhile (· == '['))⟩ else t

/-- The type with one array dimension taken off, for an array. -/
def element? (t : Descriptor) : Option Descriptor :=
  match t.chars with
  | '[' :: rest => some ⟨String.ofList rest⟩
  | _ => none

/-- Taking a dimension off makes the text shorter. -/
theorem length_of_element? {t e : Descriptor} (h : t.element? = some e) : e.chars.length < t.chars.length := by
  unfold element? at h
  split at h
  · next rest heq =>
    cases h
    rw [heq]
    simp [chars]
  · cases h

/-- The array type with elements of this type. -/
def toArray (t : Descriptor) : Descriptor := ⟨"[" ++ t.text⟩

/-- The type with this one's array dimensions over another base. -/
def replaceBase (t b : Descriptor) : Descriptor :=
  ⟨String.ofList (t.chars.takeWhile (· == '[')) ++ b.text⟩

/-- The class name between `L` and `;` of a class type, the whole text of any other
    type. The closing character is dropped whatever it is, as long as it takes one
    byte; a class type without a one-byte closing character has no such name. -/
def binaryName? (t : Descriptor) : Option String :=
  match t.chars with
  | 'L' :: rest =>
    match rest.getLast? with
    | some c => if c.utf8Size == 1 then some (String.ofList rest.dropLast) else none
    | none => none
  | _ => some t.text

/-- The part of the class name before its last slash, empty when it has none. -/
def package? (t : Descriptor) : Option String :=
  t.binaryName?.map fun name =>
    String.ofList ((name.toList.reverse.dropWhile (· != '/')).drop 1).reverse

/-- The part of the class name after its last slash. -/
def simpleName? (t : Descriptor) : Option String :=
  t.binaryName?.map fun name =>
    String.ofList (name.toList.reverse.takeWhile (· != '/')).reverse

/-- The class type whose name is this one's followed by `suffix`. -/
def withSuffix? (t : Descriptor) (suffix : String) : Option Descriptor :=
  t.binaryName?.map fun name => ofBinaryName (name ++ suffix)

/-- Send the base type through `f` and keep the array dimensions. -/
def mapBase (t : Descriptor) (f : Descriptor → Descriptor) : Descriptor :=
  if t.isArray then t.replaceBase (f t.base) else f t

/-! ### Types with a meaning of their own -/

def void : Descriptor := ⟨"V"⟩
def boolean : Descriptor := ⟨"Z"⟩
def int : Descriptor := ⟨"I"⟩
def long : Descriptor := ⟨"J"⟩
def intArray : Descriptor := ⟨"[I"⟩
def object : Descriptor := ⟨"Ljava/lang/Object;"⟩
def string : Descriptor := ⟨"Ljava/lang/String;"⟩
def classObject : Descriptor := ⟨"Ljava/lang/Class;"⟩
/-- The superclass of every enum. -/
def enumBase : Descriptor := ⟨"Ljava/lang/Enum;"⟩
def objects : Descriptor := ⟨"Ljava/util/Objects;"⟩
def methodHandle : Descriptor := ⟨"Ljava/lang/invoke/MethodHandle;"⟩
def methodType : Descriptor := ⟨"Ljava/lang/invoke/MethodType;"⟩
def throwable : Descriptor := ⟨"Ljava/lang/Throwable;"⟩
def nullPointerException : Descriptor := ⟨"Ljava/lang/NullPointerException;"⟩
def illegalArgumentException : Descriptor := ⟨"Ljava/lang/IllegalArgumentException;"⟩

end Descriptor

/-- A finite set of types, listed in the order of their text. -/
abbrev TypeSet := TreeSet Descriptor

/-- A finite map from types, listed in the order of their text. -/
abbrev TypeMap (α : Type) := TreeMap Descriptor α

end DexShrinker
