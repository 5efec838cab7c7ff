/-
  DexShrinker/Unboxing/Reason.lean
  ================================
  **Why an enum keeps its instances.**

  Every analysis adds the reasons it finds. No reason is listed twice for an enum, and
  if only the first one is wanted, nothing is added to it.
-/
import DexShrinker.Reference.Member

namespace DexShrinker

/-- A reason not to unbox an enum. -/
inductive Reason where
  /-- The enum is pinned. -/
  | pinned
  /-- A pinned method names the enum. -/
  | inPinnedSignature (method : MethodRef)
  /-- A pinned field has the enum as its type. -/
  | inPinnedField (field : FieldRef)
  /-- A method of an annotation returns the enum. -/
  | annotationValue (holder : Descriptor)
  /-- The enum has subtypes, or is one. -/
  | subtypesPresent
  | tooManyInstanceFields (count : Nat)
  /-- A static field that is not part of every enum is read. -/
  | unexpectedStaticField (field : FieldRef)
  /-- The constants are not made with a constant ordinal and name each. -/
  | unsupportedClassInitializer
  | invalidInvoke (method : MethodRef)
  | invalidFieldAccess (field : FieldRef)
  /-- A value goes where the enum is not expected. -/
  | escapes (context : MethodRef)
  | invalidConstClass
  | invalidInstanceOf
  | invalidArrayStore
  /-- An instance is made outside the class initializer. -/
  | unexpectedNewInstance (context : MethodRef)
  /-- A field that is read has no known value for some constant. -/
  | missingFieldData (field : FieldRef)
  | unsupportedInitializer (method : MethodRef)
deriving DecidableEq

/-- The wording of a reason. -/
def Reason.message : Reason → String
  | pinned => "kept"
  | inPinnedSignature m => "used in kept method " ++ m.text
  | inPinnedField f => "type of kept field " ++ f.text
  | annotationValue t => "used in annotation " ++ t.text
  | subtypesPresent => "has subtypes"
  | tooManyInstanceFields n => toString n ++ " instance fields"
  | unexpectedStaticField f => "reads static field " ++ f.text
  | unsupportedClassInitializer => "unsupported class initializer"
  | invalidInvoke m => "invalid invoke of " ++ m.text
  | invalidFieldAccess f => "invalid access to " ++ f.text
  | escapes m => "escapes in " ++ m.text
  | invalidConstClass => "class constant"
  | invalidInstanceOf => "instance-of check"
  | invalidArrayStore => "stored into a non-enum array"
  | unexpectedNewInstance m => "instantiated in " ++ m.text
  | missingFieldData f => "no constant data for " ++ f.text
  | unsupportedInitializer m => "unsupported instance initializer " ++ m.text

/-- The reasons found so far, by enum. -/
structure Rejections where
  /-- Only the first reason is wanted. -/
  earlyExit : Bool
  byEnum : TypeMap (List Reason) := ∅

namespace Rejections

/-- Add a reason. -/
def add (r : Rejections) (enum : Descriptor) (reason : Reason) : Rejections :=
  let reasons := r.byEnum.getD enum []
  if (r.earlyExit && !reasons.isEmpty) || reasons.contains reason then r
  else { r with byEnum := r.byEnum.insert enum (reasons ++ [reason]) }

def isRejected (r : Rejections) (enum : Descriptor) : Bool := !(r.byEnum.getD enum []).isEmpty

/-- Nothing more will be added for the enum. -/
def isSettled (r : Rejections) (enum : Descriptor) : Bool := r.earlyExit && r.isRejected enum

end Rejections

/-- What became of the enums of a program. -/
structure UnboxingReport where
  unboxed : TypeSet := ∅
  rejected : TypeMap (List Reason) := ∅

end DexShrinker
