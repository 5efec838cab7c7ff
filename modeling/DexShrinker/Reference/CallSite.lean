/-
  DexShrinker/Reference/CallSite.lean
  ===================================
  **Method handles and the call sites of dynamic invocations.**

  A method handle points at a field or a method; a call site names a bootstrap
  handle and the static arguments it is run with. Both are ordered part by part,
  alternatives in the order of their constructors.
-/
import DexShrinker.Reference.Member

namespace DexShrinker

/-- What a method handle does with its member. -/
inductive HandleKind where
  | staticGet
  | staticPut
  | instanceGet
  | instancePut
  | invokeStatic
  | invokeVirtual
  | invokeDirect
  | invokeInterface
  | invokeConstructor
deriving DecidableEq, Ord

/-- The handle reads or writes a field. -/
def HandleKind.isField : HandleKind → Bool
  | .staticGet | .staticPut | .instanceGet | .instancePut => true
  | _ => false

/-- The member a handle points at. -/
inductive HandleMember where
  | field (field : FieldRef)
  | method (method : MethodRef)
deriving DecidableEq, Ord

/-- The text of the reference the handle points at. -/
def HandleMember.text : HandleMember → String
  | .field f => f.text
  | .method m => m.text

/-- A method handle. -/
structure MethodHandle where
  kind : HandleKind
  member : HandleMember
  isInterface : Bool
deriving DecidableEq, Ord

/-- A static argument of a bootstrap method. -/
inductive BootstrapArg where
  | int (value : Int64)
  | string (value : String)
  | type (type : Descriptor)
  | proto (proto : Prototype)
  | handle (handle : MethodHandle)
deriving DecidableEq, Ord

/-- A dynamic call site: the name and prototype it links, and how it is linked. -/
structure CallSite where
  methodName : String
  proto : Prototype
  bootstrap : MethodHandle
  bootstrapArgs : List BootstrapArg
deriving DecidableEq, Ord

end DexShrinker
