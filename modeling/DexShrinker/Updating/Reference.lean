/-
  DexShrinker/Updating/Reference.lean
  ===================================
  **Bringing the references of a body up to date.**

  A body names things as they were called at its code lens. An update goes from there
  to the present lens. Handles that came to point at another kind of method change
  their kind; a constructor handle stays one.
-/
import DexShrinker.Lens.Lookup

namespace DexShrinker

/-- From the lens a body is written against to the present one. -/
structure Update where
  lens : Lens
  code : Lens

namespace Update

def type (u : Update) (t : Descriptor) : Descriptor := u.lens.lookupType t u.code

def proto (u : Update) (p : Prototype) : Prototype := u.lens.lookupProto p u.code

def field (u : Update) (f : FieldRef) : FieldLookup := u.lens.lookupField f u.code

/-- A call of `m` from the method presently called `context`. -/
def method (u : Update) (context m : MethodRef) (kind : InvokeKind) : Guarded MethodLookup :=
  u.lens.lookupMethod m (some context) kind u.code

/-- What happened to the definition of the method presently called `m`. -/
def definitionChanges (u : Update) (m : MethodRef) : Guarded ProtoChanges :=
  u.lens.definitionChanges m u.code

end Update

/-- The kind of call a handle makes. -/
def HandleKind.invokeKind : HandleKind → InvokeKind
  | .invokeStatic => .static
  | .invokeVirtual => .virtual
  | .invokeInterface => .interface
  | _ => .direct

/-- The handle that makes a kind of call. -/
def InvokeKind.handleKind : InvokeKind → HandleKind
  | .static => .invokeStatic
  | .virtual => .invokeVirtual
  | .interface => .invokeInterface
  | .direct | .super => .invokeDirect

namespace Update

/-- Bring a handle up to date. -/
def handle (u : Update) (context : MethodRef) (h : MethodHandle) : Guarded MethodHandle :=
  match h.member with
  | .field f => .ok { h with member := .field (u.field f).ref }
  | .method m => do
    let result ← u.method context m h.kind.invokeKind
    let kind := if h.kind = .invokeConstructor then .invokeConstructor else result.kind.handleKind
    return {
      kind := kind
      member := .method result.ref
      isInterface := if kind = h.kind then h.isInterface else kind = .invokeInterface }

/-- Bring a bootstrap argument up to date. -/
def bootstrapArg (u : Update) (context : MethodRef) : BootstrapArg → Guarded BootstrapArg
  | .type t => return .type (u.type t)
  | .proto p => return .proto (u.proto p)
  | .handle h => return .handle (← u.handle context h)
  | .int v => return .int v
  | .string s => return .string s

/-- Bring a call site up to date. -/
def callSite (u : Update) (context : MethodRef) (c : CallSite) : Guarded CallSite :=
  return {
    methodName := c.methodName
    proto := u.proto c.proto
    bootstrap := ← u.handle context c.bootstrap
    bootstrapArgs := ← c.bootstrapArgs.mapM (u.bootstrapArg context) }

end Update

end DexShrinker
