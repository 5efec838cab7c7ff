/-
  DexShrinker/Document/Reference.lean
  ===================================
  **Types, members, handles and call sites in documents.**

  A prototype is read as `[parameters, return type]`, a field as
  `[holder, name, type]` and a method as `[holder, name, parameters, return type]`;
  all three are written as text.
-/
import DexShrinker.Access
import DexShrinker.Document.Basic

namespace DexShrinker

open Document

instance : ToDocument Descriptor := ⟨fun t => .text t.text⟩
instance : OfDocument Descriptor := ⟨fun d => return ⟨← ofDocument d⟩⟩

instance : ToDocument Prototype := ⟨fun p => .text p.text⟩
instance : OfDocument Prototype := ⟨fun d => return ⟨← d.nth 1, ← d.nth 0⟩⟩

instance : ToDocument FieldRef := ⟨fun f => .text f.text⟩
instance : OfDocument FieldRef := ⟨fun d => return ⟨← d.nth 0, ← d.nth 1, ← d.nth 2⟩⟩

instance : ToDocument MethodRef := ⟨fun m => .text m.text⟩
instance : OfDocument MethodRef := ⟨fun d => return ⟨← d.nth 0, ← d.nth 1, ← d.nth 3, ← d.nth 2⟩⟩

instance : Named HandleKind where
  names := [("StaticGet", .staticGet), ("StaticPut", .staticPut), ("InstanceGet", .instanceGet),
    ("InstancePut", .instancePut), ("InvokeStatic", .invokeStatic), ("InvokeVirtual", .invokeVirtual),
    ("InvokeDirect", .invokeDirect), ("InvokeInterface", .invokeInterface),
    ("InvokeConstructor", .invokeConstructor)]

/-- A handle is written as its kind, its member and whether that is in an interface. -/
instance : ToDocument MethodHandle :=
  ⟨fun h => .list [toDocument h.kind, .text h.member.text, .bool h.isInterface]⟩

instance : OfDocument MethodHandle where
  ofDocument d := do
    let member ← if (d.field "field").isNull then HandleMember.method <$> d.get "method"
      else HandleMember.field <$> d.get "field"
    return ⟨← d.get "kind", member, ← d.getD "itf" false⟩

instance : ToDocument BootstrapArg where
  toDocument
    | .int v => tagged "int" [toDocument v]
    | .string s => tagged "string" [toDocument s]
    | .type t => tagged "type" [toDocument t]
    | .proto p => tagged "proto" [toDocument p]
    | .handle h => tagged "handle" [toDocument h]

instance : OfDocument BootstrapArg where
  ofDocument d := do
    match ← d.nth (α := String) 0 with
    | "int" => return .int (← d.nth 1)
    | "string" => return .string (← d.nth 1)
    | "type" => return .type (← d.nth 1)
    | "proto" => return .proto (← d.nth 1)
    | "handle" => return .handle (← d.nth 1)
    | _ => throw .malformed

instance : ToDocument CallSite :=
  ⟨fun c => .list [.text c.methodName, toDocument c.proto, toDocument c.bootstrap, toDocument c.bootstrapArgs]⟩

instance : OfDocument CallSite :=
  ⟨fun d => return ⟨← d.get "name", ← d.get "proto", ← d.get "bootstrap", ← d.get "args"⟩⟩

instance : ToDocument AccessFlags := ⟨fun f => .int f.bits.toNat⟩
instance : OfDocument AccessFlags := ⟨fun d => return ⟨(← ofDocument (α := Nat) d).toUInt32⟩⟩

end DexShrinker
