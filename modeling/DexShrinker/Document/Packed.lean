/-
  DexShrinker/Document/Packed.lean
  ================================
  **Packed bodies and uses in documents.**

  The bytes of a packed body are written in hexadecimal. Its lines are read through
  the packer, so a line that repeats the one before it leaves no entry.
-/
import DexShrinker.Document.Body
import DexShrinker.Packed.Pack
import DexShrinker.Packed.Unpack
import DexShrinker.Usage

namespace DexShrinker

open Document

instance : ToDocument Constant where
  toDocument
    | .type t => tagged "type" [toDocument t]
    | .field f => tagged "field" [toDocument f]
    | .method m => tagged "method" [toDocument m]
    | .string s => tagged "string" [toDocument s]
    | .proto p => tagged "proto" [toDocument p]
    | .handle h => tagged "handle" [toDocument h]
    | .callSite c => tagged "call_site" [toDocument c]

instance : OfDocument Constant where
  ofDocument d := do
    match ← d.nth (α := String) 0 with
    | "type" => return .type (← d.nth 1)
    | "field" => return .field (← d.nth 1)
    | "method" => return .method (← d.nth 1)
    | "string" => return .string (← d.nth 1)
    | "proto" => return .proto (← d.nth 1)
    | "handle" => return .handle (← d.nth 1)
    | "call_site" => return .callSite (← d.nth 1)
    | _ => throw .malformed

/-- The value of a hexadecimal digit. -/
def hexDigit? (c : Char) : Option Nat :=
  if c.isDigit then some (c.toNat - '0'.toNat)
  else if 'a' ≤ c ∧ c ≤ 'f' then some (c.toNat - 'a'.toNat + 10)
  else none

/-- The bytes of a hexadecimal text. -/
def hexBytes? : List Char → Option (List UInt8)
  | [] => some []
  | a :: b :: rest => do
    return ((← hexDigit? a) * 16 + (← hexDigit? b)).toUInt8 :: (← hexBytes? rest)
  | _ => none

/-- Bytes in hexadecimal. -/
def hexText (bytes : List UInt8) : String := String.join (bytes.map hexByte)

instance : ToDocument (List UInt8) := ⟨fun bytes => .text (hexText bytes)⟩
instance : OfDocument (List UInt8) where
  ofDocument d := do
    match hexBytes? (← ofDocument (α := String) d).toList with
    | some bytes => return bytes
    | none => throw .malformed

instance : ToDocument LineEntry := ⟨fun e => toDocument (e.start, e.line)⟩

instance : ToDocument PackedBody where
  toDocument p := .record [("argc", toDocument p.argumentCount), ("count", toDocument p.instructionCount),
    ("bytes", toDocument p.bytes), ("constants", toDocument p.constants), ("positions", toDocument p.lines),
    ("try", toDocument p.handlers.toList)]

/-- The lines a packer notes for a number of instructions of which some start a line. -/
def noteLines (starts : List (Nat × Line)) (count : Nat) : Packer :=
  (List.range count).foldl (fun p k => ((starts.lookup k).elim p p.setLine).advance) {}

instance : OfDocument PackedBody where
  ofDocument d := do
    let count ← d.getD "count" 0
    let handlers : List (Nat × List Handler) ← d.get "try"
    return {
      constants := ← d.get "constants"
      bytes := ← d.getD "bytes" []
      argumentCount := ← d.getD "argc" 0
      instructionCount := count
      lines := (noteLines (← d.get "positions") count).lines
      handlers := handlers.foldl (fun t (b, hs) => t.insert b hs) ∅ }

instance : Named TypeUse where
  names := [("ConstClass", .constClass), ("NewInstance", .newInstance), ("NewArray", .newArray),
    ("CheckCast", .checkCast), ("InstanceOf", .instanceOf), ("CatchGuard", .catchGuard)]

instance : Named FieldUse where
  names := [("StaticRead", .staticRead), ("StaticWrite", .staticWrite), ("InstanceRead", .instanceRead),
    ("InstanceWrite", .instanceWrite)]

instance : ToDocument Use where
  toDocument
    | .type t u => tagged "type" [toDocument t, toDocument u]
    | .field f u => tagged "field" [toDocument f, toDocument u, .bool u.isRead]
    | .invoke m k i => tagged "invoke" [toDocument m, toDocument k, .bool i]
    | .handle h => tagged "handle" [toDocument h]
    | .callSite c => tagged "call_site" [toDocument c]

instance : ToDocument PackedInstr where
  toDocument
    | .constNull => tagged "ConstNull" []
    | .constInt n => tagged "ConstInt" [toDocument n]
    | .constLong n => tagged "ConstLong" [toDocument n]
    | .loadConstant c => tagged "Ldc" [toDocument c]
    | .newInstance c => tagged "NewInstance" [toDocument c]
    | .newArray t s => tagged "NewArray" [toDocument t, toDocument s]
    | .newUnboxedEnum t o => tagged "NewUnboxedEnum" [toDocument t, toDocument o]
    | .arrayGet t a i => tagged "ArrayGet" [toDocument t, toDocument a, toDocument i]
    | .arrayPut a i v => tagged "ArrayPut" [toDocument a, toDocument i, toDocument v]
    | .arrayLength a => tagged "ArrayLength" [toDocument a]
    | .staticGet f => tagged "StaticGet" [toDocument f]
    | .staticPut f v => tagged "StaticPut" [toDocument f, toDocument v]
    | .instanceGet f o => tagged "InstanceGet" [toDocument f, toDocument o]
    | .instancePut f o v => tagged "InstancePut" [toDocument f, toDocument o, toDocument v]
    | .invoke k i m args => tagged "Invoke" [toDocument k, .bool i, toDocument m, toDocument args]
    | .invokeCustom c args => tagged "InvokeCustom" [toDocument c, toDocument args]
    | .checkCast t v => tagged "CheckCast" [toDocument t, toDocument v]
    | .instanceOf t v => tagged "InstanceOf" [toDocument t, toDocument v]
    | .binary o t l r => tagged "Binop" [toDocument o, toDocument t, toDocument l, toDocument r]
    | .debugPosition => tagged "DebugPosition" []
    | .goto t => tagged "Goto" [toDocument t]
    | .fallthrough => tagged "Fallthrough" []
    | .branch k t b l r => tagged "If" [toDocument k, toDocument t, toDocument b, toDocument l, toDocument r]
    | .ret v => tagged "Return" [toDocument v]
    | .throw v => tagged "Throw" [toDocument v]
    | .phi t vs => tagged "Phi" [toDocument t, toDocument vs]

end DexShrinker
