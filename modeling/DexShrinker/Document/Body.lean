/-
  DexShrinker/Document/Body.lean
  ==============================
  **Bodies in documents.**

  An operation is a list that starts with its name. A body gives the types of the
  values beyond its arguments and the blocks; the origin of such a value is read off
  the blocks, which are gone through in order, phis before instructions. A type in a
  list of its own stands for a value that stays unresolved.
-/
import DexShrinker.Document.Reference
import DexShrinker.Body.Verify

namespace DexShrinker

open Document

instance : Named InvokeKind where
  names := [("Static", .static), ("Virtual", .virtual), ("Interface", .interface), ("Direct", .direct),
    ("Super", .super)]

instance : Named BinaryOp where
  names := [("Add", .add), ("Sub", .sub), ("Mul", .mul), ("Div", .div), ("Rem", .rem), ("And", .and), ("Or", .or),
    ("Xor", .xor), ("Shl", .shl), ("Shr", .shr), ("Ushr", .ushr)]

instance : Named NumericType := ⟨[("Int", .int), ("Long", .long)]⟩

instance : Named Comparison :=
  ⟨[("Eq", .eq), ("Ne", .ne), ("Lt", .lt), ("Ge", .ge), ("Gt", .gt), ("Le", .le)]⟩

instance : Named ComparedType := ⟨[("Int", .int), ("Object", .object)]⟩

instance : ToDocument Op where
  toDocument
    | .constNull => tagged "const_null" []
    | .constInt v => tagged "const_int" [toDocument v]
    | .constLong v => tagged "const_long" [toDocument v]
    | .constString s => tagged "const_string" [toDocument s]
    | .constClass t => tagged "const_class" [toDocument t]
    | .constHandle h => tagged "const_handle" [toDocument h]
    | .constMethodType p => tagged "const_method_type" [toDocument p]
    | .newInstance t => tagged "new" [toDocument t]
    | .newArray t v => tagged "new_array" [toDocument t, toDocument v]
    | .newUnboxedEnum t o => tagged "new_unboxed_enum" [toDocument t, toDocument o]
    | .arrayGet t a i => tagged "array_get" [toDocument t, toDocument a, toDocument i]
    | .arrayPut a i v => tagged "array_put" [toDocument a, toDocument i, toDocument v]
    | .arrayLength a => tagged "array_length" [toDocument a]
    | .staticGet f => tagged "sget" [toDocument f]
    | .staticPut f v => tagged "sput" [toDocument f, toDocument v]
    | .instanceGet f o => tagged "iget" [toDocument f, toDocument o]
    | .instancePut f o v => tagged "iput" [toDocument f, toDocument o, toDocument v]
    | .invoke k m args itf => tagged "invoke" [toDocument k, toDocument m, toDocument args, .bool itf]
    | .invokeCustom c args => tagged "invoke_custom" [toDocument c, toDocument args]
    | .checkCast t v => tagged "check_cast" [toDocument t, toDocument v]
    | .instanceOf t v => tagged "instance_of" [toDocument t, toDocument v]
    | .binary o t l r => tagged "binop" [toDocument o, toDocument t, toDocument l, toDocument r]
    | .debugPosition => tagged "debug_pos" []

instance : OfDocument Op where
  ofDocument d := do
    match ← d.nth (α := String) 0 with
    | "const_null" => return .constNull
    | "const_int" => return .constInt (← d.nth 1)
    | "const_long" => return .constLong (← d.nth 1)
    | "const_string" => return .constString (← d.nth 1)
    | "const_class" => return .constClass (← d.nth 1)
    | "const_handle" => return .constHandle (← d.nth 1)
    | "const_method_type" => return .constMethodType (← d.nth 1)
    | "new" => return .newInstance (← d.nth 1)
    | "new_array" => return .newArray (← d.nth 1) (← d.nth 2)
    | "new_unboxed_enum" => return .newUnboxedEnum (← d.nth 1) (← d.nth 2)
    | "array_get" => return .arrayGet (← d.nth 1) (← d.nth 2) (← d.nth 3)
    | "array_put" => return .arrayPut (← d.nth 1) (← d.nth 2) (← d.nth 3)
    | "array_length" => return .arrayLength (← d.nth 1)
    | "sget" => return .staticGet (← d.nth 1)
    | "sput" => return .staticPut (← d.nth 1) (← d.nth 2)
    | "iget" => return .instanceGet (← d.nth 1) (← d.nth 2)
    | "iput" => return .instancePut (← d.nth 1) (← d.nth 2) (← d.nth 3)
    | "invoke" =>
      let kind : InvokeKind ← d.nth 1
      return .invoke kind (← d.nth 2) (← d.nth 3) (← (d.item 4).orElse (kind == .interface))
    | "invoke_custom" => return .invokeCustom (← d.nth 1) (← d.nth 2)
    | "check_cast" => return .checkCast (← d.nth 1) (← d.nth 2)
    | "instance_of" => return .instanceOf (← d.nth 1) (← d.nth 2)
    | "binop" => return .binary (← d.nth 1) (← d.nth 2) (← d.nth 3) (← d.nth 4)
    | "debug_pos" => return .debugPosition
    | _ => throw .malformed

instance : ToDocument Terminator where
  toDocument
    | .goto b => tagged "goto" [toDocument b]
    | .branch k t l r b => tagged "if" [toDocument k, toDocument t, toDocument l, toDocument r, toDocument b]
    | .ret v => tagged "return" [toDocument v]
    | .throw v => tagged "throw" [toDocument v]

instance : OfDocument Terminator where
  ofDocument d := do
    match ← d.nth (α := String) 0 with
    | "goto" => return .goto (← d.nth 1)
    | "if" => return .branch (← d.nth 1) (← d.nth 2) (← d.nth 3) (← d.nth 4) (← d.nth 5)
    | "return" => return .ret (← d.nth 1)
    | "throw" => return .throw (← d.nth 1)
    | _ => throw .malformed

instance : ToDocument Handler := ⟨fun h => toDocument (h.guard, h.target)⟩
instance : OfDocument Handler := ⟨fun d => return ⟨← d.nth 0, ← d.nth 1⟩⟩

instance : ToDocument Phi := ⟨fun p => toDocument (p.dest, p.operands)⟩
instance : OfDocument Phi := ⟨fun d => return ⟨← d.nth 0, ← d.nth 1⟩⟩

instance : ToDocument Instr := ⟨fun i => .list [toDocument i.dest, toDocument i.op, toDocument i.line]⟩
instance : OfDocument Instr := ⟨fun d => return ⟨← d.nth 0, ← d.nth 1, ← (d.item 2).orElse 0⟩⟩

instance : ToDocument Block where
  toDocument b := .record [("phis", toDocument b.phis), ("body", toDocument b.body),
    ("term", toDocument b.terminator), ("line", toDocument b.terminatorLine), ("catch", toDocument b.handlers)]

instance : OfDocument Block :=
  ⟨fun d => return ⟨← d.get "phis", ← d.get "body", ← d.get "term", ← d.getD "line" 0, ← d.get "catch"⟩⟩

instance : ToDocument Origin where
  toDocument
    | .argument i => .text ("arg" ++ toString i)
    | .instruction => .text "insn"
    | .phi => .text "phi"
    | .unresolved => .text "unresolved"

instance : ToDocument Value := ⟨fun v => toDocument (v.type, v.origin)⟩

instance : ToDocument Body where
  toDocument c := .record [("method", toDocument c.method), ("static", .bool c.isStatic),
    ("args", toDocument c.arguments), ("values", toDocument c.values), ("blocks", toDocument c.blocks)]

namespace Body

/-- A value of a document with whether it is to stay unresolved. -/
def readValue : Document → Reading (Bool × Descriptor)
  | .list (t :: _) => return (true, ← ofDocument t)
  | d => return (false, ← ofDocument d)

/-- Give a value the origin `origin` unless it has one or is to stay unresolved. -/
def settle (pinned : List Bool) (origin : Origin) (values : List Value) (v : ValueId) : List Value :=
  match values[v]? with
  | some d =>
    if d.origin == .unresolved && !pinned.getD v false then values.set v { d with origin := origin } else values
  | none => values

/-- Give every value that the blocks define its origin. -/
def settleAll (pinned : List Bool) (values : List Value) (blocks : List Block) : List Value :=
  blocks.foldl (fun values b =>
    (b.body.filterMap Instr.dest).foldl (settle pinned .instruction)
      ((b.phis.map Phi.dest).foldl (settle pinned .phi) values)) values

/-- Read a body; the method and its flag are those given unless the document has its own. -/
def ofDocument (method : Option MethodRef) (isStatic : Bool) (d : Document) : Reading Body := do
  let method : MethodRef ← match method with
    | some m => d.getD "method" m
    | none => d.get "method"
  let code := Body.empty method (← d.getD "static" isStatic)
  let extra ← readList readValue (d.field "values")
  let blocks : List Block ← d.get "blocks"
  let pinned := code.values.map (fun _ => false) ++ extra.map Prod.fst
  let values := code.values ++ extra.map fun (_, t) => (⟨t, .unresolved⟩ : Value)
  return { code with values := settleAll pinned values blocks, blocks := blocks }

end Body

end DexShrinker
