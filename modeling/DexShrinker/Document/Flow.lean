/-
  DexShrinker/Document/Flow.lean
  ==============================
  **States of parameters and fields in documents.**

  Every kind of state is a list whose first item is a word. Places are read part by part
  and written as text. Integers of sets and sources are listed in order, whatever order
  they are read in.
-/
import DexShrinker.Document.App
import DexShrinker.Flow.Propagation

namespace DexShrinker

open Document

instance : ToDocument AbstractValue where
  toDocument
    | .bottom => tagged "bottom" []
    | .null => tagged "null" []
    | .single v => tagged "single" [toDocument v]
    | .set vs => tagged "set" [toDocument vs]
    | .bits ones zeros => tagged "bits" [toDocument ones, toDocument zeros]
    | .string s => tagged "string" [toDocument s]
    | .unknown => tagged "unknown" []

instance : OfDocument AbstractValue where
  ofDocument d := do
    match ← d.nth (α := String) 0 with
    | "bottom" => return .bottom
    | "null" => return .null
    | "single" => return .single (← d.nth 1)
    | "set" => return .set (AbstractValue.sortInts (← d.nth 1))
    | "bits" => return .bits (← d.nth 1) (← d.nth 2)
    | "string" => return .string (← d.nth 1)
    | "unknown" => return .unknown
    | _ => throw .malformed

instance : Named Nullability := ⟨[("Bottom", .bottom), ("DefinitelyNull", .definitelyNull),
  ("DefinitelyNotNull", .definitelyNotNull), ("MaybeNull", .maybeNull)]⟩

instance : ToDocument DynamicType where
  toDocument
    | .bottom => tagged "bottom" []
    | .bounded t e n => tagged "bounded" [toDocument t, .bool e, toDocument n]
    | .unknown => tagged "unknown" []

instance : OfDocument DynamicType where
  ofDocument d := do
    match ← d.nth (α := String) 0 with
    | "bottom" => return .bottom
    | "unknown" => return .unknown
    | "exact" => return .exact (← d.nth 1)
    | "bounded" => return .bounded (← d.nth 1) (← d.nth 2) (← d.nth 3)
    | _ => throw .malformed

instance : ToDocument FlowSource where
  toDocument
    | .field f => tagged "field" [toDocument f]
    | .parameter p => tagged "param" [.text p.text]

instance : OfDocument FlowSource where
  ofDocument d := do
    match ← d.nth (α := String) 0 with
    | "field" => return .field (← d.nth 1)
    | "param" => return .parameter ⟨← d.nth 1, ← d.nth 2⟩
    | _ => throw .malformed

instance : ToDocument FlowFunction where
  toDocument
    | .identity s => tagged "identity" [toDocument s]
    | .cast s t => tagged "cast" [toDocument s, toDocument t]
    | .or s c => tagged "or" [toDocument s, toDocument c]
    | .fieldRead s f => tagged "read" [toDocument s, toDocument f]
    | .unknown => tagged "unknown" []

instance : OfDocument FlowFunction where
  ofDocument d := do
    match ← d.nth (α := String) 0 with
    | "identity" => return .identity (← d.nth 1)
    | "cast" => return .cast (← d.nth 1) (← d.nth 2)
    | "or" => return .or (← d.nth 1) (← d.nth 2)
    | "read" => return .fieldRead (← d.nth 1) (← d.nth 2)
    | "unknown" => return .unknown
    | _ => throw .malformed

instance : ToDocument InFlow where
  toDocument
    | .source s => toDocument s
    | .function f => tagged "fn" [toDocument f]

instance : OfDocument InFlow where
  ofDocument d := do
    match ← d.nth (α := String) 0 with
    | "fn" => return .function (← d.nth 1)
    | _ => return .source (← ofDocument d)

instance : ToDocument ValueState where
  toDocument
    | .bottom => tagged "bottom" []
    | .unknown => tagged "unknown" []
    | .concrete ⟨.array n, flows⟩ => tagged "array" [toDocument n, toDocument flows]
    | .concrete ⟨.object v t, flows⟩ => tagged "class" [toDocument v, toDocument t, toDocument flows]
    | .concrete ⟨.primitive v, flows⟩ => tagged "primitive" [toDocument v, toDocument flows]
    | .concrete ⟨.receiver t, flows⟩ => tagged "receiver" [toDocument t, toDocument flows]

instance : OfDocument ValueState where
  ofDocument d := do
    let flows (i : Nat) : Reading InFlows := return .ofList (← d.nth i)
    match ← d.nth (α := String) 0 with
    | "bottom" => return .bottom
    | "unknown" => return .unknown
    | "array" => return .concrete ⟨.array (← d.nth 1), ← flows 2⟩
    | "class" => return .concrete ⟨.object (← d.nth 1) (← d.nth 2), ← flows 3⟩
    | "primitive" => return .concrete ⟨.primitive (← d.nth 1), ← flows 2⟩
    | "receiver" => return .concrete ⟨.receiver (← d.nth 1), ← flows 2⟩
    | _ => throw .malformed

/-- Read a state that has to be concrete. -/
instance : OfDocument ConcreteState where
  ofDocument d := do
    match ← ofDocument (α := ValueState) d with
    | .concrete s => return s
    | _ => throw .malformed

namespace MethodState

mutual

/-- The state of a method as a document. -/
def document : MethodState → Document
  | bottom => tagged "bottom" []
  | unknown => tagged "unknown" []
  | monomorphic arguments => tagged "mono" [toDocument arguments]
  | polymorphic cases => tagged "poly" [.list (caseDocuments cases)]

/-- The cases of a state as documents. -/
def caseDocuments : List (DynamicType × MethodState) → List Document
  | [] => []
  | (bound, s) :: rest => .list [toDocument bound, s.document] :: caseDocuments rest

end

mutual

/-- Read the state of a method. Of two cases with one bound the later one counts. -/
def read : Document → Reading MethodState
  | .list (.text "bottom" :: _) => .ok bottom
  | .list (.text "unknown" :: _) => .ok unknown
  | .list (.text "mono" :: rest) => return monomorphic (← ofDocument (rest.headD .null))
  | .list (.text "poly" :: .list cases :: _) => do
    return polymorphic ((← readCases cases).foldl (fun out (bound, s) => setCase bound s out) [])
  | .list [.text "poly"] | .list (.text "poly" :: .null :: _) => .ok (polymorphic [])
  | _ => .error .malformed

/-- Read the cases of a state. -/
def readCases : List Document → Reading (List (DynamicType × MethodState))
  | [] => .ok []
  | .list (bound :: s :: _) :: rest => return (← ofDocument bound, ← read s) :: (← readCases rest)
  | _ => .error .malformed

end

end MethodState

instance : ToDocument MethodState := ⟨MethodState.document⟩

instance : OfDocument MethodState := ⟨MethodState.read⟩

instance : ToDocument FlowStates where
  toDocument s := .record [("methods", toDocument s.methods.toList), ("fields", toDocument s.fields.toList)]

end DexShrinker
