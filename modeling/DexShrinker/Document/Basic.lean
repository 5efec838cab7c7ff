/-
  DexShrinker/Document/Basic.lean
  ===============================
  **Documents: the tree form in which programs are exchanged.**

  A document is a tree of texts, numbers, lists and records. Every kind of thing a
  program is made of can be read from a document and written to one. Writing is
  meant for people and comparisons, so references are written as text, while they
  are read part by part.

  A part that is missing reads as `null`, which stands for the empty list, for no
  value, or for a default.
-/
import DexShrinker.Packed.Basic

namespace DexShrinker

/-- A tree of data. -/
inductive Document where
  | null
  | bool (value : Bool)
  | int (value : Int)
  | text (value : String)
  | list (items : List Document)
  | record (fields : List (String × Document))
deriving Inhabited

/-- Why a document cannot be read. -/
inductive ReadError where
  /-- The document has the wrong shape. -/
  | malformed
  /-- What it describes is outside the domain of the operation that builds it. -/
  | fault (cause : Fault)
  /-- A body it describes cannot be packed. -/
  | packing (cause : PackedError)

/-- Readers of documents. -/
abbrev Reading := Except ReadError

/-- Things that are written as documents. -/
class ToDocument (α : Type) where
  toDocument : α → Document

/-- Things that are read from documents. -/
class OfDocument (α : Type) where
  ofDocument : Document → Reading α

export ToDocument (toDocument)
export OfDocument (ofDocument)

namespace Document

/-- The field of a record, `null` if it has none. -/
def field (d : Document) (key : String) : Document :=
  match d with
  | record fields => (fields.lookup key).getD null
  | _ => null

/-- The record has a field. -/
def hasField (d : Document) (key : String) : Bool :=
  match d with
  | record fields => (fields.lookup key).isSome
  | _ => false

/-- The item of a list, `null` behind its end. -/
def item (d : Document) (i : Nat) : Document :=
  match d with
  | list items => items.getD i null
  | _ => null

def isNull : Document → Bool
  | null => true
  | _ => false

/-- Read the field of a record. -/
def get {α : Type} [OfDocument α] (d : Document) (key : String) : Reading α := ofDocument (d.field key)

/-- Read the item of a list. -/
def nth {α : Type} [OfDocument α] (d : Document) (i : Nat) : Reading α := ofDocument (d.item i)

/-- Read a document, or take `default` for `null`. -/
def orElse {α : Type} [OfDocument α] (d : Document) (default : α) : Reading α :=
  match d with
  | null => .ok default
  | d => ofDocument d

/-- Read the field of a record, or take `default` when it is missing. -/
def getD {α : Type} [OfDocument α] (d : Document) (key : String) (default : α) : Reading α :=
  (d.field key).orElse default

/-- Read a list with the given reader; `null` is the empty list. -/
def readList {α : Type} (f : Document → Reading α) : Document → Reading (List α)
  | null => .ok []
  | list items => items.mapM f
  | _ => .error .malformed

/-- A list whose first item is a word. -/
def tagged (word : String) (items : List Document) : Document := list (text word :: items)

/-- A list of written things. -/
def listOf {α : Type} (f : α → Document) (xs : List α) : Document := list (xs.map f)

end Document

open Document

instance : ToDocument Document := ⟨id⟩
instance : OfDocument Document := ⟨.ok⟩
instance : ToDocument Bool := ⟨.bool⟩
instance : ToDocument Nat := ⟨fun n => .int n⟩
instance : ToDocument Int := ⟨.int⟩
instance : ToDocument String := ⟨.text⟩
instance : ToDocument Int32 := ⟨fun n => .int n.toInt⟩
instance : ToDocument UInt32 := ⟨fun n => .int n.toNat⟩
/-- Numbers of sixty-four bits are written as decimal text. -/
instance : ToDocument Int64 := ⟨fun n => .text (toString n.toInt)⟩
instance {α : Type} [ToDocument α] : ToDocument (List α) := ⟨listOf toDocument⟩
instance {α : Type} [ToDocument α] : ToDocument (Option α) := ⟨fun a => (a.map toDocument).getD null⟩
instance {α β : Type} [ToDocument α] [ToDocument β] : ToDocument (α × β) :=
  ⟨fun (a, b) => .list [toDocument a, toDocument b]⟩

instance : OfDocument Bool where
  ofDocument
    | .bool b => .ok b
    | _ => .error .malformed

instance : OfDocument Int where
  ofDocument
    | .int n => .ok n
    | _ => .error .malformed

instance : OfDocument Nat where
  ofDocument
    | .int (.ofNat n) => .ok n
    | _ => .error .malformed

instance : OfDocument String where
  ofDocument
    | .text s => .ok s
    | _ => .error .malformed

instance : OfDocument Int32 := ⟨fun d => return Int32.ofInt (← ofDocument d)⟩
instance : OfDocument UInt32 := ⟨fun d => return UInt32.ofNat (← ofDocument d)⟩

instance : OfDocument Int64 where
  ofDocument
    | .text s =>
      match s.toInt? with
      | some n => .ok (Int64.ofInt n)
      | none => .error .malformed
    | _ => .error .malformed

instance {α : Type} [OfDocument α] : OfDocument (List α) := ⟨readList ofDocument⟩

instance {α : Type} [OfDocument α] : OfDocument (Option α) where
  ofDocument
    | .null => .ok none
    | d => some <$> ofDocument d

instance {α β : Type} [OfDocument α] [OfDocument β] : OfDocument (α × β) :=
  ⟨fun d => return (← d.nth 0, ← d.nth 1)⟩

/-- Enumerations whose members are exchanged by name. -/
class Named (α : Type) where
  names : List (String × α)

instance {α : Type} [Named α] [BEq α] : ToDocument α where
  toDocument a := ((Named.names.find? fun p => p.2 == a).map fun p => Document.text p.1).getD .null

instance {α : Type} [Named α] : OfDocument α where
  ofDocument
    | .text s => (Named.names.lookup s).elim (.error .malformed) .ok
    | _ => .error .malformed

end DexShrinker
