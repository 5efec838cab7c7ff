/-
  DexShrinker/Lens/Basic.lean
  ===========================
  **The lens: everything that was renamed, layer upon layer.**

  Each pass over the whole program that renames, merges or retypes something leaves a
  layer of renamings on top of the lens. A cleared layer marks a point at which every
  body had been brought up to date. Below all layers lies the identity.

  A layer maps old names to new ones and, for names that stand for several old ones,
  new names to one representative.
-/
import DexShrinker.Body.Basic
import DexShrinker.Lens.Changes

namespace DexShrinker

/-- The pass that left a layer. -/
inductive LayerKind where
  | horizontalClassMerger
  | enumUnboxing
  | treeFixer
  | synthetic
deriving DecidableEq

/-- The renamings of one pass. -/
structure Renaming where
  kind : LayerKind
  types : TypeMap Descriptor := ∅
  formerTypes : TypeMap Descriptor := ∅
  fields : FieldMap FieldRef := ∅
  formerFields : FieldMap FieldRef := ∅
  methods : MethodMap MethodRef := ∅
  formerMethods : MethodMap MethodRef := ∅
  /-- Changes of calls, by the method the call named before. -/
  callChanges : MethodMap ProtoChanges := ∅
  /-- Changes of definitions, by the new method. -/
  definitionChanges : MethodMap ProtoChanges := ∅
  /-- Kinds of calls, by the new method. -/
  invokeKinds : MethodMap InvokeKind := ∅

namespace Renaming

/-! ### From old names to new ones -/

/-- The new name of a type that is not taken apart. -/
def mapClass (r : Renaming) (t : Descriptor) : Descriptor := r.types.getD t t

/-- The new name of a type; arrays are renamed in their base. -/
def mapType (r : Renaming) (t : Descriptor) : Descriptor := t.mapBase r.mapClass

/-- The new name of a holder. Members of a class that became a primitive type keep their
    holder until they are moved. -/
def mapHolder (r : Renaming) (t : Descriptor) : Descriptor :=
  if (r.mapClass t).isReference then r.mapClass t else t

def mapProto (r : Renaming) (p : Prototype) : Prototype := p.mapTypes r.mapType

/-- The new name of a field: where it was moved to, or itself with its types renamed. -/
def mapField (r : Renaming) (f : FieldRef) : FieldRef :=
  r.fields.getD f ⟨r.mapHolder f.holder, f.name, r.mapType f.type⟩

/-- The new name of a method: where it was moved to, or itself with its types renamed. -/
def mapMethod (r : Renaming) (m : MethodRef) : MethodRef :=
  r.methods.getD m ⟨r.mapHolder m.holder, m.name, r.mapProto m.proto⟩

/-! ### From new names to old ones -/

def inverseClass (r : Renaming) (t : Descriptor) : Descriptor := r.formerTypes.getD t t

def inverseType (r : Renaming) (t : Descriptor) : Descriptor := t.mapBase r.inverseClass

def inverseField (r : Renaming) (f : FieldRef) : FieldRef :=
  r.formerFields.getD f ⟨r.inverseClass f.holder, f.name, r.inverseType f.type⟩

def inverseMethod (r : Renaming) (m : MethodRef) : MethodRef :=
  r.formerMethods.getD m ⟨r.inverseClass m.holder, m.name, m.proto.mapTypes r.inverseType⟩

/-- The changes of a call of `old` that now calls `new`: those of the call if there are
    any, else those of the definition. -/
def changesForCall (r : Renaming) (old new : MethodRef) : ProtoChanges :=
  (r.callChanges[old]? <|> r.definitionChanges[new]?).getD .none

end Renaming

/-- A layer of a lens. -/
inductive Layer where
  | renames (moves : Renaming)
  /-- Every body was brought up to date here. -/
  | clear

namespace Layer

def moves? : Layer → Option Renaming
  | renames r => some r
  | clear => none

def isClear : Layer → Bool
  | renames _ => false
  | clear => true

def kind? (l : Layer) : Option LayerKind := l.moves?.map Renaming.kind

end Layer

/-- A lens: its layers from the top down, over the identity. The lenses that come up in
    the course of one run grow out of one another, so the number of layers tells them
    apart. -/
structure Lens where
  layers : List Layer := []

namespace Lens

/-- The lens that renames nothing. -/
def identity : Lens := {}

/-- Put a layer on top. -/
def push (l : Lens) (layer : Layer) : Lens := ⟨layer :: l.layers⟩

/-- Note that every body has been brought up to date. -/
def clear (l : Lens) : Lens := l.push .clear

/-- The number of layers above the identity. -/
def depth (l : Lens) : Nat := l.layers.length

def isIdentity (l : Lens) : Bool := l.layers.isEmpty

/-- The lens ends in a cleared layer. -/
def isClear (l : Lens) : Bool := (l.layers.head?.map Layer.isClear).getD false

def kind? (l : Lens) : Option LayerKind := l.layers.head?.bind Layer.kind?

/-- Two lenses of one run are the same when they have the same number of layers. -/
def same (l k : Lens) : Bool := l.depth == k.depth

/-- The lenses with these layers and with fewer, down to the identity. -/
def chainOf : List Layer → List Lens
  | [] => [identity]
  | layer :: rest => ⟨layer :: rest⟩ :: chainOf rest

/-- This lens and all below it, down to the identity. -/
def chain (l : Lens) : List Lens := chainOf l.layers

/-- The topmost lens of a kind, not looking at `stop` or below. -/
def find (l : Lens) (kind : LayerKind) (stop : Option Lens) : Option Lens :=
  (l.chain.takeWhile fun k => !stop.any k.same).find? fun k => k.kind? == some kind

/-- The lens `k` is this one or lies below it. -/
def contains (l k : Lens) : Bool := l.chain.any k.same

/-- The layers above `code`, from the bottom up, as far as bodies written against `code`
    have not been brought up to date since: nothing below a cleared layer counts. -/
def forward (l code : Lens) : List Renaming :=
  ((l.layers.take (l.depth - code.depth)).takeWhile (!·.isClear)).filterMap Layer.moves? |>.reverse

/-- Every renaming, from the bottom up. -/
def renamings (l : Lens) : List Renaming := (l.layers.filterMap Layer.moves?).reverse

end Lens

end DexShrinker
