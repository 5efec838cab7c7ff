/-
  DexShrinker/Lens/Lookup.lean
  ============================
  **Looking names up through a lens.**

  A body written against a lower lens, its code lens, is brought up to date by the
  layers above it (`lookup…`). What the very first program called something is found
  by going through all layers, cleared ones included (`renamed…`, `first…`). Looking up
  a method combines the changes of all layers on the way, which can be a fault.
-/
import DexShrinker.Lens.Basic

namespace DexShrinker

/-- What an access to a field has become. -/
structure FieldLookup where
  ref : FieldRef
  /-- The type to which a value read from the field has to be cast, if the field has
      another type than the code expects. -/
  readCast : Option Descriptor

/-- What a call has become. -/
structure MethodLookup where
  ref : MethodRef
  kind : InvokeKind
  /-- What the call has to do to its arguments. -/
  changes : ProtoChanges

namespace Lens

/-! ### For bodies -/

def lookupType (l : Lens) (t : Descriptor) (code : Lens) : Descriptor :=
  (l.forward code).foldl (fun t r => r.mapType t) t

def lookupProto (l : Lens) (p : Prototype) (code : Lens) : Prototype :=
  (l.forward code).foldl (fun p r => r.mapProto p) p

/-- One layer's effect on an access to a field. -/
def stepField (f : FieldLookup) (r : Renaming) : FieldLookup :=
  let expected := r.mapType (f.readCast.getD f.ref.type)
  let ref := r.mapField f.ref
  ⟨ref, if expected = ref.type then none else some expected⟩

def lookupField (l : Lens) (f : FieldRef) (code : Lens) : FieldLookup :=
  (l.forward code).foldl stepField ⟨f, none⟩

/-- One layer's effect on a call. -/
def stepMethod (m : MethodLookup) (r : Renaming) : Guarded MethodLookup := do
  let ref := r.mapMethod m.ref
  return ⟨ref, r.invokeKinds.getD ref m.kind, ← m.changes.combine (r.changesForCall m.ref ref)⟩

/-- A call to a superclass method that has come to be in the class of the caller is a
    direct call. -/
def settleSuper (context : Option MethodRef) (m : MethodLookup) : MethodLookup :=
  if m.kind = .super ∧ context.any (·.holder == m.ref.holder) then { m with kind := .direct } else m

/-- The call of `m` from the method `context`, which has its present name. -/
def lookupMethod (l : Lens) (m : MethodRef) (context : Option MethodRef) (kind : InvokeKind) (code : Lens) :
    Guarded MethodLookup :=
  return settleSuper context (← (l.forward code).foldlM stepMethod ⟨m, kind, .none⟩)

/-- The present names of methods, where they have their names of `code`. -/
def lookupMethods (l : Lens) (ms : MethodSet) (code : Lens) : Guarded MethodSet :=
  return .ofList (← ms.toList.mapM fun m => return (← l.lookupMethod m none .direct code).ref)

/-- One layer down: the name that a method had there, and the changes of its definition in
    this layer before those of the layers above. -/
def stepDefinition (r : Renaming) (state : MethodRef × List ProtoChanges) : MethodRef × List ProtoChanges :=
  (r.inverseMethod state.1, r.definitionChanges.getD state.1 .none :: state.2)

/-- What happened to the definition of the method now called `m` since its body was
    written. -/
def definitionChanges (l : Lens) (m : MethodRef) (code : Lens) : Guarded ProtoChanges :=
  ((l.forward code).foldr stepDefinition (m, [])).2.foldlM ProtoChanges.combine .none

/-- What the method now called `m` was called when its body was written. -/
def previousMethod (l : Lens) (m : MethodRef) (code : Lens) : MethodRef :=
  (l.forward code).foldr (fun r m => r.inverseMethod m) m

/-! ### From and to the first program -/

def renamedType (l : Lens) (t : Descriptor) : Descriptor := l.renamings.foldl (fun t r => r.mapType t) t
def renamedField (l : Lens) (f : FieldRef) : FieldRef := l.renamings.foldl (fun f r => r.mapField f) f
def renamedMethod (l : Lens) (m : MethodRef) : MethodRef := l.renamings.foldl (fun m r => r.mapMethod m) m

def firstType (l : Lens) (t : Descriptor) : Descriptor := l.renamings.foldr (fun r t => r.inverseType t) t
def firstField (l : Lens) (f : FieldRef) : FieldRef := l.renamings.foldr (fun r f => r.inverseField f) f
def firstMethod (l : Lens) (m : MethodRef) : MethodRef := l.renamings.foldr (fun r m => r.inverseMethod m) m

end Lens

end DexShrinker
