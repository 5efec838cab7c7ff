/-
  DexShrinker/Merging/Placement.lean
  ==================================
  **New names for the members of all classes.**

  When types are merged, two members of a class can come to have the same signature,
  and a method can come to override one that it did not override before. Classes are
  gone through with supertypes first, and every member is placed under its mapped
  signature unless that is taken:

  - an initializer is padded with null parameters until its prototype is free;
  - a field or a method that is not dispatched gets the first free number;
  - a virtual method that overrides an inherited one follows it, so an override stays
    one; any other virtual method gets a number if its signature is taken or inherited.

  Methods that override come before the others of their class and so keep their names.
  Every move is recorded, and a member with a new name also moves for all subtypes that
  inherit it, because code may name the subtype.
-/
import DexShrinker.Merging.Initializers

namespace DexShrinker

/-! ### Orders of maps -/

/-- The virtual methods that a class has or inherits: new signatures with the methods that
    were first placed there, in the order in which they were placed. -/
abbrev VirtualTable := List (Signature × MethodRef)

/-- Some maps are gone through in an order that their hashes decide, which says nothing about what is in them. Whatever
    came in, comes out. -/
structure HashOrder where
  /-- The order of a table of virtual methods. -/
  methods : VirtualTable → VirtualTable
  /-- The order of the types whose depths are looked for. -/
  types : List Descriptor → List Descriptor
  perm_methods (t : VirtualTable) : (methods t).Perm t
  perm_types (ts : List Descriptor) : (types ts).Perm ts

/-- What came in first comes out first. -/
def HashOrder.inserted : HashOrder where
  methods := id
  types := id
  perm_methods _ := .refl _
  perm_types _ := .refl _

/-! ### Supertypes first -/

namespace Program

/-- The supertypes of every class. -/
def supertypesOf (classes : List ClassDef) : TypeMap (List Descriptor) :=
  .ofList (classes.map fun c => (c.type, c.supertypes))

/-- Note the depth of `t`, the length of the longest chain of supertypes above it, and the
    depths of all types on the way. A type whose chains are being followed has depth zero,
    so going round adds nothing. No chain has more than `fuel` types. -/
def noteDepth (supertypes : TypeMap (List Descriptor)) : (fuel : Nat) → TypeMap Nat → Descriptor → TypeMap Nat
  | 0, depths, _ => depths
  | fuel + 1, depths, t =>
    if depths.contains t then depths
    else
      let (depths, depth) := (supertypes.getD t []).foldl (fun (depths, depth) s =>
        let depths := noteDepth supertypes fuel depths s
        (depths, max depth (depths.getD s 0 + 1))) (depths.insert t 0, 0)
      depths.insert t depth

/-- The depth of every class and of its supertypes. -/
def depths (hash : HashOrder) (classes : List ClassDef) : TypeMap Nat :=
  (hash.types (classes.map ClassDef.type)).foldl (noteDepth (supertypesOf classes) (classes.length + 1)) (∅ : TypeMap Nat)

/-- The classes with supertypes before subtypes, and in the order of types apart from that. -/
def topDown (hash : HashOrder) (classes : List ClassDef) : List ClassDef :=
  let byType := sortBy (fun a b => (compare a.type b.type).isLE) classes
  let depths := depths hash classes
  (sortBy (fun a b => a.1 ≤ b.1) (byType.map fun c => (depths.getD c.type 0, c))).map Prod.snd

/-- The types in `work` and below that inherit a member: the walk down stops at every class
    that declares it. -/
def inheritorsFrom (p : Program) (declares : ClassDef → Bool) (pool : List ClassDef) :
    List Descriptor → List Descriptor
  | [] => []
  | t :: work =>
    match _ : pool.find? (·.type == t) with
    | none => p.inheritorsFrom declares pool work
    | some c =>
      if declares c then p.inheritorsFrom declares (without pool t) work
      else t :: p.inheritorsFrom declares (without pool t) (p.directSubtypes t ++ work)
termination_by work => workLeft (fun c => (p.directSubtypes c.type).length) pool + work.length
decreasing_by
  · simp only [List.length_cons]
    omega
  all_goals
    have hfind := ‹pool.find? (·.type == t) = some c›
    have hlt := workLeft_without_lt (fun c => (p.directSubtypes c.type).length) hfind
    rw [show c.type = t by simpa using List.find?_some hfind] at hlt
    simp only [List.length_append, List.length_cons]
    omega

/-- The subtypes of `t` that inherit a member of it, in order. -/
def inheritors (p : Program) (t : Descriptor) (declares : ClassDef → Bool) : List Descriptor :=
  (.ofList (p.inheritorsFrom declares p.classes (p.directSubtypes t)) : TypeSet).toList

end Program

/-! ### Virtual methods in sight -/

namespace VirtualTable

/-- The method placed under a new signature. -/
def method? (t : VirtualTable) (s : Signature) : Option MethodRef := t.lookup s

/-- Add a method unless the signature is there already. -/
def add (t : VirtualTable) (new : Signature) (old : MethodRef) : VirtualTable :=
  if (t.method? new).isSome then t else t ++ [(new, old)]

/-- Add the methods of another table, in the order in which that is gone through. -/
def extend (hash : HashOrder) (t other : VirtualTable) : VirtualTable :=
  (hash.methods other).foldl (fun t (new, old) => t.add new old) t

/-- The new signature of an inherited method that `m` overrides. -/
def overridden? (p : Program) (t : VirtualTable) (m : MethodRef) : Option Signature :=
  (t.find? fun (_, old) =>
    old.signature == m.signature && old.holder != m.holder && p.isSubtype m.holder old.holder).map Prod.fst

end VirtualTable

/-! ### Placing the members of a class -/

/-- A class whose members still have to be placed. -/
structure UnplacedClass where
  /-- The class under its new supertypes, with the members that have been placed. -/
  shell : ClassDef
  fields : List FieldDef := []
  methods : List MethodDef := []
  /-- Where the fields went that have been placed. -/
  fieldMoves : List (FieldRef × FieldRef) := []

/-- A class that is not merged: all its members are to be placed. -/
def UnplacedClass.ofClass (m : MergeMap) (c : ClassDef) : UnplacedClass where
  shell := { c with
    superclass := c.superclass.map m.type
    interfaces := (c.interfaces.map m.type).eraseDups
    fields := []
    methods := [] }
  fields := c.fields
  methods := c.methods

/-- What placement works with: the program before the merge, where types go, the type of
    padding parameters, and the order of maps. -/
structure Placement where
  program : Program
  merges : MergeMap
  argument : Descriptor
  hash : HashOrder

/-- Where a method is placed, and the padding it gets. -/
structure Place where
  ref : MethodRef
  padding : Nat := 0

/-- What placement has recorded so far. -/
structure PlacementLog where
  recorder : Recorder
  usesArgument : Bool

namespace Placement

/-- The signature is a method name away from `taken`. -/
def freshSignature (s : Signature) (taken : List Signature) : Signature :=
  { s with name := numberedFresh s.name ((taken.filter (·.proto == s.proto)).map Signature.name) }

/-- Place an initializer. -/
def initializer (p : Placement) (holder : Descriptor) (m : MethodRef) (reserved : List Signature) : Place :=
  let s := p.merges.signature m.signature
  let candidate (n : Nat) : Signature := { s with proto := InitMerge.pad s.proto p.argument n }
  let n := firstFree candidate reserved
  ⟨.ofSignature holder (candidate n), n⟩

/-- Place a method under its mapped signature, or a numbered one if that is taken. -/
def renamed (p : Placement) (holder : Descriptor) (m : MethodRef) (taken : List Signature) : Place :=
  let s := p.merges.signature m.signature
  ⟨.ofSignature holder (if taken.contains s then freshSignature s taken else s), 0⟩

/-- Place a virtual method. -/
def virtual (p : Placement) (holder : Descriptor) (m : MethodRef) (table : VirtualTable)
    (reserved : List Signature) : Place :=
  match table.overridden? p.program m with
  | some s => ⟨.ofSignature holder s, 0⟩
  | none => p.renamed holder m (reserved ++ table.map Prod.fst)

/-- Place a method that is not dispatched. It may hide an inherited method only if it did so
    before. -/
def direct (p : Placement) (holder : Descriptor) (m : MethodRef) (table : VirtualTable)
    (reserved : List Signature) : Place :=
  p.renamed holder m (reserved ++ (table.filter (·.2.signature != m.signature)).map Prod.fst)

/-- Record where a field went, also for the subtypes that inherit it. -/
def recordField (p : Placement) (r : Recorder) (old new : FieldRef) : Recorder :=
  if old = new then r
  else
    let r := r.moveField old new
    if new = p.merges.field old then r
    else
      (p.program.inheritors old.holder fun c => (c.field? { old with holder := c.type }).isSome).foldl
        (fun r sub => r.moveField { old with holder := sub } { new with holder := p.merges.type sub }) r

/-- Record where a method went, also for the subtypes that inherit it. -/
def recordMethod (p : Placement) (r : Recorder) (old new : MethodRef) (isInitializer : Bool) : Recorder :=
  if old = new then r
  else
    let r := r.moveMethod old new
    if isInitializer || new == p.merges.method old then r
    else
      (p.program.inheritors old.holder fun c => (c.methodBySignature? old.signature).isSome).foldl
        (fun r sub => r.moveMethod { old with holder := sub } { new with holder := p.merges.type sub }) r

/-- Place the fields of a class. -/
def placeFields (p : Placement) (shell : ClassDef) (r : Recorder) (fields : List FieldDef) : ClassDef × Recorder :=
  fields.foldl (fun (shell, r) f =>
    let type := p.merges.type f.ref.type
    let taken := (shell.fields.filter (·.ref.type == type)).map (·.ref.name)
    let ref : FieldRef := ⟨shell.type, freshName f.ref.name taken, type⟩
    ({ shell with fields := shell.fields ++ [{ f with ref := ref }] }, p.recordField r f.ref ref)) (shell, r)

/-- The changes of an initializer that was padded. -/
def paddingChanges (p : Placement) (n : Nat) : ProtoChanges :=
  (List.replicate n (ExtraParameter.unusedNull p.argument)).foldl ProtoChanges.addParameter .none

/-- The signatures in use, the virtual methods in sight and the log while the methods of a
    class are placed. -/
structure MethodState where
  reserved : List Signature
  table : VirtualTable
  log : PlacementLog

/-- The place of a method. -/
def place (p : Placement) (holder : Descriptor) (st : MethodState) (m : MethodDef) : Place :=
  if m.isInstanceInitializer then p.initializer holder m.ref st.reserved
  else if m.isVirtual then p.virtual holder m.ref st.table st.reserved
  else p.direct holder m.ref st.table st.reserved

/-- Place one method. -/
def placeMethod (p : Placement) (holder : Descriptor) (st : MethodState) (m : MethodDef) : MethodDef × MethodState :=
  let place := p.place holder st m
  let recorder := if m.isInstanceInitializer
    then st.log.recorder.recordDefinition place.ref (p.paddingChanges place.padding) else st.log.recorder
  ({ m with ref := place.ref },
    { reserved := st.reserved ++ [place.ref.signature]
      table := if m.isVirtual then st.table.add place.ref.signature m.ref else st.table
      log := {
        recorder := p.recordMethod recorder m.ref place.ref m.isInstanceInitializer
        usesArgument := st.log.usesArgument || place.padding > 0 } })

/-- Place the methods of a class: those that override first. They are listed in their old
    order. -/
def placeMethods (p : Placement) (holder : Descriptor) (st : MethodState) (methods : List MethodDef) :
    List MethodDef × MethodState :=
  let overrides (m : MethodDef) := m.isVirtual && (st.table.overridden? p.program m.ref).isSome
  let (first, rest) := methods.zipIdx.partition fun (m, _) => overrides m
  let (placed, st) := (first ++ rest).foldl (fun ((placed, st) : List (MethodDef × Nat) × MethodState) (m, i) =>
    let (m, st) := p.placeMethod holder st m
    (placed ++ [(m, i)], st)) ([], st)
  ((sortBy (fun a b => a.2 ≤ b.2) placed).map Prod.fst, st)

/-- Place all members of a class below classes with the given virtual methods. -/
def placeClass (p : Placement) (c : UnplacedClass) (table : VirtualTable) (log : PlacementLog) :
    ClassDef × VirtualTable × PlacementLog :=
  let r := c.fieldMoves.foldl (fun r (old, new) => p.recordField r old new) log.recorder
  let (shell, r) := p.placeFields c.shell r c.fields
  let st : MethodState := ⟨shell.methods.map (·.ref.signature), table, { log with recorder := r }⟩
  let (methods, st) := p.placeMethods shell.type st c.methods
  ({ shell with methods := shell.methods ++ methods }, st.table, st.log)

/-- The virtual methods that a library class declares. -/
def libraryTable (c : ClassDef) (table : VirtualTable) : VirtualTable :=
  c.virtualMethods.foldl (fun t m => t.add m.ref.signature m.ref) table

/-- The virtual methods that a class inherits, given those of the classes above it. -/
def inherited (hash : HashOrder) (tables : TypeMap VirtualTable) (c : ClassDef) : VirtualTable :=
  c.supertypes.foldl (fun t s => VirtualTable.extend hash t (tables.getD s [])) []

/-- The classes that have been gone through: those with placed members, and the virtual
    methods of all of them. -/
structure Progress where
  placed : List ClassDef := []
  tables : TypeMap VirtualTable := ∅
  log : PlacementLog

/-- Go on to a class. Library classes keep their members. -/
def visit (p : Placement) (classes : List UnplacedClass) (st : Progress) (c : ClassDef) : Progress :=
  match classes.find? (·.shell.type == c.type) with
  | some u =>
    let (d, table, log) := p.placeClass u (inherited p.hash st.tables c) st.log
    ⟨st.placed ++ [d], st.tables.insert c.type table, log⟩
  | none => { st with tables := st.tables.insert c.type (libraryTable c (inherited p.hash st.tables c)) }

/-- The classes in the order in which they are gone through. -/
def order (p : Placement) (classes : List UnplacedClass) : List ClassDef :=
  Program.topDown p.hash (classes.map UnplacedClass.shell ++ p.program.classes.filter (·.isLibrary))

/-- Go through all classes. -/
def walk (p : Placement) (classes : List UnplacedClass) (log : PlacementLog) : Progress :=
  (p.order classes).foldl (p.visit classes) { log := log }

/-- Place the members of all classes. -/
def run (p : Placement) (classes : List UnplacedClass) (log : PlacementLog) : List ClassDef × PlacementLog :=
  let st := p.walk classes log
  (st.placed, st.log)

end Placement

end DexShrinker
