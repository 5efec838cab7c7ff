/-
  DexShrinker/Merging/Fields.lean
  ===============================
  **Sharing instance fields between merged classes.**

  Every instance field of the target is a slot. The fields of another class of the
  group are spread over the slots in two passes: first to free slots of exactly their
  type, then to free slots of the same shape, where all references have one shape. A
  slot's type grows to the least upper bound of what is kept in it. A field for which
  there is no slot gets one of its own.
-/
import DexShrinker.App.View
import DexShrinker.FreshName
import DexShrinker.Merging.Group

namespace DexShrinker

/-- The type with every reference type taken for the top class. -/
def Descriptor.relaxed (t : Descriptor) : Descriptor := if t.isReference then .object else t

namespace Slots

/-- Give every field that has no slot yet the first free slot that fits it. Free slots
    are given with their types. -/
def assignPass (fits : Descriptor → Descriptor → Bool) :
    List (Descriptor × Option Nat) → (free : List (Nat × Descriptor)) →
      List (Descriptor × Option Nat) × List (Nat × Descriptor)
  | [], free => ([], free)
  | (t, some slot) :: fields, free =>
    let (fields, free) := assignPass fits fields free
    ((t, some slot) :: fields, free)
  | (t, none) :: fields, free =>
    match free.find? fun (_, slotType) => fits slotType t with
    | some (slot, _) =>
      let (fields, free) := assignPass fits fields (free.filter (·.1 != slot))
      ((t, some slot) :: fields, free)
    | none =>
      let (fields, free) := assignPass fits fields free
      ((t, none) :: fields, free)

/-- The slot of every field, if there is one for it: exact types first, then shapes. -/
def assign (slots fields : List Descriptor) : List (Option Nat) :=
  let (exact, free) := assignPass (· == ·) (fields.map fun t => (t, none)) (slots.mapIdx fun i t => (i, t))
  (assignPass (fun s t => s.relaxed == t.relaxed) exact free).1.map Prod.snd

end Slots

/-- A field of the merged class. -/
structure Slot where
  /-- The field it is reported as. -/
  representative : FieldRef
  name : String
  /-- The type it started with, by which fields are assigned to it. -/
  initialType : Descriptor
  /-- The type that holds everything kept in it. -/
  type : Descriptor
  access : AccessFlags

/-- The instance fields of a merged class. -/
structure FieldMerge where
  /-- The fields; the class id comes last. -/
  fields : List FieldDef := []
  /-- Every instance field of the group and the field it is kept in. -/
  moves : List (FieldRef × FieldRef) := []
  /-- Every merged field and the field it is reported as. -/
  representatives : List (FieldRef × FieldRef) := []

namespace FieldMerge

/-- The flags of a slot that also holds a field: final and synthetic only if both are, and
    public if they differ in visibility. -/
def mergeAccess (slot field : AccessFlags) : AccessFlags :=
  let visibility : AccessFlags := .publicFlag ||| .protectedFlag ||| .privateFlag
  let weak (access flag : AccessFlags) := if field.contains flag then access else access.remove flag
  let access := weak (weak slot .finalFlag) .syntheticFlag
  if slot.inter visibility = field.inter visibility then access else access.promoteToPublic

/-- The slot after a field of type `t` has been put into it. -/
def widen (p : Program) (m : MergeMap) (s : Slot) (t : Descriptor) (access : AccessFlags) : Slot :=
  { s with
    type := if s.type = t then s.type else m.type (p.leastUpperBound s.type t)
    access := mergeAccess s.access access }

/-- Slots, and the fields put into them so far with the slots' positions. -/
abbrev Layout := List Slot × List (FieldRef × Nat)

/-- Put one field into its slot, or into a new one. -/
def addField (p : Program) (m : MergeMap) (l : Layout) (f : FieldDef) (slot : Option Nat) : Layout :=
  let (slots, contributions) := l
  let t := m.type f.ref.type
  match slot with
  | some i =>
    (slots.mapIdx fun j s => if j = i then widen p m s t f.access else s, contributions ++ [(f.ref, i)])
  | none =>
    let fresh : Slot := ⟨f.ref, freshName f.ref.name (slots.map Slot.name), t, t, f.access⟩
    (slots ++ [fresh], contributions ++ [(f.ref, slots.length)])

/-- Put the instance fields of a class into slots. -/
def addClass (p : Program) (m : MergeMap) (l : Layout) (c : ClassDef) : Layout :=
  let fields := c.instanceFields
  let slots := Slots.assign (l.1.map Slot.initialType) (fields.map fun f => m.type f.ref.type)
  (fields.zip slots).foldl (fun l (f, slot) => addField p m l f slot) l

/-- The slots of the target's own fields. -/
def start (m : MergeMap) (target : ClassDef) : Layout :=
  let slots := target.instanceFields.map fun f =>
    ({ representative := f.ref, name := f.ref.name, initialType := m.type f.ref.type,
       type := m.type f.ref.type, access := f.access } : Slot)
  (slots, slots.mapIdx fun i s => (s.representative, i))

/-- The flags of the class id. -/
def classIdAccess : AccessFlags := .privateFlag ||| .finalFlag ||| .syntheticFlag

/-- Merge the instance fields of a group into those of its target. -/
def ofGroup (p : Program) (m : MergeMap) (g : MergeGroup) (target : ClassDef) : FieldMerge :=
  let (slots, contributions) := (g.sources.filterMap p.class?).foldl (addClass p m) (start m target)
  let ref (s : Slot) : FieldRef := ⟨target.type, s.name, s.type⟩
  { fields := slots.map (fun s => { ref := ref s, access := s.access })
      ++ g.classIdField.toList.map fun f => { ref := f, access := classIdAccess }
    moves := contributions.filterMap fun (f, i) => (slots[i]?).map fun s => (f, ref s)
    representatives := slots.map fun s => (ref s, s.representative) }

end FieldMerge

end DexShrinker
