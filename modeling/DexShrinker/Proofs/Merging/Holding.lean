/-
  DexShrinker/Proofs/Merging/Holding.lean
  =======================================
  **A merged field can hold every value that is stored into it.**

  The type of a slot is widened to a least upper bound before the merge, which is then taken to
  where the merge takes it. So a slot needs three facts: a least upper bound is above both types,
  the merge takes what is above to what is above (`MergeMap.Morphism`), and being above is
  transitive afterwards. That the type of a slot stays is what lets the second one apply again
  when the slot is widened once more (`FieldMerge.wide_addField`).

  Slots of primitive types are never widened, because they are only given fields of their own
  type. Cycles in the hierarchy do not matter, since neither transitivity nor least upper bounds
  need a hierarchy without them.
-/
import DexShrinker.Proofs.Merging.Conflicts
import DexShrinker.Proofs.Merging.Hierarchy
import DexShrinker.Proofs.Merging.Sufficing

namespace DexShrinker

/-- The map takes the hierarchy of the one program into that of the other, and types that it gives
    stay. -/
structure MergeMap.Morphism (m : MergeMap) (p p' : Program) : Prop where
  before : p.Topped
  after : p'.Topped
  stays : ∀ t, m.type (m.type t) = m.type t
  below : ∀ a b, p.Below a b → p'.Below (m.type a) (m.type b)

namespace FieldMerge

variable {p p' : Program} {m : MergeMap} {s : Slot} {t : Descriptor}

/-! ### Widening -/

/-- The type of a slot stays and is above the type that the slot started with. -/
structure Grown (p' : Program) (m : MergeMap) (s : Slot) : Prop where
  stays : m.type s.type = s.type
  above : p'.Below s.initialType s.type

/-- A field is given to a slot of its type, or both are references. -/
theorem Grown.cases (h : Grown p' m s) (hshape : s.initialType.relaxed = t.relaxed) :
    s.type = t ∨ s.type.isReference = true ∧ t.isReference = true := by
  have htakes := Descriptor.takes_of_relaxed hshape
  unfold Descriptor.Takes at htakes
  split at htakes
  · next ht =>
    rcases h.above.isReference with heq | ⟨-, hs⟩
    · exact .inr ⟨heq ▸ htakes, ht⟩
    · exact .inr ⟨hs, ht⟩
  · next ht =>
    rcases h.above.isReference with heq | ⟨hs, -⟩
    · exact .inl (heq.symm.trans htakes)
    · exact absurd (htakes ▸ hs) ht

/-- **A widened slot is above what it was and above the field that it takes.** -/
theorem grown_widen (h : Grown p' m s) (hm : m.Morphism p p') (ht : m.type t = t) (hshape : s.initialType.relaxed = t.relaxed)
    (access : AccessFlags) :
    Grown p' m (widen p m s t access) ∧ p'.Below s.type (widen p m s t access).type ∧
      p'.Below t (widen p m s t access).type := by
  by_cases hsame : s.type = t
  · have htype : (widen p m s t access).type = s.type := if_pos hsame
    exact ⟨⟨by rw [htype, h.stays], htype ▸ h.above⟩, htype ▸ .refl _, htype ▸ hsame ▸ .refl _⟩
  · have htype : (widen p m s t access).type = m.type (p.leastUpperBound s.type t) := if_neg hsame
    obtain ⟨hs, ht'⟩ := (h.cases hshape).resolve_left hsame
    obtain ⟨hleft, hright⟩ := Program.below_leastUpperBound hm.before hs ht'
    have hwider : p'.Below s.type (widen p m s t access).type := by
      rw [htype, ← h.stays]
      exact hm.below _ _ (h.stays.symm ▸ hleft)
    refine ⟨⟨by rw [htype, hm.stays], h.above.trans hm.after hwider⟩, hwider, ?_⟩
    rw [htype, ← ht]
    exact hm.below _ _ (ht.symm ▸ hright)

/-! ### Layouts -/

/-- Every slot has grown, and is above every field that was put into it. -/
structure Wide (p' : Program) (m : MergeMap) (l : Layout) : Prop where
  grown : ∀ s ∈ l.1, Grown p' m s
  holds : ∀ x ∈ l.2, ∃ s, l.1[x.2]? = some s ∧ p'.Below (m.type x.1.type) s.type

theorem wide_start (hm : m.Morphism p p') (target : ClassDef) : Wide p' m (start m target) := by
  constructor
  · intro s hs
    obtain ⟨f, -, rfl⟩ := List.mem_map.1 hs
    exact ⟨hm.stays _, .refl _⟩
  · intro x hx
    obtain ⟨i, hi, rfl⟩ := List.mem_mapIdx.1 hx
    refine ⟨_, List.getElem?_eq_getElem hi, ?_⟩
    rw [List.length_map] at hi
    rw [List.getElem_map]
    exact .refl _

/-- Slots keep their places and the types they started with, and there may be more of them. -/
theorem prefix_addField (l : Layout) (f : FieldDef) (slot : Option Nat) :
    l.1.map Slot.initialType <+: (addField p m l f slot).1.map Slot.initialType := by
  cases slot with
  | some i =>
    have hsame : l.1.map Slot.initialType = (addField p m l f (some i)).1.map Slot.initialType := by
      refine List.ext_getElem (by simp [addField]) fun j _ _ => ?_
      simp only [addField, List.getElem_map, List.getElem_mapIdx]
      split <;> rfl
    exact hsame ▸ List.prefix_rfl
  | none => exact ⟨[m.type f.ref.type], by simp [addField]⟩

/-- One more field, in a slot of its shape or a new one. -/
theorem wide_addField (hm : m.Morphism p p') {l : Layout} (h : Wide p' m l) (f : FieldDef) {slot : Option Nat}
    (hslot : ∀ i, slot = some i → ∃ s, (l.1.map Slot.initialType)[i]? = some s ∧ s.relaxed = (m.type f.ref.type).relaxed) :
    Wide p' m (addField p m l f slot) := by
  cases slot with
  | some i =>
    obtain ⟨_, hi, hshape⟩ := hslot i rfl
    rw [List.getElem?_map, Option.map_eq_some_iff] at hi
    obtain ⟨s, hs, rfl⟩ := hi
    obtain ⟨hgrown, hwider, htakes⟩ := grown_widen (h.grown s (List.mem_of_getElem? hs)) hm (hm.stays f.ref.type) hshape f.access
    have hget (j : Nat) : (addField p m l f (some i)).1[j]? =
        (l.1[j]?).map fun s => if j = i then widen p m s (m.type f.ref.type) f.access else s := List.getElem?_mapIdx
    constructor
    · intro s' hs'
      obtain ⟨j, hj⟩ := List.mem_iff_getElem?.1 hs'
      rw [hget, Option.map_eq_some_iff] at hj
      obtain ⟨s₀, hs₀, rfl⟩ := hj
      split
      · next hji =>
        cases hs₀.symm.trans (hji ▸ hs)
        exact hgrown
      · exact h.grown s₀ (List.mem_of_getElem? hs₀)
    · intro x hx
      rcases List.mem_append.1 hx with hx | hx
      · obtain ⟨s₀, hs₀, hbelow⟩ := h.holds x hx
        refine ⟨_, by rw [hget, hs₀]; rfl, ?_⟩
        split
        · next hji =>
          cases hs₀.symm.trans (hji ▸ hs)
          exact hbelow.trans hm.after hwider
        · exact hbelow
      · rw [List.mem_singleton.1 hx]
        exact ⟨_, by rw [hget, hs, Option.map_some, if_pos rfl], htakes⟩
  | none =>
    constructor
    · intro s hs
      rcases List.mem_append.1 hs with hs | hs
      · exact h.grown s hs
      · rw [List.mem_singleton.1 hs]
        exact ⟨hm.stays _, .refl _⟩
    · intro x hx
      rcases List.mem_append.1 hx with hx | hx
      · obtain ⟨s, hs, hbelow⟩ := h.holds x hx
        exact ⟨s, by rw [← hs]; exact List.getElem?_append_left (List.getElem?_eq_some_iff.1 hs).1, hbelow⟩
      · rw [List.mem_singleton.1 hx]
        exact ⟨_, List.getElem?_concat_length, .refl _⟩

/-- The fields of one more class. -/
theorem wide_addClass (hm : m.Morphism p p') {l : Layout} (h : Wide p' m l) (c : ClassDef) : Wide p' m (addClass p m l c) := by
  -- Slots are given out by the types they started with, which stay while fields are put into them.
  have hloop (pairs : List (FieldDef × Option Nat)) {types : List Descriptor}
      (hpairs : ∀ x ∈ pairs, ∀ i, x.2 = some i → ∃ s, types[i]? = some s ∧ s.relaxed = (m.type x.1.ref.type).relaxed) {l : Layout}
      (h : Wide p' m l) (htypes : types <+: l.1.map Slot.initialType) :
      Wide p' m (pairs.foldl (fun l x => addField p m l x.1 x.2) l) := by
    induction pairs generalizing l with
    | nil => exact h
    | cons x pairs ih =>
      obtain ⟨hx, hpairs⟩ := List.forall_mem_cons.1 hpairs
      refine ih hpairs (wide_addField hm h x.1 fun i hi => ?_) (htypes.trans (prefix_addField l x.1 x.2))
      obtain ⟨s, hs, hshape⟩ := hx i hi
      obtain ⟨rest, htypes⟩ := htypes
      exact ⟨s, by rw [← htypes, List.getElem?_append_left (List.getElem?_eq_some_iff.1 hs).1, hs], hshape⟩
  refine hloop _ (fun x hx i hi => ?_) h (List.prefix_refl _)
  have hshaped := Slots.shaped_assign (l.1.map Slot.initialType) (c.instanceFields.map fun f => m.type f.ref.type)
  rw [List.zip_map_left] at hshaped
  exact hshaped _ (List.mem_map_of_mem hx) i hi

/-- **Every field of a group is below the field that it is kept in.** -/
theorem below_ofGroup (hm : m.Morphism p p') {g : MergeGroup} {target : ClassDef} {x : FieldRef × FieldRef}
    (hx : x ∈ (ofGroup p m g target).moves) : p'.Below (m.type x.1.type) x.2.type := by
  have hwide : Wide p' m ((g.sources.filterMap p.class?).foldl (addClass p m) (start m target)) :=
    List.foldlRecOn (motive := Wide p' m) _ _ (wide_start hm target) fun l hl c _ => wide_addClass hm hl c
  obtain ⟨y, hy, hx⟩ := List.mem_filterMap.1 hx
  obtain ⟨s, hs, hbelow⟩ := hwide.holds y hy
  obtain ⟨s', hs', rfl⟩ := Option.map_eq_some_iff.1 hx
  cases hs.symm.trans hs'
  exact hbelow

end FieldMerge

namespace Merging

variable {hash : HashOrder} {v : View} {maxGroupSize : Nat} {P : Plan} {r : MergeResult}

namespace Plan.Valid

/-! ### A merge as a map of hierarchies -/

/-- Where a class has its type and its supertypes from: it was there before, it is what a program
    class has become, or it is the class of padding parameters. -/
theorem hierarchy_cases (h : P.Valid v) {d : ClassDef} (hd : d ∈ P.program.classes) :
    d ∈ v.program.classes ∨
      (∃ c ∈ v.program.programClasses, d.type = c.type ∧ ∀ s ∈ d.supertypes, ∃ s' ∈ c.supertypes, P.type s' = s) ∨
      d = argumentClass P.placement.argument := by
  rcases h.program_cases hd with ⟨hd, -⟩ | hd | ⟨rfl, -⟩
  · exact .inl hd
  · obtain ⟨u, hu, fs, ms, rfl, -, -⟩ := h.exists_unplaced hd
    obtain ⟨types, c, hc, hgathers, -, -⟩ := h.origin hu
    exact .inr (.inl ⟨c, hc, hgathers.type, fun s hs => (mem_supertypes_iff hgathers).1 hs⟩)
  · exact .inr (.inr rfl)

/-- The program after a merge has nothing above the top either: the only class that is new is not
    the top class. -/
theorem topped (h : P.Valid v) (hv : v.program.Topped) (hobject : ∀ c ∈ v.program.programClasses, c.type ≠ .object) :
    P.program.Topped where
  isClass := by
    intro d hd
    rcases h.hierarchy_cases hd with hd | ⟨c, hc, htype, -⟩ | rfl
    · exact hv.isClass d hd
    · exact htype ▸ hv.isClass c (Program.mem_classes_of_mem_programClasses hc)
    · exact h.isClass_argument
  isClass_of_mem_supertypes := by
    intro d hd s hs
    rcases h.hierarchy_cases hd with hd | ⟨c, hc, -, hsupertypes⟩ | rfl
    · exact hv.isClass_of_mem_supertypes d hd s hs
    · obtain ⟨s', hs', rfl⟩ := hsupertypes s hs
      have hclass := hv.isClass_of_mem_supertypes c (Program.mem_classes_of_mem_programClasses hc) s' hs'
      exact h.isClass_type hv.toRegular hclass
    · obtain rfl : s = .object := by simpa [argumentClass, ClassDef.supertypes] using hs
      exact Descriptor.isClass_object
  top := by
    intro d hd htop
    rcases h.hierarchy_cases hd with hd | ⟨c, hc, htype, -⟩ | rfl
    · exact hv.top d hd htop
    · exact absurd (htype.symm.trans htop) (hobject c hc)
    · obtain ⟨t, ht⟩ := h.argument
      exact absurd htop (argumentType_ne_object ht)

/-- **A merge takes the hierarchy along.** -/
theorem morphism (h : P.Valid v) (hv : v.program.Topped) (hclosed : v.program.LibraryClosed)
    (hobject : ∀ c ∈ v.program.programClasses, c.type ≠ .object) : P.placement.merges.Morphism v.program P.program where
  before := hv
  after := h.topped hv hobject
  stays := h.type_type hv.toRegular
  below _ _ hbelow := h.below_of_below hv.toRegular hclosed hobject hbelow

/-! ### Fields that move -/

/-- A field that goes elsewhere is below the one that it goes to. -/
theorem below_of_goes (h : P.Valid v) (hm : P.placement.merges.Morphism v.program P.program)
    {old new : FieldRef} (hgoes : P.FieldGoes old new) (hne : old ≠ new) : P.program.Below (P.type old.type) new.type := by
  cases hgoes with
  | library c hc hlib f hf hold hnew => exact absurd (hold.trans hnew.symm) hne
  | placed u hu d hd htype hx =>
    obtain ⟨fs, ms, rfl, -, -, hfields⟩ := h.exists_members hu hd htype
    rcases List.mem_append.1 hx with hx | hx
    · rcases h.classes_cases hu with ⟨c, -, -, rfl⟩ | ⟨g, -, target, recorder, inits, -, -, rfl, -⟩
      · cases hx
      · rw [← h.program] at hm
        have hbelow := FieldMerge.below_ofGroup hm hx
        exact hbelow
    · obtain ⟨y, hy, heq⟩ := List.mem_map.1 hx
      cases heq
      rw [List.drop_left] at hy
      rw [(hfields y hy).2]
      exact .refl _

/-- Wherever a field is looked up, the field found there is above it. -/
theorem below_mapField (h : P.Valid v) (hv : v.program.Regular) (hm : P.placement.merges.Morphism v.program P.program) (f : FieldRef) :
    P.program.Below (P.type f.type) (P.recorder.moves.mapField f).type := by
  rw [Renaming.mapField, Std.TreeMap.getD_eq_getD_getElem?]
  cases hget : P.recorder.moves.fields[f]? with
  | none =>
    rw [Option.getD_none, h.mapType_recorder]
    exact .refl _
  | some new =>
    have hne : f ≠ new := by
      rintro rfl
      exact h.fields_ne hv f hget
    rw [Option.getD_some]
    rcases h.obeys_moves.fields f new hget with hgoes | ⟨f₀, new₀, hgoes, hmoved, -, sub, -, rfl, rfl, -⟩
    · exact h.below_of_goes hm hgoes hne
    · -- The field is inherited, and has the type that it has where it is declared.
      have hbelow := h.below_of_goes hm hgoes hmoved
      exact hbelow

end Plan.Valid

/-! ### Values of merged fields -/

/-- **What is stored into a field can be stored into the field that the lens takes it to**: a merge
    takes the type of the one to a subtype of the type of the other, whatever field it is. -/
theorem isSubtype_lookupField (hv : v.program.Topped) (hclosed : v.program.LibraryClosed)
    (hobject : ∀ c ∈ v.program.programClasses, c.type ≠ .object) (hrun : run hash v maxGroupSize = .ok r) (f : FieldRef) :
    r.program.isSubtype (r.lens.lookupType f.type v.lens) (r.lens.lookupField f v.lens).ref.type = true := by
  rcases run_eq_ok hrun with ⟨-, hprogram, hlens⟩ | ⟨P, hplan, -, hprogram, hlens⟩
  · rw [hprogram, hlens, Program.isSubtype_iff, Lens.lookupType, Lens.lookupField, Lens.forward_self]
    exact .refl _
  · have hvalid := valid_of_planned hplan
    rw [hprogram, hvalid.lookupType_eq hlens, Recorder.lookupField_of_build hlens,
      Program.isSubtype_iff]
    exact hvalid.below_mapField hv.toRegular (hvalid.morphism hv hclosed hobject) f

/-- **A merged field can hold every value that is stored into it.** Every instance field of a class
    that is merged is kept in a field of the merged class. The merge takes its type to a subtype of
    the type of the field that it is kept in, and of the field that the lens takes it to. -/
theorem fields_hold (hv : v.program.Topped) (hclosed : v.program.LibraryClosed)
    (hobject : ∀ c ∈ v.program.programClasses, c.type ≠ .object) (hrun : run hash v maxGroupSize = .ok r)
    (hP : planned hash v maxGroupSize = .ok (some P)) {g : MergeGroup} (hg : g ∈ P.groups) :
    ∃ target d, g.target.bind v.program.class? = some target ∧ r.program.class? target.type = some d ∧
      ∀ t ∈ g.classes, ∃ c, v.program.class? t = some c ∧ ∀ f ∈ c.instanceFields,
        (∃ new, (f.ref, new) ∈ (FieldMerge.ofGroup v.program P.placement.merges g target).moves) ∧
        (∀ new, (f.ref, new) ∈ (FieldMerge.ofGroup v.program P.placement.merges g target).moves → (∃ k ∈ d.instanceFields, k.ref = new) ∧
          r.program.isSubtype (r.lens.lookupType f.ref.type v.lens) new.type = true) ∧
        r.program.isSubtype (r.lens.lookupType f.ref.type v.lens) (r.lens.lookupField f.ref v.lens).ref.type = true := by
  have h := valid_of_planned hP
  obtain ⟨hprogram, hlens⟩ := run_of_planned hrun hP
  obtain ⟨target, -, -, -, htarget⟩ := h.target_class hg
  have hmembers := h.members_eq hg htarget
  rw [h.program] at htarget hmembers
  obtain ⟨d, hd, hfields⟩ := h.exists_instanceFields hg htarget
  obtain ⟨hmoves, hkept, -⟩ := FieldMerge.moves_ofGroup v.program P.placement.merges g target
  refine ⟨target, d, htarget, hprogram ▸ hd, fun t ht => ?_⟩
  obtain ⟨c, hc, rfl⟩ := h.groups.program g hg t ht
  have hget := (Program.mem_programClasses.1 hc).1
  refine ⟨c, hget, fun f hf => ⟨?_, fun new hnew => ⟨?_, ?_⟩, isSubtype_lookupField hv hclosed hobject hrun f.ref⟩⟩
  · have hmem : f.ref ∈ (FieldMerge.ofGroup v.program P.placement.merges g target).moves.map Prod.fst := by
      rw [hmoves, hmembers]
      exact List.mem_map_of_mem (List.mem_flatMap.2 ⟨c, List.mem_filterMap.2 ⟨c.type, ht, hget⟩, hf⟩)
    obtain ⟨⟨_, new⟩, hnew, rfl⟩ := List.mem_map.1 hmem
    exact ⟨new, hnew⟩
  · rw [hfields]
    exact (hkept _ hnew).1
  · rw [hprogram, h.lookupType_eq hlens, Program.isSubtype_iff]
    have hbelow := FieldMerge.below_ofGroup (h.morphism hv hclosed hobject) hnew
    exact hbelow

/-! ### Siblings

`A` and `B` become one class. Their fields are of types that are not merged, because `V` has a
field and `U` has none. Both are below `S`, which is merged with `R`. -/

namespace Siblings

def field (holder name type : String) : FieldRef := ⟨Named.type holder, name, Named.type type⟩

def withField (holder name type : String) : ClassDef where
  type := Named.type holder
  superclass := some .object
  fields := [⟨field holder name type, .publicFlag, none⟩]

def view : View where
  program := .ofList [{ type := .object, kind := .library, superclass := none }, withField "A" "f" "U", withField "B" "g" "V",
    Named.withMethods "R" [], Named.withMethods "S" [], { type := Named.type "U", superclass := some (Named.type "S") },
    { type := Named.type "V", superclass := some (Named.type "S"), fields := [⟨⟨Named.type "V", "x", .int⟩, .publicFlag, none⟩] }]

def group : MergeGroup where
  classes := [Named.type "A", Named.type "B"]
  isInterface := false
  target := some (Named.type "A")

/-- Whether `A` and `B` are merged, how their fields are, and what becomes of the type `V`. -/
def outcome : Option (Bool × List (FieldRef × FieldRef) × Descriptor) :=
  match run .inserted view defaultMaxGroupSize, planned .inserted view defaultMaxGroupSize with
  | .ok r, .ok (some P) => some (P.groups.contains group,
      (FieldMerge.ofGroup view.program P.placement.merges group (withField "A" "f" "U")).moves,
      r.lens.lookupType (Named.type "V") view.lens)
  | _, _ => none

/-- The field of `B` is kept in that of `A`, which gets the type that `S` has become. -/
structure Merged (r : MergeResult) (P : Plan) : Prop where
  run : Merging.run .inserted view defaultMaxGroupSize = .ok r
  planned : Merging.planned .inserted view defaultMaxGroupSize = .ok (some P)
  group : group ∈ P.groups
  moves : (FieldMerge.ofGroup view.program P.placement.merges Siblings.group (withField "A" "f" "U")).moves =
    [(field "A" "f" "U", field "A" "f" "R"), (field "B" "g" "V", field "A" "f" "R")]
  stays : r.lens.lookupType (Named.type "V") view.lens = Named.type "V"

theorem exists_merged (h : outcome = some (true, [(field "A" "f" "U", field "A" "f" "R"), (field "B" "g" "V", field "A" "f" "R")],
    Named.type "V")) : ∃ r P, Merged r P := by
  unfold outcome at h
  split at h
  · next r P hr hP =>
    simp only [Option.some.injEq, Prod.mk.injEq, List.contains_iff_mem] at h
    obtain ⟨hgroup, hmoves, hstays⟩ := h
    exact ⟨r, P, hr, hP, hgroup, hmoves, hstays⟩
  · cases h

end Siblings

/-- `V` is below what `S` has become, so the merged field can hold what the field of `B` could. -/
theorem fields_hold_siblings : ∃ r P, Siblings.Merged r P ∧ r.program.isSubtype (Named.type "V") (Named.type "R") = true := by
  obtain ⟨r, P, h⟩ := Siblings.exists_merged (by decide +kernel)
  obtain ⟨target, d, htarget, -, hhold⟩ := fields_hold ⟨⟨by decide +kernel⟩, by decide +kernel, by decide +kernel⟩
    (by unfold Program.LibraryClosed; decide +kernel) (by decide +kernel) h.run h.planned h.group
  obtain rfl : target = Siblings.withField "A" "f" "U" := (Option.some.inj htarget).symm
  obtain ⟨c, hc, hfields⟩ := hhold (Named.type "B") (by decide)
  obtain rfl : c = Siblings.withField "B" "g" "V" := (Option.some.inj hc).symm
  obtain ⟨-, hkept, -⟩ := hfields ⟨Siblings.field "B" "g" "V", .publicFlag, none⟩ (List.mem_singleton_self _)
  obtain ⟨-, hsub⟩ := hkept (Siblings.field "A" "f" "R") (by rw [h.moves]; simp)
  exact ⟨r, P, h, h.stays ▸ hsub⟩

end Merging

end DexShrinker
