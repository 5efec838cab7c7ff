/-
  DexShrinker/Proofs/Merging/Sufficing.lean
  =========================================
  **The slots of a target are enough.**

  If the types of classes are references, a merge keeps the shapes of types, and the classes of a
  group, which have fields of the same shapes, still do after types have been mapped. So whichever
  class has its turn, all its fields get slots of the target, each another one
  (`FieldMerge.exists_assigned`), and what a slot is given has its shape, exact pass or not
  (`Slots.shaped_assign`). Slots are never static, and what is placed in the merged class besides
  is: it has the target's instance fields and the class id (`Merging.slots_suffice`).

  A class of a primitive type spoils this, since the references to a class that is merged into it
  are no references any more (`Merging.primitive_class_adds_slot`).
-/
import DexShrinker.Proofs.Merging.FieldsApart

namespace DexShrinker

/-! ### Shapes -/

/-- A slot of type `s` can take a field of type `t`: any reference takes any other, and everything
    else takes its own type only. -/
def Descriptor.Takes (s t : Descriptor) : Prop := if t.isReference then s.isReference = true else s = t

namespace Descriptor

theorem takes_of_relaxed {s t : Descriptor} (h : s.relaxed = t.relaxed) : s.Takes t := by
  have hobject : object.isReference = true := by decide
  unfold Takes
  unfold relaxed at h
  split at h <;> split at h
  · next hs ht => rwa [if_pos ht]
  · next hs ht =>
    rw [← h] at ht
    exact absurd hobject ht
  · next hs ht =>
    rw [h] at hs
    exact absurd hobject hs
  · next hs ht => rwa [if_neg ht]

end Descriptor

/-! ### What slots are given -/

namespace Slots

/-- Every slot given out so far has the shape of the field. -/
def Shaped (slots : List Descriptor) (fields : List (Descriptor × Option Nat)) : Prop :=
  ∀ x ∈ fields, ∀ i, x.2 = some i → ∃ s, slots[i]? = some s ∧ s.relaxed = x.1.relaxed

/-- A pass that goes by shape at least gives out slots of the right shape. -/
theorem shaped_assignPass {fits : Descriptor → Descriptor → Bool} (hfits : ∀ s t, fits s t = true → s.relaxed = t.relaxed)
    {slots : List Descriptor} {fields : List (Descriptor × Option Nat)} (hfields : Shaped slots fields)
    {free : List (Nat × Descriptor)} (hfree : ∀ y ∈ free, slots[y.1]? = some y.2) :
    Shaped slots (assignPass fits fields free).1 ∧
      (assignPass fits fields free).1.map Prod.fst = fields.map Prod.fst := by
  induction fields generalizing free with
  | nil => exact ⟨hfields, rfl⟩
  | cons field fields ih =>
    obtain ⟨hfield, hrest⟩ := List.forall_mem_cons.1 hfields
    obtain ⟨t, slot⟩ := field
    cases slot with
    | some slot =>
      obtain ⟨hshaped, hfst⟩ := ih hrest hfree
      exact ⟨List.forall_mem_cons.2 ⟨hfield, hshaped⟩, congrArg (t :: ·) hfst⟩
    | none =>
      rw [assignPass]
      split
      · next slot s hfind =>
        obtain ⟨hshaped, hfst⟩ := ih hrest fun y hy => hfree y (List.mem_filter.1 hy).1
        refine ⟨List.forall_mem_cons.2 ⟨fun i hi => ?_, hshaped⟩, congrArg (t :: ·) hfst⟩
        cases hi
        exact ⟨s, hfree _ (List.mem_of_find?_eq_some hfind), hfits s t (List.find?_some (p := fun x : Nat × Descriptor => fits x.2 t) hfind)⟩
      · obtain ⟨hshaped, hfst⟩ := ih hrest hfree
        refine ⟨List.forall_mem_cons.2 ⟨fun i hi => ?_, hshaped⟩, congrArg (t :: ·) hfst⟩
        cases hi

/-- **Fields are given slots of their shape**, if they are given any. -/
theorem shaped_assign (slots fields : List Descriptor) : Shaped slots (fields.zip (assign slots fields)) := by
  let start : List (Descriptor × Option Nat) := fields.map fun t => (t, none)
  let free : List (Nat × Descriptor) := slots.mapIdx fun i t => (i, t)
  have hfree : ∀ y ∈ free, slots[y.1]? = some y.2 := by
    intro y hy
    obtain ⟨i, hi, rfl⟩ := List.mem_mapIdx.1 hy
    exact List.getElem?_eq_getElem hi
  have hstart : Shaped slots start := by
    intro x hx i hi
    obtain ⟨t, -, rfl⟩ := List.mem_map.1 hx
    cases hi
  let exact := assignPass (· == ·) start free
  have hsame : ∀ s t : Descriptor, (s == t) = true → s.relaxed = t.relaxed := fun s t hst => by rw [beq_iff_eq.1 hst]
  obtain ⟨hexact, hexactTypes⟩ := shaped_assignPass hsame hstart hfree
  let last := (assignPass (fun s t => s.relaxed == t.relaxed) exact.1 exact.2).1
  obtain ⟨hlast, hlastTypes⟩ : Shaped slots last ∧ last.map Prod.fst = exact.1.map Prod.fst :=
    shaped_assignPass (fun s t hst => beq_iff_eq.1 hst) hexact fun y hy => hfree y ((assignPass_spec (· == ·) start free).2.1 hy)
  have htypes : last.map Prod.fst = fields := by
    rw [hlastTypes, hexactTypes]
    simp [start, Function.comp_def]
  have hzip : fields.zip (assign slots fields) = last := by
    rw [← htypes, show assign slots (last.map Prod.fst) = last.map Prod.snd by rw [htypes]; rfl, List.zip_map']
    exact List.map_id last
  rwa [hzip]

theorem forall₂_assign {slots fields : List Descriptor} {taken : List Nat} (h : assign slots fields = taken.map some) :
    List.Forall₂ (fun t i => ∃ s, slots[i]? = some s ∧ s.relaxed = t.relaxed) fields taken := by
  have hlength := length_assign slots fields
  rw [h, List.length_map] at hlength
  refine List.forall₂_iff_zip.2 ⟨hlength.symm, fun {t i} hx => shaped_assign slots fields (t, some i) ?_ i rfl⟩
  rw [h, List.zip_map_right]
  exact List.mem_map_of_mem hx

end Slots

/-! ### Taking turns -/

namespace FieldMerge

variable {p : Program} {m : MergeMap} {target : ClassDef}

/-- In the layout `l` the instance fields of `c` are given the slots `taken`, which are those of the
    target's fields, each another one that can take the field. -/
structure Assigned (m : MergeMap) (target : ClassDef) (l : Layout) (c : ClassDef) (taken : List Nat) : Prop where
  slots : l.1.map Slot.initialType = target.instanceFields.map fun f => m.type f.ref.type
  assigned : Slots.assign (l.1.map Slot.initialType) (c.instanceFields.map fun f => m.type f.ref.type) = taken.map some
  apart : taken.Nodup
  takes : List.Forall₂ (fun f i => ∃ k, target.instanceFields[i]? = some k ∧ k.ref.type.Takes f.ref.type ∧
    (m.type k.ref.type).Takes (m.type f.ref.type)) c.instanceFields taken

/-- **At its turn a class has a slot of the target for each of its fields.** -/
theorem exists_assigned (hm : ∀ t, (m.type t).relaxed = t.relaxed) {before : List ClassDef} {c : ClassDef}
    (hshapes : ∀ d ∈ before ++ [c], (d.instanceFields.map (·.ref.type.relaxed)).Perm (target.instanceFields.map (·.ref.type.relaxed))) :
    ∃ taken, Assigned m target (before.foldl (addClass p m) (start m target)) c taken := by
  have hmapped (d : ClassDef) : (d.instanceFields.map fun f => (m.type f.ref.type).relaxed) = d.instanceFields.map (·.ref.type.relaxed) :=
    List.map_congr_left fun f _ => hm f.ref.type
  have hspread : Spread m target ([target] ++ before) (before.foldl (addClass p m) (start m target)) := by
    apply spread_layout (spread_start m target)
    intro d hd
    rw [hmapped, hmapped]
    exact hshapes d (List.mem_append_left _ hd)
  have hslots := hspread.initialTypes
  have hfits : ((c.instanceFields.map fun f => m.type f.ref.type).map Descriptor.relaxed).Perm
      ((target.instanceFields.map fun f => m.type f.ref.type).map Descriptor.relaxed) := by
    rw [List.map_map, List.map_map]
    exact (hmapped c ▸ hmapped target ▸ hshapes c (by simp) :)
  obtain ⟨taken, hassigned, hperm⟩ := Slots.exists_assign hfits
  refine ⟨taken, hslots, hslots ▸ hassigned, hperm.nodup_iff.2 List.nodup_range, ?_⟩
  have htakes := Slots.forall₂_assign hassigned
  rw [List.forall₂_map_left_iff] at htakes
  refine htakes.imp fun f i ⟨s, hs, hshape⟩ => ?_
  rw [List.getElem?_map, Option.map_eq_some_iff] at hs
  obtain ⟨k, hk, rfl⟩ := hs
  refine ⟨k, hk, Descriptor.takes_of_relaxed ?_, Descriptor.takes_of_relaxed hshape⟩
  rwa [hm, hm] at hshape

end FieldMerge

/-! ### Slots hold no static fields -/

namespace AccessFlags

theorem isStatic_remove (access : AccessFlags) {flag : AccessFlags} (hflag : ~~~flag.bits &&& 8 = 8) :
    (access.remove flag).isStatic = access.isStatic := by
  change ((access.bits &&& ~~~flag.bits) &&& 8 == 8) = (access.bits &&& 8 == 8)
  rw [UInt32.and_assoc, hflag]

theorem isStatic_promoteToPublic (access : AccessFlags) : access.promoteToPublic.isStatic = access.isStatic := by
  have hor (bits : UInt32) : (bits ||| 1) &&& 8 = bits &&& 8 := by
    rw [← UInt32.toBitVec_inj]
    ext i
    simp
    grind
  have hflag : ~~~(privateFlag ||| protectedFlag).bits &&& 8 = 8 := by decide
  rw [← access.isStatic_remove hflag]
  exact congrArg (· == 8) (hor _)

end AccessFlags

namespace FieldMerge

variable {p : Program} {m : MergeMap} {target : ClassDef}

theorem isStatic_mergeAccess (slot field : AccessFlags) : (mergeAccess slot field).isStatic = slot.isStatic := by
  have hweak (access flag : AccessFlags) (hflag : ~~~flag.bits &&& 8 = 8) :
      (if field.contains flag then access else access.remove flag).isStatic = access.isStatic := by
    split
    · rfl
    · exact access.isStatic_remove hflag
  unfold mergeAccess
  dsimp only
  split
  · rw [hweak _ _ (by decide), hweak _ _ (by decide)]
  · rw [AccessFlags.isStatic_promoteToPublic, hweak _ _ (by decide), hweak _ _ (by decide)]

/-- No slot is static. -/
def NoneStatic (l : Layout) : Prop := ∀ s ∈ l.1, s.access.isStatic = false

theorem noneStatic_start (m : MergeMap) (target : ClassDef) : NoneStatic (start m target) := by
  intro s hs
  obtain ⟨f, hf, rfl⟩ := List.mem_map.1 hs
  exact (by simpa using (List.mem_filter.1 hf).2 : f.isStatic = false)

theorem noneStatic_addField {l : Layout} (h : NoneStatic l) {f : FieldDef} (hf : f.isStatic = false) (slot : Option Nat) :
    NoneStatic (addField p m l f slot) := by
  intro s hs
  cases slot with
  | some i =>
    obtain ⟨j, hj, rfl⟩ := List.mem_mapIdx.1 hs
    have hold := h _ (List.getElem_mem hj)
    split
    · exact (isStatic_mergeAccess _ _).trans hold
    · exact hold
  | none =>
    rcases List.mem_append.1 hs with hs | hs
    · exact h s hs
    · rw [List.mem_singleton.1 hs]
      exact hf

theorem noneStatic_addClass {l : Layout} (h : NoneStatic l) (c : ClassDef) : NoneStatic (addClass p m l c) := by
  have hloop (pairs : List (FieldDef × Option Nat)) (hpairs : ∀ x ∈ pairs, x.1.isStatic = false) {l : Layout} (h : NoneStatic l) :
      NoneStatic (pairs.foldl (fun l x => addField p m l x.1 x.2) l) := by
    induction pairs generalizing l with
    | nil => exact h
    | cons x pairs ih =>
      obtain ⟨hx, hpairs⟩ := List.forall_mem_cons.1 hpairs
      exact ih hpairs (noneStatic_addField h hx x.2)
  apply hloop _ _ h
  intro x hx
  simpa using (List.mem_filter.1 (List.of_mem_zip hx).1).2

theorem noneStatic_foldl_addClass {l : Layout} (h : NoneStatic l) (cs : List ClassDef) : NoneStatic (cs.foldl (addClass p m) l) := by
  induction cs generalizing l with
  | nil => exact h
  | cons c cs ih => exact ih (noneStatic_addClass h c)

/-- The fields of a merged class are instance fields. -/
theorem isStatic_ofGroup {g : MergeGroup} {f : FieldDef} (hf : f ∈ (ofGroup p m g target).fields) : f.isStatic = false := by
  rcases List.mem_append.1 hf with hf | hf
  · obtain ⟨s, hs, rfl⟩ := List.mem_map.1 hf
    exact noneStatic_foldl_addClass (noneStatic_start m target) _ s hs
  · obtain ⟨f, -, rfl⟩ := List.mem_map.1 hf
    exact (by decide : classIdAccess.isStatic = false)

end FieldMerge

/-- Placing static fields leaves the instance fields alone. -/
theorem Placement.instanceFields_placeFields (p : Placement) {fields : List FieldDef} (hfields : ∀ f ∈ fields, f.isStatic = true)
    (shell : ClassDef) (r : Recorder) : (p.placeFields shell r fields).1.instanceFields = shell.instanceFields := by
  induction fields generalizing shell r with
  | nil => rfl
  | cons f fields ih =>
    obtain ⟨hf, hfields⟩ := List.forall_mem_cons.1 hfields
    rw [placeFields_cons, ih hfields]
    simp [ClassDef.instanceFields, show (p.placedField shell f).isStatic = true from hf]

namespace Merging

variable {hash : HashOrder} {v : View} {maxGroupSize : Nat} {P : Plan}

theorem groups_of_planned (hP : planned hash v maxGroupSize = .ok (some P)) {groups : List MergeGroup} {report : MergeReport}
    (hgroups : Policy.run v maxGroupSize Policy.all (Policy.candidates v.program) = .ok (groups, report)) :
    P.groups = groups.filter (·.target.isSome) := by
  rw [planned, hgroups, ok_bind] at hP
  dsimp only at hP
  split at hP
  · cases hP
  · obtain ⟨_, -, hP⟩ := bind_eq_ok.1 hP
    cases hP
    rfl

/-- The instance fields of a merged class are those it has after its group's have been merged. -/
theorem Plan.Valid.exists_instanceFields (h : P.Valid v) {g : MergeGroup} (hg : g ∈ P.groups) {target : ClassDef}
    (htarget : g.target.bind v.program.class? = some target) :
    ∃ d, P.program.class? target.type = some d ∧
      d.instanceFields = (FieldMerge.ofGroup v.program P.placement.merges g target).fields := by
  obtain ⟨u, hu, -, target', recorder, inits, htarget', -, rfl, -⟩ := h.exists_comesFrom hg
  rw [h.program] at htarget'
  obtain rfl : target = target' := Option.some.inj (htarget.symm.trans htarget')
  obtain ⟨st, hst⟩ := h.exists_reached hu
  obtain ⟨r, hfields⟩ := Placement.fields_placeClass P.placement (mergedClass P.placement g target inits)
    (Placement.inherited P.placement.hash st.tables (mergedClass P.placement g target inits).shell) st.log
  refine ⟨(P.place (mergedClass P.placement g target inits) st).1, ?_, ?_⟩
  · have hclass := h.class?_placed hst.mem_placed
    obtain ⟨fs, heq⟩ := Placement.placeClass_eq P.placement (mergedClass P.placement g target inits)
      (Placement.inherited P.placement.hash st.tables (mergedClass P.placement g target inits).shell) st.log
    rwa [show (P.place (mergedClass P.placement g target inits) st).1.type = target.type by rw [Plan.place, heq]; rfl] at hclass
  · have hstatic : ∀ f ∈ (mergedClass P.placement g target inits).fields, f.isStatic = true := by
      intro f hf
      obtain ⟨c, -, hf⟩ := List.mem_flatMap.1 hf
      exact (List.mem_filter.1 hf).2
    have hshell : (mergedClass P.placement g target inits).shell.fields =
        (FieldMerge.ofGroup v.program P.placement.merges g target).fields := by
      rw [← h.program]
      rfl
    rw [ClassDef.instanceFields, Plan.place, hfields]
    refine (Placement.instanceFields_placeFields P.placement hstatic _ r).trans ?_
    rw [ClassDef.instanceFields, hshell, List.filter_eq_self]
    intro f hf
    rw [FieldMerge.isStatic_ofGroup hf]
    rfl

/-- **The slots of a target are enough** if the types of program classes are references. Every class of
    a group that all policies let through has, at its turn, a slot of the target for each of its
    instance fields, so no slot is added: the merged class has as many instance fields as the target,
    and the class id. -/
theorem slots_suffice (hreference : ∀ c ∈ v.program.programClasses, c.type.isReference = true)
    {groups : List MergeGroup} {report : MergeReport}
    (hgroups : Policy.run v maxGroupSize Policy.all (Policy.candidates v.program) = .ok (groups, report)) {g : MergeGroup} (hg : g ∈ groups) :
    ∃ target, g.target.bind v.program.class? = some target ∧
      (∀ before t after, g.sources = before ++ t :: after → ∃ c taken, v.program.class? t = some c ∧
        FieldMerge.Assigned (.ofGroups groups) target ((before.filterMap v.program.class?).foldl
          (FieldMerge.addClass v.program (.ofGroups groups)) (FieldMerge.start (.ofGroups groups) target)) c taken) ∧
      (FieldMerge.ofGroup v.program (.ofGroups groups) g target).fields.length =
        target.instanceFields.length + g.classIdField.toList.length ∧
      ∀ r, Merging.run hash v maxGroupSize = .ok r → ∃ d, r.program.class? target.type = some d ∧
        d.instanceFields.length = target.instanceFields.length + g.classIdField.toList.length := by
  have hmerged := Policy.mergedGroups_of_run hgroups
  have hrelaxed := MergeMap.relaxed_type hmerged hreference
  obtain ⟨s, rest, hclasses, hs⟩ := hmerged.target g hg
  have hmem : s ∈ g.classes := by
    rw [hclasses]
    exact List.mem_cons_self
  have hfound {t : Descriptor} (ht : t ∈ g.classes) : ∃ c, v.program.class? t = some c := by
    obtain ⟨c, hc, rfl⟩ := hmerged.program g hg t ht
    exact ⟨c, (Program.mem_programClasses.1 hc).1⟩
  obtain ⟨target, htarget⟩ := hfound hmem
  have hshape {t : Descriptor} (ht : t ∈ g.classes) {c : ClassDef} (hc : v.program.class? t = some c) :
      (c.instanceFields.map (·.ref.type.relaxed)).Perm (target.instanceFields.map (·.ref.type.relaxed)) :=
    Plan.Valid.perm_of_shape (hmerged.shapes g hg t ht s hmem) hc htarget
  have hbind : g.target.bind v.program.class? = some target := by
    rw [hs]
    exact htarget
  have hcount : (FieldMerge.ofGroup v.program (.ofGroups groups) g target).fields.length =
      target.instanceFields.length + g.classIdField.toList.length := by
    have hshapes : ∀ c ∈ target :: g.sources.filterMap v.program.class?,
        (c.instanceFields.map fun f => ((MergeMap.ofGroups groups).type f.ref.type).relaxed).Perm
          (target.instanceFields.map fun f => ((MergeMap.ofGroups groups).type f.ref.type).relaxed) := by
      intro c hc
      simp only [hrelaxed]
      rcases List.mem_cons.1 hc with rfl | hc
      · exact List.Perm.refl _
      · obtain ⟨t, ht, hc⟩ := List.mem_filterMap.1 hc
        exact hshape (List.mem_filter.1 ht).1 hc
    obtain ⟨refs, hspread, hrefs⟩ := FieldMerge.exists_spreadOver hshapes
    have hlengths := congrArg List.length hrefs
    rwa [List.length_map, List.length_append, ← hspread.own.length_eq] at hlengths
  refine ⟨target, hbind, ?_, hcount, ?_⟩
  · intro before t after hsources
    have hsub : ∀ t' ∈ before ++ [t], t' ∈ g.classes := by
      intro t' ht'
      refine (List.mem_filter.1 (show t' ∈ g.sources from ?_)).1
      rw [hsources, List.append_cons]
      exact List.mem_append_left _ ht'
    obtain ⟨c, hc⟩ := hfound (hsub t (by simp))
    have hshapes : ∀ d ∈ before.filterMap v.program.class? ++ [c],
        (d.instanceFields.map (·.ref.type.relaxed)).Perm (target.instanceFields.map (·.ref.type.relaxed)) := by
      intro d hd
      rcases List.mem_append.1 hd with hd | hd
      · obtain ⟨t', ht', hd⟩ := List.mem_filterMap.1 hd
        exact hshape (hsub t' (List.mem_append_left _ ht')) hd
      · rw [List.mem_singleton.1 hd]
        exact hshape (hsub t (by simp)) hc
    obtain ⟨taken, htaken⟩ := FieldMerge.exists_assigned (p := v.program) hrelaxed hshapes
    exact ⟨c, taken, hc, htaken⟩
  · intro r hrun
    have hall : groups.filter (·.target.isSome) = groups := by
      rw [List.filter_eq_self]
      intro g hg
      obtain ⟨t, -, -, ht⟩ := hmerged.target g hg
      rw [ht]
      rfl
    obtain ⟨hnone, -⟩ | ⟨P, hP, -, hprogram, -⟩ := run_eq_ok hrun
    · rw [planned, hgroups, ok_bind] at hnone
      dsimp only at hnone
      rw [hall, if_neg (by simpa using List.ne_nil_of_mem hg)] at hnone
      obtain ⟨_, -, hnone⟩ := bind_eq_ok.1 hnone
      cases hnone
    · have h := valid_of_planned hP
      have heq : P.groups = groups := (groups_of_planned hP hgroups).trans hall
      obtain ⟨d, hd, hfields⟩ := h.exists_instanceFields (heq ▸ hg) hbind
      rw [h.merges, heq] at hfields
      exact ⟨d, hprogram ▸ hd, by rw [hfields, hcount]⟩

/-! ### A field of a merged type

`C` and `D` become one class, and so do the classes `first` and `second`. The field of `C` has the
type `second`, that of `D` is an object. -/

namespace MergedFieldType

def withField (holder name : String) (type : Descriptor) : ClassDef where
  type := ⟨holder⟩
  superclass := some .object
  fields := [⟨⟨⟨holder⟩, name, type⟩, .publicFlag, none⟩]

def view (first second : Descriptor) : View where
  program := .ofList [{ type := .object, kind := .library, superclass := none }, { type := first, superclass := some .object },
    { type := second, superclass := some .object }, withField "LC;" "f" second, withField "LD;" "g" .object]

def group : MergeGroup where
  classes := [⟨"LC;"⟩, ⟨"LD;"⟩]
  isInterface := false
  target := some ⟨"LC;"⟩

/-- `D` gets the slots `slots` of `C`, and there are `count` fields in the merged class. -/
structure Gives (first second : Descriptor) (groups : List MergeGroup) (report : MergeReport) (slots : List (Option Nat))
    (count : Nat) : Prop where
  left : Policy.run (view first second) defaultMaxGroupSize Policy.all (Policy.candidates (view first second).program) =
    .ok (groups, report)
  mem : group ∈ groups
  assigned : Slots.assign ((withField "LC;" "f" second).instanceFields.map fun f => (MergeMap.ofGroups groups).type f.ref.type)
    ((withField "LD;" "g" .object).instanceFields.map fun f => (MergeMap.ofGroups groups).type f.ref.type) = slots
  merged : ∃ r d, Merging.run .inserted (view first second) defaultMaxGroupSize = .ok r ∧ r.program.class? ⟨"LC;"⟩ = some d ∧
    d.instanceFields.length = count

def outcome (first second : Descriptor) : Option (Bool × List (Option Nat) × Option Nat) :=
  match Policy.run (view first second) defaultMaxGroupSize Policy.all (Policy.candidates (view first second).program),
    Merging.run .inserted (view first second) defaultMaxGroupSize with
  | .ok (groups, _), .ok r => some (groups.contains group,
      Slots.assign ((withField "LC;" "f" second).instanceFields.map fun f => (MergeMap.ofGroups groups).type f.ref.type)
        ((withField "LD;" "g" .object).instanceFields.map fun f => (MergeMap.ofGroups groups).type f.ref.type),
      (r.program.class? ⟨"LC;"⟩).map fun d => d.instanceFields.length)
  | _, _ => none

theorem exists_gives {first second : Descriptor} {slots : List (Option Nat)} {count : Nat}
    (h : outcome first second = some (true, slots, some count)) : ∃ groups report, Gives first second groups report slots count := by
  unfold outcome at h
  split at h
  · next groups report r hgroups hr =>
    simp only [Option.some.injEq, Prod.mk.injEq, List.contains_iff_mem, Option.map_eq_some_iff] at h
    obtain ⟨hgroup, hslots, d, hd, hcount⟩ := h
    exact ⟨groups, report, hgroups, hgroup, hslots, r, d, hr, hd, hcount⟩
  · cases h

end MergedFieldType

/-- The object of `D` is kept in the field of `C`, whose type is merged into another class. -/
theorem slots_suffice_merged_type : (∀ c ∈ (MergedFieldType.view ⟨"LA;"⟩ ⟨"LB;"⟩).program.programClasses, c.type.isReference = true) ∧
    ∃ groups report, MergedFieldType.Gives ⟨"LA;"⟩ ⟨"LB;"⟩ groups report [some 0] 1 ∧
      ∃ c taken, (MergedFieldType.view ⟨"LA;"⟩ ⟨"LB;"⟩).program.class? ⟨"LD;"⟩ = some c ∧
        FieldMerge.Assigned (.ofGroups groups) (MergedFieldType.withField "LC;" "f" ⟨"LB;"⟩)
          (FieldMerge.start (.ofGroups groups) (MergedFieldType.withField "LC;" "f" ⟨"LB;"⟩)) c taken := by
  have hreference : ∀ c ∈ (MergedFieldType.view ⟨"LA;"⟩ ⟨"LB;"⟩).program.programClasses, c.type.isReference = true := by decide +kernel
  have houtcome : MergedFieldType.outcome ⟨"LA;"⟩ ⟨"LB;"⟩ = some (true, [some 0], some 1) := by decide +kernel
  obtain ⟨groups, report, hgives⟩ := MergedFieldType.exists_gives houtcome
  obtain ⟨target, htarget, hassigned, -⟩ := @slots_suffice .inserted _ _ hreference _ _ hgives.left _ hgives.mem
  have hbind : MergedFieldType.group.target.bind (MergedFieldType.view ⟨"LA;"⟩ ⟨"LB;"⟩).program.class? =
    some (MergedFieldType.withField "LC;" "f" ⟨"LB;"⟩) := by rfl
  obtain rfl := Option.some.inj (htarget.symm.trans hbind)
  exact ⟨hreference, groups, report, hgives, hassigned [] ⟨"LD;"⟩ [] (by decide)⟩

/-- If a class of the primitive type `I` is the target of `A`, a field of type `A` is no reference any
    more, and the object gets a slot of its own. -/
theorem primitive_class_adds_slot : (MergedFieldType.withField "LC;" "f" ⟨"LA;"⟩).instanceFields.length + MergedFieldType.group.classIdField.toList.length = 1 ∧
    ∃ groups report, MergedFieldType.Gives ⟨"I"⟩ ⟨"LA;"⟩ groups report [none] 2 :=
  ⟨rfl, MergedFieldType.exists_gives (by decide +kernel)⟩

end Merging

end DexShrinker
