/-
  DexShrinker/Proofs/Merging/FieldsApart.lean
  ===========================================
  **When the fields of merged classes stay apart.**

  The classes of a group have as many instance fields of every shape. So the slots of the target
  are enough: the fields of each class are spread over all of them (`Slots.exists_assign`), no slot
  is added, and every slot keeps the name of the target's field (`FieldMerge.spread_layout`).
  Static fields and the class id get names that are free.

  But a slot is told apart from others by its name and the type that it ends with. Two fields of
  the target that differ in type only are kept in one field if these types become the same, and
  then no class of the group keeps its fields apart (`Merging.fields_apart_iff`).
-/
import DexShrinker.Proofs.Merging.Fitting
import DexShrinker.Proofs.Merging.Members
import DexShrinker.Proofs.Merging.Moves

namespace DexShrinker

/-! ### Giving out all slots -/

namespace Slots

/-- The types of the fields that have no slot yet, up to shape. -/
def waiting (fields : List (Descriptor × Option Nat)) : List Descriptor :=
  (fields.filter (·.2.isNone)).map (·.1.relaxed)

theorem perm_filter_ne {free : List (Nat × Descriptor)} (h : (free.map Prod.fst).Nodup) {x : Nat × Descriptor} (hx : x ∈ free) :
    free.Perm (x :: free.filter (·.1 != x.1)) := by
  induction free with
  | nil => cases hx
  | cons y free ih =>
    rw [List.map_cons, List.nodup_cons] at h
    rcases List.mem_cons.1 hx with rfl | hx
    · rw [List.filter_cons_of_neg (by simp), List.filter_eq_self.2]
      intro z hz
      simpa using fun heq : z.1 = x.1 => h.1 (heq ▸ List.mem_map_of_mem hz)
    · have hne : y.1 ≠ x.1 := fun heq => h.1 (heq ▸ List.mem_map_of_mem hx)
      rw [List.filter_cons_of_pos (by simpa using hne)]
      exact ((ih h.2 hx).cons y).trans (List.Perm.swap x y _)

/-- No slot is given out twice. -/
theorem perm_assignPass (fits : Descriptor → Descriptor → Bool) (fields : List (Descriptor × Option Nat))
    {free : List (Nat × Descriptor)} (h : (free.map Prod.fst).Nodup) :
    let r := assignPass fits fields free
    (r.1.filterMap Prod.snd ++ r.2.map Prod.fst).Perm (fields.filterMap Prod.snd ++ free.map Prod.fst) := by
  induction fields generalizing free with
  | nil => exact List.Perm.refl _
  | cons field fields ih =>
    obtain ⟨t, slot⟩ := field
    cases slot with
    | some slot => exact (ih h).cons slot
    | none =>
      rw [assignPass]
      split
      · next slot s hfind =>
        have hperm := (perm_filter_ne h (List.mem_of_find?_eq_some hfind)).map Prod.fst
        have hnodup : ((free.filter (·.1 != slot)).map Prod.fst).Nodup := (List.filter_sublist.map Prod.fst).nodup h
        refine ((ih hnodup).cons slot).trans (List.perm_middle.symm.trans ?_)
        exact hperm.symm.append_left _
      · exact ih h

/-- A pass that goes by shape at least takes as many slots of a shape as it fills. -/
theorem perm_waiting {fits : Descriptor → Descriptor → Bool} (hfits : ∀ s t, fits s t = true → s.relaxed = t.relaxed)
    (fields : List (Descriptor × Option Nat)) {free : List (Nat × Descriptor)} (h : (free.map Prod.fst).Nodup)
    (left : List Descriptor) (hperm : (left ++ waiting fields).Perm (free.map (·.2.relaxed))) :
    let r := assignPass fits fields free
    (left ++ waiting r.1).Perm (r.2.map (·.2.relaxed)) := by
  induction fields generalizing free left with
  | nil => exact hperm
  | cons field fields ih =>
    obtain ⟨t, slot⟩ := field
    cases slot with
    | some slot => exact ih h left hperm
    | none =>
      rw [assignPass]
      split
      · next slot s hfind =>
        have hfound : fits s t = true := List.find?_some (p := fun x : Nat × Descriptor => fits x.2 t) hfind
        have hshape := hfits s t hfound
        have hfree := (perm_filter_ne h (List.mem_of_find?_eq_some hfind)).map (·.2.relaxed)
        refine ih ((List.filter_sublist.map Prod.fst).nodup h) left (List.Perm.cons_inv (a := t.relaxed) ?_)
        refine (List.perm_middle.symm.trans hperm).trans ?_
        simpa [hshape] using hfree
      · have hmoved : (left ++ [t.relaxed] ++ waiting fields).Perm (free.map (·.2.relaxed)) := by
          simpa [waiting] using hperm
        simpa [waiting] using ih h (left ++ [t.relaxed]) hmoved

/-- A pass that goes by shape gives every field a slot if there are enough. -/
theorem isSome_of_assignPass (fields : List (Descriptor × Option Nat)) {free : List (Nat × Descriptor)} (h : (free.map Prod.fst).Nodup)
    (hperm : (waiting fields).Perm (free.map (·.2.relaxed))) :
    ∀ x ∈ (assignPass (fun s t => s.relaxed == t.relaxed) fields free).1, x.2.isSome = true := by
  induction fields generalizing free with
  | nil => simp [assignPass]
  | cons field fields ih =>
    obtain ⟨t, slot⟩ := field
    cases slot with
    | some slot => exact List.forall_mem_cons.2 ⟨rfl, ih h hperm⟩
    | none =>
      have hmem : t.relaxed ∈ free.map (·.2.relaxed) := hperm.subset List.mem_cons_self
      obtain ⟨y, hy, hshape⟩ := List.mem_map.1 hmem
      rw [assignPass]
      split
      · next slot s hfind =>
        have hfree := (perm_filter_ne h (List.mem_of_find?_eq_some hfind)).map (·.2.relaxed)
        have hfound : s.relaxed = t.relaxed := by simpa using List.find?_some hfind
        refine List.forall_mem_cons.2 ⟨rfl, ih ((List.filter_sublist.map Prod.fst).nodup h) (List.Perm.cons_inv (a := t.relaxed) ?_)⟩
        exact hperm.trans (by simpa [hfound] using hfree)
      · next hfind =>
        exact absurd (beq_iff_eq.2 hshape) (List.find?_eq_none.1 hfind y hy)

/-- **If fields and slots have the same shapes, the fields take all slots**, each of them one. -/
theorem exists_assign {slots fields : List Descriptor} (h : (fields.map Descriptor.relaxed).Perm (slots.map Descriptor.relaxed)) :
    ∃ taken : List Nat, assign slots fields = taken.map some ∧ taken.Perm (List.range slots.length) := by
  let start : List (Descriptor × Option Nat) := fields.map fun t => (t, none)
  let free : List (Nat × Descriptor) := slots.mapIdx fun i t => (i, t)
  have hfree : free.map Prod.fst = List.range slots.length := by
    refine List.ext_getElem (by simp [free]) fun i _ _ => ?_
    simp [free]
  have hnodup : (free.map Prod.fst).Nodup := hfree ▸ List.nodup_range
  have hstart : start.filterMap Prod.snd = [] := by simp [start, List.filterMap_map]
  have hwaiting : (waiting start).Perm (free.map (·.2.relaxed)) := by
    have hfields : waiting start = fields.map Descriptor.relaxed := by simp [waiting, start, List.filter_map, Function.comp_def]
    have hslots : free.map (·.2.relaxed) = slots.map Descriptor.relaxed := by
      refine List.ext_getElem (by simp [free]) fun i _ _ => ?_
      simp [free]
    rw [hfields, hslots]
    exact h
  -- What the first pass leaves still fits together.
  let exact := assignPass (· == ·) start free
  have hexact : (exact.1.filterMap Prod.snd ++ exact.2.map Prod.fst).Perm (List.range slots.length) := by
    simpa [hstart, hfree] using perm_assignPass (· == ·) start hnodup
  have hnodup' : (exact.2.map Prod.fst).Nodup := (List.nodup_append.1 (hexact.nodup_iff.2 List.nodup_range)).2.1
  have hleft : (waiting exact.1).Perm (exact.2.map (·.2.relaxed)) :=
    perm_waiting (fun s t hst => by rw [beq_iff_eq.1 hst]) start hnodup [] hwaiting
  let last := assignPass (fun s t => s.relaxed == t.relaxed) exact.1 exact.2
  have hlast : (last.1.filterMap Prod.snd ++ last.2.map Prod.fst).Perm (List.range slots.length) :=
    (perm_assignPass _ exact.1 hnodup').trans hexact
  have hall : ∀ x ∈ last.1, x.2.isSome = true := isSome_of_assignPass exact.1 hnodup' hleft
  have hnone : last.2 = [] := by
    have hperm : (waiting last.1).Perm (last.2.map (·.2.relaxed)) :=
      perm_waiting (fun s t hst => beq_iff_eq.1 hst) exact.1 hnodup' [] hleft
    have hempty : waiting last.1 = [] := by
      rw [waiting, List.map_eq_nil_iff, List.filter_eq_nil_iff]
      intro x hx
      simp [Option.isNone_iff_eq_none, Option.isSome_iff_ne_none.1 (hall x hx)]
    rw [hempty] at hperm
    exact List.map_eq_nil_iff.1 (List.nil_perm.1 hperm)
  refine ⟨last.1.filterMap Prod.snd, ?_, by simpa [hnone] using hlast⟩
  change last.1.map Prod.snd = _
  rw [List.map_filterMap, ← List.filterMap_eq_map]
  refine List.filterMap_congr fun x hx => ?_
  obtain ⟨i, hi⟩ := Option.isSome_iff_exists.1 (hall x hx)
  simp [hi]

end Slots

/-! ### Spreading fields over slots -/

theorem forall₂_filterMap {α β ι : Type} {R : α → β → Prop} {f : ι → Option β} {as : List α} {is : List ι}
    (h : List.Forall₂ (fun a i => ∃ b, f i = some b ∧ R a b) as is) : List.Forall₂ R as (is.filterMap f) := by
  induction h with
  | nil => exact .nil
  | cons hr _ ih =>
    obtain ⟨b, hb, hr⟩ := hr
    rw [List.filterMap_cons_some hb]
    exact .cons hr ih

theorem filterMap_range_getElem? {α : Type} (xs : List α) : (List.range xs.length).filterMap (xs[·]?) = xs := by
  induction xs with
  | nil => rfl
  | cons x xs ih =>
    rw [List.length_cons, List.range_succ_eq_map, List.filterMap_cons_some (by rfl), List.filterMap_map]
    exact congrArg (x :: ·) ih

namespace FieldMerge

variable {p : Program} {m : MergeMap} {target : ClassDef}

/-- The slots are those of the target, and each of the classes has one field in each. -/
structure Spread (m : MergeMap) (target : ClassDef) (cs : List ClassDef) (l : Layout) : Prop where
  names : l.1.map Slot.name = target.instanceFields.map (·.ref.name)
  initialTypes : l.1.map Slot.initialType = target.instanceFields.map fun f => m.type f.ref.type
  own : List.Forall₂ (fun f i => (f.ref, i) ∈ l.2) target.instanceFields (List.range l.1.length)
  taken : ∀ c ∈ cs, ∃ taken : List Nat, taken.Perm (List.range l.1.length) ∧
    List.Forall₂ (fun f i => (f.ref, i) ∈ l.2) c.instanceFields taken

theorem spread_start (m : MergeMap) (target : ClassDef) : Spread m target [target] (start m target) := by
  have hown : List.Forall₂ (fun f i => (f.ref, i) ∈ (start m target).2) target.instanceFields
      (List.range (start m target).1.length) := by
    rw [List.forall₂_iff_get]
    refine ⟨by simp [start], fun i hi _ => ?_⟩
    refine List.mem_mapIdx.2 ⟨i, by simpa [start] using hi, ?_⟩
    simp [start]
  refine ⟨by simp [start], by simp [start], hown, fun c hc => ?_⟩
  rw [List.mem_singleton.1 hc]
  exact ⟨_, List.Perm.refl _, hown⟩

/-- Fields that all have slots leave the names of slots alone. -/
theorem foldl_addField {fields : List FieldDef} {taken : List Nat} (hlength : fields.length = taken.length) (l : Layout) :
    let r := (fields.zip (taken.map some)).foldl (fun l x => addField p m l x.1 x.2) l
    r.1.map Slot.name = l.1.map Slot.name ∧ r.1.map Slot.initialType = l.1.map Slot.initialType ∧
      r.2 = l.2 ++ (fields.zip taken).map fun x => (x.1.ref, x.2) := by
  induction fields generalizing taken l with
  | nil => simp
  | cons f fields ih =>
    cases taken with
    | nil => cases hlength
    | cons i taken =>
      obtain ⟨hnames, htypes, hcontributions⟩ := ih (Nat.succ.inj hlength) (addField p m l f (some i))
      simp only [List.map_cons, List.zip_cons_cons, List.foldl_cons]
      have hkeeps {α : Type} (g : Slot → α) (hg : ∀ s t access, g (widen p m s t access) = g s) :
          (addField p m l f (some i)).1.map g = l.1.map g := by
        refine List.ext_getElem (by simp [addField]) fun j _ _ => ?_
        simp only [addField, List.getElem_map, List.getElem_mapIdx]
        split
        · exact hg _ _ _
        · rfl
      refine ⟨hnames.trans (hkeeps _ fun _ _ _ => rfl), htypes.trans (hkeeps _ fun _ _ _ => rfl), ?_⟩
      rw [hcontributions]
      simp [addField]

theorem spread_addClass {cs : List ClassDef} {l : Layout} (h : Spread m target cs l) {c : ClassDef}
    (hc : (c.instanceFields.map fun f => (m.type f.ref.type).relaxed).Perm
      (target.instanceFields.map fun f => (m.type f.ref.type).relaxed)) : Spread m target (cs ++ [c]) (addClass p m l c) := by
  have hshapes : ((c.instanceFields.map fun f => m.type f.ref.type).map Descriptor.relaxed).Perm
      ((l.1.map Slot.initialType).map Descriptor.relaxed) := by
    rw [h.initialTypes]
    simpa [Function.comp_def] using hc
  obtain ⟨taken, hassign, hperm⟩ := Slots.exists_assign hshapes
  have hlength : c.instanceFields.length = taken.length := by
    simpa [Slots.length_assign] using congrArg List.length hassign
  obtain ⟨hnames, htypes, hcontributions⟩ := foldl_addField (p := p) (m := m) hlength l
  rw [← hassign] at hnames htypes hcontributions
  have hslots : (addClass p m l c).1.length = l.1.length := by
    have hlengths := congrArg List.length hnames
    rwa [List.length_map, List.length_map] at hlengths
  have hsub : l.2 ⊆ (addClass p m l c).2 := hcontributions ▸ List.subset_append_left _ _
  refine ⟨hnames.trans h.names, htypes.trans h.initialTypes, ?_, fun d hd => ?_⟩
  · rw [hslots]
    exact h.own.imp fun _ _ hmem => hsub hmem
  · rw [hslots]
    rcases List.mem_append.1 hd with hd | hd
    · obtain ⟨taken, hperm, hforall⟩ := h.taken d hd
      exact ⟨taken, hperm, hforall.imp fun _ _ hmem => hsub hmem⟩
    · rw [List.mem_singleton.1 hd]
      refine ⟨taken, by simpa using hperm, List.forall₂_iff_zip.2 ⟨hlength, fun {f i} hx => ?_⟩⟩
      rw [show (addClass p m l c).2 = _ from hcontributions]
      exact List.mem_append_right _ (List.mem_map.2 ⟨(f, i), hx, rfl⟩)

theorem spread_layout {cs before : List ClassDef} {l : Layout} (h : Spread m target before l)
    (hcs : ∀ c ∈ cs, (c.instanceFields.map fun f => (m.type f.ref.type).relaxed).Perm
      (target.instanceFields.map fun f => (m.type f.ref.type).relaxed)) :
    Spread m target (before ++ cs) (cs.foldl (addClass p m) l) := by
  induction cs generalizing before l with
  | nil => simpa using h
  | cons c cs ih =>
    obtain ⟨hc, hcs⟩ := List.forall_mem_cons.1 hcs
    simpa using ih (spread_addClass h hc) hcs

/-- The fields `refs` of the merged class are those of the target under their own names, and each
    of the classes keeps one field in each of them. -/
structure SpreadOver (r : FieldMerge) (target : ClassDef) (cs : List ClassDef) (refs : List FieldRef) : Prop where
  holder : ∀ new ∈ refs, new.holder = target.type
  names : refs.map FieldRef.name = target.instanceFields.map (·.ref.name)
  own : List.Forall₂ (fun f new => (f.ref, new) ∈ r.moves) target.instanceFields refs
  spread : ∀ c ∈ cs, ∃ news : List FieldRef, news.Perm refs ∧ List.Forall₂ (fun f new => (f.ref, new) ∈ r.moves) c.instanceFields news

/-- **Classes of the same shape share the fields of the target.** -/
theorem exists_spreadOver {g : MergeGroup} (hshapes : ∀ c ∈ members p g target,
    (c.instanceFields.map fun f => (m.type f.ref.type).relaxed).Perm (target.instanceFields.map fun f => (m.type f.ref.type).relaxed)) :
    ∃ refs, SpreadOver (ofGroup p m g target) target (members p g target) refs ∧
      (ofGroup p m g target).fields.map FieldDef.ref = refs ++ g.classIdField.toList := by
  have hspread : Spread m target (members p g target) ((g.sources.filterMap p.class?).foldl (addClass p m) (start m target)) :=
    spread_layout (spread_start m target) fun c hc => hshapes c (List.mem_cons_of_mem _ hc)
  simp only [ofGroup]
  generalize (g.sources.filterMap p.class?).foldl (addClass p m) (start m target) = l at hspread ⊢
  obtain ⟨slots, contributions⟩ := l
  let ref (s : Slot) : FieldRef := ⟨target.type, s.name, s.type⟩
  have hmoves {c : ClassDef} {taken : List Nat} (hperm : taken.Perm (List.range slots.length))
      (htaken : List.Forall₂ (fun f i => (f.ref, i) ∈ contributions) c.instanceFields taken) :
      List.Forall₂ (fun f new => (f.ref, new) ∈ contributions.filterMap fun x => (slots[x.2]?).map fun s => (x.1, ref s))
        c.instanceFields (taken.filterMap ((slots.map ref)[·]?)) := by
    refine forall₂_filterMap (List.forall₂_iff_zip.2 ⟨htaken.length_eq, fun {f i} hx => ?_⟩)
    have hi : i < slots.length := List.mem_range.1 (hperm.mem_iff.1 (List.of_mem_zip hx).2)
    refine ⟨ref slots[i], by simp [hi], List.mem_filterMap.2 ⟨(f.ref, i), (List.forall₂_iff_zip.1 htaken).2 hx, ?_⟩⟩
    simp [hi]
  have hrange := filterMap_range_getElem? (slots.map ref)
  rw [List.length_map] at hrange
  refine ⟨slots.map ref, ⟨?_, ?_, ?_, ?_⟩, ?_⟩
  · intro new hnew
    obtain ⟨s, -, rfl⟩ := List.mem_map.1 hnew
    rfl
  · rw [List.map_map]
    exact hspread.names
  · have hown := hmoves (List.Perm.refl _) hspread.own
    rwa [hrange] at hown
  · intro c hc
    obtain ⟨taken, hperm, htaken⟩ := hspread.taken c hc
    refine ⟨_, ?_, hmoves hperm htaken⟩
    have hnews := hperm.filterMap ((slots.map ref)[·]?)
    rwa [hrange] at hnews
  · simp [Function.comp_def, ref]

/-- The instance fields of a class are kept in different fields. -/
def KeepsApart (r : FieldMerge) (c : ClassDef) : Prop :=
  ∃ news : List FieldRef, news.Nodup ∧ List.Forall₂ (fun f new => (f.ref, new) ∈ r.moves) c.instanceFields news

theorem SpreadOver.keepsApart {r : FieldMerge} {cs : List ClassDef} {refs : List FieldRef} (h : SpreadOver r target cs refs)
    (hrefs : refs.Nodup) {c : ClassDef} (hc : c ∈ cs) : r.KeepsApart c := by
  obtain ⟨news, hperm, hforall⟩ := h.spread c hc
  exact ⟨news, hperm.nodup_iff.2 hrefs, hforall⟩

end FieldMerge

/-! ### Static fields -/

/-- Fields that are placed are told apart from all others. -/
theorem Placement.nodup_placeFields {p : Placement} (fields : List FieldDef) {shell : ClassDef} (r : Recorder)
    (hshell : (shell.fields.map FieldDef.ref).Nodup) : ((p.placeFields shell r fields).1.fields.map FieldDef.ref).Nodup := by
  induction fields generalizing shell r with
  | nil => exact hshell
  | cons f fields ih =>
    rw [placeFields_cons]
    apply ih
    rw [List.map_append, List.map_singleton, List.nodup_append]
    refine ⟨hshell, List.nodup_singleton _, ?_⟩
    rintro _ hmem _ hsingle rfl
    obtain ⟨g, hg, heq⟩ := List.mem_map.1 hmem
    have hplaced := heq.trans (List.mem_singleton.1 hsingle)
    refine freshName_not_mem f.ref.name ((shell.fields.filter (·.ref.type == p.merges.type f.ref.type)).map (·.ref.name)) ?_
    refine List.mem_map.2 ⟨g, List.mem_filter.2 ⟨hg, ?_⟩, congrArg FieldRef.name hplaced⟩
    exact beq_iff_eq.2 (congrArg FieldRef.type hplaced)

namespace Merging

variable {hash : HashOrder} {v : View} {maxGroupSize : Nat} {P : Plan}

namespace Plan.Valid

/-! ### The fields of a group -/

/-- A merge keeps the shapes of types. -/
theorem relaxed_type (h : P.Valid v) (hv : v.program.Regular) (t : Descriptor) : (P.type t).relaxed = t.relaxed := by
  rw [type, h.merges]
  refine MergeMap.relaxed_type h.groups (fun c hc => ?_) t
  exact Descriptor.isReference_of_isClass (hv.isClass c (Program.mem_classes_of_mem_programClasses hc))

theorem perm_of_shape {p : Program} {t t' : Descriptor} (h : Policy.shape p t = Policy.shape p t') {c c' : ClassDef}
    (hc : p.class? t = some c) (hc' : p.class? t' = some c') :
    (c.instanceFields.map (·.ref.type.relaxed)).Perm (c'.instanceFields.map (·.ref.type.relaxed)) :=
  (Policy.perm_shape hc).symm.trans (h ▸ Policy.perm_shape hc')

/-- **The fields of a group are spread over those of its target.** -/
theorem exists_spreadOver (h : P.Valid v) (hv : v.program.Regular) {g : MergeGroup} (hg : g ∈ P.groups) {target : ClassDef}
    (htarget : g.target.bind P.placement.program.class? = some target) :
    ∃ refs, (FieldMerge.ofGroup P.placement.program P.placement.merges g target).SpreadOver target
        (g.classes.filterMap P.placement.program.class?) refs ∧
      (FieldMerge.ofGroup P.placement.program P.placement.merges g target).fields.map FieldDef.ref = refs ++ g.classIdField.toList := by
  rw [← h.members_eq hg htarget]
  apply FieldMerge.exists_spreadOver
  intro c hc
  rw [h.members_eq hg htarget] at hc
  obtain ⟨t, ht, hc⟩ := List.mem_filterMap.1 hc
  obtain ⟨s, hs, htarget⟩ := Option.bind_eq_some_iff.1 htarget
  obtain ⟨s', rest, hclasses, hs'⟩ := h.groups.target g hg
  obtain rfl : s = s' := Option.some.inj (hs.symm.trans hs')
  rw [h.program] at hc htarget
  have hmapped (c : ClassDef) : (c.instanceFields.map fun f => (P.placement.merges.type f.ref.type).relaxed) =
      c.instanceFields.map (·.ref.type.relaxed) := List.map_congr_left fun f _ => h.relaxed_type hv f.ref.type
  rw [hmapped, hmapped]
  exact perm_of_shape (h.groups.shapes g hg t ht s (by rw [hclasses]; exact List.mem_cons_self)) hc htarget

/-- The fields of a group, each once. -/
theorem nodup_moves (h : P.Valid v) (hfields : v.program.HousesFields)
    (honce : ∀ c ∈ v.program.programClasses, (c.fields.map FieldDef.ref).Nodup) {g : MergeGroup} (hg : g ∈ P.groups) {target : ClassDef}
    (htarget : g.target.bind P.placement.program.class? = some target) :
    ((FieldMerge.ofGroup P.placement.program P.placement.merges g target).moves.map Prod.fst).Nodup := by
  obtain ⟨u, hu, -, target', r, inits, htarget', -, rfl, -⟩ := h.exists_comesFrom hg
  obtain rfl : target = target' := Option.some.inj (htarget.symm.trans htarget')
  obtain ⟨d, hd, htype⟩ := h.exists_placed_of_mem hu
  have hnodup := h.nodup_fieldsTo hfields honce hu hd htype
  rw [UnplacedClass.fieldsTo, List.map_append] at hnodup
  exact (List.nodup_append.1 hnodup).1

end Plan.Valid

/-! ### Fields that become the same -/

/-- Fields of the class that differ in type only are kept in fields of different types. -/
def TypesApart (r : FieldMerge) (c : ClassDef) : Prop :=
  ∀ f ∈ c.instanceFields, ∀ f' ∈ c.instanceFields, f.ref ≠ f'.ref → f.ref.name = f'.ref.name →
    ∀ new new', (f.ref, new) ∈ r.moves → (f'.ref, new') ∈ r.moves → new.type ≠ new'.type

/-- The fields of the merged class differ if the types of the target's fields stay apart. -/
theorem nodup_iff_typesApart {r : FieldMerge} {target : ClassDef} {cs : List ClassDef} {refs : List FieldRef}
    (h : r.SpreadOver target cs refs) (hmoves : (r.moves.map Prod.fst).Nodup) (htarget : (target.fields.map FieldDef.ref).Nodup) :
    refs.Nodup ↔ TypesApart r target := by
  have hlength := h.own.length_eq
  have hown (i : Nat) (hi : i < refs.length) :
      (target.instanceFields[i].ref, refs[i]) ∈ r.moves ∧ refs[i].name = target.instanceFields[i].ref.name := by
    refine ⟨h.own.get (hlength ▸ hi) hi, ?_⟩
    have hname := List.getElem_of_eq h.names (i := i) (by simpa using hi)
    simpa using hname
  have hinstance : (target.instanceFields.map FieldDef.ref).Nodup := (List.filter_sublist.map _).nodup htarget
  constructor
  · intro hrefs f hf f' hf' hne hname new new' hnew hnew' htype
    obtain ⟨i, hi, rfl⟩ := List.getElem_of_mem hf
    obtain ⟨j, hj, rfl⟩ := List.getElem_of_mem hf'
    rw [hlength] at hi hj
    -- A field is kept in one place only.
    have hkept : new = refs[i] := congrArg Prod.snd (List.inj_on_of_nodup_map hmoves hnew (hown i hi).1 rfl)
    have hkept' : new' = refs[j] := congrArg Prod.snd (List.inj_on_of_nodup_map hmoves hnew' (hown j hj).1 rfl)
    rw [hkept, hkept'] at htype
    have hsame : refs[i] = refs[j] := by
      apply FieldRef.ext
      · rw [h.holder _ (List.getElem_mem hi), h.holder _ (List.getElem_mem hj)]
      · rw [(hown i hi).2, (hown j hj).2, hname]
      · exact htype
    obtain rfl := (List.Nodup.getElem_inj_iff hrefs).1 hsame
    exact hne rfl
  · intro hapart
    rw [List.nodup_iff_injective_get]
    rintro ⟨i, hi⟩ ⟨j, hj⟩ hsame
    by_contra hne
    replace hne : i ≠ j := fun heq => hne (Fin.ext heq)
    replace hsame : refs[i] = refs[j] := hsame
    refine hapart target.instanceFields[i] (List.getElem_mem _) target.instanceFields[j] (List.getElem_mem _) ?_ ?_ refs[i] refs[j]
      (hown i hi).1 (hown j hj).1 (congrArg FieldRef.type hsame)
    · intro heq
      have hinj := List.inj_on_of_nodup_map hinstance (List.getElem_mem _) (List.getElem_mem _) heq
      exact hne ((List.Nodup.getElem_inj_iff (List.Nodup.of_map _ hinstance)).1 hinj)
    · rw [← (hown i hi).2, ← (hown j hj).2, hsame]

/-- The class id is not the name of a field of the group. -/
theorem Plan.Valid.classId_not_mem (h : P.Valid v) {g : MergeGroup} (hg : g ∈ P.groups) {r : FieldMerge} {target : ClassDef}
    {refs : List FieldRef} (hspread : r.SpreadOver target (g.classes.filterMap P.placement.program.class?) refs)
    (htarget : g.target.bind P.placement.program.class? = some target) : ∀ f ∈ g.classIdField, f ∉ refs := by
  intro f hf hmem
  obtain ⟨t, rfl, ht⟩ := h.groups.classId g hg f hf
  obtain ⟨s, rest, hclasses, hs⟩ := h.groups.target g hg
  have hname := List.mem_map_of_mem (f := FieldRef.name) hmem
  rw [hspread.names] at hname
  obtain ⟨k, hk, hkname⟩ := List.mem_map.1 hname
  refine freshName_not_mem "$classId" (((g.classes.filterMap v.program.class?).flatMap ClassDef.fields).map (·.ref.name)) ?_
  refine List.mem_map.2 ⟨k, List.mem_flatMap.2 ⟨target, List.mem_filterMap.2 ⟨s, by rw [hclasses]; exact List.mem_cons_self, ?_⟩, ?_⟩, hkname⟩
  · rw [hs, Option.bind_some, h.program] at htarget
    exact htarget
  · exact (List.mem_filter.1 hk).1

/-- **The fields of a group stay apart if and only if those fields of its target do that differ in
    type only**: then the instance fields of each of its classes are kept in different fields, and
    the merged class has no two fields of one name and type. -/
theorem fields_apart_iff (hv : v.program.Regular) (hfields : v.program.HousesFields)
    (honce : ∀ c ∈ v.program.programClasses, (c.fields.map FieldDef.ref).Nodup) {r : MergeResult}
    (hrun : Merging.run hash v maxGroupSize = .ok r) (hP : planned hash v maxGroupSize = .ok (some P)) {g : MergeGroup} (hg : g ∈ P.groups)
    {target : ClassDef} (htarget : g.target.bind v.program.class? = some target) :
    ∃ d, r.program.class? target.type = some d ∧
      (((∀ t ∈ g.classes, ∀ c, v.program.class? t = some c →
          (FieldMerge.ofGroup v.program P.placement.merges g target).KeepsApart c) ∧
        (d.fields.map FieldDef.ref).Nodup) ↔ TypesApart (FieldMerge.ofGroup v.program P.placement.merges g target) target) := by
  have h := valid_of_planned hP
  have hprogram : r.program = P.program := by
    rcases run_eq_ok hrun with ⟨hnone, -⟩ | ⟨P', hP', -, hprogram, -⟩
    · cases hnone.symm.trans hP
    · cases hP'.symm.trans hP
      exact hprogram
  obtain ⟨u, hu, -, target', recorder, inits, htarget', -, hmerged, -⟩ := h.exists_comesFrom hg
  rw [← h.program] at htarget ⊢
  obtain rfl : target = target' := Option.some.inj (htarget.symm.trans htarget')
  obtain ⟨d, hd, htype⟩ := h.exists_placed_of_mem hu
  have hshell : u.shell.type = target.type ∧
      u.shell.fields = (FieldMerge.ofGroup P.placement.program P.placement.merges g target).fields := by
    rw [hmerged]
    exact ⟨rfl, rfl⟩
  obtain ⟨refs, hspread, hrefs⟩ := h.exists_spreadOver hv hg htarget
  have hiff := nodup_iff_typesApart hspread (h.nodup_moves hfields honce hg htarget) (honce target ?_)
  swap
  · obtain ⟨c, hc, -, -, hbind⟩ := h.target_class hg
    rwa [Option.some.inj (htarget.symm.trans hbind)]
  refine ⟨d, by rw [hprogram, ← hshell.1, ← htype]; exact h.class?_placed hd, ?_⟩
  rw [← hiff]
  constructor
  · rintro ⟨-, hnodup⟩
    obtain ⟨fs, ms, hmembers, -⟩ := h.exists_members hu hd htype
    rw [hmembers, List.map_append, hshell.2, hrefs] at hnodup
    exact (List.nodup_append.1 (List.nodup_append.1 hnodup).1).1
  · intro hnodup
    constructor
    · intro t ht c hc
      exact hspread.keepsApart hnodup (List.mem_filterMap.2 ⟨t, ht, hc⟩)
    · obtain ⟨st, hst⟩ := h.exists_reached hu
      obtain ⟨recorder', hplaced⟩ := Placement.fields_placeClass P.placement u (Placement.inherited P.placement.hash st.tables u.shell) st.log
      rw [h.eq_place hst hd htype, Plan.place, hplaced]
      apply Placement.nodup_placeFields
      rw [hshell.2, hrefs, List.nodup_append]
      refine ⟨hnodup, by cases g.classIdField <;> simp, ?_⟩
      rintro a ha b hb rfl
      exact h.classId_not_mem hg hspread htarget a (Option.mem_toList.1 hb) ha

/-! ### Two fields of one name

`A` and `B` become one class, and so do `U` and `V`. The fields of `A` have the given names. -/

namespace SameName

def field (holder name type : String) : FieldRef := ⟨Named.type holder, name, Named.type type⟩

def withFields (holder first second : String) : ClassDef where
  type := Named.type holder
  superclass := some .object
  fields := [⟨field holder first "U", .publicFlag, none⟩, ⟨field holder second "V", .publicFlag, none⟩]

def view (first second : String) : View where
  program := .ofList [{ type := .object, kind := .library, superclass := none }, withFields "A" first second, withFields "B" "y" "z",
    Named.withMethods "U" [], Named.withMethods "V" []]

def group : MergeGroup where
  classes := [Named.type "A", Named.type "B"]
  isInterface := false
  target := some (Named.type "A")

/-- How the fields of `A` and `B` are merged. -/
def merge (first second : String) (P : Plan) : FieldMerge :=
  .ofGroup (view first second).program P.placement.merges group (withFields "A" first second)

/-- Each class has a field in both fields of `A`, which get the type `U`. -/
structure Kept (first second : String) (r : MergeResult) (P : Plan) (d : ClassDef) : Prop where
  run : Merging.run .inserted (view first second) defaultMaxGroupSize = .ok r
  planned : Merging.planned .inserted (view first second) defaultMaxGroupSize = .ok (some P)
  group : group ∈ P.groups
  moves : (merge first second P).moves = [(field "A" first "U", field "A" first "U"), (field "A" second "V", field "A" second "U"),
    (field "B" "y" "U", field "A" first "U"), (field "B" "z" "V", field "A" second "U")]
  merged : r.program.class? (Named.type "A") = some d
  fields : d.fields.map FieldDef.ref = [field "A" first "U", field "A" second "U"]

def outcome (first second : String) : Option (Bool × List (FieldRef × FieldRef) × Option (List FieldRef)) :=
  match Merging.run .inserted (view first second) defaultMaxGroupSize, Merging.planned .inserted (view first second) defaultMaxGroupSize with
  | .ok r, .ok (some P) => some (P.groups.contains group, (merge first second P).moves,
      (r.program.class? (Named.type "A")).map fun d => d.fields.map FieldDef.ref)
  | _, _ => none

theorem exists_kept (first second : String) (h : outcome first second =
    some (true, [(field "A" first "U", field "A" first "U"), (field "A" second "V", field "A" second "U"),
      (field "B" "y" "U", field "A" first "U"), (field "B" "z" "V", field "A" second "U")],
      some [field "A" first "U", field "A" second "U"])) : ∃ r P d, Kept first second r P d := by
  unfold outcome at h
  split at h
  · next r P hr hP =>
    simp only [Option.some.injEq, Prod.mk.injEq, List.contains_iff_mem, Option.map_eq_some_iff] at h
    obtain ⟨hgroup, hmoves, d, hd, hfields⟩ := h
    exact ⟨r, P, d, hr, hP, hgroup, hmoves, hd, hfields⟩
  · cases h

end SameName

/-- Fields of different names stay apart. -/
theorem fields_apart_iff_renamed : ∃ r P d, SameName.Kept "x" "w" r P d ∧ (d.fields.map FieldDef.ref).Nodup ∧
    (SameName.merge "x" "w" P).KeepsApart (SameName.withFields "B" "y" "z") := by
  obtain ⟨r, P, d, hkept⟩ := SameName.exists_kept "x" "w" (by decide +kernel)
  have htarget : SameName.group.target.bind (SameName.view "x" "w").program.class? = some (SameName.withFields "A" "x" "w") := by rfl
  obtain ⟨d', hd', hiff⟩ := fields_apart_iff ⟨by decide +kernel⟩ (by unfold Program.HousesFields; decide +kernel)
    (by decide +kernel) hkept.run hkept.planned hkept.group htarget
  obtain rfl : d' = d := Option.some.inj (hd'.symm.trans hkept.merged)
  have hnames : ∀ f ∈ (SameName.withFields "A" "x" "w").instanceFields, ∀ f' ∈ (SameName.withFields "A" "x" "w").instanceFields,
      f.ref.name = f'.ref.name → f.ref = f'.ref := by decide
  obtain ⟨hapart, hnodup⟩ := hiff.2 fun f hf f' hf' hne hname => absurd (hnames f hf f' hf' hname) hne
  exact ⟨r, P, d', hkept, hnodup, hapart (Named.type "B") (by decide) _ rfl⟩

/-- Fields of one name are kept in one field, which the merged class has twice. -/
theorem same_name_kept_twice : (SameName.view "x" "x").program.Regular ∧ (SameName.view "x" "x").program.HousesFields ∧
    (∀ c ∈ (SameName.view "x" "x").program.programClasses, (c.fields.map FieldDef.ref).Nodup) ∧
    ∃ r P d, SameName.Kept "x" "x" r P d ∧ ¬ (d.fields.map FieldDef.ref).Nodup := by
  obtain ⟨r, P, d, hkept⟩ := SameName.exists_kept "x" "x" (by decide +kernel)
  refine ⟨⟨by decide +kernel⟩, by unfold Program.HousesFields; decide +kernel, by decide +kernel,
    r, P, d, hkept, ?_⟩
  rw [hkept.fields]
  decide

end Merging

end DexShrinker
