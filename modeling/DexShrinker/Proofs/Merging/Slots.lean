/-
  DexShrinker/Proofs/Merging/Slots.lean
  =====================================
  **Every instance field of a group is kept in a field of the merged class.**

  A field gets a slot that was there when the fields of its class were assigned, or a new
  one. So every field has a slot, every slot has a field, and nothing else moves
  (`FieldMerge.moves_ofGroup`). Slots only ever have types that a merge gives.
-/
import DexShrinker.Merging.Fields
import Mathlib.Data.List.Basic

namespace DexShrinker

/-! ### Giving out slots -/

namespace Slots

/-- A pass keeps the fields, takes slots from the free ones only, and leaves some of them free. -/
theorem assignPass_spec (fits : Descriptor → Descriptor → Bool) (fields : List (Descriptor × Option Nat))
    (free : List (Nat × Descriptor)) :
    let r := assignPass fits fields free
    r.1.length = fields.length ∧ r.2 ⊆ free ∧
      ∀ x ∈ r.1, ∀ i, x.2 = some i → (∃ y ∈ fields, y.2 = some i) ∨ ∃ y ∈ free, y.1 = i := by
  induction fields generalizing free with
  | nil => simp [assignPass]
  | cons field fields ih =>
    obtain ⟨t, slot⟩ := field
    cases slot with
    | some slot =>
      obtain ⟨hlength, hfree, hslots⟩ := ih free
      simp only [assignPass, List.length_cons, List.forall_mem_cons]
      refine ⟨by rw [hlength], hfree, fun i hi => .inl ⟨_, List.mem_cons_self, hi⟩, fun x hx i hi => ?_⟩
      exact (hslots x hx i hi).imp_left fun ⟨y, hy, heq⟩ => ⟨y, List.mem_cons_of_mem _ hy, heq⟩
    | none =>
      rw [assignPass]
      split
      · next slot _ hfind =>
        have hmem := List.mem_of_find?_eq_some hfind
        obtain ⟨hlength, hfree, hslots⟩ := ih (free.filter (·.1 != slot))
        simp only [List.length_cons, List.forall_mem_cons]
        refine ⟨by rw [hlength], fun x hx => (List.mem_filter.1 (hfree hx)).1, fun i hi => .inr ⟨_, hmem, ?_⟩, fun x hx i hi => ?_⟩
        · exact Option.some.inj hi
        · exact (hslots x hx i hi).imp (fun ⟨y, hy, heq⟩ => ⟨y, List.mem_cons_of_mem _ hy, heq⟩)
            fun ⟨y, hy, heq⟩ => ⟨y, (List.mem_filter.1 hy).1, heq⟩
      · obtain ⟨hlength, hfree, hslots⟩ := ih free
        simp only [List.length_cons, List.forall_mem_cons]
        refine ⟨by rw [hlength], hfree, fun i hi => by simp at hi, fun x hx i hi => ?_⟩
        exact (hslots x hx i hi).imp_left fun ⟨y, hy, heq⟩ => ⟨y, List.mem_cons_of_mem _ hy, heq⟩

theorem length_assign (slots fields : List Descriptor) : (assign slots fields).length = fields.length := by
  simp only [assign, List.length_map, (assignPass_spec _ _ _).1]

theorem lt_of_mem_assign {slots fields : List Descriptor} {i : Nat} (h : some i ∈ assign slots fields) : i < slots.length := by
  obtain ⟨-, hfree, hexact⟩ := assignPass_spec (· == ·) (fields.map fun t => (t, none)) (slots.mapIdx fun i t => (i, t))
  have hfirst (y : Nat × Descriptor) (hy : y ∈ slots.mapIdx fun i t => (i, t)) : y.1 < slots.length := by
    obtain ⟨j, hj, rfl⟩ := List.mem_mapIdx.1 hy
    exact hj
  obtain ⟨x, hx, hi⟩ := List.mem_map.1 h
  rcases (assignPass_spec _ _ _).2.2 x hx i hi with ⟨y, hy, hyi⟩ | ⟨y, hy, rfl⟩
  · rcases hexact y hy i hyi with ⟨z, hz, hzi⟩ | ⟨z, hz, rfl⟩
    · obtain ⟨t, -, rfl⟩ := List.mem_map.1 hz
      cases hzi
    · exact hfirst z hz
  · exact hfirst y (hfree hy)

end Slots

/-! ### Keeping fields in slots -/

namespace FieldMerge

variable {p : Program} {m : MergeMap}

/-- The layout keeps the given fields: each has a slot, each slot has one of them, and slots
    have types that a merge gives. -/
structure Holds (m : MergeMap) (l : Layout) (fields : List FieldDef) : Prop where
  fields : l.2.map Prod.fst = fields.map FieldDef.ref
  slot : ∀ x ∈ l.2, x.2 < l.1.length
  used : ∀ i < l.1.length, ∃ x ∈ l.2, x.2 = i
  types : ∀ s ∈ l.1, ∃ t, s.type = m.type t

theorem holds_start (m : MergeMap) (target : ClassDef) : Holds m (start m target) target.instanceFields := by
  refine ⟨?_, ?_, ?_, ?_⟩
  · refine List.ext_getElem (by simp [start]) fun i _ _ => ?_
    simp [start]
  · intro x hx
    obtain ⟨i, hi, rfl⟩ := List.mem_mapIdx.1 hx
    exact hi
  · intro i hi
    exact ⟨_, List.mem_mapIdx.2 ⟨i, hi, rfl⟩, rfl⟩
  · intro s hs
    obtain ⟨f, -, rfl⟩ := List.mem_map.1 hs
    exact ⟨_, rfl⟩

/-- One more field. -/
theorem holds_addField {l : Layout} {fields : List FieldDef} (h : Holds m l fields) (f : FieldDef) {slot : Option Nat}
    (hslot : ∀ i, slot = some i → i < l.1.length) :
    Holds m (addField p m l f slot) (fields ++ [f]) ∧ l.1.length ≤ (addField p m l f slot).1.length := by
  obtain ⟨slots, contributions⟩ := l
  cases slot with
  | some i =>
    have hi := hslot i rfl
    refine ⟨⟨?_, ?_, ?_, ?_⟩, by simp [addField]⟩
    · simpa [addField] using h.fields
    · intro x hx
      simp only [addField, List.length_mapIdx] at hx ⊢
      rcases List.mem_append.1 hx with hx | hx
      · exact h.slot x hx
      · rw [List.mem_singleton.1 hx]
        exact hi
    · intro j hj
      simp only [addField, List.length_mapIdx] at hj ⊢
      obtain ⟨x, hx, heq⟩ := h.used j hj
      exact ⟨x, List.mem_append_left _ hx, heq⟩
    · intro s hs
      obtain ⟨j, hj, rfl⟩ := List.mem_mapIdx.1 hs
      have hold := h.types _ (List.getElem_mem hj)
      split
      · simp only [widen]
        split
        · exact hold
        · exact ⟨_, rfl⟩
      · exact hold
  | none =>
    refine ⟨⟨?_, ?_, ?_, ?_⟩, by simp [addField]⟩
    · simpa [addField] using h.fields
    · intro x hx
      simp only [addField, List.length_append, List.length_singleton] at hx ⊢
      rcases List.mem_append.1 hx with hx | hx
      · exact Nat.lt_succ_of_lt (h.slot x hx)
      · rw [List.mem_singleton.1 hx]
        exact Nat.lt_succ_self _
    · intro j hj
      simp only [addField, List.length_append, List.length_singleton] at hj ⊢
      rcases Nat.lt_succ_iff_lt_or_eq.1 hj with hj | rfl
      · obtain ⟨x, hx, heq⟩ := h.used j hj
        exact ⟨x, List.mem_append_left _ hx, heq⟩
      · exact ⟨_, List.mem_append_right _ (List.mem_singleton_self _), rfl⟩
    · intro s hs
      rcases List.mem_append.1 hs with hs | hs
      · exact h.types s hs
      · rw [List.mem_singleton.1 hs]
        exact ⟨_, rfl⟩

/-- The fields of one more class. -/
theorem holds_addClass {l : Layout} {fields : List FieldDef} (h : Holds m l fields) (c : ClassDef) :
    Holds m (addClass p m l c) (fields ++ c.instanceFields) := by
  -- Slots are given out before any field is put into them, and from then on there are only more.
  have hloop (pairs : List (FieldDef × Option Nat)) {n : Nat} (hpairs : ∀ x ∈ pairs, ∀ i, x.2 = some i → i < n) {l : Layout}
      {fields : List FieldDef} (h : Holds m l fields) (hn : n ≤ l.1.length) :
      Holds m (pairs.foldl (fun l x => addField p m l x.1 x.2) l) (fields ++ pairs.map Prod.fst) := by
    induction pairs generalizing l fields with
    | nil => simpa using h
    | cons x pairs ih =>
      obtain ⟨hx, hpairs⟩ := List.forall_mem_cons.1 hpairs
      obtain ⟨hadded, hle⟩ := holds_addField (p := p) h x.1 fun i hi => Nat.lt_of_lt_of_le (hx i hi) hn
      simpa using ih hpairs hadded (Nat.le_trans hn hle)
  let slots := Slots.assign (l.1.map Slot.initialType) (c.instanceFields.map fun f => m.type f.ref.type)
  have hlength : c.instanceFields.length ≤ slots.length := by simp [slots, Slots.length_assign]
  have hresult := hloop (c.instanceFields.zip slots) (n := l.1.length) (fun x hx i hi => ?_) h (Nat.le_refl _)
  · rw [List.map_fst_zip hlength] at hresult
    exact hresult
  · have hlt := Slots.lt_of_mem_assign (hi ▸ (List.of_mem_zip hx).2)
    rwa [List.length_map] at hlt

theorem holds_foldl_addClass (cs : List ClassDef) {l : Layout} {fields : List FieldDef} (h : Holds m l fields) :
    Holds m (cs.foldl (addClass p m) l) (fields ++ cs.flatMap ClassDef.instanceFields) := by
  induction cs generalizing l fields with
  | nil => simpa using h
  | cons c cs ih => simpa using ih (holds_addClass h c)

/-- The classes of a group, the target first. -/
def members (p : Program) (g : MergeGroup) (target : ClassDef) : List ClassDef := target :: g.sources.filterMap p.class?

/-- **Every instance field of a group has one slot.** -/
theorem moves_ofGroup (p : Program) (m : MergeMap) (g : MergeGroup) (target : ClassDef) :
    let r := ofGroup p m g target
    r.moves.map Prod.fst = ((members p g target).flatMap ClassDef.instanceFields).map FieldDef.ref ∧
      (∀ x ∈ r.moves, (∃ f ∈ r.fields, f.ref = x.2) ∧ x.2.holder = target.type ∧ ∃ t, x.2.type = m.type t) ∧
      ∀ f ∈ r.fields, (∃ x ∈ r.moves, x.2 = f.ref) ∨ g.classIdField = some f.ref := by
  have hholds : Holds m ((g.sources.filterMap p.class?).foldl (addClass p m) (start m target))
      ((members p g target).flatMap ClassDef.instanceFields) :=
    holds_foldl_addClass (p := p) (g.sources.filterMap p.class?) (holds_start m target)
  simp only [ofGroup]
  generalize (g.sources.filterMap p.class?).foldl (addClass p m) (start m target) = l at hholds ⊢
  obtain ⟨slots, contributions⟩ := l
  have hget (x : FieldRef × Nat) (hx : x ∈ contributions) : ∃ s ∈ slots, slots[x.2]? = some s :=
    ⟨_, List.getElem_mem (hholds.slot x hx), List.getElem?_eq_getElem _⟩
  refine ⟨?_, ?_, ?_⟩
  · rw [← hholds.fields, List.map_filterMap, ← List.filterMap_eq_map]
    refine List.filterMap_congr fun x hx => ?_
    obtain ⟨s, -, hs⟩ := hget x hx
    simp [hs]
  · intro x hx
    obtain ⟨y, hy, hx⟩ := List.mem_filterMap.1 hx
    obtain ⟨s, hs, hsome⟩ := hget y hy
    rw [hsome] at hx
    cases hx
    obtain ⟨t, ht⟩ := hholds.types s hs
    exact ⟨⟨_, List.mem_append_left _ (List.mem_map_of_mem hs), rfl⟩, rfl, t, ht⟩
  · intro f hf
    rcases List.mem_append.1 hf with hf | hf
    · obtain ⟨s, hs, rfl⟩ := List.mem_map.1 hf
      obtain ⟨i, hi, rfl⟩ := List.getElem_of_mem hs
      obtain ⟨x, hx, rfl⟩ := hholds.used i hi
      exact .inl ⟨_, List.mem_filterMap.2 ⟨x, hx, by rw [List.getElem?_eq_getElem hi]; rfl⟩, rfl⟩
    · obtain ⟨f', hf', rfl⟩ := List.mem_map.1 hf
      exact .inr (Option.mem_toList.1 hf')

end FieldMerge

end DexShrinker
