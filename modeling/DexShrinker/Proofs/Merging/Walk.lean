/-
  DexShrinker/Proofs/Merging/Walk.lean
  ====================================
  **Going through all classes.**

  Where no class comes before one of its supertypes, the tables that a class inherits
  are final when the class is reached. So the tables at the end satisfy the equations
  by which each was made (`Placement.Settled`), and whatever is in the table of a class is
  in the tables of all classes below it (`Placement.keys_subset_inherited`).

  Without cycles classes are in this order (`Program.pairwise_topDown`).
-/
import DexShrinker.Proofs.Merging.Places
import DexShrinker.Proofs.Merging.TopDown

namespace DexShrinker.Placement

open Std

variable {p : Placement} {classes : List UnplacedClass}

/-! ### What a class inherits -/

theorem inherited_spec (hash : HashOrder) (tables : TypeMap VirtualTable) (c : ClassDef) :
    (inherited hash tables c).keys.Nodup ∧ ∀ s ∈ c.supertypes, (tables.getD s []).keys ⊆ (inherited hash tables c).keys := by
  have hloop (ss : List Descriptor) (t : VirtualTable) (ht : t.keys.Nodup) :
      let r := ss.foldl (fun t s => VirtualTable.extend hash t (tables.getD s [])) t
      r.keys.Nodup ∧ t <+: r ∧ ∀ s ∈ ss, (tables.getD s []).keys ⊆ r.keys := by
    induction ss generalizing t with
    | nil => exact ⟨ht, List.prefix_rfl, by simp⟩
    | cons s ss ih =>
      obtain ⟨hbegin, hnodup, hkeys⟩ := VirtualTable.extend_spec hash t (tables.getD s [])
      obtain ⟨hnodup', hbegin', hkeys'⟩ := ih (VirtualTable.extend hash t (tables.getD s [])) (hnodup ht)
      refine ⟨hnodup', hbegin.trans hbegin', fun x hx => ?_⟩
      rcases List.mem_cons.1 hx with rfl | hx
      · exact List.Subset.trans hkeys (VirtualTable.keys_subset_of_prefix hbegin')
      · exact hkeys' x hx
  obtain ⟨hnodup, -, hkeys⟩ := hloop c.supertypes [] (by simp [VirtualTable.keys])
  exact ⟨hnodup, hkeys⟩

/-- The methods in sight depend on the tables of the supertypes only. -/
theorem inherited_congr {hash : HashOrder} {tables tables' : TypeMap VirtualTable} {c : ClassDef}
    (h : ∀ s ∈ c.supertypes, tables'[s]? = tables[s]?) : inherited hash tables' c = inherited hash tables c := by
  refine List.foldl_ext _ _ _ fun t s hs => ?_
  rw [TreeMap.getD_eq_getD_getElem?, TreeMap.getD_eq_getD_getElem?, h s hs]

theorem each_inherited (hash : HashOrder) {F : Signature → MethodRef → Prop} {tables : TypeMap VirtualTable}
    (h : ∀ (s : Descriptor) (t : VirtualTable), tables[s]? = some t → t.Each F) (c : ClassDef) : (inherited hash tables c).Each F := by
  refine List.foldlRecOn (motive := VirtualTable.Each F) _ _ VirtualTable.each_nil fun t ht s _ => ht.extend hash ?_
  rw [TreeMap.getD_eq_getD_getElem?]
  cases hs : tables[s]? with
  | none => exact VirtualTable.each_nil
  | some t' => exact h s t' hs

/-! ### One class after the other -/

theorem visit_of_some {classes : List UnplacedClass} {u : UnplacedClass} {c : ClassDef}
    (h : classes.find? (·.shell.type == c.type) = some u) (st : Progress) :
    p.visit classes st c = ⟨st.placed ++ [(p.placeClass u (inherited p.hash st.tables c) st.log).1],
      st.tables.insert c.type (p.placeClass u (inherited p.hash st.tables c) st.log).2.1,
      (p.placeClass u (inherited p.hash st.tables c) st.log).2.2⟩ := by
  rw [visit, h]

theorem log_visit_of_none {classes : List UnplacedClass} {c : ClassDef} (h : classes.find? (·.shell.type == c.type) = none)
    (st : Progress) : (p.visit classes st c).log = st.log := by
  rw [visit, h]

theorem tables_visit (st : Progress) (c : ClassDef) {t : Descriptor} (ht : t ≠ c.type) :
    (p.visit classes st c).tables[t]? = st.tables[t]? := by
  have hne : ¬ compare c.type t = .eq := fun heq => ht (LawfulEqOrd.eq_of_compare heq).symm
  unfold visit
  split
  · simp [TreeMap.getElem?_insert, hne]
  · simp [TreeMap.getElem?_insert, hne]

theorem placed_visit (st : Progress) (c : ClassDef) : st.placed <+: (p.visit classes st c).placed := by
  unfold visit
  split
  · exact List.prefix_append _ _
  · exact List.prefix_rfl

theorem foldl_visit (p : Placement) (classes : List UnplacedClass) (cs : List ClassDef) (st : Progress) :
    st.placed <+: (cs.foldl (p.visit classes) st).placed ∧
      ∀ t ∉ cs.map ClassDef.type, (cs.foldl (p.visit classes) st).tables[t]? = st.tables[t]? := by
  induction cs generalizing st with
  | nil => exact ⟨List.prefix_rfl, fun _ _ => rfl⟩
  | cons c cs ih =>
    obtain ⟨hplaced, htables⟩ := ih (p.visit classes st c)
    refine ⟨(placed_visit st c).trans hplaced, fun t ht => ?_⟩
    rw [List.map_cons, List.mem_cons, not_or] at ht
    rw [List.foldl_cons, htables t ht.2, tables_visit st c ht.1]

/-- What holds of everything that a class inherits holds of its table. -/
theorem Suits.visit {F : Signature → MethodRef → Prop} (hF : p.Suits F) {st : Progress}
    (h : ∀ (s : Descriptor) (t : VirtualTable), st.tables[s]? = some t → t.Each F) {c : ClassDef}
    (hlib : classes.find? (·.shell.type == c.type) = none → ∀ m ∈ c.virtualMethods, F m.ref.signature m.ref) (s : Descriptor)
    (t : VirtualTable) (ht : (p.visit classes st c).tables[s]? = some t) : t.Each F := by
  have hinherited := each_inherited p.hash h c
  unfold Placement.visit at ht
  split at ht
  · next u _ =>
    simp only [TreeMap.getElem?_insert] at ht
    split at ht
    · cases ht
      exact (hF.placeClass u hinherited st.log).1
    · exact h s t ht
  · next hnone =>
    simp only [TreeMap.getElem?_insert] at ht
    split at ht
    · cases ht
      exact List.foldlRecOn (motive := VirtualTable.Each F) _ _ hinherited fun t ht m hm => ht.add (hlib hnone m hm)
    · exact h s t ht

/-- The classes that are placed, in the order in which they are reached. -/
theorem types_foldl_visit (p : Placement) (classes : List UnplacedClass) (cs : List ClassDef) (st : Progress) :
    ∃ ds, (cs.foldl (p.visit classes) st).placed = st.placed ++ ds ∧ (ds.map ClassDef.type).Sublist (cs.map ClassDef.type) ∧
      ∀ d ∈ ds, ∃ u ∈ classes, d.type = u.shell.type := by
  induction cs generalizing st with
  | nil => exact ⟨[], by simp⟩
  | cons c cs ih =>
    obtain ⟨ds, hplaced, hsub, hclasses⟩ := ih (p.visit classes st c)
    rw [List.foldl_cons, hplaced, List.map_cons]
    unfold visit
    cases hfind : classes.find? (·.shell.type == c.type) with
    | none => exact ⟨ds, rfl, hsub.cons c.type, hclasses⟩
    | some u =>
      obtain ⟨fs, ms, -, hd, -⟩ := placeClass_spec (p := p) u (inherited_spec p.hash st.tables c).1 st.log
      have hu : u.shell.type = c.type := by simpa using List.find?_some hfind
      have htype : (p.placeClass u (inherited p.hash st.tables c) st.log).1.type = u.shell.type := by rw [hd]
      refine ⟨_ :: ds, List.append_assoc .., ?_, List.forall_mem_cons.2 ⟨?_, hclasses⟩⟩
      · rw [List.map_cons, htype, hu]
        exact hsub.cons_cons c.type
      · exact ⟨u, List.mem_of_find?_eq_some hfind, htype⟩

/-- The table of a class satisfies the equation by which it was made, and a class whose
    members were to be placed is among the placed ones. -/
def Settled (p : Placement) (classes : List UnplacedClass) (last : Progress) (c : ClassDef) : Prop :=
  match classes.find? (·.shell.type == c.type) with
  | some u => ∃ log, let r := p.placeClass u (inherited p.hash last.tables c) log
    last.tables[c.type]? = some r.2.1 ∧ r.1 ∈ last.placed
  | none => last.tables[c.type]? = some (libraryTable c (inherited p.hash last.tables c))

/-- **All tables are settled at the end.** -/
theorem settled_foldl_visit {cs : List ClassDef} (hnodup : (cs.map ClassDef.type).Nodup)
    (horder : cs.Pairwise fun a b => b.type ∉ a.supertypes) (hself : ∀ c ∈ cs, c.type ∉ c.supertypes) (st : Progress)
    {c : ClassDef} (hc : c ∈ cs) : Settled p classes (cs.foldl (p.visit classes) st) c := by
  obtain ⟨pre, post, rfl⟩ := List.append_of_mem hc
  rw [List.foldl_append, List.foldl_cons]
  generalize pre.foldl (p.visit classes) st = st
  obtain ⟨hplaced, htables⟩ := foldl_visit p classes post (p.visit classes st c)
  have hpost : c.type ∉ post.map ClassDef.type := by
    rw [List.map_append, List.map_cons, List.nodup_append] at hnodup
    exact (List.nodup_cons.1 hnodup.2.1).1
  -- Neither the class itself nor a later one is a supertype.
  have hinherited : inherited p.hash (post.foldl (p.visit classes) (p.visit classes st c)).tables c = inherited p.hash st.tables c := by
    refine inherited_congr fun s hs => ?_
    have hlater : s ∉ post.map ClassDef.type := by
      intro hmem
      obtain ⟨b, hb, rfl⟩ := List.mem_map.1 hmem
      exact List.rel_of_pairwise_cons (List.pairwise_append.1 horder).2.1 hb hs
    have hown : s ≠ c.type := by
      rintro rfl
      exact hself c hc hs
    rw [htables s hlater, tables_visit st c hown]
  unfold Settled
  rw [hinherited, htables c.type hpost]
  have hsubset := hplaced.subset
  clear hplaced htables hinherited
  revert hsubset
  unfold visit
  cases classes.find? (·.shell.type == c.type) with
  | some u => exact fun hsubset => ⟨st.log, by simp, hsubset (by simp)⟩
  | none => exact fun _ => by simp

/-! ### The tables at the end -/

/-- All classes that are gone through. -/
def visited (p : Placement) (classes : List UnplacedClass) : List ClassDef :=
  classes.map UnplacedClass.shell ++ p.program.classes.filter (·.isLibrary)

/-- No two classes have the same type, and there are no cycles. -/
structure Layered (p : Placement) (classes : List UnplacedClass) (rank : Descriptor → Nat) : Prop where
  nodup : ((p.visited classes).map ClassDef.type).Nodup
  ranked : Program.Ranked (p.visited classes) rank

variable {rank : Descriptor → Nat}

theorem settled_walk (h : Layered p classes rank) (log : PlacementLog) {c : ClassDef} (hc : c ∈ p.visited classes) :
    Settled p classes (p.walk classes log) c := by
  have hperm := Program.perm_topDown p.hash (p.visited classes)
  refine settled_foldl_visit ((hperm.map ClassDef.type).nodup_iff.2 h.nodup) (Program.pairwise_topDown p.hash h.nodup h.ranked)
    (fun d hd hself => ?_) _ (hperm.mem_iff.2 hc)
  exact Nat.lt_irrefl _ (h.ranked d (hperm.mem_iff.1 hd) d.type hself)

/-- The virtual methods that a class inherits in the end. -/
def inSight (p : Placement) (classes : List UnplacedClass) (log : PlacementLog) (c : ClassDef) : VirtualTable :=
  inherited p.hash (p.walk classes log).tables c

theorem libraryTable_spec (c : ClassDef) (t : VirtualTable) :
    t <+: libraryTable c t ∧ ∀ m ∈ c.virtualMethods, m.ref.signature ∈ (libraryTable c t).keys := by
  obtain ⟨hbegin, -, hkeys⟩ := VirtualTable.foldl_add (fun m : MethodDef => m.ref.signature) MethodDef.ref c.virtualMethods t
  exact ⟨hbegin, hkeys⟩

/-- The table of a class begins with what is in sight of it. -/
theorem exists_table (h : Layered p classes rank) (log : PlacementLog) {c : ClassDef} (hc : c ∈ p.visited classes) :
    ∃ t, (p.walk classes log).tables[c.type]? = some t ∧ p.inSight classes log c <+: t := by
  have hsettled := settled_walk h log hc
  unfold Settled at hsettled
  split at hsettled
  · next u _ =>
    obtain ⟨log', htable, -⟩ := hsettled
    obtain ⟨-, -, -, -, -, -, hbegin, -⟩ := placeClass_spec (p := p) u (inherited_spec p.hash (p.walk classes log).tables c).1 log'
    exact ⟨_, htable, hbegin⟩
  · exact ⟨_, hsettled, (libraryTable_spec c _).1⟩

/-- `s` is named as a supertype by the class with type `t`. -/
def Names (cs : List ClassDef) (s t : Descriptor) : Prop := ∃ c ∈ cs, c.type = t ∧ s ∈ c.supertypes

theorem exists_class_of_below {cs : List ClassDef} {s t : Descriptor} (h : Relation.TransGen (Names cs) s t) :
    ∃ c ∈ cs, c.type = t := by
  cases h with
  | single hstep =>
    obtain ⟨c, hc, ht, -⟩ := hstep
    exact ⟨c, hc, ht⟩
  | tail _ hstep =>
    obtain ⟨c, hc, ht, -⟩ := hstep
    exact ⟨c, hc, ht⟩

/-- Ranks fall on a way upwards. -/
theorem Layered.rank_lt (h : Layered p classes rank) {s t : Descriptor}
    (hbelow : Relation.TransGen (Names (p.visited classes)) s t) : rank s < rank t := by
  induction hbelow with
  | single hnames =>
    obtain ⟨c, hc, rfl, hs⟩ := hnames
    exact h.ranked c hc _ hs
  | tail _ hnames ih =>
    obtain ⟨c, hc, rfl, hs⟩ := hnames
    exact Nat.lt_trans ih (h.ranked c hc _ hs)

/-- **What a class has is in sight of all classes below it.** -/
theorem keys_subset_inSight (h : Layered p classes rank) (log : PlacementLog) {s : Descriptor} {t : VirtualTable}
    (ht : (p.walk classes log).tables[s]? = some t) {c : ClassDef} (hc : c ∈ p.visited classes)
    (hbelow : Relation.TransGen (Names (p.visited classes)) s c.type) : t.keys ⊆ (p.inSight classes log c).keys := by
  generalize hb : c.type = b at hbelow
  induction hbelow generalizing c with
  | single hstep =>
    obtain ⟨d, hd, rfl, hs⟩ := hstep
    obtain rfl : c = d := List.inj_on_of_nodup_map h.nodup hc hd hb
    have hkeys := (inherited_spec p.hash (p.walk classes log).tables c).2 s hs
    rwa [TreeMap.getD_eq_getD_getElem?, ht] at hkeys
  | tail hsb hstep ih =>
    obtain ⟨d, hd, rfl, hs⟩ := hstep
    obtain rfl : c = d := List.inj_on_of_nodup_map h.nodup hc hd hb
    obtain ⟨e, he, rfl⟩ := exists_class_of_below hsb
    obtain ⟨t', ht', hbegin⟩ := exists_table h log he
    have hkeys := (inherited_spec p.hash (p.walk classes log).tables c).2 e.type hs
    rw [TreeMap.getD_eq_getD_getElem?, ht'] at hkeys
    exact List.Subset.trans (List.Subset.trans (ih he rfl) (VirtualTable.keys_subset_of_prefix hbegin)) hkeys

end DexShrinker.Placement
