/-
  DexShrinker/Proofs/App/Correspondence.lean
  ==========================================
  **Programs that differ in their members only.**

  A pass that renames members but leaves the hierarchy as it is gives a program in which a
  search goes the same way. If all that can be met above a type has counterparts
  (`Program.Mirrored`), the methods on the way of a search are the counterparts of those
  on the old way, one by one and in the same order (`Program.Mirrored.forall₂_searched`).
-/
import DexShrinker.Proofs.App.Resolution

namespace DexShrinker

/-- The class `e` is `c` with other members; methods go to methods by `M`. -/
structure ClassDef.Mirrors (M : MethodDef → MethodDef → Prop) (c e : ClassDef) : Prop where
  type : e.type = c.type
  superclass : e.superclass = c.superclass
  interfaces : e.interfaces = c.interfaces
  methods : List.Forall₂ M c.methods e.methods

theorem ClassDef.map_type_of_mirrors {M : MethodDef → MethodDef → Prop} {cs es : List ClassDef}
    (h : List.Forall₂ (ClassDef.Mirrors M) cs es) : es.map ClassDef.type = cs.map ClassDef.type := by
  induction h with
  | nil => rfl
  | cons hmirrors _ ih => rw [List.map_cons, List.map_cons, hmirrors.type, ih]

namespace Program

/-! ### More fuel than needed -/

/-- A walk that ends before its fuel does goes no further with more. -/
theorem superclassesUpTo_of_length_lt (p : Program) {fuel : Nat} {t : Descriptor}
    (h : (p.superclassesUpTo fuel t).length < fuel) {fuel' : Nat} (hle : fuel ≤ fuel') :
    p.superclassesUpTo fuel' t = p.superclassesUpTo fuel t ∧ p.reachesTop fuel' t = p.reachesTop fuel t := by
  induction fuel generalizing t fuel' with
  | zero => omega
  | succ fuel ih =>
    obtain ⟨k, rfl⟩ : ∃ k, fuel' = k + 1 := ⟨fuel' - 1, by omega⟩
    simp only [superclassesUpTo, reachesTop] at h ⊢
    cases hc : p.class? t with
    | none => exact ⟨rfl, rfl⟩
    | some c =>
      simp only [hc] at h ⊢
      cases hs : c.superclass with
      | none => exact ⟨rfl, rfl⟩
      | some s =>
        simp only [hs, Option.elim_some, List.length_cons] at h ⊢
        obtain ⟨hsame, htop⟩ := ih (t := s) (by omega) (show fuel ≤ k by omega)
        exact ⟨by rw [hsame], htop⟩

theorem length_superclassesUpTo_le {p : Program} (fuel : Nat) (t : Descriptor) (rank : Descriptor → Nat)
    (hrank : ∀ c ∈ p.superclassesUpTo fuel t, ∀ s, c.superclass = some s → rank s < rank c.type) :
    (p.superclassesUpTo fuel t).length ≤ p.size := by
  rcases List.eq_nil_or_concat (p.superclassesUpTo fuel t) with hnil | ⟨cs, c, heq⟩
  · rw [hnil]
    exact Nat.zero_le _
  · rw [List.concat_eq_append] at heq
    rw [heq] at hrank ⊢
    exact (p.climbs_of_eq_append fuel t heq).length_le rank hrank

theorem mem_classes_of_mem_superclassesUpTo {p : Program} {fuel : Nat} {t : Descriptor} {c : ClassDef}
    (hc : c ∈ p.superclassesUpTo fuel t) : c ∈ p.classes := by
  obtain ⟨cs, hclimbs⟩ := p.climbs_of_mem fuel t hc
  exact mem_classes.2 (hclimbs.class?_eq c (List.mem_append_right cs (List.mem_singleton_self c)))

theorem find?_without_self (pool : List ClassDef) (t : Descriptor) : (without pool t).find? (·.type == t) = none := by
  rw [without, List.find?_filter, List.find?_eq_none]
  intro c _
  simp

/-! ### Searches that go the same way -/

/-- What can be met above the types of `S` has counterparts in `q`, and nothing else can be
    met there. -/
structure Mirrored (p q : Program) (S : Descriptor → Prop) (M : MethodDef → MethodDef → Prop) : Prop where
  classes : ∀ t, S t → Option.Rel (ClassDef.Mirrors M) (p.class? t) (q.class? t)
  closed : ∀ t c, S t → p.class? t = some c → ∀ s ∈ c.supertypes, S s

namespace Mirrored

variable {p q : Program} {S : Descriptor → Prop} {M : MethodDef → MethodDef → Prop}

theorem exists_class?_of_mem (h : Mirrored p q S M) {fuel : Nat} {t : Descriptor} (ht : S t) {c : ClassDef}
    (hc : c ∈ p.superclassesUpTo fuel t) : ∃ s, S s ∧ p.class? s = some c := by
  induction fuel generalizing t with
  | zero => cases hc
  | succ fuel ih =>
    rw [superclassesUpTo] at hc
    cases hd : p.class? t with
    | none =>
      rw [hd] at hc
      cases hc
    | some d =>
      simp only [hd] at hc
      rcases List.mem_cons.1 hc with rfl | hc
      · exact ⟨t, ht, hd⟩
      · cases hs : d.superclass with
        | none =>
          rw [hs] at hc
          cases hc
        | some s =>
          rw [hs] at hc
          exact ih (h.closed t d ht hd s (by simp [ClassDef.supertypes, hs])) hc

theorem forall₂_superclassesUpTo (h : Mirrored p q S M) (fuel : Nat) {t : Descriptor} (ht : S t) :
    List.Forall₂ (ClassDef.Mirrors M) (p.superclassesUpTo fuel t) (q.superclassesUpTo fuel t) ∧
      q.reachesTop fuel t = p.reachesTop fuel t := by
  induction fuel generalizing t with
  | zero => exact ⟨.nil, rfl⟩
  | succ fuel ih =>
    have hrel := h.classes t ht
    simp only [superclassesUpTo, reachesTop]
    cases hc : p.class? t with
    | none =>
      rw [hc] at hrel
      cases hq : q.class? t with
      | none => exact ⟨.nil, rfl⟩
      | some e =>
        rw [hq] at hrel
        cases hrel
    | some c =>
      rw [hc] at hrel
      cases hq : q.class? t with
      | none =>
        rw [hq] at hrel
        cases hrel
      | some e =>
        rw [hq] at hrel
        cases hrel with
        | some hmirrors =>
          simp only [hmirrors.superclass]
          cases hs : c.superclass with
          | none => exact ⟨.cons hmirrors .nil, rfl⟩
          | some s =>
            obtain ⟨hforall, htop⟩ := ih (h.closed t c ht hc s (by simp [ClassDef.supertypes, hs]))
            exact ⟨.cons hmirrors hforall, htop⟩

/-- The superclasses on the way, whatever the sizes of the programs. -/
theorem forall₂_above (h : Mirrored p q S M) (hp : p.WellFormed) {t : Descriptor} (ht : S t) :
    List.Forall₂ (ClassDef.Mirrors M) (p.above t) (q.above t) ∧
      q.reachesTop (q.size + 1) t = p.reachesTop (p.size + 1) t := by
  obtain ⟨rank, hrank⟩ := hp.acyclic
  have hp_rank {fuel : Nat} (c : ClassDef) (hc : c ∈ p.superclassesUpTo fuel t) (s : Descriptor) (hs : c.superclass = some s) :
      rank s < rank c.type :=
    hrank c (mem_classes_of_mem_superclassesUpTo hc) s (by simp [ClassDef.supertypes, hs])
  have hp_length := length_superclassesUpTo_le (p.size + 1) t rank hp_rank
  have hq_length := length_superclassesUpTo_le (q.size + 1) t rank (by
    intro e he s hs
    obtain ⟨c, hc, hmirrors⟩ := exists_of_mem_left (h.forall₂_superclassesUpTo (q.size + 1) ht).1.flip he
    rw [hmirrors.superclass] at hs
    rw [hmirrors.type]
    exact hp_rank c hc s hs)
  -- With fuel enough for both, the two walks go side by side.
  obtain ⟨hp_same, hp_top⟩ := p.superclassesUpTo_of_length_lt (Nat.lt_succ_of_le hp_length) (Nat.le_max_left _ (q.size + 1))
  obtain ⟨hq_same, hq_top⟩ := q.superclassesUpTo_of_length_lt (Nat.lt_succ_of_le hq_length) (Nat.le_max_right (p.size + 1) _)
  obtain ⟨hforall, htop⟩ := h.forall₂_superclassesUpTo (max (p.size + 1) (q.size + 1)) ht
  rw [hp_same, hq_same] at hforall
  rw [hp_top, hq_top] at htop
  exact ⟨hforall, htop⟩

theorem forall₂_interfacesFrom (hclosed : ∀ t c, S t → p.class? t = some c → ∀ s ∈ c.supertypes, S s)
    (pool pool' : List ClassDef) (stack : List Descriptor) (hstack : ∀ t ∈ stack, S t)
    (hpool : ∀ t c, pool.find? (·.type == t) = some c → p.class? t = some c)
    (hrel : ∀ t, S t → Option.Rel (ClassDef.Mirrors M) (pool.find? (·.type == t)) (pool'.find? (·.type == t))) :
    List.Forall₂ (ClassDef.Mirrors M) (interfacesFrom pool stack) (interfacesFrom pool' stack) := by
  induction pool, stack using interfacesFrom.induct generalizing pool' with
  | case1 pool =>
    rw [interfacesFrom, interfacesFrom]
    exact .nil
  | case2 pool t stack hnone ih =>
    have ht := hrel t (hstack t List.mem_cons_self)
    rw [hnone] at ht
    cases hnone' : pool'.find? (·.type == t) with
    | some e =>
      rw [hnone'] at ht
      cases ht
    | none =>
      rw [interfacesFrom_of_none hnone, interfacesFrom_of_none hnone']
      exact ih pool' (fun s hs => hstack s (List.mem_cons_of_mem t hs)) hpool hrel
  | case3 pool t stack c hsome ih =>
    have ht := hrel t (hstack t List.mem_cons_self)
    rw [hsome] at ht
    cases hsome' : pool'.find? (·.type == t) with
    | none =>
      rw [hsome'] at ht
      cases ht
    | some e =>
      rw [hsome'] at ht
      cases ht with
      | some hmirrors =>
        rw [interfacesFrom_of_some hsome, interfacesFrom_of_some hsome', hmirrors.interfaces]
        refine .cons hmirrors (ih (without pool' t) ?_ ?_ ?_)
        · intro s hs
          rcases List.mem_append.1 hs with hs | hs
          · apply hclosed t c (hstack t List.mem_cons_self) (hpool t c hsome)
            simp [ClassDef.supertypes, List.mem_reverse.1 hs]
          · exact hstack s (List.mem_cons_of_mem t hs)
        · intro s d hd
          by_cases hst : s = t
          · subst hst
            rw [find?_without_self] at hd
            cases hd
          · rw [find?_without hst] at hd
            exact hpool s d hd
        · intro s hs
          by_cases hst : s = t
          · subst hst
            rw [find?_without_self, find?_without_self]
            exact .none
          · rw [find?_without hst, find?_without hst]
            exact hrel s hs

theorem forall₂_searchOrder (h : Mirrored p q S M) (hp : p.WellFormed) {t : Descriptor} (ht : S t) :
    List.Forall₂ (ClassDef.Mirrors M) (p.searchOrder t) (q.searchOrder t) := by
  obtain ⟨habove, htop⟩ := h.forall₂_above hp ht
  refine List.rel_append habove ?_
  have hstack : (q.above t).flatMap ClassDef.interfaces = (p.above t).flatMap ClassDef.interfaces := by
    generalize p.above t = cs, q.above t = es at habove
    induction habove with
    | nil => rfl
    | cons hmirrors _ ih => rw [List.flatMap_cons, List.flatMap_cons, hmirrors.interfaces, ih]
  rw [interfacesAbove, interfacesAbove, htop, hstack]
  split
  · apply forall₂_interfacesFrom h.closed
    · intro s hs
      obtain ⟨c, hc, hs⟩ := List.mem_flatMap.1 (List.mem_reverse.1 hs)
      obtain ⟨s', hs', hget⟩ := h.exists_class?_of_mem ht hc
      exact h.closed s' c hs' hget s (List.mem_append_right _ hs)
    · intro s c hc
      rwa [find?_classes] at hc
    · intro s hs
      rw [find?_classes, find?_classes]
      exact h.classes s hs
  · exact .nil

/-- **The methods on the way of a search are the counterparts of those on the old way.** -/
theorem forall₂_searched (h : Mirrored p q S M) (hp : p.WellFormed) {t : Descriptor} (ht : S t) :
    List.Forall₂ M (p.searched t) (q.searched t) := by
  have horder := h.forall₂_searchOrder hp ht
  unfold searched
  generalize p.searchOrder t = cs, q.searchOrder t = es at horder
  induction horder with
  | nil => exact .nil
  | cons hmirrors _ ih => exact List.rel_append hmirrors.methods ih

end Mirrored

/-- The first method of a signature goes to the first of another one, if exactly the methods
    of the one go to methods of the other. -/
theorem exists_find?_of_forall₂ {M : MethodDef → MethodDef → Prop} {xs ys : List MethodDef} (h : List.Forall₂ M xs ys)
    (s s' : Signature) (hs : ∀ x y, M x y → x ∈ xs → (x.ref.signature = s ↔ y.ref.signature = s')) {d : MethodDef}
    (hd : xs.find? (·.ref.signature == s) = some d) : ∃ d', M d d' ∧ ys.find? (·.ref.signature == s') = some d' := by
  induction h with
  | nil => cases hd
  | @cons x y xs ys hxy _ ih =>
    have hx := hs x y hxy List.mem_cons_self
    by_cases heq : x.ref.signature = s
    · rw [List.find?_cons_of_pos (by simpa using heq)] at hd
      cases hd
      exact ⟨y, hxy, List.find?_cons_of_pos (by simpa using hx.1 heq)⟩
    · rw [List.find?_cons_of_neg (by simpa using heq)] at hd
      rw [List.find?_cons_of_neg (by simpa using fun hy => heq (hx.2 hy))]
      exact ih (fun x y hxy hx => hs x y hxy (List.mem_cons_of_mem _ hx)) hd

end Program

end DexShrinker
