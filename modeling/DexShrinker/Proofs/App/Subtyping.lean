/-
  DexShrinker/Proofs/App/Subtyping.lean
  =====================================
  **Subtyping is an order, and least upper bounds climb in it.**

  The supertypes of a class are what its hierarchy leads to (`Program.mem_ancestors`), its
  subtypes are what leads to it (`Program.mem_subtypes`), and subtyping is the least relation with the top class above every reference, covariant
  arrays, and the hierarchy between classes (`Program.isSubtype_iff`).

  In a topped program, where class types stand above class types and nothing stands above
  the top class, subtyping is transitive and a least upper bound is above both types
  (`Program.below_leastUpperBound`), even if the hierarchy has cycles. In a rooted program,
  which has none, subtyping is an order. Every type has a height, which falls from a type to
  each type above it (`Program.Below.height_lt`), so a bound that changes in a join loses
  height (`Program.height_leastUpperBound_lt`).
-/
import DexShrinker.Proofs.App.Resolution
import DexShrinker.Proofs.Descriptor
import Mathlib.Data.Finset.Card
import Mathlib.Logic.Relation

namespace DexShrinker

namespace Descriptor

@[simp] theorem chars_toArray (t : Descriptor) : t.toArray.chars = '[' :: t.chars := by
  simp [toArray, chars]

theorem element?_eq_some {t x : Descriptor} : t.element? = some x ↔ t = x.toArray := by
  constructor
  · intro h
    unfold element? at h
    split at h
    · next rest hrest =>
      cases h
      apply Descriptor.ext
      rw [← String.toList_inj]
      change t.chars = Descriptor.chars _
      rw [hrest, chars_toArray]
      simp [chars]
    · cases h
  · rintro rfl
    rw [element?, chars_toArray]
    simp [chars]

@[simp] theorem element?_toArray (t : Descriptor) : t.toArray.element? = some t := element?_eq_some.2 rfl

theorem toArray_injective : Function.Injective toArray := by
  intro a b h
  have helement := element?_toArray a
  rw [h, element?_toArray] at helement
  exact (Option.some.inj helement).symm

@[simp] theorem isArray_toArray (t : Descriptor) : t.toArray.isArray = true := by
  simp [isArray]

@[simp] theorem isReference_toArray (t : Descriptor) : t.toArray.isReference = true := by
  simp [isReference]

theorem base_toArray (t : Descriptor) : t.toArray.base = t.base := by
  have hbase : t.toArray.base = ⟨String.ofList (t.chars.dropWhile (· == '['))⟩ := by
    rw [base, if_pos (isArray_toArray t), chars_toArray, List.dropWhile_cons_of_pos (by rfl)]
  rw [hbase, base]
  split
  · rfl
  · next h =>
    rw [dropWhile_chars (by simpa using h)]
    exact Descriptor.ext (by simp [chars])

/-- Only the base of an array is sent anywhere. -/
theorem mapBase_toArray (t : Descriptor) (f : Descriptor → Descriptor) : t.toArray.mapBase f = (t.mapBase f).toArray := by
  rw [mapBase, if_pos (isArray_toArray t), base_toArray, mapBase]
  split
  · rw [replaceBase, chars_toArray, List.takeWhile_cons_of_pos (by rfl)]
    exact Descriptor.ext (by simp [replaceBase, toArray, ← String.toList_inj])
  · next h =>
    rw [base_of_isArray (by simpa using h), replaceBase, chars_toArray, List.takeWhile_cons_of_pos (by rfl),
      takeWhile_chars (by simpa using h)]
    exact Descriptor.ext (by simp [toArray])

theorem isArray_of_element? {t x : Descriptor} (h : t.element? = some x) : t.isArray = true := by
  rw [element?_eq_some.1 h, isArray_toArray]

theorem element?_of_not_isArray {t : Descriptor} (h : t.isArray = false) : t.element? = none := by
  cases hx : t.element? with
  | none => rfl
  | some x =>
    rw [isArray_of_element? hx] at h
    cases h

theorem element?_of_isClass {t : Descriptor} (h : t.isClass = true) : t.element? = none :=
  element?_of_not_isArray (isArray_of_isClass h)

/-- A reference that is no array of anything is a class. -/
theorem isClass_of_element? {t : Descriptor} (h : t.isReference = true) (hx : t.element? = none) : t.isClass = true := by
  by_contra hclass
  have harray : t.isArray = true := by simpa [isReference, hclass] using h
  simp only [isArray, beq_iff_eq] at harray
  obtain ⟨rest, hrest⟩ := List.head?_eq_some_iff.1 harray
  simp [element?, hrest] at hx

theorem isClass_object : object.isClass = true := by decide

end Descriptor

namespace Program

/-! ### What the hierarchy leads to -/

/-- The class `t` names `s` as a supertype. -/
def NamesSuper (p : Program) (t s : Descriptor) : Prop := ∃ c, p.class? t = some c ∧ s ∈ c.supertypes

/-- No type is above itself. -/
def Acyclic (p : Program) : Prop := ∀ t, ¬ Relation.TransGen p.NamesSuper t t

theorem ancestorsFrom_of_none {pool : List ClassDef} {t : Descriptor} (h : pool.find? (·.type == t) = none)
    (work : List Descriptor) : ancestorsFrom pool (t :: work) = t :: ancestorsFrom pool work := by
  rw [ancestorsFrom]
  split
  · rfl
  · next hsome => cases h.symm.trans hsome

theorem ancestorsFrom_of_some {pool : List ClassDef} {t : Descriptor} {c : ClassDef} (h : pool.find? (·.type == t) = some c)
    (work : List Descriptor) :
    ancestorsFrom pool (t :: work) = t :: ancestorsFrom (without pool t) (c.supertypes ++ work) := by
  rw [ancestorsFrom]
  split
  · next hnone => cases h.symm.trans hnone
  · next hsome =>
    cases h.symm.trans hsome
    rfl

theorem mem_ancestorsFrom_of_mem {pool : List ClassDef} {work : List Descriptor} {t : Descriptor} (ht : t ∈ work) :
    t ∈ ancestorsFrom pool work := by
  induction pool, work using ancestorsFrom.induct with
  | case1 pool => cases ht
  | case2 pool t' work hnone ih =>
    rw [ancestorsFrom_of_none hnone, List.mem_cons]
    exact (List.mem_cons.1 ht).imp_right ih
  | case3 pool t' work c hsome ih =>
    rw [ancestorsFrom_of_some hsome, List.mem_cons]
    exact (List.mem_cons.1 ht).imp_right fun ht => ih (List.mem_append_right _ ht)

/-- What a class on the way names is on the way. -/
theorem ancestorsFrom_closed {pool : List ClassDef} {work : List Descriptor} {t s : Descriptor} {c : ClassDef}
    (ht : t ∈ ancestorsFrom pool work) (hc : pool.find? (·.type == t) = some c) (hs : s ∈ c.supertypes) :
    s ∈ ancestorsFrom pool work := by
  induction pool, work using ancestorsFrom.induct with
  | case1 pool =>
    rw [ancestorsFrom] at ht
    cases ht
  | case2 pool t' work hnone ih =>
    rw [ancestorsFrom_of_none hnone] at ht ⊢
    rcases List.mem_cons.1 ht with rfl | ht
    · cases hnone.symm.trans hc
    · exact List.mem_cons_of_mem _ (ih ht hc)
  | case3 pool t' work c' hsome ih =>
    rw [ancestorsFrom_of_some hsome] at ht ⊢
    apply List.mem_cons_of_mem
    by_cases heq : t = t'
    · subst heq
      cases hsome.symm.trans hc
      exact mem_ancestorsFrom_of_mem (List.mem_append_left _ hs)
    · exact ih ((List.mem_cons.1 ht).resolve_left heq) (by rwa [find?_without heq])

/-- **The ancestors of a type are all that the hierarchy leads to from there.** -/
theorem mem_ancestors {p : Program} {t s : Descriptor} :
    s ∈ p.ancestors t ↔ Relation.ReflTransGen p.NamesSuper t s := by
  constructor
  · have hsound (pool : List ClassDef) (work : List Descriptor) (hpool : pool ⊆ p.classes)
        (hwork : ∀ u ∈ work, Relation.ReflTransGen p.NamesSuper t u) (hs : s ∈ ancestorsFrom pool work) :
        Relation.ReflTransGen p.NamesSuper t s := by
      induction pool, work using ancestorsFrom.induct with
      | case1 pool =>
        rw [ancestorsFrom] at hs
        cases hs
      | case2 pool t' work hnone ih =>
        rw [ancestorsFrom_of_none hnone] at hs
        obtain ⟨ht', hwork⟩ := List.forall_mem_cons.1 hwork
        rcases List.mem_cons.1 hs with rfl | hs
        · exact ht'
        · exact ih hpool hwork hs
      | case3 pool t' work c hsome ih =>
        rw [ancestorsFrom_of_some hsome] at hs
        obtain ⟨ht', hwork⟩ := List.forall_mem_cons.1 hwork
        have htype : c.type = t' := by simpa using List.find?_some hsome
        have hc := mem_classes.1 (hpool (List.mem_of_find?_eq_some hsome))
        rw [htype] at hc
        rcases List.mem_cons.1 hs with rfl | hs
        · exact ht'
        · refine ih (fun x hx => hpool (List.mem_filter.1 hx).1) ?_ hs
          intro u hu
          rcases List.mem_append.1 hu with hu | hu
          · exact ht'.tail ⟨c, hc, hu⟩
          · exact hwork u hu
    apply hsound p.classes [t] (List.Subset.refl _)
    simp [Relation.ReflTransGen.refl]
  · intro h
    induction h with
    | refl => exact mem_ancestorsFrom_of_mem (List.mem_singleton.2 rfl)
    | tail _ hstep ih =>
      obtain ⟨c, hc, hs⟩ := hstep
      exact ancestorsFrom_closed ih ((find?_classes _).trans hc) hs

/-! ### What leads to a type -/

theorem descendantsFrom_of_isEmpty {pool : List ClassDef} {t : Descriptor} (h : (namingSuper pool t).isEmpty = true)
    (work : List Descriptor) : descendantsFrom pool (t :: work) = descendantsFrom pool work := by
  rw [descendantsFrom]
  split
  · rfl
  · next hfalse => cases h.symm.trans hfalse

theorem descendantsFrom_of_not_isEmpty {pool : List ClassDef} {t : Descriptor} (h : (namingSuper pool t).isEmpty = false)
    (work : List Descriptor) : descendantsFrom pool (t :: work) = (namingSuper pool t).map ClassDef.type ++
      descendantsFrom (notNamingSuper pool t) ((namingSuper pool t).map ClassDef.type ++ work) := by
  rw [descendantsFrom]
  split
  · next htrue => cases h.symm.trans htrue
  · rfl

/-- A class that names what is on the way is on the way. -/
theorem descendantsFrom_closed {pool : List ClassDef} {work : List Descriptor} {c : ClassDef} {t : Descriptor} (hc : c ∈ pool)
    (ht : t ∈ c.supertypes) (hmem : t ∈ work ∨ t ∈ descendantsFrom pool work) : c.type ∈ descendantsFrom pool work := by
  induction pool, work using descendantsFrom.induct with
  | case1 pool => simp [descendantsFrom] at hmem
  | case2 pool t' work hnone ih =>
    rw [descendantsFrom_of_isEmpty hnone] at hmem ⊢
    refine ih hc (hmem.imp_left fun hwork => (List.mem_cons.1 hwork).resolve_left ?_)
    rintro rfl
    have hnaming : c ∈ namingSuper pool t := List.mem_filter.2 ⟨hc, List.contains_iff_mem.2 ht⟩
    rw [List.isEmpty_iff.1 hnone] at hnaming
    cases hnaming
  | case3 pool t' work hsome found ih =>
    rw [descendantsFrom_of_not_isEmpty hsome] at hmem ⊢
    by_cases hnames : t' ∈ c.supertypes
    · exact List.mem_append_left _ (List.mem_map_of_mem (List.mem_filter.2 ⟨hc, List.contains_iff_mem.2 hnames⟩))
    · have hne : t ≠ t' := by
        rintro rfl
        exact hnames ht
      have hpool : c ∈ notNamingSuper pool t' := List.mem_filter.2 ⟨hc, by simpa using hnames⟩
      refine List.mem_append_right _ (ih hpool ?_)
      rcases hmem with hwork | hmem
      · exact .inl (List.mem_append_right _ ((List.mem_cons.1 hwork).resolve_left hne))
      · exact (List.mem_append.1 hmem).imp_left fun hfound => List.mem_append_left _ hfound

/-- **The subtypes of a type are all from which the hierarchy leads to it.** -/
theorem mem_subtypes {p : Program} {s t : Descriptor} : s ∈ (p.subtypes t).toList ↔ Relation.TransGen p.NamesSuper s t := by
  have hlist : s ∈ (p.subtypes t).toList ↔ s ∈ descendantsFrom p.classes [t] := by
    rw [subtypes, Std.TreeSet.mem_toList, Std.TreeSet.mem_ofList]
    exact List.contains_iff_mem
  rw [hlist]
  clear hlist
  constructor
  · have hsound (pool : List ClassDef) (work : List Descriptor) (hpool : pool ⊆ p.classes)
        (hwork : ∀ u ∈ work, Relation.ReflTransGen p.NamesSuper u t) (hs : s ∈ descendantsFrom pool work) :
        Relation.TransGen p.NamesSuper s t := by
      induction pool, work using descendantsFrom.induct with
      | case1 pool => simp [descendantsFrom] at hs
      | case2 pool t' work hnone ih =>
        rw [descendantsFrom_of_isEmpty hnone] at hs
        exact ih hpool (List.forall_mem_cons.1 hwork).2 hs
      | case3 pool t' work hsome found ih =>
        rw [descendantsFrom_of_not_isEmpty hsome] at hs
        obtain ⟨ht', hwork⟩ := List.forall_mem_cons.1 hwork
        have hfound : ∀ u ∈ (namingSuper pool t').map ClassDef.type, Relation.TransGen p.NamesSuper u t := by
          intro u hu
          obtain ⟨c, hc, rfl⟩ := List.mem_map.1 hu
          obtain ⟨hc, hnames⟩ := List.mem_filter.1 hc
          exact .head' ⟨c, mem_classes.1 (hpool hc), List.contains_iff_mem.1 hnames⟩ ht'
        rcases List.mem_append.1 hs with hs | hs
        · exact hfound s hs
        · refine ih (fun c hc => hpool (List.mem_filter.1 hc).1) (fun u hu => ?_) hs
          exact (List.mem_append.1 hu).elim (fun hu => (hfound u hu).to_reflTransGen) (hwork u)
    exact hsound p.classes [t] (List.Subset.refl _) (by simp [Relation.ReflTransGen.refl])
  · intro h
    have hnamed {u v : Descriptor} (huv : p.NamesSuper u v) (hv : v ∈ [t] ∨ v ∈ descendantsFrom p.classes [t]) :
        u ∈ descendantsFrom p.classes [t] := by
      obtain ⟨c, hc, hv'⟩ := huv
      have htype := Program.type_of_class? hc
      rw [← htype] at hc ⊢
      exact descendantsFrom_closed (mem_classes.2 hc) hv' hv
    induction h using Relation.TransGen.head_induction_on with
    | single h => exact hnamed h (.inl (List.mem_singleton.2 rfl))
    | head h _ ih => exact hnamed h (.inr ih)

/-! ### Subtyping -/

/-- A value of the first type may stand where one of the second is asked for. -/
inductive Below (p : Program) : Descriptor → Descriptor → Prop
  | refl (t : Descriptor) : Below p t t
  | top {t : Descriptor} (ht : t.isReference = true) : Below p t .object
  | array {x y : Descriptor} (hx : x.isReference = true) (h : Below p x y) : Below p x.toArray y.toArray
  | named {t s : Descriptor} (ht : t.isClass = true) (hs : s.isClass = true) (h : Relation.TransGen p.NamesSuper t s) :
      Below p t s

/-- **Subtyping is the relation `Below`.** -/
theorem isSubtype_iff {p : Program} {a b : Descriptor} : p.isSubtype a b = true ↔ p.Below a b := by
  constructor
  · intro h
    fun_induction isSubtype p a b with
    | case1 => exact .refl _
    | case2 => cases h
    | case3 a hne href =>
      apply Below.top
      simp only [Bool.or_eq_true, Bool.not_eq_true', not_or, Bool.not_eq_false] at href
      exact href.1
    | case4 a b hne href htop x y hx hy ih =>
      obtain ⟨hxref, h⟩ := Bool.and_eq_true_iff.1 h
      rw [Descriptor.element?_eq_some.1 hx, Descriptor.element?_eq_some.1 hy]
      exact .array hxref (ih h)
    | case5 a b hne href htop hx hy =>
      simp only [Bool.or_eq_true, Bool.not_eq_true', not_or, Bool.not_eq_false] at href
      rw [List.contains_iff_mem, mem_ancestors] at h
      rcases Relation.reflTransGen_iff_eq_or_transGen.1 h with heq | h
      · exact absurd heq.symm hne
      · exact .named (Descriptor.isClass_of_element? href.1 hx) (Descriptor.isClass_of_element? href.2 hy) h
    | case6 => cases h
  · intro h
    induction h with
    | refl t => simp [isSubtype]
    | @top t ht =>
      rw [isSubtype]
      simp [ht, Descriptor.isReference_of_isClass Descriptor.isClass_object]
    | @array x y hx h ih =>
      rw [isSubtype, if_neg (c := !_ || _) (by simp)]
      split
      · rfl
      · split
        · rfl
        · split
          · next hx' hy' =>
            rw [Descriptor.element?_toArray] at hx' hy'
            cases hx'
            cases hy'
            simp [hx, ih]
          · next hx' _ => simp at hx'
          · next hno _ => exact (hno x y (Descriptor.element?_toArray x) (Descriptor.element?_toArray y)).elim
    | @named t s ht hs h =>
      have hx := Descriptor.element?_of_isClass ht
      have hy := Descriptor.element?_of_isClass hs
      rw [isSubtype, if_neg (c := !_ || _) (by
        simp [Descriptor.isReference_of_isClass ht, Descriptor.isReference_of_isClass hs])]
      split
      · rfl
      · split
        · rfl
        · split
          · next hx' _ => cases hx.symm.trans hx'
          · exact List.contains_iff_mem.2 (mem_ancestors.2 h.to_reflTransGen)
          · next hno => exact (hno hx hy).elim

namespace Below

variable {p : Program} {a b c : Descriptor}

theorem isReference (h : p.Below a b) : a = b ∨ a.isReference = true ∧ b.isReference = true := by
  cases h with
  | refl => exact .inl rfl
  | top ha => exact .inr ⟨ha, Descriptor.isReference_of_isClass Descriptor.isClass_object⟩
  | array => exact .inr ⟨Descriptor.isReference_toArray _, Descriptor.isReference_toArray _⟩
  | named ha hb => exact .inr ⟨Descriptor.isReference_of_isClass ha, Descriptor.isReference_of_isClass hb⟩

end Below

/-- The classes of the program stand below classes, with nothing above the top. -/
structure Topped (p : Program) : Prop extends Regular p where
  isClass_of_mem_supertypes : ∀ c ∈ p.classes, ∀ s ∈ c.supertypes, s.isClass = true
  top : ∀ c ∈ p.classes, c.type = .object → c.supertypes = []

namespace Topped

variable {p : Program} {t s : Descriptor}

theorem isClass_left (hp : p.Topped) (h : p.NamesSuper t s) : t.isClass = true := by
  obtain ⟨c, hc, -⟩ := h
  have htype := Program.type_of_class? hc
  exact htype ▸ hp.isClass c (mem_classes.2 (htype ▸ hc))

theorem isClass_right (hp : p.Topped) (h : p.NamesSuper t s) : s.isClass = true := by
  obtain ⟨c, hc, hs⟩ := h
  have htype := Program.type_of_class? hc
  exact hp.isClass_of_mem_supertypes c (mem_classes.2 (htype ▸ hc)) s hs

theorem not_namesSuper_object (hp : p.Topped) (s : Descriptor) : ¬ p.NamesSuper .object s := by
  rintro ⟨c, hc, hs⟩
  have htype := Program.type_of_class? hc
  rw [hp.top c (mem_classes.2 (htype ▸ hc)) htype] at hs
  cases hs

theorem below_of_transGen (hp : p.Topped) (h : Relation.TransGen p.NamesSuper t s) : p.Below t s := by
  obtain ⟨_, hfirst, -⟩ := Relation.TransGen.head'_iff.1 h
  obtain ⟨_, -, hlast⟩ := Relation.TransGen.tail'_iff.1 h
  exact .named (hp.isClass_left hfirst) (hp.isClass_right hlast) h

end Topped

/-- A well-formed program whose classes stand below classes, with nothing above the top. -/
structure Rooted (p : Program) : Prop extends WellFormed p where
  isClass_of_mem_supertypes : ∀ c ∈ p.classes, ∀ s ∈ c.supertypes, s.isClass = true
  top : ∀ c ∈ p.classes, c.type = .object → c.supertypes = []

theorem Rooted.topped {p : Program} (hp : p.Rooted) : p.Topped := ⟨hp.regular, hp.isClass_of_mem_supertypes, hp.top⟩

instance {p : Program} : Coe p.Rooted p.Topped := ⟨Rooted.topped⟩

namespace Below

variable {p : Program} {a b c : Descriptor}

/-- Below a class other than the top there are only classes. -/
theorem transGen_of_isClass (h : p.Below a b) (hb : b.isClass = true) (htop : b ≠ .object) (hne : a ≠ b) :
    a.isClass = true ∧ Relation.TransGen p.NamesSuper a b := by
  cases h with
  | refl => exact absurd rfl hne
  | top => exact absurd rfl htop
  | array =>
    have harray := Descriptor.isArray_of_isClass hb
    simp at harray
  | named ha _ h => exact ⟨ha, h⟩

theorem trans (hp : p.Topped) (hab : p.Below a b) (hbc : p.Below b c) : p.Below a c := by
  induction hbc generalizing a with
  | refl => exact hab
  | top hb =>
    rcases hab.isReference with rfl | ⟨ha, -⟩
    · exact .top hb
    · exact .top ha
  | @array x y hx h ih =>
    generalize hb : x.toArray = b at hab
    cases hab with
    | refl =>
      rw [← hb]
      exact .array hx h
    | top _ =>
      have harray := Descriptor.isArray_toArray x
      rw [hb, Descriptor.isArray_of_isClass Descriptor.isClass_object] at harray
      cases harray
    | @array x' _ hx' h' =>
      obtain rfl := Descriptor.toArray_injective hb
      exact .array hx' (ih h')
    | named _ hclass =>
      have harray := Descriptor.isArray_toArray x
      rw [hb, Descriptor.isArray_of_isClass hclass] at harray
      cases harray
  | @named b c hb hc h =>
    cases hab with
    | refl => exact .named hb hc h
    | top _ =>
      obtain ⟨_, hfirst, -⟩ := Relation.TransGen.head'_iff.1 h
      exact absurd hfirst (hp.not_namesSuper_object _)
    | @array x y =>
      have harray := Descriptor.isArray_toArray y
      rw [Descriptor.isArray_of_isClass hb] at harray
      cases harray
    | named ha _ h' => exact .named ha hc (h'.trans h)

end Below

/-! ### Heights -/

/-- How far a type is from the top, if `rank` falls along the hierarchy. -/
def height (rank : Descriptor → Nat) (t : Descriptor) : Nat :=
  if t = .object then 0
  else
    match _ : t.element? with
    | some x => height rank x + 1
    | none => rank t + 1
termination_by t.chars.length
decreasing_by exact Descriptor.length_of_element? ‹t.element? = some x›

section

variable {rank : Descriptor → Nat} {a b : Descriptor}

@[simp] theorem height_object (rank : Descriptor → Nat) : height rank .object = 0 := by
  rw [height, if_pos rfl]

@[simp] theorem height_toArray (rank : Descriptor → Nat) (t : Descriptor) : height rank t.toArray = height rank t + 1 := by
  rw [height, if_neg]
  · split
    · next x hx =>
      rw [Descriptor.element?_toArray] at hx
      rw [Option.some.inj hx]
    · next hx => simp at hx
  · intro heq
    have harray := Descriptor.isArray_toArray t
    rw [heq, Descriptor.isArray_of_isClass Descriptor.isClass_object] at harray
    cases harray

theorem height_of_ne_object (h : a ≠ .object) : 0 < height rank a := by
  rw [height, if_neg h]
  split <;> omega

theorem height_of_isClass (h : a.isClass = true) (hne : a ≠ .object) : height rank a = rank a + 1 := by
  rw [height, if_neg hne]
  split
  · next x hx =>
    rw [Descriptor.element?_of_isClass h] at hx
    cases hx
  · rfl

variable {p : Program}

theorem rank_lt_of_namesSuper (hrank : Ranked p.classes rank) (h : p.NamesSuper a b) : rank b < rank a := by
  obtain ⟨c, hc, hb⟩ := h
  have htype := Program.type_of_class? hc
  have hlt := hrank c (mem_classes.2 (htype ▸ hc)) b hb
  rwa [htype] at hlt

theorem rank_lt_of_transGen (hrank : Ranked p.classes rank) (h : Relation.TransGen p.NamesSuper a b) :
    rank b < rank a := by
  induction h with
  | single h => exact rank_lt_of_namesSuper hrank h
  | tail _ h ih => exact Nat.lt_trans (rank_lt_of_namesSuper hrank h) ih

/-- **A hierarchy without cycles is one with a rank that falls upwards**: every type has fewer
    ancestors than what is below it. -/
theorem acyclic_iff : p.Acyclic ↔ ∃ rank, Ranked p.classes rank := by
  constructor
  · intro h
    refine ⟨fun t => (p.ancestors t).toFinset.card, fun c hc s hs => Finset.card_lt_card ?_⟩
    have hnames : p.NamesSuper c.type s := ⟨c, mem_classes.1 hc, hs⟩
    refine Finset.ssubset_iff_subset_ne.2 ⟨fun u hu => ?_, fun heq => ?_⟩
    · rw [List.mem_toFinset, mem_ancestors] at hu ⊢
      exact .head hnames hu
    · have hself : c.type ∈ (p.ancestors c.type).toFinset := List.mem_toFinset.2 (mem_ancestors.2 .refl)
      rw [← heq, List.mem_toFinset, mem_ancestors] at hself
      exact h c.type (Relation.TransGen.head'_iff.2 ⟨s, hnames, hself⟩)
  · rintro ⟨rank, hrank⟩ t h
    exact Nat.lt_irrefl _ (rank_lt_of_transGen hrank h)

theorem height_lt_of_transGen (hp : p.Rooted) (hrank : Ranked p.classes rank) (h : Relation.TransGen p.NamesSuper a b) :
    height rank b < height rank a := by
  obtain ⟨_, hfirst, -⟩ := Relation.TransGen.head'_iff.1 h
  obtain ⟨_, -, hlast⟩ := Relation.TransGen.tail'_iff.1 h
  have hne : a ≠ .object := by
    rintro rfl
    exact hp.topped.not_namesSuper_object _ hfirst
  rw [height_of_isClass (hp.topped.isClass_left hfirst) hne]
  by_cases hb : b = .object
  · rw [hb, height_object]
    omega
  · rw [height_of_isClass (hp.topped.isClass_right hlast) hb]
    have hlt := rank_lt_of_transGen hrank h
    omega

/-- **Heights fall upwards.** -/
theorem Below.height_lt (hp : p.Rooted) (hrank : Ranked p.classes rank) (h : p.Below a b) (hne : a ≠ b) :
    height rank b < height rank a := by
  induction h with
  | refl => exact absurd rfl hne
  | top _ =>
    rw [height_object]
    exact height_of_ne_object hne
  | array _ _ ih =>
    have hlt := ih fun heq => hne (congrArg _ heq)
    rw [height_toArray, height_toArray]
    omega
  | named _ _ h => exact height_lt_of_transGen hp hrank h

theorem Below.antisymm (hp : p.Rooted) (hab : p.Below a b) (hba : p.Below b a) : a = b := by
  obtain ⟨rank, hrank⟩ := hp.acyclic
  by_contra hne
  have hlt := hab.height_lt hp hrank hne
  have hgt := hba.height_lt hp hrank (Ne.symm hne)
  omega

/-! ### Superclasses -/

theorem superclassesFrom_eq (hrank : Ranked p.classes rank) (fuel : Nat) (seen : List Descriptor) (t : Descriptor)
    (hseen : ∀ s ∈ seen, rank t ≤ rank s) :
    p.superclassesFrom fuel seen t = seen ++ (p.superclassesUpTo fuel t).filterMap ClassDef.superclass := by
  induction fuel generalizing seen t with
  | zero => simp [superclassesFrom, superclassesUpTo]
  | succ fuel ih =>
    rw [superclassesFrom, superclassesUpTo]
    cases hc : p.class? t with
    | none => simp
    | some c =>
      cases hs : c.superclass with
      | none => simp [hs]
      | some s =>
        have hlt : rank s < rank t := rank_lt_of_namesSuper hrank ⟨c, hc, List.mem_append_left _ (by simp [hs])⟩
        have hnew : s ∉ seen := by
          intro hmem
          have := hseen s hmem
          omega
        have hseen' : ∀ u ∈ seen ++ [s], rank s ≤ rank u := by
          intro u hu
          rcases List.mem_append.1 hu with hu | hu
          · have := hseen u hu
            omega
          · exact Nat.le_of_eq (by rw [List.mem_singleton.1 hu])
        simp [hs, hnew, ih (seen ++ [s]) s hseen']

/-- The superclasses come in the order of the walk. -/
theorem superclassChain_eq (hp : p.WellFormed) (t : Descriptor) :
    p.superclassChain t = (p.above t).filterMap ClassDef.superclass := by
  obtain ⟨rank, hrank⟩ := hp.acyclic
  rw [superclassChain, superclassesFrom_eq hrank _ _ _ (by simp), List.nil_append, above]

theorem pairwise_superclasses (p : Program) (fuel : Nat) (t : Descriptor) :
    (t :: (p.superclassesUpTo fuel t).filterMap ClassDef.superclass).Pairwise (Relation.TransGen p.NamesSuper) := by
  induction fuel generalizing t with
  | zero => simp [superclassesUpTo]
  | succ fuel ih =>
    rw [superclassesUpTo]
    cases hc : p.class? t with
    | none => simp
    | some c =>
      cases hs : c.superclass with
      | none => simp [hs]
      | some s =>
        have hstep : p.NamesSuper t s := ⟨c, hc, List.mem_append_left _ (by simp [hs])⟩
        have hrest := ih s
        simp only [hs, Option.elim_some, List.filterMap_cons]
        refine List.pairwise_cons.2 ⟨?_, hrest⟩
        intro u hu
        rcases List.mem_cons.1 hu with rfl | hu
        · exact .single hstep
        · exact .head hstep ((List.pairwise_cons.1 hrest).1 u hu)

theorem transGen_of_mem_superclassesFrom {fuel : Nat} {seen : List Descriptor} {t : Descriptor} (h : b ∈ p.superclassesFrom fuel seen t) :
    b ∈ seen ∨ Relation.TransGen p.NamesSuper t b := by
  induction fuel generalizing seen t with
  | zero => exact .inl h
  | succ fuel ih =>
    rw [superclassesFrom] at h
    split at h
    · exact .inl h
    · next s hs =>
      obtain ⟨c, hc, hsuper⟩ := Option.bind_eq_some_iff.1 hs
      have hstep : p.NamesSuper t s := ⟨c, hc, List.mem_append_left _ (Option.mem_toList.2 hsuper)⟩
      split at h
      · exact .inl h
      · rcases ih h with hseen | habove
        · refine (List.mem_append.1 hseen).imp_right fun hb => ?_
          rw [List.mem_singleton.1 hb]
          exact .single hstep
        · exact .inr (.head hstep habove)

/-- Superclasses are above, cycle or not. -/
theorem transGen_of_mem_superclassChain (h : b ∈ p.superclassChain a) : Relation.TransGen p.NamesSuper a b :=
  (transGen_of_mem_superclassesFrom h).resolve_left List.not_mem_nil

/-- Supertypes that no interface leads to are superclasses. -/
theorem mem_superclassChain (hp : p.Rooted) (hno : ∀ c ∈ p.classes, ∀ i ∈ c.interfaces, ¬ p.Below i b)
    (h : Relation.TransGen p.NamesSuper a b) : b ∈ p.superclassChain a := by
  have hclimbs : ∃ cs c, p.Climbs a (cs ++ [c]) ∧ c.superclass = some b := by
    -- The next type on the way is below `b`, so it is not an interface.
    have hsuper {t s : Descriptor} {c : ClassDef} (hc : p.class? t = some c) (hs : s ∈ c.supertypes) (hsb : p.Below s b) :
        c.superclass = some s := by
      rcases List.mem_append.1 hs with hs | hs
      · exact Option.mem_toList.1 hs
      · exact absurd hsb (hno c (mem_classes.2 (Program.type_of_class? hc ▸ hc)) s hs)
    induction h using Relation.TransGen.head_induction_on with
    | single hstep =>
      obtain ⟨c, hc, hs⟩ := hstep
      exact ⟨[], c, .last hc, hsuper hc hs (.refl b)⟩
    | head hstep hrest ih =>
      obtain ⟨c, hc, hs⟩ := hstep
      obtain ⟨cs, d, hclimbs, hd⟩ := ih
      exact ⟨c :: cs, d, .up hc (hsuper hc hs (hp.topped.below_of_transGen hrest)) hclimbs, hd⟩
  obtain ⟨cs, c, hclimbs, hc⟩ := hclimbs
  obtain ⟨rank, hrank⟩ := hp.acyclic
  have hlen : (cs ++ [c]).length ≤ p.size := by
    apply hclimbs.length_le rank
    intro d hd s hs
    exact hrank d (mem_classes.2 (hclimbs.class?_eq d hd)) s (List.mem_append_left _ (by simp [hs]))
  rw [superclassChain_eq hp.toWellFormed, List.mem_filterMap]
  exact ⟨c, (hclimbs.isPrefix (Nat.le_succ_of_le hlen)).subset (by simp), hc⟩

/-! ### Least upper bounds -/

/-- What a least upper bound of two types can be. -/
theorem leastUpperBound_cases (a b : Descriptor) :
    p.Below a b ∧ p.leastUpperBound a b = b ∨ p.Below b a ∧ p.leastUpperBound a b = a ∨
      (∃ x y, x.isReference = true ∧ y.isReference = true ∧ a = x.toArray ∧ b = y.toArray ∧
        p.leastUpperBound a b = (p.leastUpperBound x y).toArray) ∨
      Relation.TransGen p.NamesSuper a (p.leastUpperBound a b) ∧ p.Below b (p.leastUpperBound a b) ∨
      p.leastUpperBound a b = .object := by
  rw [leastUpperBound]
  split
  · next h => exact .inl ⟨isSubtype_iff.1 h, rfl⟩
  · split
    · next h => exact .inr (.inl ⟨isSubtype_iff.1 h, rfl⟩)
    · refine .inr (.inr ?_)
      split
      · next x y hx hy =>
        split
        · next hrefs =>
          obtain ⟨hxref, hyref⟩ := Bool.and_eq_true_iff.1 hrefs
          exact .inl ⟨x, y, hxref, hyref, Descriptor.element?_eq_some.1 hx, Descriptor.element?_eq_some.1 hy, rfl⟩
        · exact .inr (.inr rfl)
      · cases hfind : (p.superclassChain a).find? (p.isSubtype b) with
        | none => exact .inr (.inr rfl)
        | some s =>
          refine .inr (.inl ⟨transGen_of_mem_superclassChain (List.mem_of_find?_eq_some hfind), ?_⟩)
          exact isSubtype_iff.1 (List.find?_some hfind)

/-- **A least upper bound is above both types.** -/
theorem below_leastUpperBound (hp : p.Topped) (ha : a.isReference = true) (hb : b.isReference = true) :
    p.Below a (p.leastUpperBound a b) ∧ p.Below b (p.leastUpperBound a b) := by
  induction hn : a.chars.length using Nat.strongRecOn generalizing a b with
  | _ n ih =>
    rcases leastUpperBound_cases a b with ⟨h, heq⟩ | ⟨h, heq⟩ | ⟨x, y, hx, hy, rfl, rfl, heq⟩ | ⟨h, h'⟩ | heq
    · rw [heq]
      exact ⟨h, .refl b⟩
    · rw [heq]
      exact ⟨.refl a, h⟩
    · obtain ⟨hleft, hright⟩ := ih x.chars.length (by rw [← hn]; simp) hx hy rfl
      rw [heq]
      exact ⟨.array hx hleft, .array hy hright⟩
    · exact ⟨hp.below_of_transGen h, h'⟩
    · rw [heq]
      exact ⟨.top ha, .top hb⟩

theorem leastUpperBound_of_isClass (ha : a.isClass = true) (hba : ¬ p.Below b a) :
    p.leastUpperBound a b =
      if p.isSubtype a b then b else ((p.superclassChain a).find? (p.isSubtype b)).getD .object := by
  rw [leastUpperBound]
  rw [← isSubtype_iff] at hba
  rw [if_neg (c := p.isSubtype b a = true) hba]
  split
  · rfl
  · split
    · next x y hx _ =>
      rw [Descriptor.element?_of_isClass ha] at hx
      cases hx
    · rfl

/-- The least upper bound of two types below `t` is below `t`. -/
def Joinable (p : Program) (t : Descriptor) : Prop := ∀ a b, p.Below a t → p.Below b t → p.Below (p.leastUpperBound a b) t

theorem joinable_object (hp : p.Rooted) : p.Joinable .object := by
  intro a b ha hb
  have hreference {t : Descriptor} (ht : p.Below t .object) : t.isReference = true := by
    rcases ht.isReference with rfl | ⟨ht, -⟩
    · exact Descriptor.isReference_of_isClass Descriptor.isClass_object
    · exact ht
  obtain ⟨hleft, -⟩ := below_leastUpperBound hp.topped (hreference ha) (hreference hb)
  rcases hleft.isReference with heq | ⟨-, hlub⟩
  · rwa [← heq]
  · exact .top hlub

/-- **Joins stay below a class that no interface leads to.** -/
theorem joinable_of_isClass (hp : p.Rooted) {t : Descriptor} (ht : t.isClass = true)
    (hno : ∀ c ∈ p.classes, ∀ i ∈ c.interfaces, ¬ p.Below i t) : p.Joinable t := by
  by_cases htop : t = .object
  · exact htop ▸ joinable_object hp
  intro a b ha hb
  by_cases hba : p.Below b a
  · rw [leastUpperBound]
    split
    · exact hb
    · rwa [if_pos (isSubtype_iff.2 hba)]
  · obtain ⟨haclass, habove⟩ := ha.transGen_of_isClass ht htop fun heq => hba (heq ▸ hb)
    have hmem := mem_superclassChain hp hno habove
    rw [leastUpperBound_of_isClass haclass hba]
    split
    · exact hb
    · cases hfind : (p.superclassChain a).find? (p.isSubtype b) with
      | none => exact absurd (isSubtype_iff.2 hb) (List.find?_eq_none.1 hfind t hmem)
      | some s =>
        -- The first superclass above `b` comes before `t` on the way, so it is below it.
        obtain ⟨hs, before, after, heq, hbefore⟩ := List.find?_eq_some_iff_append.1 hfind
        have hpairwise := (List.pairwise_cons.1 (p.pairwise_superclasses (p.size + 1) a)).2
        rw [← above, ← superclassChain_eq hp.toWellFormed, heq] at hpairwise
        rw [heq, List.mem_append, List.mem_cons] at hmem
        rcases hmem with hmem | rfl | hmem
        · have := hbefore t hmem
          simp [isSubtype_iff.2 hb] at this
        · exact .refl _
        · exact hp.topped.below_of_transGen ((List.pairwise_cons.1 (List.pairwise_append.1 hpairwise).2.1).1 t hmem)

/-- **A bound that changes in a join loses height.** -/
theorem height_leastUpperBound_lt (hp : p.Rooted) (hrank : Ranked p.classes rank) (h : p.leastUpperBound a b ≠ a) :
    height rank (p.leastUpperBound a b) < height rank a := by
  induction hn : a.chars.length using Nat.strongRecOn generalizing a b with
  | _ n ih =>
    rcases leastUpperBound_cases a b with ⟨hab, heq⟩ | ⟨-, heq⟩ | ⟨x, y, hx, hy, rfl, rfl, heq⟩ | ⟨habove, -⟩ | heq
    · rw [heq] at h ⊢
      exact hab.height_lt hp hrank (Ne.symm h)
    · exact absurd heq h
    · rw [heq] at h ⊢
      have hlt := ih x.chars.length (by rw [← hn]; simp) (fun hxy => h (congrArg _ hxy)) rfl
      rw [height_toArray, height_toArray]
      omega
    · exact height_lt_of_transGen hp hrank habove
    · rw [heq] at h ⊢
      rw [height_object]
      exact height_of_ne_object (Ne.symm h)

end

end Program

end DexShrinker
