/-
  DexShrinker/Proofs/App/Searching.lean
  =====================================
  **Walks over a hierarchy that come to an end.**

  A hierarchy can have cycles, so a walk over it ends only if it keeps a record of where it has been.
  Here the walks are runs (`Searches`, `Rises`): inductive relations without fuel and without a pool
  that shrinks, in which a run that goes on forever has no derivation.

  A search with a record ends, because a type that is new and has a class takes this class out of what
  is left to do (`exists_searches`), and it answers whether it can reach what it looks for
  (`Searches.isSome_iff`). Whether a class is below another one is such a search
  (`searchesAbove_isSubtype`). The chain of superclasses stops at the first class that is in it already
  (`rises_superclassChain`).

  With this the order of types and the least upper bound of two types are described for all
  hierarchies with nothing above the top (`ordered_of_topped`).
-/
import DexShrinker.Proofs.App.Subtyping

namespace DexShrinker

namespace Program

/-! ### Searches with a record -/

/-- The runs of a search that keeps the types it has been to, over types that wait. A type that is
    new is tested; if the test does not answer, `add` puts what is `next` to the types that wait. -/
inductive Searches {α : Type} (test : Descriptor → Option α) (next : Descriptor → List Descriptor)
    (add : List Descriptor → List Descriptor → List Descriptor) : List Descriptor → List Descriptor → Option α → Prop
  | exhausted {seen : List Descriptor} : Searches test next add seen [] none
  | again {seen work : List Descriptor} {t : Descriptor} {r : Option α} (ht : t ∈ seen)
      (h : Searches test next add seen work r) : Searches test next add seen (t :: work) r
  | hit {seen work : List Descriptor} {t : Descriptor} {x : α} (ht : t ∉ seen) (hx : test t = some x) :
      Searches test next add seen (t :: work) (some x)
  | on {seen work : List Descriptor} {t : Descriptor} {r : Option α} (ht : t ∉ seen) (hx : test t = none)
      (h : Searches test next add (t :: seen) (add work (next t)) r) : Searches test next add seen (t :: work) r

section

variable {α : Type} {test : Descriptor → Option α} {next : Descriptor → List Descriptor}
  {add : List Descriptor → List Descriptor → List Descriptor} {seen work : List Descriptor} {r r' : Option α}

theorem Searches.unique (h : Searches test next add seen work r) (h' : Searches test next add seen work r') : r = r' := by
  induction h with
  | exhausted =>
    cases h'
    rfl
  | again ht _ ih =>
    cases h' with
    | again _ h' => exact ih h'
    | hit hnew _ => exact absurd ht hnew
    | on hnew _ _ => exact absurd ht hnew
  | hit ht hx =>
    cases h' with
    | again hold _ => exact absurd hold ht
    | hit _ hx' => exact hx.symm.trans hx'
    | on _ hnone _ => cases hnone.symm.trans hx
  | on ht hnone _ ih =>
    cases h' with
    | again hold _ => exact absurd hold ht
    | hit _ hx => cases hnone.symm.trans hx
    | on _ _ h' => exact ih h'

/-- The types that a search can come to. -/
def Leads (next : Descriptor → List Descriptor) (t u : Descriptor) : Prop := Relation.ReflTransGen (fun t u => u ∈ next t) t u

/-- What a search finds is somewhere it can come to. -/
theorem Searches.exists_of_some (hadd : ∀ work new u, u ∈ add work new → u ∈ work ∨ u ∈ new)
    (h : Searches test next add seen work r) {x : α} (hr : r = some x) :
    ∃ t ∈ work, ∃ u, Leads next t u ∧ test u = some x := by
  induction h with
  | exhausted => cases hr
  | again _ _ ih =>
    obtain ⟨t, ht, hu⟩ := ih hr
    exact ⟨t, List.mem_cons_of_mem _ ht, hu⟩
  | @hit _ _ t _ _ hx =>
    cases hr
    exact ⟨t, List.mem_cons_self, t, .refl, hx⟩
  | @on _ _ t _ _ _ _ ih =>
    obtain ⟨t', ht', u, hu, hx⟩ := ih hr
    rcases hadd _ _ _ ht' with ht' | ht'
    · exact ⟨t', List.mem_cons_of_mem _ ht', u, hu, hx⟩
    · exact ⟨t, List.mem_cons_self, u, .head ht' hu, hx⟩

/-- A search that finds nothing has been everywhere: the types it has seen lead to each other only. -/
theorem Searches.exists_closed (hadd : ∀ work new u, u ∈ work ∨ u ∈ new → u ∈ add work new)
    (h : Searches test next add seen work r) (hr : r = none)
    (hseen : ∀ t ∈ seen, test t = none ∧ ∀ u ∈ next t, u ∈ seen ∨ u ∈ work) :
    ∃ all : List Descriptor, seen ⊆ all ∧ work ⊆ all ∧ ∀ t ∈ all, test t = none ∧ ∀ u ∈ next t, u ∈ all := by
  induction h with
  | @exhausted seen => exact ⟨seen, List.Subset.refl _, by simp, fun t ht => by simpa using hseen t ht⟩
  | @again seen work t _ ht _ ih =>
    obtain ⟨all, hall, hwork, hclosed⟩ := ih hr fun t' ht' => by
      refine ⟨(hseen t' ht').1, fun u hu => ?_⟩
      rcases (hseen t' ht').2 u hu with hu | hu
      · exact .inl hu
      · rcases List.mem_cons.1 hu with rfl | hu
        · exact .inl ht
        · exact .inr hu
    exact ⟨all, hall, List.cons_subset.2 ⟨hall ht, hwork⟩, hclosed⟩
  | hit => cases hr
  | @on seen work t _ ht hx _ ih =>
    obtain ⟨all, hall, hwork, hclosed⟩ := ih hr fun t' ht' => by
      rcases List.mem_cons.1 ht' with rfl | ht'
      · exact ⟨hx, fun u hu => .inr (hadd _ _ _ (.inr hu))⟩
      · refine ⟨(hseen t' ht').1, fun u hu => ?_⟩
        rcases (hseen t' ht').2 u hu with hu | hu
        · exact .inl (List.mem_cons_of_mem _ hu)
        · rcases List.mem_cons.1 hu with rfl | hu
          · exact .inl List.mem_cons_self
          · exact .inr (hadd _ _ _ (.inl hu))
    obtain ⟨htop, hall⟩ := List.cons_subset.1 hall
    exact ⟨all, hall, List.cons_subset.2 ⟨htop, fun u hu => hwork (hadd _ _ _ (.inl hu))⟩, hclosed⟩

/-- **A search answers whether it can come to something that the test answers on.** -/
theorem Searches.isSome_iff (hadd : ∀ work new u, u ∈ add work new ↔ u ∈ work ∨ u ∈ new)
    (h : Searches test next add [] work r) : r.isSome = true ↔ ∃ t ∈ work, ∃ u, Leads next t u ∧ (test u).isSome = true := by
  constructor
  · intro hr
    obtain ⟨x, rfl⟩ := Option.isSome_iff_exists.1 hr
    obtain ⟨t, ht, u, hu, hx⟩ := h.exists_of_some (fun _ _ _ => (hadd _ _ _).1) rfl
    exact ⟨t, ht, u, hu, hx ▸ rfl⟩
  · rintro ⟨t, ht, u, hu, hx⟩
    cases hr : r with
    | some x => rfl
    | none =>
      obtain ⟨all, -, hwork, hclosed⟩ := h.exists_closed (fun _ _ _ => (hadd _ _ _).2) hr (by simp)
      have hmem : u ∈ all := by
        clear hx
        induction hu with
        | refl => exact hwork ht
        | tail _ hstep ih => exact (hclosed _ ih).2 _ hstep
      rw [(hclosed u hmem).1] at hx
      cases hx

variable {p : Program}

/-- The classes that a search has not been to. -/
def unseen (p : Program) (seen : List Descriptor) : List ClassDef := p.classes.filter (·.type ∉ seen)

theorem unseen_cons (p : Program) (seen : List Descriptor) (t : Descriptor) : p.unseen (t :: seen) = without (p.unseen seen) t := by
  rw [unseen, unseen, without, List.filter_filter]
  refine List.filter_congr fun c _ => ?_
  rw [Bool.eq_iff_iff]
  simp

theorem find?_unseen {t : Descriptor} (ht : t ∉ seen) : (p.unseen seen).find? (·.type == t) = p.class? t := by
  rw [unseen, List.find?_filter, ← find?_classes]
  congr 1
  funext c
  by_cases hc : c.type = t
  · simp [hc, ht]
  · simp [hc]

/-- **A search over a program comes to an end**, wherever it goes on from classes: every class is gone on from
    once. -/
theorem exists_searches (test : Descriptor → Option α) (hnext : ∀ t, p.class? t = none → next t = [])
    (hadd : ∀ work new, (add work new).length = work.length + new.length) (seen work : List Descriptor) :
    ∃ r, Searches test next add seen work r := by
  induction hn : workLeft (fun c => (next c.type).length) (p.unseen seen) + work.length using Nat.strongRecOn
    generalizing seen work with
  | _ n ih =>
    cases work with
    | nil => exact ⟨none, .exhausted⟩
    | cons t work =>
      by_cases ht : t ∈ seen
      · obtain ⟨r, hr⟩ := ih _ (by simp only [List.length_cons] at hn; omega) seen work rfl
        exact ⟨r, .again ht hr⟩
      · cases hx : test t with
        | some x => exact ⟨some x, .hit ht hx⟩
        | none =>
          have hless : workLeft (fun c => (next c.type).length) (p.unseen (t :: seen)) + (add work (next t)).length < n := by
            rw [unseen_cons, hadd, ← hn, List.length_cons]
            cases hc : p.class? t with
            | none =>
              have hle := workLeft_without_le (fun c => (next c.type).length) (p.unseen seen) t
              rw [hnext t hc, List.length_nil]
              omega
            | some c =>
              have hlt := workLeft_without_lt (fun c => (next c.type).length) ((find?_unseen ht).trans hc)
              rw [Program.type_of_class? hc] at hlt
              omega
          obtain ⟨r, hr⟩ := ih _ hless (t :: seen) (add work (next t)) rfl
          exact ⟨r, .on ht hx hr⟩

end

/-! ### Supertypes -/

/-- The types that the class `t` names as its supertypes. -/
def namedSupertypes (p : Program) (t : Descriptor) : List Descriptor := (p.class? t).elim [] ClassDef.supertypes

/-- The runs of the search for `s` among the supertypes of `t`, nearest ones first. -/
def SearchesAbove (p : Program) (s t : Descriptor) (found : Bool) : Prop :=
  Searches (fun u => if u = s then some () else none) p.namedSupertypes (· ++ ·) [] [t] (if found then some () else none)

section

variable {p : Program} {t s : Descriptor}

theorem mem_namedSupertypes : s ∈ p.namedSupertypes t ↔ p.NamesSuper t s := by
  rw [namedSupertypes, NamesSuper]
  cases p.class? t <;> simp

theorem leads_namedSupertypes : Leads p.namedSupertypes t s ↔ Relation.ReflTransGen p.NamesSuper t s := by
  simp only [Leads, mem_namedSupertypes]

/-- **The search among supertypes ends** and tells what the hierarchy leads to. -/
theorem exists_searchesAbove (s t : Descriptor) :
    ∃ found, p.SearchesAbove s t found ∧ (found = true ↔ Relation.ReflTransGen p.NamesSuper t s) := by
  obtain ⟨r, hr⟩ : ∃ r, Searches (fun u => if u = s then some () else none) p.namedSupertypes (· ++ ·) [] [t] r :=
    exists_searches _ (fun u hu => by rw [namedSupertypes, hu, Option.elim_none]) (fun _ _ => List.length_append) [] [t]
  have hiff := hr.isSome_iff fun _ _ _ => List.mem_append
  refine ⟨r.isSome, ?_, ?_⟩
  · rw [SearchesAbove]
    cases r <;> exact hr
  · rw [hiff]
    constructor
    · rintro ⟨t', ht', u, hu, hs⟩
      obtain rfl := List.mem_singleton.1 ht'
      obtain rfl : u = s := by simpa using hs
      exact leads_namedSupertypes.1 hu
    · intro h
      exact ⟨t, List.mem_singleton_self t, s, leads_namedSupertypes.2 h, by simp⟩

/-- Subtyping between classes is what the search finds. -/
theorem searchesAbove_isSubtype (ht : t.isClass = true) (hs : s.isClass = true) (htop : s ≠ .object) :
    p.SearchesAbove s t (p.isSubtype t s) := by
  obtain ⟨found, hfound, hiff⟩ := exists_searchesAbove s t
  have heq : p.isSubtype t s = found := by
    rw [Bool.eq_iff_iff, isSubtype_iff, hiff, Relation.reflTransGen_iff_eq_or_transGen]
    constructor
    · intro h
      by_cases hne : t = s
      · exact .inl hne.symm
      · exact .inr (h.transGen_of_isClass hs htop hne).2
    · rintro (rfl | h)
      · exact .refl _
      · exact .named ht hs h
  rwa [heq]

end

/-! ### Superclasses -/

/-- The runs of a walk along superclasses that keeps the chain it has made and stops at a class that is in it. -/
inductive Rises (p : Program) : List Descriptor → Descriptor → List Descriptor → Prop
  | top {chain : List Descriptor} {t : Descriptor} (ht : (p.class? t).bind ClassDef.superclass = none) : Rises p chain t chain
  | round {chain : List Descriptor} {t s : Descriptor} (ht : (p.class? t).bind ClassDef.superclass = some s) (hs : s ∈ chain) :
      Rises p chain t chain
  | up {chain whole : List Descriptor} {t s : Descriptor} (ht : (p.class? t).bind ClassDef.superclass = some s) (hs : s ∉ chain)
      (h : Rises p (chain ++ [s]) s whole) : Rises p chain t whole

theorem mem_keys_of_class? {p : Program} {t : Descriptor} {c : ClassDef} (h : p.class? t = some c) : t ∈ p.classMap.keys := by
  rw [Std.TreeMap.mem_keys, Std.TreeMap.mem_iff_isSome_getElem?]
  exact Option.isSome_iff_exists.2 ⟨c, h⟩

/-- The types with a class that are not in a chain. -/
def unclimbed (p : Program) (chain : List Descriptor) : List Descriptor := p.classMap.keys.filter (· ∉ chain)

theorem length_unclimbed_lt {p : Program} {chain : List Descriptor} {s : Descriptor} {c : ClassDef} (hc : p.class? s = some c)
    (hs : s ∉ chain) : (p.unclimbed (chain ++ [s])).length < (p.unclimbed chain).length := by
  have hfilter : p.unclimbed (chain ++ [s]) = (p.unclimbed chain).filter (· ≠ s) := by
    rw [unclimbed, unclimbed, List.filter_filter]
    refine List.filter_congr fun u _ => ?_
    rw [Bool.eq_iff_iff]
    simp [and_comm]
  rw [hfilter]
  refine List.length_filter_lt_length_iff_exists.2 ⟨s, List.mem_filter.2 ⟨mem_keys_of_class? hc, by simpa using hs⟩, by simp⟩

/-- A walk with as many steps as there are classes outside the chain has come to its end. -/
theorem rises_superclassesFrom (p : Program) (fuel : Nat) (chain : List Descriptor) (t : Descriptor)
    (hfuel : p.class? t = none ∨ (p.unclimbed chain).length < fuel) : p.Rises chain t (p.superclassesFrom fuel chain t) := by
  induction fuel generalizing chain t with
  | zero =>
    rw [superclassesFrom]
    refine .top ?_
    rcases hfuel with hnone | hlt
    · rw [hnone, Option.bind_none]
    · cases hlt
  | succ fuel ih =>
    rw [superclassesFrom]
    cases hsuper : (p.class? t).bind ClassDef.superclass with
    | none => exact .top hsuper
    | some s =>
      by_cases hs : s ∈ chain
      · simp only [if_pos hs]
        exact .round hsuper hs
      · simp only [if_neg hs]
        refine .up hsuper hs (ih (chain ++ [s]) s ?_)
        cases hc : p.class? s with
        | none => exact .inl rfl
        | some c =>
          -- The walk started at a class, so there is a bound on the classes outside the chain.
          obtain hnone | hlt := hfuel
          · rw [hnone] at hsuper
            cases hsuper
          · exact .inr (Nat.lt_of_lt_of_le (length_unclimbed_lt hc hs) (Nat.le_of_lt_succ hlt))

/-- **The chain of superclasses comes to an end**, cycle or not. -/
theorem rises_superclassChain (p : Program) (t : Descriptor) : p.Rises [] t (p.superclassChain t) := by
  refine p.rises_superclassesFrom _ [] t (.inr (Nat.lt_succ_of_le ?_))
  rw [size, ← Std.TreeMap.length_keys]
  exact List.length_filter_le _ _

/-! ### The order of types -/

/-- What stands before the first hit is no hit. -/
theorem eq_false_of_mem_takeWhile {α : Type} [DecidableEq α] (hit : α → Bool) (d : α) (xs : List α) :
    ∀ x ∈ xs.takeWhile (· ≠ (xs.find? hit).getD d), hit x = false := by
  induction xs with
  | nil => simp
  | cons y ys ih =>
    cases hy : hit y with
    | true => simp [hy]
    | false =>
      intro x hx
      rw [List.find?_cons_of_neg (by simp [hy]), List.takeWhile_cons] at hx
      split at hx
      · rcases List.mem_cons.1 hx with rfl | hx
        · exact hy
        · exact ih x hx
      · cases hx

/-- Subtyping is a preorder that walks with an end decide, and least upper bounds are bounds. -/
structure Ordered (p : Program) : Prop where
  /-- Between classes, subtyping is what a search among the supertypes finds when it ends. -/
  search : ∀ a b : Descriptor, a.isClass = true → b.isClass = true → b ≠ .object → p.SearchesAbove b a (p.isSubtype a b)
  /-- The walk along superclasses ends with the chain. -/
  climb : ∀ t, p.Rises [] t (p.superclassChain t)
  refl : ∀ t, p.isSubtype t t = true
  trans : ∀ a b c, p.isSubtype a b = true → p.isSubtype b c = true → p.isSubtype a c = true
  /-- A least upper bound is above both types. -/
  bound : ∀ a b : Descriptor, a.isReference = true → b.isReference = true →
    p.isSubtype a (p.leastUpperBound a b) = true ∧ p.isSubtype b (p.leastUpperBound a b) = true
  /-- No superclass of `a` before the least upper bound with an unrelated class `b` is above `b`. -/
  nearest : ∀ a b : Descriptor, a.isClass = true → b.isClass = true → p.isSubtype a b = false → p.isSubtype b a = false →
    ∀ s ∈ (p.superclassChain a).takeWhile (· ≠ p.leastUpperBound a b), p.isSubtype b s = false

/-- **The order of types**, for every hierarchy of classes with nothing above the top, with cycles and
    missing classes or without. -/
theorem ordered_of_topped {p : Program} (hp : p.Topped) : p.Ordered where
  search a b ha hb htop := searchesAbove_isSubtype ha hb htop
  climb := p.rises_superclassChain
  refl t := isSubtype_iff.2 (.refl t)
  trans a b c hab hbc := by
    rw [isSubtype_iff] at hab hbc ⊢
    exact hab.trans hp hbc
  bound a b ha hb := by
    rw [isSubtype_iff, isSubtype_iff]
    exact below_leastUpperBound hp ha hb
  nearest a b ha _ hab hba := by
    have hnot : ¬ p.Below b a := fun h => by
      rw [← isSubtype_iff, hba] at h
      cases h
    rw [leastUpperBound_of_isClass ha hnot, hab, if_neg Bool.false_ne_true]
    exact eq_false_of_mem_takeWhile _ _ _

/-- `A` and `B` are above each other, and so are the interfaces `I` and `J`; `C` and `D` meet at `A`, and `E` stands
    below a class that is missing. -/
def cyclicSample : Program :=
  .ofList [{ type := .object, kind := .library, superclass := none },
    { type := ⟨"Lp/A;"⟩, superclass := some ⟨"Lp/B;"⟩ },
    { type := ⟨"Lp/B;"⟩, superclass := some ⟨"Lp/A;"⟩ },
    { type := ⟨"Lp/C;"⟩, superclass := some ⟨"Lp/A;"⟩, interfaces := [⟨"Lp/I;"⟩] },
    { type := ⟨"Lp/D;"⟩, superclass := some ⟨"Lp/B;"⟩ },
    { type := ⟨"Lp/E;"⟩, superclass := some ⟨"Lmissing/X;"⟩, interfaces := [⟨"Lp/J;"⟩] },
    { type := ⟨"Lp/I;"⟩, access := .interfaceFlag, superclass := some .object, interfaces := [⟨"Lp/J;"⟩] },
    { type := ⟨"Lp/J;"⟩, access := .interfaceFlag, superclass := some .object, interfaces := [⟨"Lp/I;"⟩] }]

theorem ordered_of_topped_cyclicSample : cyclicSample.Topped ∧ cyclicSample.Ordered := by
  have htopped : cyclicSample.Topped :=
    ⟨⟨by decide +kernel⟩, by decide +kernel, by decide +kernel⟩
  exact ⟨htopped, ordered_of_topped htopped⟩

end Program

end DexShrinker
