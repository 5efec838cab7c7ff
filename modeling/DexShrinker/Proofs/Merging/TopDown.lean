/-
  DexShrinker/Proofs/Merging/TopDown.lean
  =======================================
  **Going through classes from the top down.**

  The depth of a type is found by going up to all of its supertypes, with the depths found so far at
  hand. A run of this is a finite derivation (`Program.NotesDepths`), and it has one outcome
  (`NotesDepths.unique`). There is a run for every map of supertypes, also for one with cycles: a type gets
  a provisional zero before its supertypes are looked at, so each way up ends at the latest when all
  types have some depth (`notesDepths_noteDepth`). What has a depth keeps it (`NotesDepths.found`).

  Without cycles no provisional zero is ever looked up. So every type that is off the path of the run
  is one deeper than the deepest of its supertypes (`NotesDepths.measured`), which leaves only one depth for
  it, whichever type was looked at first (`Measured.unique`). A supertype has a smaller depth than its
  subtypes, so ordered by depth it comes before them.
-/
import DexShrinker.Merging.Placement
import DexShrinker.Proofs.Program
import DexShrinker.Proofs.Sorting
import Mathlib.Data.List.Basic
import Mathlib.Logic.Relation

namespace DexShrinker.Program

open Std
open Relation (TransGen)

variable {sup : TypeMap (List Descriptor)} {m m₁ m' : TypeMap Nat} {t x : Descriptor} {ts path : List Descriptor} {ds : List Nat}
  {d : Nat}

/-! ### Looking up depths -/

/-- The depth of a type over supertypes of the depths `ds`. -/
def depthOver (ds : List Nat) : Nat := ds.foldl (fun n d => max n (d + 1)) 0

/-- **A run:** with the depths `m` at hand, the depths `ds` are found for the types `ts` one after the other, after which the
    depths `m'` are at hand. -/
inductive NotesDepths (sup : TypeMap (List Descriptor)) : TypeMap Nat → List Descriptor → List Nat → TypeMap Nat → Prop where
  | done (m : TypeMap Nat) : NotesDepths sup m [] [] m
  /-- The type has a depth already. -/
  | known {m m' : TypeMap Nat} {t : Descriptor} {d : Nat} {ts : List Descriptor} {ds : List Nat} :
    m[t]? = some d → NotesDepths sup m ts ds m' → NotesDepths sup m (t :: ts) (d :: ds) m'
  /-- The type is new. It has depth zero as long as its supertypes are looked at. -/
  | new {m m₁ m' : TypeMap Nat} {t : Descriptor} {es : List Nat} {ts : List Descriptor} {ds : List Nat} :
    t ∉ m → NotesDepths sup (m.insert t 0) (sup.getD t []) es m₁ → NotesDepths sup (m₁.insert t (depthOver es)) ts ds m' →
      NotesDepths sup m (t :: ts) (depthOver es :: ds) m'

/-- The second table has the entries of the first one. -/
def Agrees (m m' : TypeMap Nat) : Prop := ∀ x : Descriptor, x ∈ m → x ∈ m' ∧ m'.getD x 0 = m.getD x 0

theorem Agrees.refl (m : TypeMap Nat) : Agrees m m := fun _ hx => ⟨hx, rfl⟩

theorem Agrees.trans (h : Agrees m m₁) (h' : Agrees m₁ m') : Agrees m m' := by
  intro x hx
  obtain ⟨hx', heq⟩ := h x hx
  obtain ⟨hx'', heq'⟩ := h' x hx'
  exact ⟨hx'', heq'.trans heq⟩

theorem mem_insert_iff {n : Nat} : x ∈ m.insert t n ↔ t = x ∨ x ∈ m := by
  rw [TreeMap.mem_insert, LawfulEqCmp.compare_eq_iff_eq]

theorem getD_insert_of_ne (h : t ≠ x) (n : Nat) : (m.insert t n).getD x 0 = m.getD x 0 := by
  rw [TreeMap.getD_insert, if_neg (by simpa using h)]

theorem Agrees.insert (h : Agrees m m') (ht : t ∉ m) (n : Nat) : Agrees m (m'.insert t n) := by
  intro x hx
  have hne : t ≠ x := by
    rintro rfl
    exact ht hx
  obtain ⟨hx', heq⟩ := h x hx
  exact ⟨mem_insert_iff.2 (.inr hx'), (getD_insert_of_ne hne n).trans heq⟩

/-- **What has a depth keeps it,** and the depths that were found are at hand in the end. -/
theorem NotesDepths.found (h : NotesDepths sup m ts ds m') : Agrees m m' ∧ ds = ts.map (m'.getD · 0) ∧ ∀ t ∈ ts, t ∈ m' := by
  induction h with
  | done m => exact ⟨.refl m, rfl, by simp⟩
  | @known m m' t d ts ds hd _ ih =>
    obtain ⟨hagrees, rfl, hall⟩ := ih
    have ht : t ∈ m := by
      rw [TreeMap.mem_iff_isSome_getElem?, hd]
      rfl
    obtain ⟨ht', heq⟩ := hagrees t ht
    refine ⟨hagrees, ?_, List.forall_mem_cons.2 ⟨ht', hall⟩⟩
    rw [List.map_cons, heq, TreeMap.getD_eq_getD_getElem?, hd, Option.getD_some]
  | @new m m₁ m' t es ts ds hnew _ _ ihsup ih =>
    obtain ⟨hup, -, -⟩ := ihsup
    obtain ⟨hagrees, rfl, hall⟩ := ih
    obtain ⟨ht, heq⟩ := hagrees t (mem_insert_iff.2 (.inl rfl))
    refine ⟨?_, ?_, List.forall_mem_cons.2 ⟨ht, hall⟩⟩
    · exact ((((Agrees.refl m).insert hnew 0).trans hup).insert hnew _).trans hagrees
    · rw [List.map_cons, heq, TreeMap.getD_insert_self]

/-- A run has one outcome. -/
theorem NotesDepths.unique {ds' : List Nat} {m'' : TypeMap Nat} (h : NotesDepths sup m ts ds m') (h' : NotesDepths sup m ts ds' m'') :
    ds = ds' ∧ m' = m'' := by
  have hmem {m : TypeMap Nat} {t : Descriptor} {d : Nat} (hd : m[t]? = some d) : t ∈ m := by
    rw [TreeMap.mem_iff_isSome_getElem?, hd]
    rfl
  induction h generalizing ds' m'' with
  | done m =>
    cases h'
    exact ⟨rfl, rfl⟩
  | known hd _ ih =>
    cases h' with
    | known hd' hrest =>
      cases hd.symm.trans hd'
      obtain ⟨rfl, rfl⟩ := ih hrest
      exact ⟨rfl, rfl⟩
    | new hnew => exact absurd (hmem hd) hnew
  | new hnew _ _ ihsup ih =>
    cases h' with
    | known hd' => exact absurd (hmem hd') hnew
    | new _ hup hrest =>
      obtain ⟨rfl, rfl⟩ := ihsup hup
      obtain ⟨rfl, rfl⟩ := ih hrest
      exact ⟨rfl, rfl⟩

/-- A run goes on after its first type. -/
theorem NotesDepths.cons (h : NotesDepths sup m [t] [d] m₁) (h' : NotesDepths sup m₁ ts ds m') : NotesDepths sup m (t :: ts) (d :: ds) m' := by
  cases h with
  | known hd hdone =>
    cases hdone
    exact .known hd h'
  | new hnew hup hdone =>
    cases hdone
    exact .new hnew hup h'

/-! ### Coming to an end -/

variable {keys : List Descriptor}

/-- The keys that have no depth. -/
def unnoted (keys : List Descriptor) (m : TypeMap Nat) : List Descriptor := keys.filter fun k => k ∉ m

theorem length_unnoted_lt (ht : t ∈ keys) (hnew : t ∉ m) (hagrees : Agrees m m') (ht' : t ∈ m') :
    (unnoted keys m').length < (unnoted keys m).length := by
  have hsub : unnoted keys m' = (unnoted keys m).filter fun k => k ∉ m' := by
    rw [unnoted, unnoted, List.filter_filter]
    refine List.filter_congr fun k _ => ?_
    have hkeeps : k ∉ m' → k ∉ m := fun hnone hin => hnone (hagrees k hin).1
    simpa using hkeeps
  rw [hsub, List.length_filter_lt_length_iff_exists]
  exact ⟨t, List.mem_filter.2 ⟨ht, by simpa using hnew⟩, by simpa using ht'⟩

/-- **The way up from a type ends.** Only keys have supertypes, and with every one of them that is new there is one less to go. -/
theorem notesDepths_noteDepth (hkeys : ∀ t, sup.getD t [] ≠ [] → t ∈ keys) (fuel : Nat) (hfuel : (unnoted keys m).length < fuel) :
    ∃ d, NotesDepths sup m [t] [d] (noteDepth sup fuel m t) := by
  induction fuel generalizing m t with
  | zero => omega
  | succ fuel ih =>
    rw [noteDepth]
    by_cases hmem : t ∈ m
    · obtain ⟨d, hd⟩ := Option.isSome_iff_exists.1 (TreeMap.mem_iff_isSome_getElem?.1 hmem)
      rw [if_pos (TreeMap.contains_iff_mem.2 hmem)]
      exact ⟨d, .known hd (.done m)⟩
    · rw [if_neg (by simpa using hmem)]
      -- The supertypes are looked at one by one, with `t` among the types that have a depth.
      have hloop (ss : List Descriptor) (hss : ∀ s ∈ ss, s ∈ sup.getD t []) (m₁ : TypeMap Nat) (n : Nat)
          (hagrees : Agrees (m.insert t 0) m₁) :
          let r := ss.foldl (fun (x : TypeMap Nat × Nat) s =>
            (noteDepth sup fuel x.1 s, max x.2 ((noteDepth sup fuel x.1 s).getD s 0 + 1))) (m₁, n)
          ∃ es, NotesDepths sup m₁ ss es r.1 ∧ r.2 = es.foldl (fun n d => max n (d + 1)) n := by
        induction ss generalizing m₁ n with
        | nil => exact ⟨[], .done m₁, rfl⟩
        | cons s ss ihs =>
          have hkey : t ∈ keys := hkeys t (List.ne_nil_of_mem (hss s (by simp)))
          have hless := length_unnoted_lt hkey hmem (((Agrees.refl m).insert hmem 0).trans hagrees)
            (hagrees t (mem_insert_iff.2 (.inl rfl))).1
          obtain ⟨d, hone⟩ := ih (m := m₁) (t := s) (by omega)
          obtain ⟨hkeeps, hfound, -⟩ := hone.found
          obtain ⟨es, hrest, hdepth⟩ := ihs (fun x hx => hss x (by simp [hx])) (noteDepth sup fuel m₁ s)
            (max n ((noteDepth sup fuel m₁ s).getD s 0 + 1)) (hagrees.trans hkeeps)
          refine ⟨d :: es, hone.cons hrest, ?_⟩
          rw [List.foldl_cons, List.foldl_cons, (List.cons.inj hfound).1]
          exact hdepth
      obtain ⟨es, hes, hdepth⟩ := hloop (sup.getD t []) (fun _ hs => hs) (m.insert t 0) 0 (.refl _)
      refine ⟨depthOver es, .new hmem hes ?_⟩
      rw [depthOver, ← hdepth]
      exact .done _

/-- Looking up one type after the other is a run. -/
theorem notesDepths_foldl_noteDepth (hkeys : ∀ t, sup.getD t [] ≠ [] → t ∈ keys) {fuel : Nat} (hfuel : keys.length < fuel)
    (ts : List Descriptor) (m : TypeMap Nat) : ∃ ds, NotesDepths sup m ts ds (ts.foldl (noteDepth sup fuel) m) := by
  induction ts generalizing m with
  | nil => exact ⟨[], .done m⟩
  | cons t ts ih =>
    obtain ⟨d, hone⟩ := notesDepths_noteDepth (m := m) (t := t) hkeys fuel (Nat.lt_of_le_of_lt (List.length_filter_le _ _) hfuel)
    obtain ⟨ds, hrest⟩ := ih (noteDepth sup fuel m t)
    exact ⟨d :: ds, hone.cons hrest⟩

/-! ### Without cycles -/

theorem foldl_max_eq (ds : List Nat) (n : Nat) : ds.foldl (fun n d => max n (d + 1)) n = max n (depthOver ds) := by
  unfold depthOver
  induction ds generalizing n with
  | nil => simp
  | cons d ds ih =>
    rw [List.foldl_cons, List.foldl_cons, ih, ih (max 0 (d + 1))]
    omega

theorem lt_depthOver (hd : d ∈ ds) : d < depthOver ds := by
  induction ds with
  | nil => cases hd
  | cons e es ih =>
    rw [depthOver, List.foldl_cons, foldl_max_eq]
    rcases List.mem_cons.1 hd with rfl | hd
    · omega
    · have := ih hd
      omega

/-- The second type is a supertype of the first one. -/
def Above (sup : TypeMap (List Descriptor)) (t s : Descriptor) : Prop := s ∈ sup.getD t []

/-- Off the path, a type with a depth is one deeper than the deepest of its supertypes, which have depths and are off the path
    as well. -/
def Measured (sup : TypeMap (List Descriptor)) (path : List Descriptor) (m : TypeMap Nat) : Prop :=
  ∀ x : Descriptor, x ∈ m → x ∉ path →
    (∀ s ∈ sup.getD x [], s ∈ m ∧ s ∉ path) ∧ m.getD x 0 = depthOver ((sup.getD x []).map (m.getD · 0))

theorem map_getD_insert {ss : List Descriptor} (h : t ∉ ss) (n : Nat) : ss.map ((m.insert t n).getD · 0) = ss.map (m.getD · 0) :=
  List.map_congr_left fun s hs => getD_insert_of_ne (fun heq : t = s => h (heq ▸ hs)) n

/-- Begin with a type: it goes to the path. -/
theorem Measured.start (h : Measured sup path m) (hnew : t ∉ m) : Measured sup (t :: path) (m.insert t 0) := by
  intro x hx hpath
  rw [List.mem_cons, not_or] at hpath
  obtain ⟨hsup, hdepth⟩ := h x ((mem_insert_iff.1 hx).resolve_left (Ne.symm hpath.1)) hpath.2
  have hne : t ∉ sup.getD x [] := fun hin => hnew (hsup t hin).1
  refine ⟨fun s hs => ⟨mem_insert_iff.2 (.inr (hsup s hs).1), ?_⟩, ?_⟩
  · rw [List.mem_cons, not_or]
    exact ⟨fun heq => hne (heq ▸ hs), (hsup s hs).2⟩
  · rw [getD_insert_of_ne (Ne.symm hpath.1), map_getD_insert hne, hdepth]

/-- End with a type: it leaves the path, one deeper than the deepest of its supertypes. -/
theorem Measured.finish (h : Measured sup (t :: path) m) (hsup : ∀ s ∈ sup.getD t [], s ∈ m ∧ s ∉ t :: path) :
    Measured sup path (m.insert t (depthOver ((sup.getD t []).map (m.getD · 0)))) := by
  intro x hx hpath
  by_cases hxt : t = x
  · subst hxt
    have hne : t ∉ sup.getD t [] := fun hin => (hsup t hin).2 List.mem_cons_self
    refine ⟨fun s hs => ⟨mem_insert_iff.2 (.inr (hsup s hs).1), fun hin => (hsup s hs).2 (List.mem_cons_of_mem t hin)⟩, ?_⟩
    rw [TreeMap.getD_insert_self, map_getD_insert hne]
  · obtain ⟨hsup', hdepth⟩ := h x ((mem_insert_iff.1 hx).resolve_left hxt) (by simp [Ne.symm hxt, hpath])
    have hne : t ∉ sup.getD x [] := fun hin => (hsup' t hin).2 List.mem_cons_self
    refine ⟨fun s hs => ⟨mem_insert_iff.2 (.inr (hsup' s hs).1), fun hin => (hsup' s hs).2 (List.mem_cons_of_mem t hin)⟩, ?_⟩
    rw [getD_insert_of_ne hxt, map_getD_insert hne, hdepth]

/-- **A run keeps depths right.** The types that are looked up are above all types on the path, so if there is no cycle, they
    are not on it. -/
theorem NotesDepths.measured (h : NotesDepths sup m ts ds m') (hacyclic : ∀ t, ¬ TransGen (Above sup) t t)
    (hm : Measured sup path m) (habove : ∀ t ∈ ts, ∀ x ∈ path, TransGen (Above sup) x t) : Measured sup path m' := by
  induction h generalizing path with
  | done m => exact hm
  | known _ _ ih => exact ih hm (List.forall_mem_cons.1 habove).2
  | @new m m₁ m' t es ts ds hnew hup hrest ihsup ih =>
    obtain ⟨ht, hts⟩ := List.forall_mem_cons.1 habove
    have habove' : ∀ s ∈ sup.getD t [], ∀ x ∈ t :: path, TransGen (Above sup) x s := by
      intro s hs x hx
      rcases List.mem_cons.1 hx with rfl | hx
      · exact .single hs
      · exact (ht x hx).tail hs
    obtain ⟨-, rfl, hall⟩ := hup.found
    exact ih ((ihsup (hm.start hnew) habove').finish fun s hs => ⟨hall s hs, fun hin => hacyclic s (habove' s hs s hin)⟩) hts

theorem Measured.lt (h : Measured sup [] m) (hx : x ∈ m) {s : Descriptor} (hs : s ∈ sup.getD x []) : m.getD s 0 < m.getD x 0 := by
  rw [(h x hx (by simp)).2]
  exact lt_depthOver (List.mem_map_of_mem hs)

/-- **Depths do not depend on the way they were found.** -/
theorem Measured.unique (h : Measured sup [] m) (h' : Measured sup [] m') (hx : x ∈ m) (hx' : x ∈ m') :
    m.getD x 0 = m'.getD x 0 := by
  induction hn : m.getD x 0 using Nat.strongRecOn generalizing x with
  | ind n ih =>
    obtain ⟨hsup, hdepth⟩ := h x hx (by simp)
    obtain ⟨hsup', hdepth'⟩ := h' x hx' (by simp)
    rw [← hn, hdepth, hdepth']
    refine congrArg depthOver (List.map_congr_left fun s hs => ?_)
    exact ih _ (hn ▸ h.lt hx hs) (hsup s hs).1 (hsup' s hs).1 rfl

theorem NotesDepths.measured_of_acyclic (h : NotesDepths sup ∅ ts ds m) (hacyclic : ∀ t, ¬ TransGen (Above sup) t t) : Measured sup [] m :=
  h.measured hacyclic (fun x hx => by simp at hx) (by simp)

/-! ### The order -/

/-- The order of depths, and of types at the same depth. -/
def compareDepths : Nat × Descriptor → Nat × Descriptor → Ordering := compareLex (compareOn Prod.fst) (compareOn Prod.snd)

instance : TransCmp compareDepths := inferInstanceAs (TransCmp (compareLex (compareOn Prod.fst) (compareOn Prod.snd)))

theorem eq_of_compareDepths {a b : Nat × Descriptor} (h : (compareDepths a b).isLE = true) (h' : (compareDepths b a).isLE = true) :
    a = b := by
  have heq : compareDepths a b = .eq := OrientedCmp.isLE_antisymm h h'
  rw [compareDepths, compareLex_eq_eq] at heq
  exact Prod.ext (LawfulEqOrd.eq_of_compare heq.1) (LawfulEqOrd.eq_of_compare heq.2)

theorem isLE_compareDepths {a b : Nat × Descriptor} :
    (compareDepths a b).isLE = true ↔ a.1 < b.1 ∨ a.1 = b.1 ∧ (compare a.2 b.2).isLE = true := by
  rw [compareDepths, compareLex, Ordering.isLE_then_iff_or, compareOn, compareOn, Nat.compare_eq_lt, Nat.compare_eq_eq]

/-- The types of a list with their depths, in order. -/
def byDepth (xs : List (Nat × Descriptor)) : List Descriptor := (sortBy (fun a b => (compareDepths a b).isLE) xs).map Prod.snd

/-- There is one way to order types by depth. -/
theorem byDepth_eq {xs ys : List (Nat × Descriptor)} (hperm : xs.Perm ys)
    (hsorted : ys.Pairwise fun a b => (compareDepths a b).isLE = true) : byDepth xs = ys.map Prod.snd := by
  have heq : sortBy (fun a b => (compareDepths a b).isLE) xs = ys :=
    ((perm_sortBy _ xs).trans hperm).eq_of_pairwise (fun _ _ _ _ => eq_of_compareDepths) (pairwise_sortBy_cmp compareDepths xs) hsorted
  rw [byDepth, heq]

theorem byDepth_congr {xs ys : List (Nat × Descriptor)} (hperm : xs.Perm ys) : byDepth xs = byDepth ys :=
  byDepth_eq (hperm.trans (perm_sortBy _ ys).symm) (pairwise_sortBy_cmp compareDepths ys)

/-- The order from the top down, when depths are looked up for the types of `order` one after the other. -/
def TopDown (sup : TypeMap (List Descriptor)) (order ts : List Descriptor) : Prop :=
  ∃ ds m, NotesDepths sup ∅ order ds m ∧ ts = byDepth (ds.zip order)

theorem NotesDepths.zip_eq (h : NotesDepths sup m ts ds m') : ds.zip ts = ts.map fun t => (m'.getD t 0, t) := by
  have hzip := List.zip_map' (f := (m'.getD · 0)) (g := id) (l := ts)
  rwa [List.map_id, ← h.found.2.1] at hzip

variable {order : List Descriptor}

theorem TopDown.unique {ts' : List Descriptor} (h : TopDown sup order ts) (h' : TopDown sup order ts') : ts = ts' := by
  obtain ⟨ds, m, hrun, rfl⟩ := h
  obtain ⟨ds', m', hrun', rfl⟩ := h'
  rw [(hrun.unique hrun').1]

theorem TopDown.perm (h : TopDown sup order ts) : ts.Perm order := by
  obtain ⟨ds, m, hrun, rfl⟩ := h
  refine ((perm_sortBy _ _).map Prod.snd).trans (.of_eq ?_)
  rw [hrun.zip_eq, List.map_map]
  exact List.map_id _

theorem TopDown.pairwise (h : TopDown sup order ts) (hacyclic : ∀ t, ¬ TransGen (Above sup) t t) :
    ts.Pairwise fun a b => ¬ Above sup a b := by
  obtain ⟨ds, m, hrun, rfl⟩ := h
  have hmeasured := hrun.measured_of_acyclic hacyclic
  have hdepth : ∀ x ∈ sortBy (fun a b => (compareDepths a b).isLE) (ds.zip order), x.2 ∈ m ∧ x.1 = m.getD x.2 0 := by
    intro x hx
    rw [hrun.zip_eq] at hx
    obtain ⟨t, ht, rfl⟩ := List.mem_map.1 ((perm_sortBy _ _).mem_iff.1 hx)
    exact ⟨hrun.found.2.2 t ht, rfl⟩
  rw [byDepth, List.pairwise_map]
  refine (pairwise_sortBy_cmp compareDepths _).imp_of_mem fun {x y} hx hy hle habove => ?_
  obtain ⟨hx', hxd⟩ := hdepth x hx
  obtain ⟨-, hyd⟩ := hdepth y hy
  have hlt := hmeasured.lt hx' habove
  rcases isLE_compareDepths.1 hle with hle | ⟨hle, -⟩ <;> omega

/-- Which type is looked at first does not matter. -/
theorem TopDown.reorder {order' : List Descriptor} (h : TopDown sup order ts) (hacyclic : ∀ t, ¬ TransGen (Above sup) t t)
    (hperm : order'.Perm order) {ts' : List Descriptor} (h' : TopDown sup order' ts') : ts' = ts := by
  obtain ⟨ds, m, hrun, rfl⟩ := h
  obtain ⟨ds', m', hrun', rfl⟩ := h'
  have hmeasured := hrun.measured_of_acyclic hacyclic
  have hmeasured' := hrun'.measured_of_acyclic hacyclic
  have heq : (order'.map fun t => (m'.getD t 0, t)) = order'.map fun t => (m.getD t 0, t) := by
    refine List.map_congr_left fun t ht => ?_
    rw [hmeasured'.unique hmeasured (hrun'.found.2.2 t ht) (hrun.found.2.2 t (hperm.mem_iff.1 ht))]
  rw [hrun.zip_eq, hrun'.zip_eq, heq]
  exact byDepth_congr (hperm.map _)

theorem exists_topDown (sup : TypeMap (List Descriptor)) (order : List Descriptor) : ∃ ts, TopDown sup order ts := by
  have hkeys (t : Descriptor) (ht : sup.getD t [] ≠ []) : t ∈ sup.keys := by
    rw [TreeMap.mem_keys]
    by_contra hno
    exact ht (TreeMap.getD_eq_fallback hno)
  obtain ⟨ds, hrun⟩ := notesDepths_foldl_noteDepth hkeys (Nat.lt_succ_self _) order ∅
  exact ⟨_, ds, _, hrun, rfl⟩

/-! ### Classes -/

variable {classes : List ClassDef}

/-- A class is found under its type. -/
theorem getD_supertypesOf (hnodup : (classes.map ClassDef.type).Nodup) {c : ClassDef} (hc : c ∈ classes) :
    (supertypesOf classes).getD c.type [] = c.supertypes := by
  have hget : (supertypesOf classes)[c.type]? = some c.supertypes := by
    refine TreeMap.getElem?_ofList_of_mem (k := c.type) compare_self ?_ (List.mem_map_of_mem hc)
    rw [List.pairwise_map]
    rw [List.Nodup, List.pairwise_map] at hnodup
    exact hnodup.imp fun hne heq => hne (LawfulEqOrd.eq_of_compare heq)
  rw [TreeMap.getD_eq_getD_getElem?, hget]
  rfl

theorem mem_types_of_supertypesOf (h : (supertypesOf classes).getD t [] ≠ []) : t ∈ classes.map ClassDef.type := by
  by_contra hno
  refine h ?_
  rw [TreeMap.getD_eq_getD_getElem?, supertypesOf, TreeMap.getElem?_ofList_of_contains_eq_false]
  · rfl
  · simpa using hno

/-- The types of classes are put in order by a run. -/
theorem topDown_types (hash : HashOrder) (classes : List ClassDef) :
    TopDown (supertypesOf classes) (hash.types (classes.map ClassDef.type)) ((topDown hash classes).map ClassDef.type) := by
  have hperm := perm_sortBy (fun a b => (compare a.type b.type).isLE) classes
  have hsorted : (sortBy (fun a b => (compare a.type b.type).isLE) classes).Pairwise
      fun a b => (compare a.type b.type).isLE = true := pairwise_sortBy_cmp (compareOn ClassDef.type) classes
  generalize hbyType : sortBy (fun a b => (compare a.type b.type).isLE) classes = byType at hperm hsorted
  obtain ⟨ds, hrun⟩ := notesDepths_foldl_noteDepth
    (fun t (ht : (supertypesOf classes).getD t [] ≠ []) => mem_types_of_supertypesOf ht)
    (show (classes.map ClassDef.type).length < classes.length + 1 by simp) (hash.types (classes.map ClassDef.type)) ∅
  change NotesDepths (supertypesOf classes) ∅ (hash.types (classes.map ClassDef.type)) ds (depths hash classes) at hrun
  refine ⟨ds, depths hash classes, hrun, ?_⟩
  -- Classes that are sorted by type stay in this order where their depth is the same.
  let pairs := byType.map fun c => ((depths hash classes).getD c.type 0, c)
  have hstable : (sortBy (fun a b => a.1 ≤ b.1) pairs).Pairwise
      fun a b => decide (a.1 ≤ b.1) = true ∧ (decide (b.1 ≤ a.1) = true → (compare a.2.type b.2.type).isLE = true) :=
    pairwise_sortBy_stable (by simpa using fun a _ b _ c _ => Nat.le_trans) (by simpa using fun a _ b _ => Nat.le_total a b)
      (List.pairwise_map.2 hsorted)
  have hordered : ((sortBy (fun a b => a.1 ≤ b.1) pairs).map fun x => (x.1, x.2.type)).Pairwise
      fun a b => (compareDepths a b).isLE = true := by
    refine List.pairwise_map.2 (hstable.imp fun {a b} h => isLE_compareDepths.2 ?_)
    rcases Nat.lt_or_eq_of_le (of_decide_eq_true h.1) with hlt | heq
    · exact .inl hlt
    · exact .inr ⟨heq, h.2 (decide_eq_true (Nat.le_of_eq heq.symm))⟩
  have hkeys : (hash.types (classes.map ClassDef.type)).Perm (byType.map ClassDef.type) :=
    (hash.perm_types _).trans (hperm.map ClassDef.type).symm
  have hsame : ((hash.types (classes.map ClassDef.type)).map fun t => ((depths hash classes).getD t 0, t)).Perm
      ((sortBy (fun a b => a.1 ≤ b.1) pairs).map fun x => (x.1, x.2.type)) := by
    refine (hkeys.map _).trans (.trans (.of_eq ?_) ((perm_sortBy _ pairs).map _).symm)
    rw [List.map_map, List.map_map]
    rfl
  rw [hrun.zip_eq, byDepth_eq hsame hordered, topDown, hbyType, List.map_map, List.map_map]
  rfl

theorem keys_supertypesOf (hnodup : (classes.map ClassDef.type).Nodup) :
    (classes.map ClassDef.type).Perm (supertypesOf classes).keys := by
  rw [List.perm_ext_iff_of_nodup hnodup TreeMap.nodup_keys]
  intro t
  simp [supertypesOf, TreeMap.mem_ofList]

theorem perm_topDown (hash : HashOrder) (classes : List ClassDef) : (topDown hash classes).Perm classes := by
  refine ((perm_sortBy _ _).map Prod.snd).trans ?_
  rw [List.map_map]
  simpa [Function.comp_def] using perm_sortBy _ classes

/-- Where the rank falls there are no cycles. -/
theorem Ranked.acyclic (hnodup : (classes.map ClassDef.type).Nodup) {rank : Descriptor → Nat} (hrank : Ranked classes rank)
    (t : Descriptor) : ¬ TransGen (Above (supertypesOf classes)) t t := by
  have hfalls {t s : Descriptor} (h : Above (supertypesOf classes) t s) : rank s < rank t := by
    obtain ⟨c, hc, rfl⟩ := List.mem_map.1 (mem_types_of_supertypesOf (List.ne_nil_of_mem h))
    rw [Above, getD_supertypesOf hnodup hc] at h
    exact hrank c hc s h
  have hlt {s : Descriptor} (h : TransGen (Above (supertypesOf classes)) t s) : rank s < rank t := by
    induction h with
    | single h => exact hfalls h
    | tail _ h ih => exact Nat.lt_trans (hfalls h) ih
  exact fun h => Nat.lt_irrefl _ (hlt h)

/-- **No class comes before one of its supertypes.** -/
theorem pairwise_topDown (hash : HashOrder) (hnodup : (classes.map ClassDef.type).Nodup) {rank : Descriptor → Nat} (hrank : Ranked classes rank) :
    (topDown hash classes).Pairwise fun a b => b.type ∉ a.supertypes := by
  have hrun := topDown_types hash classes
  refine (List.pairwise_map.1 (hrun.pairwise (hrank.acyclic hnodup))).imp_of_mem fun {a b} ha _ hab => ?_
  rwa [Above, getD_supertypesOf hnodup ((perm_topDown hash classes).mem_iff.1 ha)] at hab

/-- **From the top down.** For every map of supertypes, and in whatever order its keys are looked at, the run ends, with one
    outcome, which has every key exactly once. If there are no cycles, every key comes after all of its supertypes, and the
    outcome is the same for all orders. The classes of a program are put in order in this way, in whatever order maps are
    gone through. -/
theorem topDown_linear :
    (∀ (sup : TypeMap (List Descriptor)) (order : List Descriptor), order.Perm sup.keys →
      ∃ ts, TopDown sup order ts ∧ (∀ ts', TopDown sup order ts' → ts' = ts) ∧ ts.Nodup ∧ (∀ t, t ∈ ts ↔ t ∈ sup) ∧
        ((∀ t, ¬ TransGen (Above sup) t t) → ts.Pairwise (fun a b => ¬ Above sup a b) ∧
          ∀ order' : List Descriptor, order'.Perm sup.keys → TopDown sup order' ts)) ∧
    ∀ (hash : HashOrder) (classes : List ClassDef), (classes.map ClassDef.type).Nodup →
      (hash.types (classes.map ClassDef.type)).Perm (supertypesOf classes).keys ∧
        TopDown (supertypesOf classes) (hash.types (classes.map ClassDef.type)) ((topDown hash classes).map ClassDef.type) := by
  refine ⟨fun sup order horder => ?_, fun hash classes hnodup => ?_⟩
  · obtain ⟨ts, hrun⟩ := exists_topDown sup order
    have hperm := hrun.perm.trans horder
    refine ⟨ts, hrun, fun ts' h => h.unique hrun, hperm.nodup_iff.2 TreeMap.nodup_keys, fun t => ?_, fun hacyclic =>
      ⟨hrun.pairwise hacyclic, fun order' horder' => ?_⟩⟩
    · rw [hperm.mem_iff, TreeMap.mem_keys]
    · obtain ⟨ts', hrun'⟩ := exists_topDown sup order'
      rwa [← hrun.reorder hacyclic (horder'.trans horder.symm) hrun']
  · exact ⟨(hash.perm_types _).trans (keys_supertypesOf hnodup), topDown_types hash classes⟩

/-- A class below another one, both of which implement an interface. -/
def diamondSample : List ClassDef :=
  [{ type := ⟨"Lp/A;"⟩, superclass := some ⟨"Lp/B;"⟩, interfaces := [⟨"Lp/I;"⟩] },
    { type := ⟨"Lp/B;"⟩, superclass := some .object, interfaces := [⟨"Lp/I;"⟩] }, { type := ⟨"Lp/I;"⟩, superclass := some .object }]

/-- Two classes above each other, and one below them. -/
def roundSample : List ClassDef :=
  [{ type := ⟨"Lp/A;"⟩, superclass := some ⟨"Lp/B;"⟩ }, { type := ⟨"Lp/B;"⟩, superclass := some ⟨"Lp/A;"⟩ },
    { type := ⟨"Lp/C;"⟩, superclass := some ⟨"Lp/A;"⟩ }]

theorem topDown_linear_samples :
    (∀ t, ¬ TransGen (Above (supertypesOf diamondSample)) t t) ∧
      (∃ ts, TopDown (supertypesOf diamondSample) (supertypesOf diamondSample).keys ts ∧
        TopDown (supertypesOf diamondSample) (supertypesOf diamondSample).keys.reverse ts ∧
          ts.Pairwise fun a b => ¬ Above (supertypesOf diamondSample) a b) ∧
      (∃ ts, TopDown (supertypesOf roundSample) (supertypesOf roundSample).keys ts ∧ ts.Nodup ∧
        ∀ t, t ∈ ts ↔ t ∈ supertypesOf roundSample) ∧
      (roundSample.map ClassDef.type).Nodup ∧
        TopDown (supertypesOf roundSample) (roundSample.map ClassDef.type) [⟨"Lp/B;"⟩, ⟨"Lp/A;"⟩, ⟨"Lp/C;"⟩] := by
  let rank (t : Descriptor) : Nat := if t = ⟨"Lp/A;"⟩ then 3 else if t = ⟨"Lp/B;"⟩ then 2 else if t = ⟨"Lp/I;"⟩ then 1 else 0
  have hranked : Ranked diamondSample rank := by
    unfold Ranked
    decide
  have hacyclic := hranked.acyclic (by decide)
  have hround : (roundSample.map ClassDef.type).Nodup := by decide
  have htypes : (topDown .inserted roundSample).map ClassDef.type = [⟨"Lp/B;"⟩, ⟨"Lp/A;"⟩, ⟨"Lp/C;"⟩] := by decide +kernel
  obtain ⟨hmaps, hclasses⟩ := topDown_linear
  obtain ⟨ts, hrun, -, -, -, hlinear⟩ := hmaps (supertypesOf diamondSample) _ (.refl _)
  obtain ⟨hpairwise, hany⟩ := hlinear hacyclic
  obtain ⟨ts', hrun', -, hnodup, hmem, -⟩ := hmaps (supertypesOf roundSample) _ (.refl _)
  obtain ⟨-, horder⟩ := hclasses .inserted roundSample hround
  rw [htypes] at horder
  exact ⟨hacyclic, ⟨ts, hrun, hany _ (List.reverse_perm _), hpairwise⟩, ⟨ts', hrun', hnodup, hmem⟩, hround, horder⟩

end DexShrinker.Program
