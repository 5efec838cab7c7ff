/-
  DexShrinker/Proofs/Merging/Splitting.lean
  =========================================
  **What a policy does to a group.**

  A policy takes classes out of groups or splits groups, so no class is ever in two groups
  (`Policy.Splits`), and a class that is in no group afterwards is one that the policy took out
  (`Policy.Conserves`). There is one lemma for each way to split, and one for all policies
  (`Policy.conserves_of_apply`).
-/
import DexShrinker.Merging.Policy
import DexShrinker.Proofs.Outcome
import Mathlib.Data.List.Nodup
import Mathlib.Data.List.Pairwise

namespace DexShrinker

open Std

/-! ### Splitting groups -/

namespace MergeGroup

@[simp] theorem mem_ofList {classes : List Descriptor} {isInterface : Bool} {t : Descriptor} :
    t ∈ (ofList classes isInterface).classes ↔ t ∈ classes := by
  simp [ofList, TreeSet.mem_toList, TreeSet.mem_ofList]

/-- The groups that are kept have two classes or more. -/
theorem mem_filter_nontrivial {g : MergeGroup} {groups : List MergeGroup} :
    g ∈ groups.filter (!·.isTrivial) ↔ g ∈ groups ∧ 2 ≤ g.size := by
  rw [List.mem_filter, isTrivial, Bool.not_eq_true', decide_eq_false_iff_not, Nat.not_lt]

/-- The classes are in order, and none is there twice. -/
def Sorted (g : MergeGroup) : Prop := g.classes.Pairwise fun t t' => compare t t' = .lt

theorem Sorted.nodup {g : MergeGroup} (h : g.Sorted) : g.classes.Nodup := by
  refine h.imp fun {t t'} hlt heq => ?_
  rw [heq, compare_self] at hlt
  cases hlt

theorem sorted_ofList (classes : List Descriptor) (isInterface : Bool) : (ofList classes isInterface).Sorted :=
  TreeSet.ordered_toList

theorem nodup_ofList (classes : List Descriptor) (isInterface : Bool) : (ofList classes isInterface).classes.Nodup :=
  (sorted_ofList classes isInterface).nodup

end MergeGroup

namespace Policy

/-- No class is in two groups, or twice in one. -/
structure Apart (groups : List MergeGroup) : Prop where
  nodup : ∀ g ∈ groups, g.classes.Nodup
  disjoint : groups.Pairwise fun g g' => ∀ t ∈ g.classes, t ∉ g'.classes

/-- Every group is part of a former one. -/
def Refines (groups' groups : List MergeGroup) : Prop := ∀ g' ∈ groups', ∃ g ∈ groups, g'.classes ⊆ g.classes

theorem Refines.refl (groups : List MergeGroup) : Refines groups groups := fun g hg => ⟨g, hg, List.Subset.refl _⟩

theorem Refines.trans {groups groups' groups'' : List MergeGroup} (h : Refines groups' groups)
    (h' : Refines groups'' groups') : Refines groups'' groups := by
  intro g'' hg''
  obtain ⟨g', hg', hsub'⟩ := h' g'' hg''
  obtain ⟨g, hg, hsub⟩ := h g' hg'
  exact ⟨g, hg, List.Subset.trans hsub' hsub⟩

theorem Apart.filter {groups : List MergeGroup} (h : Apart groups) (f : MergeGroup → Bool) : Apart (groups.filter f) :=
  ⟨fun g hg => h.nodup g (List.mem_filter.1 hg).1, h.disjoint.filter f⟩

/-- A class is in one group at most. -/
theorem Apart.eq_of_mem {groups : List MergeGroup} (h : Apart groups) {g g' : MergeGroup} (hg : g ∈ groups) (hg' : g' ∈ groups)
    {t : Descriptor} (ht : t ∈ g.classes) (ht' : t ∈ g'.classes) : g = g' := by
  by_contra hne
  have hsymm : Std.Symm fun g g' : MergeGroup => ∀ t ∈ g.classes, t ∉ g'.classes :=
    ⟨fun g g' hdisjoint t ht ht' => hdisjoint t ht' ht⟩
  exact h.disjoint.forall hg hg' hne t ht ht'

/-- The class is in one of the groups. -/
def Grouped (t : Descriptor) (groups : List MergeGroup) : Prop := ∃ g ∈ groups, t ∈ g.classes

theorem Grouped.of_refines {t : Descriptor} {groups groups' : List MergeGroup} (h : Grouped t groups') (hrefines : Refines groups' groups) :
    Grouped t groups := by
  obtain ⟨g', hg', ht⟩ := h
  obtain ⟨g, hg, hsub⟩ := hrefines g' hg'
  exact ⟨g, hg, hsub ht⟩

/-- A way to split a group into groups that are apart. -/
def Splits (f : MergeGroup → List MergeGroup) : Prop :=
  ∀ g, g.classes.Nodup → Apart (f g) ∧ ∀ g' ∈ f g, g'.classes ⊆ g.classes

/-- Splitting every group. -/
theorem Splits.flatMap {f : MergeGroup → List MergeGroup} (hf : Splits f) {groups : List MergeGroup} (h : Apart groups) :
    Apart (groups.flatMap f) ∧ Refines (groups.flatMap f) groups := by
  refine ⟨⟨fun g' hg' => ?_, ?_⟩, fun g' hg' => ?_⟩
  · obtain ⟨g, hg, hg'⟩ := List.mem_flatMap.1 hg'
    exact (hf g (h.nodup g hg)).1.nodup g' hg'
  · rw [List.pairwise_flatMap]
    refine ⟨fun g hg => (hf g (h.nodup g hg)).1.disjoint, ?_⟩
    refine h.disjoint.imp_of_mem fun {g g'} hg hg' hdisjoint x hx y hy t htx hty => ?_
    exact hdisjoint t ((hf g (h.nodup g hg)).2 x hx htx) ((hf g' (h.nodup g' hg')).2 y hy hty)
  · obtain ⟨g, hg, hg'⟩ := List.mem_flatMap.1 hg'
    exact ⟨g, hg, (hf g (h.nodup g hg)).2 g' hg'⟩

/-- Groups of classes that are apart. -/
theorem apart_map_withClasses {g : MergeGroup} {α : Type} {xs : List α} {f : α → List Descriptor}
    (h : xs.Pairwise fun x y => ∀ t ∈ f x, t ∉ f y) (hsub : ∀ x ∈ xs, f x ⊆ g.classes) :
    Apart (xs.map fun x => g.withClasses (f x)) ∧ ∀ g' ∈ xs.map fun x => g.withClasses (f x), g'.classes ⊆ g.classes := by
  refine ⟨⟨fun g' hg' => ?_, ?_⟩, fun g' hg' t ht => ?_⟩
  · obtain ⟨x, -, rfl⟩ := List.mem_map.1 hg'
    exact MergeGroup.nodup_ofList _ _
  · rw [List.pairwise_map]
    exact h.imp fun hxy t ht ht' => hxy t (MergeGroup.mem_ofList.1 ht) (MergeGroup.mem_ofList.1 ht')
  · obtain ⟨x, hx, rfl⟩ := List.mem_map.1 hg'
    exact hsub x hx (MergeGroup.mem_ofList.1 ht)

/-- A way to split a group into groups that are in order again, and the classes that it takes out:
    exactly those that are in no group afterwards. -/
structure Conserves (split : MergeGroup → List MergeGroup) (removed : MergeGroup → List Descriptor) : Prop where
  splits : Splits split
  sorted : ∀ g, g.Sorted → ∀ g' ∈ split g, g'.Sorted
  mem_removed : ∀ g t, t ∈ removed g ↔ t ∈ g.classes ∧ ¬ Grouped t (split g)

/-- A policy that keeps all classes takes out none. -/
theorem conserves_of_grouped {split : MergeGroup → List MergeGroup} (hsplits : Splits split)
    (hsorted : ∀ g, g.Sorted → ∀ g' ∈ split g, g'.Sorted) (h : ∀ g, ∀ t ∈ g.classes, Grouped t (split g)) :
    Conserves split fun _ => [] where
  splits := hsplits
  sorted := hsorted
  mem_removed g t := by simpa using h g t

theorem sorted_of_mem_withClasses {α : Type} {g g' : MergeGroup} {xs : List α} {f : α → List Descriptor}
    (h : g' ∈ xs.map fun x => g.withClasses (f x)) : g'.Sorted := by
  obtain ⟨x, -, rfl⟩ := List.mem_map.1 h
  exact MergeGroup.sorted_ofList (f x) g.isInterface

theorem grouped_withClasses {α : Type} {g : MergeGroup} {xs : List α} {f : α → List Descriptor} {x : α} (hx : x ∈ xs)
    {t : Descriptor} (ht : t ∈ f x) : Grouped t (xs.map fun x => g.withClasses (f x)) :=
  ⟨g.withClasses (f x), List.mem_map_of_mem hx, MergeGroup.mem_ofList.2 ht⟩

theorem splits_restrict (keep : Descriptor → Bool) : Splits fun g => [g.restrict keep] := by
  intro g hg
  refine ⟨⟨fun g' hg' => ?_, by simp⟩, fun g' hg' => ?_⟩
  · obtain rfl := List.mem_singleton.1 hg'
    exact hg.filter keep
  · obtain rfl := List.mem_singleton.1 hg'
    exact List.filter_sublist.subset

theorem conserves_restrict (keep : Descriptor → Bool) :
    Conserves (fun g => [g.restrict keep]) fun g => g.classes.filter (!keep ·) where
  splits := splits_restrict keep
  sorted := by
    intro g hg g' hg'
    obtain rfl := List.mem_singleton.1 hg'
    exact hg.filter keep
  mem_removed g t := by simp +contextual [Grouped, MergeGroup.restrict]

theorem nodup_eraseDups {κ : Type} [BEq κ] [LawfulBEq κ] : (ks : List κ) → ks.eraseDups.Nodup
  | [] => by simp
  | k :: ks => by
    rw [List.eraseDups_cons, List.nodup_cons]
    exact ⟨by simp [List.mem_eraseDups], nodup_eraseDups _⟩
termination_by ks => ks.length
decreasing_by exact Nat.lt_succ_of_le (List.length_filter_le _ _)

theorem splits_splitBy {κ : Type} [BEq κ] [LawfulBEq κ] (key : Descriptor → κ) : Splits (·.splitBy key) := by
  intro g _
  refine apart_map_withClasses ?_ fun k _ => List.filter_sublist.subset
  refine (nodup_eraseDups _).imp fun {k k'} hne t ht ht' => hne ?_
  simp only [List.mem_filter, beq_iff_eq] at ht ht'
  rw [← ht.2, ht'.2]

theorem conserves_splitBy {κ : Type} [BEq κ] [LawfulBEq κ] (key : Descriptor → κ) : Conserves (·.splitBy key) fun _ => [] := by
  refine conserves_of_grouped (splits_splitBy key) (fun g _ g' hg' => sorted_of_mem_withClasses hg') fun g t ht => ?_
  exact grouped_withClasses (x := key t) (List.mem_eraseDups.2 (List.mem_map_of_mem ht)) (List.mem_filter.2 ⟨ht, by simp⟩)

theorem splits_evict (evicted : TypeSet) : Splits (evict evicted) := by
  intro g hg
  have hsingle : (g.classes.filter evicted.contains).Pairwise fun x y => ∀ t ∈ [x], t ∉ [y] := by
    simpa [List.Nodup] using hg.filter evicted.contains
  obtain ⟨hapart, hsub⟩ := apart_map_withClasses (g := g) (f := fun t => [t]) hsingle (by simp +contextual)
  refine ⟨⟨fun g' hg' => ?_, ?_⟩, fun g' hg' => ?_⟩
  · rcases List.mem_append.1 hg' with hg' | hg'
    · exact hapart.nodup g' hg'
    · obtain rfl := List.mem_singleton.1 hg'
      exact hg.filter _
  · refine List.pairwise_append.2 ⟨hapart.disjoint, by simp, fun x hx y hy t ht ht' => ?_⟩
    obtain ⟨s, hs, rfl⟩ := List.mem_map.1 hx
    obtain rfl := List.mem_singleton.1 hy
    obtain rfl : t = s := by simpa [MergeGroup.withClasses] using ht
    simp_all [MergeGroup.restrict]
  · rcases List.mem_append.1 hg' with hg' | hg'
    · exact hsub g' hg'
    · obtain rfl := List.mem_singleton.1 hg'
      exact List.filter_sublist.subset

theorem conserves_evict (evicted : TypeSet) : Conserves (evict evicted) fun _ => [] := by
  refine conserves_of_grouped (splits_evict evicted) (fun g hg g' hg' => ?_) fun g t ht => ?_
  · rcases List.mem_append.1 hg' with hg' | hg'
    · exact sorted_of_mem_withClasses hg'
    · obtain rfl := List.mem_singleton.1 hg'
      exact hg.filter _
  · by_cases hevicted : evicted.contains t = true
    · obtain ⟨g', hg', ht'⟩ := grouped_withClasses (g := g) (f := fun t => [t]) (List.mem_filter.2 ⟨ht, hevicted⟩) (List.mem_singleton_self t)
      exact ⟨g', List.mem_append_left _ hg', ht'⟩
    · exact ⟨g.restrict (!evicted.contains ·), by simp [evict], List.mem_filter.2 ⟨ht, by simp [hevicted]⟩⟩

/-! ### Splitting by virtual methods and by size -/

theorem perm_firstFit (t : Descriptor) (signatures : List Signature) (buckets : List (List Descriptor × List Signature)) :
    ((firstFit t signatures buckets).flatMap Prod.fst).Perm (buckets.flatMap Prod.fst ++ [t]) := by
  induction buckets with
  | nil => simp [firstFit]
  | cons bucket buckets ih =>
    obtain ⟨classes, taken⟩ := bucket
    unfold firstFit
    split
    · simpa using ih.append_left classes
    · simp only [List.flatMap_cons, List.append_assoc]
      exact List.Perm.append_left classes List.perm_append_comm

/-- Pieces of a list without repetitions are apart. -/
theorem pairwise_of_nodup_flatMap {α : Type} {xs : List α} {f : α → List Descriptor} (h : (xs.flatMap f).Nodup) :
    xs.Pairwise fun x y => ∀ t ∈ f x, t ∉ f y := by
  rw [List.Nodup, List.pairwise_flatMap] at h
  exact h.2.imp fun hxy t ht ht' => hxy t ht t ht' rfl

theorem perm_foldl_firstFit (signatures : Descriptor → List Signature) (ts : List Descriptor)
    (buckets : List (List Descriptor × List Signature)) :
    ((ts.foldl (fun buckets t => firstFit t (signatures t) buckets) buckets).flatMap Prod.fst).Perm
      (buckets.flatMap Prod.fst ++ ts) := by
  induction ts generalizing buckets with
  | nil => simp
  | cons t ts ih =>
    refine (ih _).trans ?_
    simpa using (perm_firstFit t (signatures t) buckets).append_right ts

theorem splits_separateVirtuals (p : Program) : Splits (separateVirtuals p) := by
  intro g hg
  have hperm := perm_foldl_firstFit (virtualSignatures p (.ofGroups [g])) g.classes []
  rw [List.flatMap_nil, List.nil_append] at hperm
  refine apart_map_withClasses (pairwise_of_nodup_flatMap (hperm.nodup_iff.2 hg)) fun bucket hbucket t ht => ?_
  exact hperm.mem_iff.1 (List.mem_flatMap.2 ⟨bucket, hbucket, ht⟩)

theorem conserves_separateVirtuals (p : Program) : Conserves (separateVirtuals p) fun _ => [] := by
  refine conserves_of_grouped (splits_separateVirtuals p) (fun g _ g' hg' => sorted_of_mem_withClasses hg') fun g t ht => ?_
  have hperm := perm_foldl_firstFit (virtualSignatures p (.ofGroups [g])) g.classes []
  rw [List.flatMap_nil, List.nil_append] at hperm
  obtain ⟨bucket, hbucket, ht'⟩ := List.mem_flatMap.1 (hperm.mem_iff.2 ht)
  exact grouped_withClasses hbucket ht'

/-- The classes have no virtual method in common. -/
def Separate (p : Program) (t t' : Descriptor) : Prop :=
  ∀ c, p.class? t = some c → ∀ c', p.class? t' = some c' →
    ∀ m ∈ c.virtualMethods, ∀ m' ∈ c'.virtualMethods, m.ref.signature ≠ m'.ref.signature

/-- A bucket has the signatures of its classes, no two of which share one. -/
structure Filled (signatures : Descriptor → List Signature) (bucket : List Descriptor × List Signature) : Prop where
  taken : ∀ t ∈ bucket.1, signatures t ⊆ bucket.2
  disjoint : bucket.1.Pairwise fun t t' => (signatures t).Disjoint (signatures t')

theorem filled_firstFit {signatures : Descriptor → List Signature} {buckets : List (List Descriptor × List Signature)}
    (h : ∀ b ∈ buckets, Filled signatures b) (t : Descriptor) : ∀ b ∈ firstFit t (signatures t) buckets, Filled signatures b := by
  induction buckets with
  | nil =>
    intro b hb
    obtain rfl := List.mem_singleton.1 hb
    exact ⟨by simp, by simp⟩
  | cons bucket buckets ih =>
    obtain ⟨classes, taken⟩ := bucket
    obtain ⟨hbucket, hbuckets⟩ := List.forall_mem_cons.1 h
    unfold firstFit
    split
    · exact List.forall_mem_cons.2 ⟨hbucket, ih hbuckets⟩
    · next hfree =>
      simp only [List.any_eq_true, List.contains_iff_mem, not_exists, not_and] at hfree
      refine List.forall_mem_cons.2 ⟨⟨fun s hs => ?_, List.pairwise_append.2 ⟨hbucket.disjoint, by simp, ?_⟩⟩, hbuckets⟩
      · rcases List.mem_append.1 hs with hs | hs
        · exact List.Subset.trans (hbucket.taken s hs) (List.subset_append_left _ _)
        · rw [List.mem_singleton.1 hs]
          exact List.subset_append_right _ _
      · intro s hs s' hs' signature hsignature hsignature'
        rw [List.mem_singleton.1 hs'] at hsignature'
        exact hfree signature hsignature' (hbucket.taken s hs hsignature)

/-- Virtual methods of classes that stay together still differ after the merge of the whole group. -/
theorem signature_ne_of_mem {p : Program} {g g' : MergeGroup} (h : g' ∈ separateVirtuals p g) {t t' : Descriptor} (ht : t ∈ g'.classes)
    (ht' : t' ∈ g'.classes) (hne : t ≠ t') {c c' : ClassDef} (hc : p.class? t = some c) (hc' : p.class? t' = some c')
    {m m' : MethodDef} (hm : m ∈ c.virtualMethods) (hm' : m' ∈ c'.virtualMethods) :
    (MergeMap.ofGroups [g]).signature m.ref.signature ≠ (MergeMap.ofGroups [g]).signature m'.ref.signature := by
  obtain ⟨bucket, hbucket, rfl⟩ := List.mem_map.1 h
  have hfilled : Filled (virtualSignatures p (.ofGroups [g])) bucket :=
    List.foldlRecOn (motive := fun buckets => ∀ b ∈ buckets, Filled (virtualSignatures p (.ofGroups [g])) b) g.classes _ (by simp)
      (fun buckets hbuckets t _ => filled_firstFit hbuckets t) bucket hbucket
  have hsymm : Std.Symm fun s s' => (virtualSignatures p (.ofGroups [g]) s).Disjoint (virtualSignatures p (.ofGroups [g]) s') :=
    ⟨fun _ _ h _ ha ha' => h ha' ha⟩
  have hdisjoint := hfilled.disjoint.forall (MergeGroup.mem_ofList.1 ht) (MergeGroup.mem_ofList.1 ht') hne
  intro heq
  refine hdisjoint (a := (MergeMap.ofGroups [g]).signature m.ref.signature) ?_ ?_
  · rw [virtualSignatures, hc]
    exact List.mem_map_of_mem (by simpa using hm)
  · rw [virtualSignatures, hc', heq]
    exact List.mem_map_of_mem (by simpa using hm')

/-- **Classes that stay together have no virtual method in common.** -/
theorem separate_of_mem {p : Program} {g g' : MergeGroup} (h : g' ∈ separateVirtuals p g) {t t' : Descriptor} (ht : t ∈ g'.classes)
    (ht' : t' ∈ g'.classes) (hne : t ≠ t') : Separate p t t' := fun _ hc _ hc' _ hm _ hm' heq =>
  signature_ne_of_mem h ht ht' hne hc hc' hm hm' (congrArg _ heq)

theorem splits_limitSize (max : Nat) : Splits (limitSize max) := by
  intro g hg
  unfold limitSize
  simp only
  split
  · refine ⟨⟨fun g' hg' => ?_, by simp⟩, fun g' hg' => ?_⟩
    · obtain rfl := List.mem_singleton.1 hg'
      exact hg
    · obtain rfl := List.mem_singleton.1 hg'
      exact List.Subset.refl _
  · generalize max.max 2 = n
    have hpieces : (chunks n g.classes).Pairwise fun x y => ∀ t ∈ x, t ∉ y := by
      rw [chunks, List.pairwise_map]
      refine List.pairwise_lt_range.imp fun {i j} hij t ht ht' => ?_
      have hle : i * n + n ≤ j * n := by
        have hmul := Nat.mul_le_mul_right n (Nat.succ_le_of_lt hij)
        rwa [Nat.succ_mul] at hmul
      rw [List.take_drop] at ht
      exact List.disjoint_take_drop hg hle (List.mem_of_mem_drop ht) (List.mem_of_mem_take ht')
    refine apart_map_withClasses (f := id) hpieces fun piece hpiece => ?_
    obtain ⟨i, -, rfl⟩ := List.mem_map.1 hpiece
    exact List.Subset.trans (List.take_sublist _ _).subset (List.drop_sublist _ _).subset

/-- Every element is in one of the pieces. -/
theorem exists_mem_chunks {α : Type} {n : Nat} (hn : 0 < n) {xs : List α} {x : α} (hx : x ∈ xs) : ∃ piece ∈ chunks n xs, x ∈ piece := by
  obtain ⟨i, hi, rfl⟩ := List.getElem_of_mem hx
  refine ⟨(xs.drop (i / n * n)).take n, List.mem_map.2 ⟨i / n, List.mem_range.2 ?_, rfl⟩, ?_⟩
  · rw [Nat.div_lt_iff_lt_mul hn]
    have hround := Nat.lt_div_mul_add (a := xs.length + n - 1) hn
    omega
  · have hdiv := Nat.div_mul_le_self i n
    have hmod := Nat.lt_div_mul_add (a := i) hn
    refine List.mem_iff_getElem.2 ⟨i - i / n * n, by simp; omega, ?_⟩
    rw [List.getElem_take, List.getElem_drop]
    congr 1
    omega

theorem conserves_limitSize (max : Nat) : Conserves (limitSize max) fun _ => [] := by
  refine conserves_of_grouped (splits_limitSize max) (fun g hg g' hg' => ?_) fun g t ht => ?_
  · unfold limitSize at hg'
    simp only at hg'
    split at hg'
    · obtain rfl := List.mem_singleton.1 hg'
      exact hg
    · exact sorted_of_mem_withClasses hg'
  · unfold limitSize
    simp only
    split
    · exact ⟨g, List.mem_singleton_self g, ht⟩
    · have hpos : 0 < max.max 2 := Nat.lt_of_lt_of_le Nat.two_pos (Nat.le_max_right max 2)
      obtain ⟨piece, hpiece, ht'⟩ := exists_mem_chunks hpos ht
      exact grouped_withClasses (f := id) hpiece ht'

theorem splits_finish (p : Program) (m : MergeMap) : Splits (finish p m) := by
  intro g hg
  unfold finish
  split
  · exact ⟨⟨by simp, by simp⟩, by simp⟩
  · refine ⟨⟨fun g' hg' => ?_, by simp⟩, fun g' hg' => ?_⟩
    · obtain rfl := List.mem_singleton.1 hg'
      exact hg
    · obtain rfl := List.mem_singleton.1 hg'
      exact List.Subset.refl _

theorem conserves_finish (p : Program) (m : MergeMap) : Conserves (finish p m) fun _ => [] := by
  refine conserves_of_grouped (splits_finish p m) (fun g hg g' hg' => ?_) fun g t ht => ?_
  · unfold finish at hg'
    split at hg'
    · cases hg'
    · obtain rfl := List.mem_singleton.1 hg'
      exact hg
  · unfold finish
    split
    · next hempty => simp [hempty] at ht
    · exact ⟨_, List.mem_singleton_self _, ht⟩

/-! ### Every policy -/

variable {v : View} {maxSize : Nat}

/-- **Every policy conserves the classes.** -/
theorem conserves_of_apply {policy : Policy} {groups : List MergeGroup} {r : List MergeGroup × List Descriptor}
    (h : policy.apply v maxSize groups = .ok r) :
    ∃ split removed, Conserves split removed ∧ r = (groups.flatMap split, groups.flatMap removed) := by
  have hsift (admits : ClassDef → Bool) (hr : (.ok (sift v admits groups) : Outcome MergeError _) = .ok r) :
      ∃ split removed, Conserves split removed ∧ r = (groups.flatMap split, groups.flatMap removed) := by
    cases hr
    refine ⟨_, _, conserves_restrict fun t => (v.programClass? t).any admits, ?_⟩
    rw [sift, List.map_eq_flatMap]
  have hkept {split : MergeGroup → List MergeGroup} (hsplit : Conserves split fun _ => [])
      (hr : (.ok (groups.flatMap split, []) : Outcome MergeError _) = .ok r) :
      ∃ split removed, Conserves split removed ∧ r = (groups.flatMap split, groups.flatMap removed) := by
    cases hr
    exact ⟨split, _, hsplit, by simp⟩
  cases policy with
  | noKeepRules => exact hsift _ h
  | noEnums => exact hsift _ h
  | noAnnotations => exact hsift _ h
  | noClassInitializers => exact hsift _ h
  | noDirectRuntimeTypeChecks =>
    obtain ⟨observed, -, h⟩ := bind_eq_ok.1 h
    exact hkept (conserves_evict observed) h
  | sameParentClass => exact hkept (conserves_splitBy (parents? v.program)) h
  | respectPackageBoundaries =>
    simp only [apply] at h
    split at h
    · cases h
    · exact hkept (conserves_splitBy Descriptor.package?) h
  | sameInstanceFields => exact hkept (conserves_splitBy (shape v.program)) h
  | noVirtualMethodCollisions => exact hkept (conserves_separateVirtuals v.program) h
  | limitGroupSize => exact hkept (conserves_limitSize maxSize) h
  | finalizeMergeGroup => exact hkept (conserves_finish v.program (.ofGroups groups)) h

theorem apply_spec {policy : Policy} {groups : List MergeGroup} {r : List MergeGroup × List Descriptor}
    (h : policy.apply v maxSize groups = .ok r) (hapart : Apart groups) : Apart r.1 ∧ Refines r.1 groups := by
  obtain ⟨split, removed, hconserves, rfl⟩ := conserves_of_apply h
  exact hconserves.splits.flatMap hapart

theorem sorted_of_apply {policy : Policy} {groups : List MergeGroup} {r : List MergeGroup × List Descriptor}
    (h : policy.apply v maxSize groups = .ok r) (hsorted : ∀ g ∈ groups, g.Sorted) : ∀ g ∈ r.1, g.Sorted := by
  obtain ⟨split, removed, hconserves, rfl⟩ := conserves_of_apply h
  intro g' hg'
  obtain ⟨g, hg, hg'⟩ := List.mem_flatMap.1 hg'
  exact hconserves.sorted g (hsorted g hg) g' hg'

theorem mem_removed_of_apply {policy : Policy} {groups : List MergeGroup} {r : List MergeGroup × List Descriptor}
    (h : policy.apply v maxSize groups = .ok r) (hapart : Apart groups) (t : Descriptor) :
    t ∈ r.2 ↔ Grouped t groups ∧ ¬ Grouped t r.1 := by
  obtain ⟨split, removed, hconserves, rfl⟩ := conserves_of_apply h
  simp only [List.mem_flatMap, hconserves.mem_removed]
  constructor
  · rintro ⟨g, hg, ht, hno⟩
    refine ⟨⟨g, hg, ht⟩, ?_⟩
    rintro ⟨g'', hg'', ht''⟩
    obtain ⟨g', hg', hsplit⟩ := List.mem_flatMap.1 hg''
    -- A class of a part is one of the group that was split, and no other group has it.
    obtain rfl := hapart.eq_of_mem hg hg' ht ((hconserves.splits g' (hapart.nodup g' hg')).2 g'' hsplit ht'')
    exact hno ⟨g'', hsplit, ht''⟩
  · rintro ⟨⟨g, hg, ht⟩, hno⟩
    refine ⟨g, hg, ht, ?_⟩
    rintro ⟨g', hg', ht'⟩
    exact hno ⟨g', List.mem_flatMap.2 ⟨g, hg, hg'⟩, ht'⟩

end Policy

end DexShrinker
