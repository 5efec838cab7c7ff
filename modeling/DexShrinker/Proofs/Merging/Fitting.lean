/-
  DexShrinker/Proofs/Merging/Fitting.lean
  =======================================
  **The classes of a group fit together.**

  Each policy sees to one property of groups, which stays when other policies split the groups
  further (`Policy.forall_of_run`). So the groups that all of them let through have all these
  properties (`Policy.Fits`). Virtual methods are told apart before the groups are split to
  size, so after the merge of a larger group: methods that would become the same in the end
  would have become the same there (`MergeMap.type_type_ofGroups`).
-/
import DexShrinker.Proofs.Merging.Groups
import DexShrinker.Proofs.Sorting
import Mathlib.Data.List.Perm.Subperm

namespace DexShrinker

open Std

/-! ### Merging part of a group -/

namespace MergeMap

/-- All classes of a single group go to its first class. -/
theorem getD_ofGroups {g : MergeGroup} {h : Descriptor} {rest : List Descriptor} (hclasses : g.classes = h :: rest) (t : Descriptor) :
    (ofGroups [g]).targets.getD t t = if t ∈ g.classes then h else t := by
  have hget : (ofGroups [g]).targets[t]? = if t ∈ g.classes ∧ t ≠ h then some h else none := by
    simpa [ofGroups] using getElem?_addGroup {} hclasses t
  rw [TreeMap.getD_eq_getD_getElem?, hget]
  by_cases ht : t = h
  · simp [ht, hclasses]
  · by_cases hmem : t ∈ g.classes <;> simp [ht, hmem]

/-- The merge of a group has the last word after the merge of a part of it. -/
theorem type_type_ofGroups {g g' : MergeGroup} (hsub : g'.classes ⊆ g.classes) {h' : Descriptor} {rest' : List Descriptor}
    (hclasses' : g'.classes = h' :: rest') (hh' : h'.isArray = false) (t : Descriptor) :
    (ofGroups [g]).type ((ofGroups [g']).type t) = (ofGroups [g]).type t := by
  have hmem : h' ∈ g.classes := hsub (by simp [hclasses'])
  obtain ⟨h, rest, hclasses⟩ := List.exists_cons_of_ne_nil (List.ne_nil_of_mem hmem)
  have harray : ((ofGroups [g']).targets.getD t.base t.base).isArray = false := by
    rw [getD_ofGroups hclasses']
    split
    · exact hh'
    · exact Descriptor.isArray_base t
  rw [type, type, type, Descriptor.mapBase_mapBase (f := fun b => (ofGroups [g']).targets.getD b b) harray]
  congr 1
  funext u
  rw [getD_ofGroups hclasses', getD_ofGroups hclasses, getD_ofGroups hclasses]
  by_cases hu : u ∈ g'.classes
  · rw [if_pos hu, if_pos hmem, if_pos (hsub hu)]
  · rw [if_neg hu]

theorem signature_signature_ofGroups {g g' : MergeGroup} (hsub : g'.classes ⊆ g.classes) {h' : Descriptor} {rest' : List Descriptor}
    (hclasses' : g'.classes = h' :: rest') (hh' : h'.isArray = false) (s : Signature) :
    (ofGroups [g]).signature ((ofGroups [g']).signature s) = (ofGroups [g]).signature s := by
  simp [signature, proto, Prototype.mapTypes, type_type_ofGroups hsub hclasses' hh']

end MergeMap

namespace Policy

variable {v : View} {maxSize : Nat}

/-! ### Classes that may be merged -/

/-- The type is not pinned, holds nothing pinned, and nothing pinned names it. -/
structure Unseen (k : Pins) (t : Descriptor) : Prop where
  type : k.hasType t = false
  fields : ∀ f ∈ k.fields, f.holder.base ≠ t ∧ f.type.base ≠ t
  methods : ∀ m ∈ k.methods, m.holder.base ≠ t ∧ ∀ s ∈ m.proto.types, s.base ≠ t

/-- A class with nothing about it that a merge would change for others to see. -/
structure Mergeable (v : View) (c : ClassDef) : Prop where
  unseen : Unseen v.pins c.type
  notEnum : c.isEnum = false
  notAnnotation : c.isAnnotationType = false
  unannotated : c.annotations = []
  uninitialized : c.classInitializer? = none

theorem mem_visibleTypes {k : Pins} {t : Descriptor}
    (h : t ∈ k.types ∨ (t.isClass = true ∧ ((∃ f ∈ k.fields, f.holder.base = t ∨ f.type.base = t) ∨
      ∃ m ∈ k.methods, m.holder.base = t ∨ ∃ s ∈ m.proto.types, s.base = t))) :
    (visibleTypes k).contains t = true := by
  simp only [visibleTypes, TreeSet.contains_insertMany_list, Bool.or_eq_true, TreeSet.contains_iff_mem, List.contains_iff_mem,
    List.mem_filter, List.mem_map, List.mem_append, List.mem_flatMap, TreeSet.mem_toList]
  rcases h with h | ⟨hclass, ⟨f, hf, h⟩ | ⟨m, hm, h⟩⟩
  · exact .inl h
  · refine .inr ⟨?_, hclass⟩
    rcases h with h | h
    · exact ⟨_, .inl ⟨f, hf, List.mem_cons_self⟩, h⟩
    · exact ⟨_, .inl ⟨f, hf, by simp⟩, h⟩
  · refine .inr ⟨?_, hclass⟩
    rcases h with h | ⟨s, hs, h⟩
    · exact ⟨_, .inr ⟨m, hm, List.mem_cons_self⟩, h⟩
    · exact ⟨s, .inr ⟨m, hm, List.mem_cons_of_mem _ hs⟩, h⟩

theorem unseen_of_not_visible {k : Pins} {t : Descriptor} (hclass : t.isClass = true) (h : (visibleTypes k).contains t = false) :
    Unseen k t where
  type := by
    rw [Pins.hasType, Descriptor.base_of_isArray (Descriptor.isArray_of_isClass hclass)]
    by_contra hpinned
    simp [mem_visibleTypes (.inl (TreeSet.contains_iff_mem.1 (by simpa using hpinned)))] at h
  fields f hf := by
    constructor
    · intro heq
      simp [mem_visibleTypes (.inr ⟨hclass, .inl ⟨f, hf, .inl heq⟩⟩)] at h
    · intro heq
      simp [mem_visibleTypes (.inr ⟨hclass, .inl ⟨f, hf, .inr heq⟩⟩)] at h
  methods m hm := by
    constructor
    · intro heq
      simp [mem_visibleTypes (.inr ⟨hclass, .inr ⟨m, hm, .inl heq⟩⟩)] at h
    · intro s hs heq
      simp [mem_visibleTypes (.inr ⟨hclass, .inr ⟨m, hm, .inr ⟨s, hs, heq⟩⟩⟩)] at h

/-- No class is left that a policy that judges classes refuses. -/
theorem admits_of_run (policy : Policy) {admits : ClassDef → Bool}
    (hpolicy : ∀ groups, policy.apply v maxSize groups = .ok (sift v admits groups)) {policies : List Policy} (hmem : policy ∈ policies)
    {groups kept : List MergeGroup} {report : MergeReport} (hapart : Apart groups)
    (h : run v maxSize policies groups = .ok (kept, report)) {g : MergeGroup} (hg : g ∈ kept) {c : ClassDef}
    (hc : v.program.class? c.type = some c) (hmem' : c.type ∈ g.classes) : admits c = true := by
  have hall := forall_of_run policy (P := fun g => ∀ t ∈ g.classes, (v.programClass? t).any admits = true)
    (fun g g' hsub hg t ht => hg t (hsub ht)) ?_ hmem hapart h g hg _ hmem'
  · obtain ⟨d, hd, hadmits⟩ := (Option.any_eq_true _ _).1 hall
    obtain ⟨hd, -⟩ := Option.filter_eq_some_iff.1 hd
    rw [hc] at hd
    cases hd
    exact hadmits
  · intro groups r hapart happly g hg t ht
    rw [hpolicy] at happly
    cases happly
    obtain ⟨g', -, rfl⟩ := List.mem_map.1 hg
    exact (List.mem_filter.1 ht).2

theorem mergeable_of_run {policies : List Policy} (hall : [noKeepRules, noEnums, noAnnotations, noClassInitializers] ⊆ policies)
    {groups kept : List MergeGroup} {report : MergeReport} (hapart : Apart groups)
    (h : run v maxSize policies groups = .ok (kept, report)) {g : MergeGroup} (hg : g ∈ kept) {c : ClassDef}
    (hc : v.program.class? c.type = some c) (hclass : c.type.isClass = true) (hmem : c.type ∈ g.classes) : Mergeable v c := by
  have hvisible := admits_of_run .noKeepRules (fun _ => rfl) (hall (by simp)) hapart h hg hc hmem
  have henum := admits_of_run .noEnums (fun _ => rfl) (hall (by simp)) hapart h hg hc hmem
  have hannotations := admits_of_run .noAnnotations (fun _ => rfl) (hall (by simp)) hapart h hg hc hmem
  have hinitializer := admits_of_run .noClassInitializers (fun _ => rfl) (hall (by simp)) hapart h hg hc hmem
  simp only [Bool.not_eq_true', Bool.and_eq_true, List.isEmpty_iff, Option.isNone_iff_eq_none] at hvisible henum hannotations hinitializer
  exact ⟨unseen_of_not_visible hclass hvisible, henum, hannotations.1, hannotations.2, hinitializer⟩

/-! ### Classes whose identity is not seen -/

/-- No body of a program class shows the identity of the type. -/
def Unobserved (p : Program) (t : Descriptor) : Prop :=
  ∀ c ∈ p.programClasses, ∀ m ∈ c.methods, ∀ code, m.code = some code → ∃ us, code.uses = .ok us ∧
    ∀ s how, .type s how ∈ us → how ∈ [.constClass, .checkCast, .instanceOf, .catchGuard] → s.base ≠ t

theorem unobserved_of_not_mem {p : Program} {seen : TypeSet} (h : observedTypes p = .ok seen) {t : Descriptor} (ht : t ∉ seen) :
    Unobserved p t := by
  intro c hc m hm code hcode
  have hmem : code ∈ (p.programClasses.flatMap ClassDef.methods).filterMap MethodDef.code :=
    List.mem_filterMap.2 ⟨m, List.mem_flatMap.2 ⟨c, hc, hm⟩, hcode⟩
  have hall : ∃ us, code.uses = .ok us ∧ ∀ u ∈ us, ∀ s, observed? u = some s → s ∈ seen := by
    refine foldlM_establishes (P := fun seen : TypeSet => ∃ us, code.uses = .ok us ∧ ∀ u ∈ us, ∀ s, observed? u = some s → s ∈ seen)
      hmem (fun seen seen' hstep => ?_) (fun seen code' _ seen' hseen hstep => ?_) h
    · obtain ⟨us, hus, hstep⟩ := bind_eq_ok.1 hstep
      cases hstep
      refine ⟨us, hus, fun u hu s hs => ?_⟩
      exact TreeSet.mem_insertMany_list.2 (.inr (by simpa using ⟨u, hu, hs⟩))
    · obtain ⟨us, hus, hall⟩ := hseen
      obtain ⟨us', -, hstep⟩ := bind_eq_ok.1 hstep
      cases hstep
      exact ⟨us, hus, fun u hu s hs => TreeSet.mem_insertMany_list.2 (.inl (hall u hu s hs))⟩
  obtain ⟨us, hus, hall⟩ := hall
  refine ⟨us, hus, fun s how hu hhow heq => ht (heq ▸ hall _ hu s.base ?_)⟩
  have hobserves : observesIdentity how = true := by
    simp only [List.mem_cons, List.not_mem_nil, or_false] at hhow
    rcases hhow with rfl | rfl | rfl | rfl <;> rfl
  simp [observed?, hobserves]

/-- A class whose identity is seen is left alone. -/
theorem unobserved_of_run {policies : List Policy} (hmem : .noDirectRuntimeTypeChecks ∈ policies) {groups kept : List MergeGroup}
    {report : MergeReport} (hapart : Apart groups) (h : run v maxSize policies groups = .ok (kept, report)) :
    ∀ g ∈ kept, ∀ t ∈ g.classes, Unobserved v.program t ∨ g.classes ⊆ [t] := by
  refine forall_of_run _ (fun g g' hsub hg t ht => ?_) ?_ hmem hapart h
  · exact (hg t (hsub ht)).imp_right (List.Subset.trans hsub)
  · intro groups r hapart happly g hg t ht
    obtain ⟨seen, hseen, happly⟩ := bind_eq_ok.1 happly
    cases happly
    rw [Outcome.ofExcept_eq_ok] at hseen
    obtain ⟨g', -, hg⟩ := List.mem_flatMap.1 hg
    rcases List.mem_append.1 hg with hg | hg
    · obtain ⟨s, -, rfl⟩ := List.mem_map.1 hg
      obtain rfl : t = s := by simpa using MergeGroup.mem_ofList.1 ht
      exact .inr fun t' ht' => MergeGroup.mem_ofList.1 ht'
    · obtain rfl := List.mem_singleton.1 hg
      obtain ⟨-, hno⟩ := List.mem_filter.1 ht
      exact .inl (unobserved_of_not_mem hseen (by simpa [← TreeSet.contains_iff_mem] using hno))

/-! ### Classes that fit together -/

/-- The classes have the same supertypes and are of the same kind, and their instance fields have
    the same types up to reference types. -/
structure Alike (c c' : ClassDef) : Prop where
  superclass : c.superclass = c'.superclass
  interfaces : ∀ t, t ∈ c.interfaces ↔ t ∈ c'.interfaces
  isInterface : c.isInterface = c'.isInterface
  isAbstract : c.isAbstract = c'.isAbstract
  fields : (c.instanceFields.map (·.ref.type.relaxed)).Perm (c'.instanceFields.map (·.ref.type.relaxed))

/-- What all policies together see to. -/
structure Fits (v : View) (maxSize : Nat) (g : MergeGroup) : Prop where
  two_le : 2 ≤ g.size
  le_max : g.size ≤ Nat.max 2 maxSize
  classes : ∀ t ∈ g.classes, ∃ c ∈ v.program.programClasses, c.type = t ∧ Mergeable v c
  alike : ∀ c ∈ v.program.programClasses, ∀ c' ∈ v.program.programClasses, c.type ∈ g.classes → c'.type ∈ g.classes → Alike c c'
  package : ∃ name, ∀ t ∈ g.classes, t.package? = some name
  unobserved : ∀ t ∈ g.classes, Unobserved v.program t
  virtuals : ∀ c ∈ v.program.programClasses, ∀ c' ∈ v.program.programClasses, c.type ∈ g.classes → c'.type ∈ g.classes →
    c.type ≠ c'.type → ∀ m ∈ c.virtualMethods, ∀ m' ∈ c'.virtualMethods,
      (MergeMap.ofGroups [g]).signature m.ref.signature ≠ (MergeMap.ofGroups [g]).signature m'.ref.signature
  target : ∃ t ∈ g.classes, g.target = some t ∧ ∀ t' ∈ g.classes, t' ≠ t → compare t t' = .lt

/-- The classes of a candidate are all interfaces or none, and all abstract or none. -/
theorem kind_of_mem_candidates {p : Program} {g : MergeGroup} (hg : g ∈ candidates p) :
    ∃ itf abstr, ∀ c ∈ p.programClasses, c.type ∈ g.classes → c.isInterface = itf ∧ c.isAbstract = abstr := by
  obtain ⟨s, -, hg⟩ := List.mem_flatMap.1 hg
  obtain ⟨itf, -, hg⟩ := List.mem_flatMap.1 hg
  obtain ⟨abstr, -, rfl⟩ := List.mem_map.1 hg
  refine ⟨itf, abstr, fun c hc hmem => ?_⟩
  obtain ⟨d, hd, htype⟩ := List.mem_map.1 (MergeGroup.mem_ofList.1 hmem)
  obtain ⟨hd, hkind⟩ := List.mem_filter.1 hd
  obtain rfl : d = c := Program.eq_of_type (Program.mem_classes_of_mem_programClasses hd) (Program.mem_classes_of_mem_programClasses hc) htype
  simp only [Bool.and_eq_true, beq_iff_eq] at hkind
  exact ⟨hkind.1.2, hkind.2⟩

theorem perm_shape {p : Program} {t : Descriptor} {c : ClassDef} (hc : p.class? t = some c) :
    (shape p t).Perm (c.instanceFields.map (·.ref.type.relaxed)) := by
  simp only [shape, hc, Option.toList_some, List.flatMap_cons, List.flatMap_nil, List.append_nil]
  exact perm_sortBy _ _

theorem alike_of_mergedGroups {groups : List MergeGroup} (hgroups : MergedGroups v.program groups) {g : MergeGroup} (hg : g ∈ groups)
    {c c' : ClassDef} (hc : v.program.class? c.type = some c) (hc' : v.program.class? c'.type = some c') (hmem : c.type ∈ g.classes)
    (hmem' : c'.type ∈ g.classes) (hkind : c.isInterface = c'.isInterface ∧ c.isAbstract = c'.isAbstract) : Alike c c' := by
  have hparents := hgroups.parents g hg _ hmem _ hmem'
  have hshape := hgroups.shapes g hg _ hmem _ hmem'
  simp only [parents?, hc, hc', Option.map_some, Option.some.injEq, Prod.mk.injEq] at hparents
  refine ⟨hparents.1, fun t => ?_, hkind.1, hkind.2, (perm_shape hc).symm.trans (hshape ▸ perm_shape hc')⟩
  have hlists := congrArg (t ∈ ·) hparents.2
  simpa [TreeSet.mem_toList, TreeSet.mem_ofList] using hlists

theorem package_of_run {policies : List Policy} (hmem : .respectPackageBoundaries ∈ policies) {groups kept : List MergeGroup}
    {report : MergeReport} (hapart : Apart groups) (h : run v maxSize policies groups = .ok (kept, report)) :
    ∀ g ∈ kept, ∃ name, ∀ t ∈ g.classes, t.package? = some name := by
  refine forall_of_run _ (fun g g' hsub ⟨name, hall⟩ => ⟨name, fun t ht => hall t (hsub ht)⟩) ?_ hmem hapart h
  intro groups r hapart happly g hg
  simp only [apply] at happly
  split at happly
  · cases happly
  · next hnamed =>
    obtain ⟨g', hg', hsub⟩ := ((splits_splitBy Descriptor.package?).flatMap hapart).2 g (by cases happly; exact hg)
    cases happly
    cases hclasses : g.classes with
    | nil => exact ⟨"", by simp⟩
    | cons t rest =>
      have ht : t ∈ g.classes := by simp [hclasses]
      have hsome := List.find?_eq_none.1 hnamed t (List.mem_flatMap.2 ⟨g', hg', hsub ht⟩)
      obtain ⟨name, hname⟩ := Option.ne_none_iff_exists'.1 (by simpa using hsome)
      exact ⟨name, fun t' ht' => (key_eq_of_mem hg (hclasses ▸ ht') ht).trans hname⟩

/-- Groups are within the size. -/
theorem size_of_run {policies : List Policy} (hmem : .limitGroupSize ∈ policies) {groups kept : List MergeGroup}
    {report : MergeReport} (hapart : Apart groups) (h : run v maxSize policies groups = .ok (kept, report)) :
    ∀ g ∈ kept, g.size ≤ Nat.max 2 maxSize := by
  have hapart' : Apart kept := (runFrom_spec h (hapart.filter _)).1
  have hbound : ∀ g ∈ kept, ∃ ts : List Descriptor, ts.length ≤ Nat.max maxSize 2 ∧ g.classes ⊆ ts := by
    refine forall_of_run _ (fun g g' hsub ⟨ts, hlength, hall⟩ => ⟨ts, hlength, List.Subset.trans hsub hall⟩) ?_ hmem hapart h
    intro groups r hapart happly g hg
    cases happly
    obtain ⟨g', -, hg⟩ := List.mem_flatMap.1 hg
    unfold limitSize at hg
    simp only at hg
    split at hg
    · next hsize =>
      obtain rfl := List.mem_singleton.1 hg
      exact ⟨g.classes, hsize, List.Subset.refl _⟩
    · obtain ⟨piece, hpiece, rfl⟩ := List.mem_map.1 hg
      obtain ⟨i, -, rfl⟩ := List.mem_map.1 hpiece
      exact ⟨_, List.length_take_le _ _, fun t ht => MergeGroup.mem_ofList.1 ht⟩
  intro g hg
  obtain ⟨ts, hlength, hsub⟩ := hbound g hg
  exact (List.subperm_of_subset (hapart'.nodup g hg) hsub).length_le.trans (hlength.trans_eq (Nat.max_comm maxSize 2))

/-- Virtual methods differ after the merge of a group that has all the classes, if not more. -/
theorem virtuals_of_run {policies : List Policy} (hmem : .noVirtualMethodCollisions ∈ policies) {groups kept : List MergeGroup}
    {report : MergeReport} (hapart : Apart groups) (h : run v maxSize policies groups = .ok (kept, report)) :
    ∀ g ∈ kept, ∃ G : MergeGroup, g.classes ⊆ G.classes ∧ ∀ c c', v.program.class? c.type = some c →
      v.program.class? c'.type = some c' → c.type ∈ g.classes → c'.type ∈ g.classes → c.type ≠ c'.type →
        ∀ m ∈ c.virtualMethods, ∀ m' ∈ c'.virtualMethods,
          (MergeMap.ofGroups [G]).signature m.ref.signature ≠ (MergeMap.ofGroups [G]).signature m'.ref.signature := by
  refine forall_of_run _ (fun g g' hsub hg => ?_) ?_ hmem hapart h
  · obtain ⟨G, hG, hall⟩ := hg
    exact ⟨G, List.Subset.trans hsub hG, fun c c' hc hc' hmem hmem' => hall c c' hc hc' (hsub hmem) (hsub hmem')⟩
  · intro groups r hapart happly g hg
    cases happly
    obtain ⟨G, hG, hg⟩ := List.mem_flatMap.1 hg
    exact ⟨G, (splits_separateVirtuals v.program G (hapart.nodup G hG)).2 g hg, fun c c' hc hc' hmem hmem' hne m hm m' hm' =>
      signature_ne_of_mem hg hmem hmem' hne hc hc' hm hm'⟩

/-- **The groups that all policies let through fit together.** -/
theorem fits_of_run {groups : List MergeGroup} {report : MergeReport}
    (hclass : ∀ c ∈ v.program.programClasses, c.type.isClass = true)
    (h : run v maxSize all (candidates v.program) = .ok (groups, report)) : ∀ g ∈ groups, Fits v maxSize g := by
  have hgroups := mergedGroups_of_run h
  have hapart := (candidates_spec v.program).1
  have hfound {c : ClassDef} (hc : c ∈ v.program.programClasses) : v.program.class? c.type = some c :=
    (Program.mem_programClasses.1 hc).1
  intro g hg
  obtain ⟨hsorted, hsize⟩ := sorted_of_runFrom h (fun g => sorted_candidates) g hg
  obtain ⟨t, rest, hclasses, htarget⟩ := hgroups.target g hg
  refine ⟨hsize, size_of_run (by decide) hapart h g hg, fun t ht => ?_, fun c hc c' hc' hmem hmem' => ?_,
    package_of_run (by decide) hapart h g hg, fun t ht => ?_, fun c hc c' hc' hmem hmem' hne m hm m' hm' heq => ?_, ?_⟩
  · obtain ⟨c, hc, rfl⟩ := hgroups.program g hg t ht
    exact ⟨c, hc, rfl, mergeable_of_run (by decide) hapart h hg (hfound hc) (hclass c hc) ht⟩
  · obtain ⟨g', hg', hsub⟩ := (runFrom_spec h (hapart.filter _)).2 g hg
    obtain ⟨itf, abstr, hkind⟩ := kind_of_mem_candidates (List.mem_filter.1 hg').1
    obtain ⟨hitf, habstr⟩ := hkind c hc (hsub hmem)
    obtain ⟨hitf', habstr'⟩ := hkind c' hc' (hsub hmem')
    exact alike_of_mergedGroups hgroups hg (hfound hc) (hfound hc') hmem hmem' ⟨hitf.trans hitf'.symm, habstr.trans habstr'.symm⟩
  · refine (unobserved_of_run (by decide) hapart h g hg t ht).resolve_right fun hsub => ?_
    have hle := (List.subperm_of_subset (hgroups.apart.nodup g hg) hsub).length_le
    exact absurd (hsize.trans hle) (by simp)
  · obtain ⟨G, hsub, hG⟩ := virtuals_of_run (by decide) hapart h g hg
    refine hG c c' (hfound hc) (hfound hc') hmem hmem' hne m hm m' hm' ?_
    have harray : t.isArray = false := by
      obtain ⟨d, hd, rfl⟩ := hgroups.program g hg t (by simp [hclasses])
      exact Descriptor.isArray_of_isClass (hclass d hd)
    rw [← MergeMap.signature_signature_ofGroups hsub hclasses harray, heq, MergeMap.signature_signature_ofGroups hsub hclasses harray]
  · rw [MergeGroup.Sorted, hclasses, List.pairwise_cons] at hsorted
    refine ⟨t, by simp [hclasses], htarget, fun t' ht' hne => hsorted.1 t' ?_⟩
    exact (List.mem_cons.1 (hclasses ▸ ht')).resolve_left hne

/-- `A` and `B` fit together, whereas `C` has an annotation. -/
theorem fits_of_run_annotated : ∃ g report, run Annotated.view 30 all (candidates Annotated.view.program) = .ok ([g], report) ∧
    g.classes = [Annotated.type "A", Annotated.type "B"] ∧ Fits Annotated.view 30 g := by
  have hkept : (run Annotated.view 30 all (candidates Annotated.view.program)).toOption.map Prod.fst =
      some [{ classes := [Annotated.type "A", Annotated.type "B"], isInterface := false, target := some (Annotated.type "A") }] := by
    decide
  obtain ⟨⟨kept, report⟩, hrun, hclasses⟩ := Option.map_eq_some_iff.1 hkept
  replace hrun := toOption_eq_some.1 hrun
  obtain rfl : kept = _ := hclasses
  exact ⟨_, report, hrun, rfl, fits_of_run (by decide) hrun _ (List.mem_singleton_self _)⟩

/-! ### Classes of array types

Pins are kept for class types only, so a class that has an array type may be merged although one of its
methods is pinned. -/

namespace ArrayClass

def method : MethodRef := ⟨⟨"[Lp/A;"⟩, "m", .void⟩

def view : View where
  program := .ofList [{ type := .object, kind := .library, superclass := none }, { type := ⟨"[Lp/A;"⟩, superclass := some .object },
    { type := ⟨"[Lp/B;"⟩, superclass := some .object }]
  pins := { methods := .ofList [method] }

end ArrayClass

/-- The holder of a pinned method is left in a group. -/
theorem pinned_array_class_kept : ∃ kept report,
    run ArrayClass.view 30 all (candidates ArrayClass.view.program) = .ok (kept, report) ∧
      ∃ g ∈ kept, ∃ t ∈ g.classes, ∃ m ∈ ArrayClass.view.pins.methods, m.holder = t := by
  have hkept : (run ArrayClass.view 30 all (candidates ArrayClass.view.program)).toOption.map Prod.fst =
      some [{ classes := [⟨"[Lp/A;"⟩, ⟨"[Lp/B;"⟩], isInterface := false, target := some ⟨"[Lp/A;"⟩ }] := by
    decide
  obtain ⟨⟨kept, report⟩, hrun, hclasses⟩ := Option.map_eq_some_iff.1 hkept
  obtain rfl : kept = _ := hclasses
  refine ⟨_, report, toOption_eq_some.1 hrun, _, List.mem_singleton_self _, ⟨"[Lp/A;"⟩, List.mem_cons_self, ArrayClass.method, ?_, rfl⟩
  decide

end Policy

end DexShrinker
