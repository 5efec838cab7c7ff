/-
  DexShrinker/Proofs/Merging/Groups.lean
  ======================================
  **What the groups of a merge have in common.**

  Every policy takes classes out of groups or splits groups, so what a policy achieves within
  groups stays. The groups at the end have program classes with the same supertypes and alike
  instance fields, and the first class of each is its target (`Policy.MergedGroups`). A merge map
  sends exactly the classes of the groups elsewhere, all classes of a group to the same type.

  Policies lose no class and repeat none. A class that a policy does not leave in a group is one
  that it takes out (`Policy.Conserves`). So a run ends with every class either in one group, or in
  the report under one policy: the one that the class falls out at (`Policy.FallsOut`).
-/
import DexShrinker.Proofs.Descriptor
import DexShrinker.Proofs.Merging.Splitting
import DexShrinker.Proofs.Program

namespace DexShrinker

open Std

namespace Policy

/-! ### Running policies -/

variable {v : View} {maxSize : Nat}

theorem step_eq_ok {policy : Policy} {groups : List MergeGroup} {report : MergeReport} {r : List MergeGroup × MergeReport}
    (h : policy.step v maxSize groups report = .ok r) :
    ∃ r', policy.apply v maxSize groups = .ok r' ∧ r.1 = r'.1.filter (!·.isTrivial) ∧
      r.2 = report.recordRemoved policy.name (r'.2 ++ (r'.1.filter (·.isTrivial)).flatMap MergeGroup.classes) := by
  obtain ⟨r', hr', h⟩ := bind_eq_ok.1 h
  simp only [List.partition_eq_filter_filter] at h
  cases h
  exact ⟨r', hr', rfl, rfl⟩

/-- One policy keeps groups apart and refines them. -/
theorem step_spec {policy : Policy} {groups : List MergeGroup} {report : MergeReport} {r : List MergeGroup × MergeReport}
    (h : policy.step v maxSize groups report = .ok r) (hapart : Apart groups) : Apart r.1 ∧ Refines r.1 groups := by
  obtain ⟨r', hr', heq, -⟩ := step_eq_ok h
  obtain ⟨hapart', hrefines⟩ := apply_spec hr' hapart
  rw [heq]
  exact ⟨hapart'.filter _, fun g hg => hrefines g (List.mem_filter.1 hg).1⟩

/-- **A run of policies** keeps groups apart and refines them. -/
theorem runFrom_spec {policies : List Policy} {groups : List MergeGroup} {report : MergeReport}
    {r : List MergeGroup × MergeReport} (h : runFrom v maxSize policies groups report = .ok r) (hapart : Apart groups) :
    Apart r.1 ∧ Refines r.1 groups := by
  induction policies generalizing groups report with
  | nil =>
    cases h
    exact ⟨hapart, Refines.refl groups⟩
  | cons policy policies ih =>
    unfold runFrom at h
    split at h
    · cases h
      exact ⟨⟨by simp, by simp⟩, by simp [Refines]⟩
    · obtain ⟨r', hstep, h⟩ := bind_eq_ok.1 h
      obtain ⟨hapart', hrefines'⟩ := step_spec hstep hapart
      obtain ⟨hapart'', hrefines''⟩ := ih h hapart'
      exact ⟨hapart'', hrefines'.trans hrefines''⟩

theorem runFrom_append {first rest : List Policy} {groups : List MergeGroup} {report : MergeReport}
    {r : List MergeGroup × MergeReport} (h : runFrom v maxSize (first ++ rest) groups report = .ok r) :
    ∃ r', runFrom v maxSize first groups report = .ok r' ∧ runFrom v maxSize rest r'.1 r'.2 = .ok r := by
  induction first generalizing groups report with
  | nil => exact ⟨(groups, report), rfl, h⟩
  | cons policy first ih =>
    rw [List.cons_append, runFrom] at h
    split at h
    · next hempty =>
      refine ⟨([], report), by rw [runFrom, if_pos hempty], ?_⟩
      cases h
      cases rest <;> rfl
    · next hempty =>
      obtain ⟨r', hstep, h⟩ := bind_eq_ok.1 h
      obtain ⟨r'', hfirst, hrest⟩ := ih h
      exact ⟨r'', by rw [runFrom, if_neg hempty, hstep]; exact hfirst, hrest⟩

/-- What one policy achieves in every group, as long as smaller groups have it too, holds in
    every group at the end. -/
theorem runFrom_forall {P : MergeGroup → Prop} (hmono : ∀ g g' : MergeGroup, g'.classes ⊆ g.classes → P g → P g')
    {first rest : List Policy} {policy : Policy}
    (hpolicy : ∀ groups r, Apart groups → policy.apply v maxSize groups = .ok r → ∀ g ∈ r.1, P g) {groups : List MergeGroup}
    {report : MergeReport} {r : List MergeGroup × MergeReport} (hapart : Apart groups)
    (h : runFrom v maxSize (first ++ policy :: rest) groups report = .ok r) : ∀ g ∈ r.1, P g := by
  obtain ⟨r', hfirst, h⟩ := runFrom_append h
  have hapart' := (runFrom_spec hfirst hapart).1
  rw [runFrom] at h
  split at h
  · cases h
    simp
  · obtain ⟨r'', hstep, h⟩ := bind_eq_ok.1 h
    obtain ⟨applied, happly, heq, -⟩ := step_eq_ok hstep
    intro g hg
    obtain ⟨g', hg', hsub⟩ := (runFrom_spec h (step_spec hstep hapart').1).2 g hg
    rw [heq] at hg'
    exact hmono g' g hsub (hpolicy _ _ hapart' happly g' (List.mem_filter.1 hg').1)

/-- What one of the policies achieves holds in every group at the end. -/
theorem forall_of_run (policy : Policy) {P : MergeGroup → Prop} (hmono : ∀ g g' : MergeGroup, g'.classes ⊆ g.classes → P g → P g')
    (hpolicy : ∀ groups r, Apart groups → policy.apply v maxSize groups = .ok r → ∀ g ∈ r.1, P g) {policies : List Policy} (hmem : policy ∈ policies)
    {groups kept : List MergeGroup} {report : MergeReport} (hapart : Apart groups)
    (h : run v maxSize policies groups = .ok (kept, report)) : ∀ g ∈ kept, P g := by
  obtain ⟨first, rest, rfl⟩ := List.append_of_mem hmem
  exact runFrom_forall hmono hpolicy (hapart.filter _) h

/-- Classes that stay together when groups are split by a key have the same one. -/
theorem key_eq_of_mem {κ : Type} [BEq κ] [LawfulBEq κ] {key : Descriptor → κ} {groups : List MergeGroup} {g : MergeGroup}
    (hg : g ∈ groups.flatMap (·.splitBy key)) {t t' : Descriptor} (ht : t ∈ g.classes) (ht' : t' ∈ g.classes) : key t = key t' := by
  obtain ⟨g', -, hg⟩ := List.mem_flatMap.1 hg
  obtain ⟨k, -, rfl⟩ := List.mem_map.1 hg
  have ht := MergeGroup.mem_ofList.1 ht
  have ht' := MergeGroup.mem_ofList.1 ht'
  simp only [List.mem_filter, beq_iff_eq] at ht ht'
  rw [ht.2, ht'.2]

/-! ### The groups of a merge -/

theorem target_of_mem_finish {p : Program} {m : MergeMap} {g g' : MergeGroup} (h : g' ∈ finish p m g) :
    ∃ t rest, g'.classes = t :: rest ∧ g'.target = some t ∧
      ∀ f, g.classIdField = none → g'.classIdField = some f → f = ⟨t, classIdName p g', .int⟩ := by
  unfold finish at h
  split at h
  · cases h
  · next t rest hclasses =>
    obtain rfl := List.mem_singleton.1 h
    refine ⟨t, rest, hclasses, rfl, fun f hnone hsome => ?_⟩
    simp only [hnone] at hsome
    split at hsome
    · cases hsome
      rfl
    · cases hsome

/-- Before the last policy no group has a class id. -/
theorem classIdField_of_step {policy : Policy} (hpolicy : policy ≠ .finalizeMergeGroup) {groups : List MergeGroup} {report : MergeReport}
    {r : List MergeGroup × MergeReport} (h : policy.step v maxSize groups report = .ok r)
    (hgroups : ∀ g ∈ groups, g.classIdField = none) : ∀ g ∈ r.1, g.classIdField = none := by
  obtain ⟨r', happly, heq, -⟩ := step_eq_ok h
  suffices hall : ∀ g ∈ r'.1, g.classIdField = none by
    intro g hg
    rw [heq] at hg
    exact hall g (List.mem_filter.1 hg).1
  have hsift (admits : ClassDef → Bool) (hr : (.ok (sift v admits groups) : Outcome MergeError _) = .ok r') :
      ∀ g ∈ r'.1, g.classIdField = none := by
    cases hr
    intro g hg
    obtain ⟨g', hg', rfl⟩ := List.mem_map.1 hg
    exact hgroups g' hg'
  have hsplit {α : Type} (xs : MergeGroup → List α) (f : MergeGroup → α → List Descriptor) :
      ∀ g ∈ groups.flatMap fun g => (xs g).map fun x => g.withClasses (f g x), g.classIdField = none := by
    intro g hg
    obtain ⟨g', -, hg⟩ := List.mem_flatMap.1 hg
    obtain ⟨x, -, rfl⟩ := List.mem_map.1 hg
    rfl
  cases policy with
  | noKeepRules => exact hsift _ happly
  | noEnums => exact hsift _ happly
  | noAnnotations => exact hsift _ happly
  | noClassInitializers => exact hsift _ happly
  | noDirectRuntimeTypeChecks =>
    obtain ⟨observed, -, happly⟩ := bind_eq_ok.1 happly
    cases happly
    intro g hg
    obtain ⟨g', hg', hg⟩ := List.mem_flatMap.1 hg
    rcases List.mem_append.1 hg with hg | hg
    · obtain ⟨t, -, rfl⟩ := List.mem_map.1 hg
      rfl
    · rw [List.mem_singleton.1 hg]
      exact hgroups g' hg'
  | sameParentClass =>
    cases happly
    exact hsplit _ _
  | respectPackageBoundaries =>
    simp only [apply] at happly
    split at happly
    · cases happly
    · cases happly
      exact hsplit _ _
  | sameInstanceFields =>
    cases happly
    exact hsplit _ _
  | noVirtualMethodCollisions =>
    cases happly
    exact hsplit _ _
  | limitGroupSize =>
    cases happly
    intro g hg
    obtain ⟨g', hg', hg⟩ := List.mem_flatMap.1 hg
    unfold limitSize at hg
    simp only at hg
    split at hg
    · rw [List.mem_singleton.1 hg]
      exact hgroups g' hg'
    · obtain ⟨piece, -, rfl⟩ := List.mem_map.1 hg
      rfl
  | finalizeMergeGroup => exact absurd rfl hpolicy

theorem classIdField_of_runFrom {policies : List Policy} (hpolicies : .finalizeMergeGroup ∉ policies) {groups : List MergeGroup}
    {report : MergeReport} {r : List MergeGroup × MergeReport} (h : runFrom v maxSize policies groups report = .ok r)
    (hgroups : ∀ g ∈ groups, g.classIdField = none) : ∀ g ∈ r.1, g.classIdField = none := by
  induction policies generalizing groups report with
  | nil =>
    cases h
    exact hgroups
  | cons policy policies ih =>
    rw [List.mem_cons, not_or] at hpolicies
    unfold runFrom at h
    split at h
    · cases h
      simp
    · obtain ⟨r', hstep, h⟩ := bind_eq_ok.1 h
      exact ih hpolicies.2 h (classIdField_of_step (Ne.symm hpolicies.1) hstep hgroups)

/-- What the groups that are merged have in common. -/
structure MergedGroups (p : Program) (groups : List MergeGroup) : Prop where
  apart : Apart groups
  program : ∀ g ∈ groups, ∀ t ∈ g.classes, ∃ c ∈ p.programClasses, c.type = t
  parents : ∀ g ∈ groups, ∀ t ∈ g.classes, ∀ t' ∈ g.classes, parents? p t = parents? p t'
  shapes : ∀ g ∈ groups, ∀ t ∈ g.classes, ∀ t' ∈ g.classes, shape p t = shape p t'
  virtuals : ∀ g ∈ groups, ∀ t ∈ g.classes, ∀ t' ∈ g.classes, t ≠ t' → Separate p t t'
  target : ∀ g ∈ groups, ∃ t rest, g.classes = t :: rest ∧ g.target = some t
  classId : ∀ g ∈ groups, ∀ f, g.classIdField = some f → ∃ t, f = ⟨t, classIdName p g, .int⟩ ∧ g.target = some t

theorem MergedGroups.sublist {p : Program} {groups groups' : List MergeGroup} (h : MergedGroups p groups) (hsub : groups'.Sublist groups) :
    MergedGroups p groups' where
  apart := ⟨fun g hg => h.apart.nodup g (hsub.subset hg), h.apart.disjoint.sublist hsub⟩
  program g hg := h.program g (hsub.subset hg)
  parents g hg := h.parents g (hsub.subset hg)
  shapes g hg := h.shapes g (hsub.subset hg)
  virtuals g hg := h.virtuals g (hsub.subset hg)
  target g hg := h.target g (hsub.subset hg)
  classId g hg := h.classId g (hsub.subset hg)

theorem candidates_spec (p : Program) : Apart (candidates p) ∧
    ∀ g ∈ candidates p, ∀ t ∈ g.classes, ∃ c ∈ p.programClasses, c.type = t := by
  let having (s : Option Descriptor) (itf abstr : Bool) : MergeGroup :=
    .ofList ((p.programClasses.filter fun c => c.superclass == s && c.isInterface == itf && c.isAbstract == abstr).map
      ClassDef.type) itf
  have hmem (s : Option Descriptor) (itf abstr : Bool) (t : Descriptor) (ht : t ∈ (having s itf abstr).classes) :
      ∃ c ∈ p.programClasses, c.type = t ∧ (c.superclass, c.isInterface, c.isAbstract) = (s, itf, abstr) := by
    obtain ⟨c, hc, rfl⟩ := List.mem_map.1 (MergeGroup.mem_ofList.1 ht)
    rw [List.mem_filter] at hc
    exact ⟨c, hc.1, rfl, by simpa [and_assoc] using hc.2⟩
  -- The type determines the class, and the class determines the group.
  have hdisjoint (s s' : Option Descriptor) (itf itf' abstr abstr' : Bool) (hne : (s, itf, abstr) ≠ (s', itf', abstr'))
      (t : Descriptor) (ht : t ∈ (having s itf abstr).classes) : t ∉ (having s' itf' abstr').classes := by
    intro ht'
    obtain ⟨c, hc, hct, hkey⟩ := hmem s itf abstr t ht
    obtain ⟨c', hc', hct', hkey'⟩ := hmem s' itf' abstr' t ht'
    have heq : c = c' := by
      rw [Program.mem_programClasses, hct] at hc
      rw [Program.mem_programClasses, hct', hc.1] at hc'
      exact Option.some.inj hc'.1
    exact hne (by rw [← hkey, heq, hkey'])
  let supers := none :: (.ofList (p.programClasses.filterMap ClassDef.superclass) : TypeSet).toList.map some
  have heq : candidates p =
      supers.flatMap fun s => [having s false false, having s false true, having s true false, having s true true] := rfl
  have hsupers : supers.Nodup := by
    refine List.nodup_cons.2 ⟨by simp, List.Nodup.map (fun _ _ => Option.some.inj) ?_⟩
    exact TreeSet.distinct_toList.imp fun {a b} hne heq => hne (by rw [heq, compare_self])
  rw [heq]
  refine ⟨⟨fun g hg => ?_, ?_⟩, fun g hg t ht => ?_⟩
  · simp only [List.mem_flatMap, List.mem_cons, List.not_mem_nil, or_false] at hg
    obtain ⟨s, -, rfl | rfl | rfl | rfl⟩ := hg <;> exact MergeGroup.nodup_ofList _ _
  · rw [List.pairwise_flatMap]
    constructor
    · intro s _
      simp only [List.pairwise_cons, List.mem_cons, List.not_mem_nil, or_false, forall_eq_or_imp, forall_eq, List.Pairwise.nil,
        and_true, IsEmpty.forall_iff, implies_true]
      refine ⟨⟨?_, ?_, ?_⟩, ⟨?_, ?_⟩, ?_⟩ <;> exact hdisjoint s s _ _ _ _ (by simp)
    · refine hsupers.imp fun {s s'} hne g hg g' hg' => ?_
      simp only [List.mem_cons, List.not_mem_nil, or_false] at hg hg'
      rcases hg with rfl | rfl | rfl | rfl <;> rcases hg' with rfl | rfl | rfl | rfl <;>
        exact hdisjoint s s' _ _ _ _ (by simp [hne])
  · simp only [List.mem_flatMap, List.mem_cons, List.not_mem_nil, or_false] at hg
    obtain ⟨s, -, rfl | rfl | rfl | rfl⟩ := hg <;>
    · obtain ⟨c, hc, hct, -⟩ := hmem _ _ _ t ht
      exact ⟨c, hc, hct⟩

theorem classIdField_of_mem_candidates {p : Program} {g : MergeGroup} (hg : g ∈ candidates p) : g.classIdField = none := by
  obtain ⟨s, -, hg⟩ := List.mem_flatMap.1 hg
  obtain ⟨itf, -, hg⟩ := List.mem_flatMap.1 hg
  obtain ⟨abstr, -, rfl⟩ := List.mem_map.1 hg
  rfl

/-- **The groups that all policies let through.** -/
theorem mergedGroups_of_run {groups : List MergeGroup} {report : MergeReport}
    (h : Policy.run v maxSize Policy.all (candidates v.program) = .ok (groups, report)) : MergedGroups v.program groups := by
  obtain ⟨hapart, hprogram⟩ := candidates_spec v.program
  have hapart' := hapart.filter (!·.isTrivial)
  obtain ⟨hfinal, hrefines⟩ := runFrom_spec h hapart'
  have hlast : ∀ g ∈ groups, ∃ t rest, g.classes = t :: rest ∧ g.target = some t ∧
      ∀ f, g.classIdField = some f → f = ⟨t, classIdName v.program g, .int⟩ := by
    have hsplit : Policy.all = ([.noKeepRules, .noEnums, .noAnnotations, .noClassInitializers, .noDirectRuntimeTypeChecks,
        .sameParentClass, .respectPackageBoundaries, .sameInstanceFields, .noVirtualMethodCollisions, .limitGroupSize] : List Policy) ++
        [.finalizeMergeGroup] := rfl
    rw [Policy.run, hsplit] at h
    obtain ⟨r, hbefore, h⟩ := runFrom_append h
    have hnone := classIdField_of_runFrom (by decide) hbefore fun g hg => classIdField_of_mem_candidates (List.mem_filter.1 hg).1
    rw [runFrom] at h
    split at h
    · cases h
      simp
    · obtain ⟨r', hstep, h⟩ := bind_eq_ok.1 h
      cases h
      obtain ⟨applied, happly, heq, -⟩ := step_eq_ok hstep
      cases happly
      intro g hg
      rw [heq] at hg
      obtain ⟨g', hg', hg⟩ := List.mem_flatMap.1 (List.mem_filter.1 hg).1
      obtain ⟨t, rest, hclasses, htarget, hid⟩ := target_of_mem_finish hg
      exact ⟨t, rest, hclasses, htarget, fun f => hid f (hnone g' hg')⟩
  refine ⟨hfinal, ?_, ?_, ?_, ?_, ?_, ?_⟩
  · intro g hg t ht
    obtain ⟨g', hg', hsub⟩ := hrefines g hg
    exact hprogram g' (List.mem_filter.1 hg').1 t (hsub ht)
  · refine forall_of_run .sameParentClass (fun g g' hsub hg t ht t' ht' => hg t (hsub ht) t' (hsub ht')) ?_ (by decide) hapart h
    intro groups r _ hr
    cases hr
    exact fun g hg t ht t' ht' => key_eq_of_mem hg ht ht'
  · refine forall_of_run .sameInstanceFields (fun g g' hsub hg t ht t' ht' => hg t (hsub ht) t' (hsub ht')) ?_ (by decide) hapart h
    intro groups r _ hr
    cases hr
    exact fun g hg t ht t' ht' => key_eq_of_mem hg ht ht'
  · refine forall_of_run .noVirtualMethodCollisions (fun g g' hsub hg t ht t' ht' => hg t (hsub ht) t' (hsub ht')) ?_ (by decide) hapart h
    intro groups r _ hr g hg t ht t' ht' hne
    cases hr
    obtain ⟨g', -, hg⟩ := List.mem_flatMap.1 hg
    exact separate_of_mem hg ht ht' hne
  · intro g hg
    obtain ⟨t, rest, hclasses, htarget, -⟩ := hlast g hg
    exact ⟨t, rest, hclasses, htarget⟩
  · intro g hg f hf
    obtain ⟨t, -, -, htarget, hid⟩ := hlast g hg
    exact ⟨t, hid f hf, htarget⟩

end Policy

/-! ### Where types go -/

namespace MergeMap

theorem getElem?_addGroup (m : MergeMap) {g : MergeGroup} {h : Descriptor} {rest : List Descriptor}
    (hclasses : g.classes = h :: rest) (t : Descriptor) :
    (m.addGroup g).targets[t]? = if t ∈ g.classes ∧ t ≠ h then some h else m.targets[t]? := by
  have hloop (ts : List Descriptor) (m : MergeMap) :
      (ts.foldl (fun (m : MergeMap) t => ⟨m.targets.insert t h⟩) m).targets[t]? =
        if t ∈ ts then some h else m.targets[t]? := by
    induction ts generalizing m with
    | nil => simp
    | cons s ts ih =>
      rw [List.foldl_cons, ih, TreeMap.getElem?_insert]
      by_cases hs : s = t
      · simp [hs]
      · have hs' : ¬ t = s := fun heq => hs heq.symm
        simp [hs, hs']
  simp only [addGroup, hclasses]
  rw [hloop]
  simp only [List.mem_filter, bne_iff_ne]

/-- Groups that are apart do not get in each other's way. -/
theorem getElem?_foldl_addGroup {groups : List MergeGroup} (hapart : Policy.Apart groups)
    (hhead : ∀ g ∈ groups, g.classes ≠ []) (m : MergeMap) (t : Descriptor) :
    ((∀ g ∈ groups, t ∉ g.classes) → (groups.foldl addGroup m).targets[t]? = m.targets[t]?) ∧
      ∀ g ∈ groups, t ∈ g.classes → ∀ h rest, g.classes = h :: rest →
        (groups.foldl addGroup m).targets[t]? = if t = h then m.targets[t]? else some h := by
  induction groups generalizing m with
  | nil => simp
  | cons g groups ih =>
    obtain ⟨hdisjoint, hapart'⟩ := List.pairwise_cons.1 hapart.disjoint
    obtain ⟨hout, hin⟩ := ih ⟨fun g' hg' => hapart.nodup g' (by simp [hg']), hapart'⟩ (fun g' hg' => hhead g' (by simp [hg']))
      (m.addGroup g)
    obtain ⟨h, rest, hclasses⟩ := List.exists_cons_of_ne_nil (hhead g (by simp))
    have hadd := getElem?_addGroup m hclasses t
    rw [List.foldl_cons]
    refine ⟨fun hno => ?_, fun g' hg' ht h' rest' hclasses' => ?_⟩
    · rw [hout fun g' hg' => hno g' (by simp [hg']), hadd, if_neg fun hmem => hno g (by simp) hmem.1]
    · rcases List.mem_cons.1 hg' with rfl | hg'
      · rw [hclasses] at hclasses'
        cases hclasses'
        rw [hout fun g' hg' ht' => hdisjoint g' hg' t ht ht', hadd]
        by_cases hth : t = h <;> simp [ht, hth]
      · have hother : (m.addGroup g).targets[t]? = m.targets[t]? := by
          rw [hadd, if_neg fun hmem => hdisjoint g' hg' t hmem.1 ht]
        rw [hin g' hg' ht h' rest' hclasses', hother]

section

variable {p : Program} {groups : List MergeGroup} (hgroups : Policy.MergedGroups p groups)

include hgroups

theorem classes_ne_nil {g : MergeGroup} (hg : g ∈ groups) : g.classes ≠ [] := by
  obtain ⟨t, rest, hclasses, -⟩ := hgroups.target g hg
  simp [hclasses]

/-- A class of a group goes to the target of its group. -/
theorem getElem?_ofGroups {g : MergeGroup} (hg : g ∈ groups) {h : Descriptor} (hh : g.target = some h) {t : Descriptor}
    (ht : t ∈ g.classes) : (ofGroups groups).targets[t]? = if t = h then none else some h := by
  obtain ⟨h', rest, hclasses, htarget⟩ := hgroups.target g hg
  obtain rfl : h' = h := Option.some.inj (htarget.symm.trans hh)
  have hget := (getElem?_foldl_addGroup hgroups.apart (fun g hg => classes_ne_nil hgroups hg) {} t).2 g hg ht h' rest hclasses
  simpa [ofGroups] using hget

/-- A class of no group stays. -/
theorem getElem?_ofGroups_of_not_mem {t : Descriptor} (ht : ∀ g ∈ groups, t ∉ g.classes) :
    (ofGroups groups).targets[t]? = none := by
  have hget := (getElem?_foldl_addGroup hgroups.apart (fun g hg => classes_ne_nil hgroups hg) {} t).1 ht
  simpa [ofGroups] using hget

/-- **A merge keeps the shapes of types** if the types of program classes are references. -/
theorem relaxed_type (hreference : ∀ c ∈ p.programClasses, c.type.isReference = true) (t : Descriptor) :
    ((ofGroups groups).type t).relaxed = t.relaxed := by
  have hrelaxed {s : Descriptor} (hs : s.isReference = true) (ht : t.isReference = true) : s.relaxed = t.relaxed := by
    rw [Descriptor.relaxed, Descriptor.relaxed, if_pos hs, if_pos ht]
  cases harray : t.isArray with
  | true =>
    apply hrelaxed
    · exact Descriptor.isReference_of_isArray (Descriptor.isArray_mapBase harray _)
    · exact Descriptor.isReference_of_isArray harray
  | false =>
    rw [type, Descriptor.mapBase, harray, if_neg Bool.false_ne_true, TreeMap.getD_eq_getD_getElem?]
    by_cases hmem : ∃ g ∈ groups, t ∈ g.classes
    · obtain ⟨g, hg, ht⟩ := hmem
      obtain ⟨h, rest, hclasses, htarget⟩ := hgroups.target g hg
      obtain ⟨c, hc, rfl⟩ := hgroups.program g hg t ht
      obtain ⟨d, hd, rfl⟩ := hgroups.program g hg h (by rw [hclasses]; exact List.mem_cons_self)
      rw [getElem?_ofGroups hgroups hg htarget ht]
      split
      · rfl
      · exact hrelaxed (hreference d hd) (hreference c hc)
    · rw [getElem?_ofGroups_of_not_mem hgroups fun g hg ht => hmem ⟨g, hg, ht⟩]
      rfl

end

end MergeMap

/-! ### Classes that policies take out -/

theorem MergeReport.mem_removedBy_recordRemoved {report : MergeReport} {policy name : String} {classes : List Descriptor}
    {t : Descriptor} : t ∈ (report.recordRemoved policy classes).removedBy name ↔
      t ∈ report.removedBy name ∨ name = policy ∧ t ∈ classes := by
  unfold recordRemoved removedBy
  split
  · next hempty => simp [List.isEmpty_iff.1 hempty]
  · rw [TreeMap.getD_insert]
    by_cases hname : policy = name
    · subst hname
      simp [TreeSet.mem_toList, TreeSet.mem_insertMany_list]
    · simp [hname, Ne.symm hname]

namespace Policy

theorem name_injective {policy policy' : Policy} (h : policy.name = policy'.name) : policy = policy' := by
  cases policy <;> cases policy' <;> first | rfl | exact absurd h (by decide)

/-! ### One policy -/

variable {v : View} {maxSize : Nat}

/-- What is left after one policy is in order, and has at least two classes a group. -/
theorem sorted_of_step {policy : Policy} {groups : List MergeGroup} {report : MergeReport} {r : List MergeGroup × MergeReport}
    (h : policy.step v maxSize groups report = .ok r) (hsorted : ∀ g ∈ groups, g.Sorted) :
    ∀ g ∈ r.1, g.Sorted ∧ 2 ≤ g.size := by
  obtain ⟨r', happly, hkept, -⟩ := step_eq_ok h
  intro g hg
  rw [hkept] at hg
  obtain ⟨hg, hsize⟩ := MergeGroup.mem_filter_nontrivial.1 hg
  exact ⟨sorted_of_apply happly hsorted g hg, hsize⟩

/-- **One policy** adds the classes that fall out at it to its part of the report, and nothing else. -/
theorem mem_removedBy_of_step {policy : Policy} {groups : List MergeGroup} {report : MergeReport}
    {r : List MergeGroup × MergeReport} (h : policy.step v maxSize groups report = .ok r) (hapart : Apart groups)
    (t : Descriptor) (name : String) :
    t ∈ r.2.removedBy name ↔ t ∈ report.removedBy name ∨ name = policy.name ∧ Grouped t groups ∧ ¬ Grouped t r.1 := by
  obtain ⟨⟨split, removed⟩, happly, hkept, hreport⟩ := step_eq_ok h
  obtain ⟨hapart', hrefines⟩ := apply_spec happly hapart
  rw [hkept, hreport, MergeReport.mem_removedBy_recordRemoved, List.mem_append, mem_removed_of_apply happly hapart]
  refine or_congr_right (and_congr_right fun _ => ?_)
  constructor
  · rintro (⟨hin, hout⟩ | ht)
    · exact ⟨hin, fun hkept => hout (hkept.of_refines fun g hg => ⟨g, (List.mem_filter.1 hg).1, List.Subset.refl _⟩)⟩
    · obtain ⟨g, hg, ht⟩ := List.mem_flatMap.1 ht
      obtain ⟨hg, htrivial⟩ := List.mem_filter.1 hg
      obtain ⟨g', hg', hsub⟩ := hrefines g hg
      refine ⟨⟨g', hg', hsub ht⟩, ?_⟩
      rintro ⟨g'', hg'', ht''⟩
      obtain ⟨hg'', hnontrivial⟩ := List.mem_filter.1 hg''
      obtain rfl := hapart'.eq_of_mem hg hg'' ht ht''
      simp [htrivial] at hnontrivial
  · rintro ⟨hin, hout⟩
    by_cases hkept : Grouped t split
    · obtain ⟨g, hg, ht⟩ := hkept
      have htrivial : g.isTrivial = true := by
        by_contra hnontrivial
        exact hout ⟨g, List.mem_filter.2 ⟨hg, by simpa using hnontrivial⟩, ht⟩
      exact .inr (List.mem_flatMap.2 ⟨g, List.mem_filter.2 ⟨hg, htrivial⟩, ht⟩)
    · exact .inl ⟨hin, hkept⟩

/-! ### A run of policies -/

/-- The policy that a class falls out at: the run comes to it with the class in a group, and goes on with
    the class in none. -/
inductive FallsOut (v : View) (maxSize : Nat) (t : Descriptor) (policy : Policy) : List Policy → List MergeGroup → MergeReport → Prop
  | here {policies : List Policy} {groups : List MergeGroup} {report : MergeReport} {r : List MergeGroup × MergeReport}
      (hstep : policy.step v maxSize groups report = .ok r) (hbefore : Grouped t groups) (hafter : ¬ Grouped t r.1) :
      FallsOut v maxSize t policy (policy :: policies) groups report
  | later {earlier : Policy} {policies : List Policy} {groups : List MergeGroup} {report : MergeReport}
      {r : List MergeGroup × MergeReport} (hstep : earlier.step v maxSize groups report = .ok r)
      (hlater : FallsOut v maxSize t policy policies r.1 r.2) : FallsOut v maxSize t policy (earlier :: policies) groups report

theorem FallsOut.mem {t : Descriptor} {policy : Policy} {policies : List Policy} {groups : List MergeGroup} {report : MergeReport}
    (h : FallsOut v maxSize t policy policies groups report) : policy ∈ policies := by
  induction h with
  | here => exact List.mem_cons_self
  | later _ _ ih => exact List.mem_cons_of_mem _ ih

theorem sorted_of_runFrom {policies : List Policy} {groups : List MergeGroup} {report : MergeReport}
    {r : List MergeGroup × MergeReport} (h : runFrom v maxSize policies groups report = .ok r)
    (hgroups : ∀ g ∈ groups, g.Sorted ∧ 2 ≤ g.size) : ∀ g ∈ r.1, g.Sorted ∧ 2 ≤ g.size := by
  induction policies generalizing groups report with
  | nil =>
    cases h
    exact hgroups
  | cons policy policies ih =>
    unfold runFrom at h
    split at h
    · cases h
      simp
    · obtain ⟨r', hstep, h⟩ := bind_eq_ok.1 h
      exact ih h (sorted_of_step hstep fun g hg => (hgroups g hg).1)

theorem sorted_candidates {p : Program} {g : MergeGroup} (hg : g ∈ (candidates p).filter (!·.isTrivial)) : g.Sorted ∧ 2 ≤ g.size := by
  obtain ⟨hg, hsize⟩ := MergeGroup.mem_filter_nontrivial.1 hg
  obtain ⟨s, -, hg⟩ := List.mem_flatMap.1 hg
  obtain ⟨itf, -, hg⟩ := List.mem_flatMap.1 hg
  obtain ⟨abstr, -, rfl⟩ := List.mem_map.1 hg
  exact ⟨MergeGroup.sorted_ofList _ _, hsize⟩

/-- A class that is in no group is left alone. -/
theorem removedBy_of_not_grouped {policies : List Policy} {groups : List MergeGroup} {report : MergeReport}
    {r : List MergeGroup × MergeReport} (h : runFrom v maxSize policies groups report = .ok r) (hapart : Apart groups)
    {t : Descriptor} (ht : ¬ Grouped t groups) (name : String) : t ∈ r.2.removedBy name ↔ t ∈ report.removedBy name := by
  induction policies generalizing groups report with
  | nil =>
    cases h
    exact Iff.rfl
  | cons policy policies ih =>
    unfold runFrom at h
    split at h
    · cases h
      exact Iff.rfl
    · obtain ⟨r', hstep, h⟩ := bind_eq_ok.1 h
      obtain ⟨hapart', hrefines⟩ := step_spec hstep hapart
      rw [ih h hapart' fun hgrouped => ht (hgrouped.of_refines hrefines), mem_removedBy_of_step hstep hapart]
      simp [ht]

/-- **A run** keeps a class in its groups and does not report it, or loses it at one policy and reports
    it under the name of that one. -/
theorem grouped_or_fallsOut_of_runFrom {policies : List Policy} {groups : List MergeGroup} {report : MergeReport}
    {r : List MergeGroup × MergeReport} (h : runFrom v maxSize policies groups report = .ok r) (hapart : Apart groups)
    {t : Descriptor} (ht : Grouped t groups) :
    Grouped t r.1 ∧ (∀ name, t ∈ r.2.removedBy name ↔ t ∈ report.removedBy name) ∨
      ¬ Grouped t r.1 ∧ ∃ policy, FallsOut v maxSize t policy policies groups report ∧
        ∀ name, t ∈ r.2.removedBy name ↔ t ∈ report.removedBy name ∨ name = policy.name := by
  induction policies generalizing groups report with
  | nil =>
    cases h
    exact .inl ⟨ht, fun _ => Iff.rfl⟩
  | cons policy policies ih =>
    unfold runFrom at h
    split at h
    · next hempty =>
      obtain ⟨g, hg, -⟩ := ht
      simp [List.isEmpty_iff.1 hempty] at hg
    · obtain ⟨r', hstep, h⟩ := bind_eq_ok.1 h
      obtain ⟨hapart', hrefines⟩ := step_spec hstep hapart
      have hreport := mem_removedBy_of_step hstep hapart t
      by_cases hstays : Grouped t r'.1
      · simp only [hstays, not_true_eq_false, and_false, or_false] at hreport
        simp only [← hreport]
        refine (ih h hapart' hstays).imp_right ?_
        rintro ⟨hout, policy', hfalls, hall⟩
        exact ⟨hout, policy', .later hstep hfalls, hall⟩
      · simp only [ht, hstays, not_false_eq_true, and_self, and_true] at hreport
        refine .inr ⟨fun hgrouped => hstays (hgrouped.of_refines (runFrom_spec h hapart').2), policy, .here hstep ht hstays, ?_⟩
        intro name
        rw [removedBy_of_not_grouped h hapart' hstays, hreport]

/-- **Policies lose no class and repeat none.** From groups in order that are apart, a run ends with groups
    in order that are apart and have two classes at least. A class of a group that had two classes is then
    in exactly one group and in no part of the report, or it is in no group, exactly one of the policies
    is the one that it fell out at, and it is in that policy's part of the report only. -/
theorem conserved_of_run {policies : List Policy} {groups kept : List MergeGroup} {report : MergeReport}
    (hsorted : ∀ g ∈ groups, g.Sorted) (hdisjoint : groups.Pairwise fun g g' => ∀ t ∈ g.classes, t ∉ g'.classes)
    (h : run v maxSize policies groups = .ok (kept, report)) :
    (∀ g ∈ groups, 2 ≤ g.size → ∀ t ∈ g.classes,
      (∃! g', g' ∈ kept ∧ t ∈ g'.classes) ∧ (∀ name, t ∉ report.removedBy name) ∨
        (∀ g' ∈ kept, t ∉ g'.classes) ∧ ∃! policy, policy ∈ policies ∧
          FallsOut v maxSize t policy policies (groups.filter (!·.isTrivial)) {} ∧
            ∀ name, t ∈ report.removedBy name ↔ name = policy.name) ∧
      (∀ g ∈ kept, g.Sorted ∧ 2 ≤ g.size) ∧ kept.Pairwise fun g g' => ∀ t ∈ g.classes, t ∉ g'.classes := by
  have hapart : Apart (groups.filter (!·.isTrivial)) := Apart.filter ⟨fun g hg => (hsorted g hg).nodup, hdisjoint⟩ _
  have hapart' : Apart kept := (runFrom_spec h hapart).1
  have hstart (t : Descriptor) (name : String) : t ∉ ({} : MergeReport).removedBy name := by
    simp [MergeReport.removedBy]
  refine ⟨fun g hg hsize t ht => ?_, ?_, hapart'.disjoint⟩
  · have hgrouped : Grouped t (groups.filter (!·.isTrivial)) :=
      ⟨g, MergeGroup.mem_filter_nontrivial.2 ⟨hg, hsize⟩, ht⟩
    rcases grouped_or_fallsOut_of_runFrom h hapart hgrouped with ⟨⟨g', hg', ht'⟩, hreport⟩ | ⟨hout, policy, hfalls, hreport⟩
    · refine .inl ⟨⟨g', ⟨hg', ht'⟩, ?_⟩, fun name => by simp [hreport, hstart]⟩
      rintro g'' ⟨hg'', ht''⟩
      exact hapart'.eq_of_mem hg'' hg' ht'' ht'
    · simp only [hstart, false_or] at hreport
      refine .inr ⟨fun g' hg' ht' => hout ⟨g', hg', ht'⟩, policy, ⟨hfalls.mem, hfalls, hreport⟩, ?_⟩
      rintro policy' ⟨-, -, hreport'⟩
      exact name_injective ((hreport policy'.name).1 ((hreport' policy'.name).2 rfl))
  · refine sorted_of_runFrom h fun g hg => ?_
    obtain ⟨hg, hsize⟩ := MergeGroup.mem_filter_nontrivial.1 hg
    exact ⟨hsorted g hg, hsize⟩

/-! ### A class that falls out

Of the classes `A`, `B` and `C`, the last has an annotation. -/

namespace Annotated

def type (name : String) : Descriptor := .ofBinaryName ("p/" ++ name)

def view : View where
  program := .ofList [{ type := .object, kind := .library, superclass := none }, { type := type "A", superclass := some .object },
    { type := type "B", superclass := some .object }, { type := type "C", superclass := some .object, annotations := [type "Mark"] }]

def group : MergeGroup where
  classes := [type "A", type "B", type "C"]
  isInterface := false

end Annotated

open Annotated in
/-- `C` falls out at one policy. -/
theorem conserved_of_run_annotated : ∃ kept report, run view 30 all [group] = .ok (kept, report) ∧
    (∃! policy, policy ∈ all ∧ FallsOut view 30 (type "C") policy all [group] {} ∧
      ∀ name, type "C" ∈ report.removedBy name ↔ name = policy.name) ∧
    ∃! g, g ∈ kept ∧ type "A" ∈ g.classes := by
  have hkept : (run view 30 all [group]).toOption.map Prod.fst =
      some [{ classes := [type "A", type "B"], isInterface := false, target := some (type "A") }] := by
    decide
  obtain ⟨⟨kept, report⟩, hrun, hclasses⟩ := Option.map_eq_some_iff.1 hkept
  replace hrun := toOption_eq_some.1 hrun
  obtain rfl : kept = _ := hclasses
  obtain ⟨hclasses, -, -⟩ := conserved_of_run (by unfold MergeGroup.Sorted; decide) (List.pairwise_singleton _ _) hrun
  have hall := hclasses group (List.mem_singleton_self _) (by decide)
  refine ⟨_, report, hrun, ?_, ?_⟩
  · refine ((hall (type "C") (by decide)).resolve_left ?_).2
    rintro ⟨⟨g, ⟨hg, ht⟩, -⟩, -⟩
    obtain rfl := List.mem_singleton.1 hg
    exact absurd ht (by decide)
  · exact ((hall (type "A") (by decide)).resolve_right fun hout => hout.1 _ (List.mem_singleton_self _) (by decide)).1

end Policy

end DexShrinker
