/-
  DexShrinker/Proofs/Merging/Plan.lean
  ====================================
  **What a merge works with.**

  A successful merge either leaves the program alone or comes to a plan: groups, where
  types go, and the classes whose members are to be placed (`Merging.run_eq_ok`). Every
  program class is gathered in one of these (`Plan.Valid.exists_gathers`), which has the
  supertypes that all classes of its group had, under their new names.
-/
import DexShrinker.Merging.Merger
import DexShrinker.Proofs.Merging.Recording
import DexShrinker.Proofs.Merging.Walk
import Mathlib.Order.Lattice.Nat

namespace DexShrinker

open Std

namespace Merging

/-! ### Plans -/

/-- What a merge has when it comes to placing members. -/
structure Plan where
  groups : List MergeGroup
  placement : Placement
  state : State

namespace Plan

/-- The classes whose members are to be placed. -/
def classes (P : Plan) : List UnplacedClass := unplacedClasses P.placement P.state.unplaced

/-- Where a type goes. -/
def type (P : Plan) (t : Descriptor) : Descriptor := P.placement.merges.type t

/-- What a class becomes. Unlike types, the types of classes are not taken apart. -/
def home (P : Plan) (t : Descriptor) : Descriptor := P.placement.merges.targets.getD t t

/-- How placing members ends. -/
def last (P : Plan) : Placement.Progress := P.placement.walk P.classes P.state.log

/-- What has been recorded when all members have been placed. -/
def recorder (P : Plan) : Recorder := P.groups.foldl recordTypes P.last.log.recorder

/-- The program in the end. -/
def program (P : Plan) : Program :=
  .ofList (P.placement.program.classes.filter (·.isLibrary) ++ P.last.placed
    ++ if P.last.log.usesArgument then [argumentClass P.placement.argument] else [])

end Plan

/-- The plan of a merge, unless there is nothing to merge. -/
def planned (hash : HashOrder) (v : View) (maxGroupSize : Nat) : Outcome MergeError (Option Plan) := do
  let (groups, report) ← Policy.run v maxGroupSize Policy.all (Policy.candidates v.program)
  let groups := groups.filter (·.target.isSome)
  if groups.isEmpty then return none
  else
    let (p, st) ← prepare hash v groups report
    return some ⟨groups, p, st⟩

/-- **What a merge gives.** -/
theorem run_eq_ok {hash : HashOrder} {v : View} {maxGroupSize : Nat} {r : MergeResult} (h : Merging.run hash v maxGroupSize = .ok r) :
    (planned hash v maxGroupSize = .ok none ∧ r.program = v.program ∧ r.lens = v.lens) ∨
      ∃ P, planned hash v maxGroupSize = .ok (some P) ∧ P.placement.program = v.program ∧ r.program = P.program ∧
        P.recorder.build v.lens = .ok r.lens := by
  obtain ⟨⟨groups, report⟩, hgroups, h⟩ := bind_eq_ok.1 h
  unfold planned
  rw [hgroups, ok_bind]
  simp only at h ⊢
  split at h
  · next hempty =>
    cases h
    exact .inl ⟨by rw [if_pos hempty]; rfl, rfl, rfl⟩
  · next hempty =>
    obtain ⟨⟨p, st⟩, hprepare, h⟩ := bind_eq_ok.1 h
    obtain ⟨lens, hlens, h⟩ := bind_eq_ok.1 h
    have hprogram : p.program = v.program := by
      obtain ⟨argument, -, hprepare⟩ := bind_eq_ok.1 hprepare
      obtain ⟨st', -, hprepare⟩ := bind_eq_ok.1 hprepare
      cases hprepare
      rfl
    cases h
    refine .inr ⟨⟨_, p, st⟩, by rw [if_neg hempty, hprepare]; rfl, hprogram, ?_, Outcome.ofExcept_eq_ok.1 hlens⟩
    rw [Plan.program, hprogram]
    rfl

/-- What comes of a plan. -/
theorem run_of_planned {hash : HashOrder} {v : View} {maxGroupSize : Nat} {r : MergeResult} {P : Plan} (h : Merging.run hash v maxGroupSize = .ok r)
    (hplan : planned hash v maxGroupSize = .ok (some P)) : r.program = P.program ∧ P.recorder.build v.lens = .ok r.lens := by
  rcases run_eq_ok h with ⟨hnone, -⟩ | ⟨P', hP', -, hprogram, hbuild⟩
  · cases hnone.symm.trans hplan
  · cases hP'.symm.trans hplan
    exact ⟨hprogram, hbuild⟩

/-- What is known of a plan. -/
structure Plan.Valid (v : View) (P : Plan) : Prop where
  program : P.placement.program = v.program
  groups : Policy.MergedGroups v.program P.groups
  sorted : ∀ g ∈ P.groups, g.Sorted
  merges : P.placement.merges = .ofGroups P.groups
  argument : ∃ t, argumentType v.program t = .ok P.placement.argument
  merged : ∃ report, P.groups.foldlM (mergeGroup P.placement)
    { log := ⟨Recorder.start .horizontalClassMerger, false⟩, report := report } = .ok P.state

theorem valid_of_planned {hash : HashOrder} {v : View} {maxGroupSize : Nat} {P : Plan}
    (h : planned hash v maxGroupSize = .ok (some P)) : P.Valid v := by
  obtain ⟨⟨groups, report⟩, hgroups, h⟩ := bind_eq_ok.1 h
  simp only at h
  split at h
  · cases h
  · obtain ⟨⟨p, st⟩, hprepare, h⟩ := bind_eq_ok.1 h
    cases h
    obtain ⟨argument, hargument, hprepare⟩ := bind_eq_ok.1 hprepare
    obtain ⟨st', hst, hprepare⟩ := bind_eq_ok.1 hprepare
    cases hprepare
    have hsorted := Policy.sorted_of_runFrom hgroups fun g => Policy.sorted_candidates
    exact ⟨rfl, (Policy.mergedGroups_of_run hgroups).sublist List.filter_sublist,
      fun g hg => (hsorted g (List.mem_filter.1 hg).1).1, rfl, ⟨_, Outcome.lift_eq_ok.1 hargument⟩, ⟨report, hst⟩⟩

/-! ### Gathering classes -/

/-- The members of the classes with the given types are gathered in `u`, which has the place
    of the class `c` in the hierarchy. -/
structure Gathers (p : Placement) (types : List Descriptor) (c : ClassDef) (u : UnplacedClass) : Prop where
  type : u.shell.type = c.type
  kind : u.shell.kind = c.kind
  superclass : u.shell.superclass = c.superclass.map p.merges.type
  interfaces : u.shell.interfaces = (c.interfaces.map p.merges.type).eraseDups
  methods : ∀ m : MethodDef, m.isInstanceInitializer = false →
    (m ∈ u.methods ↔ ∃ t ∈ types, ∃ d, p.program.class? t = some d ∧ m ∈ d.methods)
  housed : ∀ m ∈ u.shell.methods, m.ref.holder = u.shell.type

theorem mem_supertypes_iff {p : Placement} {types : List Descriptor} {c : ClassDef} {u : UnplacedClass}
    (h : Gathers p types c u) {s : Descriptor} : s ∈ u.shell.supertypes ↔ ∃ s' ∈ c.supertypes, p.merges.type s' = s := by
  simp only [ClassDef.supertypes, h.superclass, h.interfaces, List.mem_append, Option.mem_toList, List.mem_eraseDups,
    List.mem_map, Option.map_eq_some_iff]
  constructor
  · rintro (⟨s', hs', rfl⟩ | ⟨s', hs', rfl⟩)
    · exact ⟨s', .inl hs', rfl⟩
    · exact ⟨s', .inr hs', rfl⟩
  · rintro ⟨s', hs' | hs', rfl⟩
    · exact .inl ⟨s', hs', rfl⟩
    · exact .inr ⟨s', hs', rfl⟩

theorem gathers_ofClass {p : Placement} {c : ClassDef} (hc : c ∈ p.program.classes) :
    Gathers p [c.type] c (.ofClass p.merges c) where
  type := rfl
  kind := rfl
  superclass := rfl
  interfaces := rfl
  methods := by
    intro m _
    constructor
    · intro hm
      exact ⟨c.type, List.mem_singleton_self _, c, Program.mem_classes.1 hc, hm⟩
    · rintro ⟨t, ht, d, hd, hm⟩
      rw [List.mem_singleton.1 ht, Program.mem_classes.1 hc] at hd
      cases hd
      exact hm
  housed := by simp [UnplacedClass.ofClass]

theorem mergeGroup_spec {p : Placement} {st st' : State} {g : MergeGroup} {c : ClassDef}
    (hc : g.target.bind p.program.class? = some c) (h : mergeGroup p st g = .ok st') :
    ∃ u, Gathers p g.classes c u ∧ st'.unplaced = st.unplaced.insert c.type u := by
  rcases mergeGroup_cases h with ⟨hnone, -⟩ | ⟨target, inits, hmerges⟩
  · cases hnone.symm.trans hc
  obtain rfl : c = target := Option.some.inj (hc.symm.trans hmerges.found)
  obtain ⟨-, hpending, hplaced⟩ := InitMerge.ofGroup_spec id hmerges.initialized
  refine ⟨_, ⟨rfl, rfl, rfl, rfl, ?_, ?_⟩, hmerges.unplaced⟩
  · intro m hinit
    rw [mergedClass, List.mem_append, List.mem_filter, List.mem_flatMap]
    constructor
    · rintro (⟨⟨d, hd, hm⟩, -⟩ | hm)
      · obtain ⟨t, ht, hget⟩ := List.mem_filterMap.1 hd
        exact ⟨t, ht, d, hget, hm⟩
      · rw [hpending m hm] at hinit
        cases hinit
    · rintro ⟨t, ht, d, hget, hm⟩
      exact .inl ⟨⟨d, List.mem_filterMap.2 ⟨t, ht, hget⟩, hm⟩, by simp [hinit]⟩
  · obtain ⟨target, htarget, hget⟩ := Option.bind_eq_some_iff.1 hc
    exact hplaced c.type (by rw [htarget, Program.type_of_class? hget])

/-- Every group has its merged class in the end, and there are no others. -/
theorem foldlM_mergeGroup {p : Placement} {groups : List MergeGroup} (hapart : Policy.Apart groups)
    (htarget : ∀ g ∈ groups, ∃ c, g.target.bind p.program.class? = some c ∧ c.type ∈ g.classes) {st st' : State}
    (h : groups.foldlM (mergeGroup p) st = .ok st') :
    (∀ g ∈ groups, ∀ c, g.target.bind p.program.class? = some c →
      ∃ u, Gathers p g.classes c u ∧ st'.unplaced[c.type]? = some u) ∧
    ∀ t, (∀ g ∈ groups, ∀ c, g.target.bind p.program.class? = some c → c.type ≠ t) → st'.unplaced[t]? = st.unplaced[t]? := by
  induction groups generalizing st with
  | nil =>
    cases h
    simp
  | cons g groups ih =>
    rw [List.foldlM_cons] at h
    obtain ⟨st₁, hfirst, h⟩ := bind_eq_ok.1 h
    obtain ⟨hdisjoint, hapart'⟩ := List.pairwise_cons.1 hapart.disjoint
    obtain ⟨hmerged, hother⟩ := ih ⟨fun g' hg' => hapart.nodup g' (by simp [hg']), hapart'⟩
      (fun g' hg' => htarget g' (by simp [hg'])) h
    obtain ⟨c, hc, hmem⟩ := htarget g (by simp)
    obtain ⟨u, hu, hinsert⟩ := mergeGroup_spec hc hfirst
    refine ⟨fun g' hg' c' hc' => ?_, fun t ht => ?_⟩
    · rcases List.mem_cons.1 hg' with rfl | hg'
      · obtain rfl : c = c' := Option.some.inj (hc.symm.trans hc')
        refine ⟨u, hu, ?_⟩
        -- No later group has a class of this one.
        rw [hother c.type fun g₂ hg₂ c₂ hc₂ heq => ?_, hinsert, TreeMap.getElem?_insert_self]
        obtain ⟨c₂', hc₂', hmem₂⟩ := htarget g₂ (by simp [hg₂])
        obtain rfl : c₂' = c₂ := Option.some.inj (hc₂'.symm.trans hc₂)
        exact hdisjoint g₂ hg₂ c.type hmem (heq ▸ hmem₂)
      · exact hmerged g' hg' c' hc'
    · have hne : c.type ≠ t := ht g (by simp) c hc
      rw [hother t fun g' hg' => ht g' (by simp [hg']), hinsert, TreeMap.getElem?_insert, if_neg (by simpa using hne)]

namespace Plan.Valid

variable {v : View} {P : Plan}

theorem type_eq (P : Plan) {t : Descriptor} (ht : t.isArray = false) : P.type t = P.home t := by
  simp [Plan.type, Plan.home, MergeMap.type, Descriptor.mapBase, ht]

/-- The target of a group is a program class. -/
theorem target_class (h : P.Valid v) {g : MergeGroup} (hg : g ∈ P.groups) :
    ∃ c ∈ v.program.programClasses, g.target = some c.type ∧ c.type ∈ g.classes ∧
      g.target.bind P.placement.program.class? = some c := by
  obtain ⟨t, rest, hclasses, htarget⟩ := h.groups.target g hg
  have hmem : t ∈ g.classes := by simp [hclasses]
  obtain ⟨c, hc, rfl⟩ := h.groups.program g hg t hmem
  refine ⟨c, hc, htarget, hmem, ?_⟩
  rw [htarget, h.program]
  exact (Program.mem_programClasses.1 hc).1

/-- The classes of a group become its target. -/
theorem home_of_mem (h : P.Valid v) {g : MergeGroup} (hg : g ∈ P.groups) {t s : Descriptor} (ht : t ∈ g.classes)
    (hs : g.target = some s) : P.home t = s := by
  have hget := MergeMap.getElem?_ofGroups h.groups hg hs ht
  rw [Plan.home, h.merges, TreeMap.getD_eq_getD_getElem?, hget]
  split
  · next heq => exact heq
  · rfl

/-- All other classes stay what they are. -/
theorem home_of_not_mem (h : P.Valid v) {t : Descriptor} (hno : ∀ g ∈ P.groups, t ∉ g.classes) : P.home t = t := by
  rw [Plan.home, h.merges, TreeMap.getD_eq_getD_getElem?, MergeMap.getElem?_ofGroups_of_not_mem h.groups hno]
  rfl

/-- The type of a class goes where the class goes. -/
theorem type_class (P : Plan) (hv : v.program.Regular) {c : ClassDef} (hc : c ∈ v.program.classes) : P.type c.type = P.home c.type :=
  type_eq P (hv.notArray c hc)

/-- The classes of a group go to its target. -/
theorem type_of_mem (h : P.Valid v) (hv : v.program.Regular) {g : MergeGroup} (hg : g ∈ P.groups) {t s : Descriptor}
    (ht : t ∈ g.classes) (hs : g.target = some s) : P.type t = s := by
  obtain ⟨c, hc, rfl⟩ := h.groups.program g hg t ht
  rw [type_class P hv (Program.mem_classes_of_mem_programClasses hc)]
  exact h.home_of_mem hg ht hs

/-- All other classes stay. -/
theorem type_of_not_mem (h : P.Valid v) {t : Descriptor} (hno : ∀ g ∈ P.groups, t ∉ g.classes) (harray : t.isArray = false) :
    P.type t = t := by
  rw [type_eq P harray]
  exact h.home_of_not_mem hno

/-- What has been merged into the targets. -/
theorem unplaced_spec (h : P.Valid v) :
    (∀ g ∈ P.groups, ∀ c, g.target.bind P.placement.program.class? = some c →
      ∃ u, Gathers P.placement g.classes c u ∧ P.state.unplaced[c.type]? = some u) ∧
    ∀ t, (∀ g ∈ P.groups, g.target ≠ some t) → P.state.unplaced[t]? = none := by
  obtain ⟨report, hfold⟩ := h.merged
  obtain ⟨hmerged, hother⟩ := foldlM_mergeGroup h.groups.apart (fun g hg => by
    obtain ⟨c, -, -, hmem, hbind⟩ := h.target_class hg
    exact ⟨c, hbind, hmem⟩) hfold
  refine ⟨hmerged, fun t ht => ?_⟩
  rw [hother t fun g hg c hc heq => ?_]
  · exact TreeMap.getElem?_emptyc
  · obtain ⟨c', -, htarget, -, hbind⟩ := h.target_class hg
    obtain rfl : c' = c := Option.some.inj (hbind.symm.trans hc)
    exact ht g hg (heq ▸ htarget)

/-- **What becomes of a program class.** A class of no group is on its own, the target of a
    group gathers the group, and the others go. -/
theorem unplaced?_cases (h : P.Valid v) {c : ClassDef} (hc : c ∈ v.program.programClasses) :
    ((∀ g ∈ P.groups, c.type ∉ g.classes) ∧
      unplaced? P.placement P.state.unplaced c = some (.ofClass P.placement.merges c)) ∨
    ∃ g ∈ P.groups, c.type ∈ g.classes ∧
      ((g.target = some c.type ∧ ∃ u, Gathers P.placement g.classes c u ∧ unplaced? P.placement P.state.unplaced c = some u) ∨
        (g.target ≠ some c.type ∧ unplaced? P.placement P.state.unplaced c = none)) := by
  obtain ⟨hmerged, hother⟩ := h.unplaced_spec
  by_cases hgroup : ∃ g ∈ P.groups, c.type ∈ g.classes
  · obtain ⟨g, hg, hmem⟩ := hgroup
    refine .inr ⟨g, hg, hmem, ?_⟩
    by_cases htarget : g.target = some c.type
    · have hbind : g.target.bind P.placement.program.class? = some c := by
        rw [htarget, h.program]
        exact (Program.mem_programClasses.1 hc).1
      obtain ⟨u, hu, hget⟩ := hmerged g hg c hbind
      exact .inl ⟨htarget, u, hu, by rw [unplaced?, hget]⟩
    · -- The target of another group is in that group.
      have hnone : P.state.unplaced[c.type]? = none := by
        refine hother c.type fun g' hg' htarget' => ?_
        obtain ⟨c', -, htarget'', hmem', -⟩ := h.target_class hg'
        rw [htarget'] at htarget''
        rw [← Option.some.inj htarget''] at hmem'
        rw [h.groups.apart.eq_of_mem hg hg' hmem hmem'] at htarget
        exact htarget htarget'
      obtain ⟨s, -, -, hs⟩ := h.groups.target g hg
      have hsource : P.placement.merges.isSource c.type = true := by
        have hne : c.type ≠ s := by
          rintro rfl
          exact htarget hs
        have hget := MergeMap.getElem?_ofGroups h.groups hg hs hmem
        rw [if_neg hne] at hget
        rw [MergeMap.isSource, TreeMap.contains_eq_isSome_getElem?, h.merges, hget]
        rfl
      exact .inr ⟨htarget, by rw [unplaced?, hnone]; simp [hsource]⟩
  · have hno : ∀ g ∈ P.groups, c.type ∉ g.classes := fun g hg hmem => hgroup ⟨g, hg, hmem⟩
    have hnone : P.state.unplaced[c.type]? = none := by
      refine hother c.type fun g hg htarget => ?_
      obtain ⟨c', -, htarget', hmem, -⟩ := h.target_class hg
      rw [htarget] at htarget'
      exact hno g hg (Option.some.inj htarget' ▸ hmem)
    have hsource : P.placement.merges.isSource c.type = false := by
      rw [MergeMap.isSource, TreeMap.contains_eq_isSome_getElem?, h.merges, MergeMap.getElem?_ofGroups_of_not_mem h.groups hno]
      rfl
    exact .inl ⟨hno, by rw [unplaced?, hnone]; simp [hsource]⟩

/-- **Every program class is gathered**, together with classes that have the same supertypes. -/
theorem exists_gathers (h : P.Valid v) {c : ClassDef} (hc : c ∈ v.program.programClasses) :
    ∃ u ∈ P.classes, ∃ types c₀, Gathers P.placement types c₀ u ∧ c.type ∈ types ∧ u.shell.type = P.home c.type ∧
      c₀ ∈ v.program.programClasses ∧ Policy.parents? v.program c₀.type = Policy.parents? v.program c.type := by
  have hmem {c₀ : ClassDef} {u : UnplacedClass} (hc₀ : c₀ ∈ v.program.programClasses)
      (hu : unplaced? P.placement P.state.unplaced c₀ = some u) : u ∈ P.classes :=
    List.mem_filterMap.2 ⟨c₀, h.program ▸ hc₀, hu⟩
  have hclass := Program.mem_classes_of_mem_programClasses hc
  rcases h.unplaced?_cases hc with ⟨hno, hu⟩ | ⟨g, hg, hin, -⟩
  · refine ⟨_, hmem hc hu, [c.type], c, gathers_ofClass (h.program ▸ hclass), by simp, ?_, hc, rfl⟩
    exact (h.home_of_not_mem hno).symm
  · obtain ⟨c₀, hc₀, htarget, hin₀, -⟩ := h.target_class hg
    rcases h.unplaced?_cases hc₀ with ⟨hno, -⟩ | ⟨g', hg', hin', hcases⟩
    · exact absurd hin₀ (hno g hg)
    · obtain rfl := h.groups.apart.eq_of_mem hg hg' hin₀ hin'
      rcases hcases with ⟨-, u, hgathers, hu⟩ | ⟨hne, -⟩
      · refine ⟨u, hmem hc₀ hu, g.classes, c₀, hgathers, hin, ?_, hc₀, h.groups.parents g hg _ hin₀ _ hin⟩
        rw [hgathers.type, h.home_of_mem hg hin htarget]
      · exact absurd htarget hne

theorem type_of_unplaced? (h : P.Valid v) {c : ClassDef} (hc : c ∈ v.program.programClasses) {u : UnplacedClass}
    (hu : unplaced? P.placement P.state.unplaced c = some u) : u.shell.type = c.type := by
  rcases h.unplaced?_cases hc with ⟨-, hu'⟩ | ⟨g, -, -, ⟨-, u', hgathers, hu'⟩ | ⟨-, hnone⟩⟩
  · cases hu'.symm.trans hu
    rfl
  · cases hu'.symm.trans hu
    exact hgathers.type
  · cases hnone.symm.trans hu

/-- A class whose members are to be placed has the type of a program class. -/
theorem exists_type_eq (h : P.Valid v) {u : UnplacedClass} (hu : u ∈ P.classes) :
    ∃ c ∈ v.program.programClasses, u.shell.type = c.type := by
  obtain ⟨c, hc, hu⟩ := List.mem_filterMap.1 hu
  rw [h.program] at hc
  exact ⟨c, hc, h.type_of_unplaced? hc hu⟩

/-- Where an unplaced class comes from. -/
theorem origin (h : P.Valid v) {u : UnplacedClass} (hu : u ∈ P.classes) :
    ∃ types, ∃ c ∈ v.program.programClasses, Gathers P.placement types c u ∧ P.home c.type = c.type ∧
      ∀ t ∈ types, P.home t = c.type := by
  obtain ⟨c, hc, hu⟩ := List.mem_filterMap.1 hu
  rw [h.program] at hc
  have hclass := Program.mem_classes_of_mem_programClasses hc
  rcases h.unplaced?_cases hc with ⟨hno, hu'⟩ | ⟨g, hg, hin, ⟨htarget, u', hgathers, hu'⟩ | ⟨-, hnone⟩⟩
  · obtain rfl := Option.some.inj (hu'.symm.trans hu)
    have hstays := h.home_of_not_mem hno
    refine ⟨_, c, hc, gathers_ofClass (h.program ▸ hclass), hstays, fun t ht => ?_⟩
    rw [List.mem_singleton.1 ht, hstays]
  · obtain rfl := Option.some.inj (hu'.symm.trans hu)
    exact ⟨_, c, hc, hgathers, h.home_of_mem hg hin htarget, fun t ht => h.home_of_mem hg ht htarget⟩
  · rw [hnone] at hu
    cases hu

/-! ### The hierarchy in the end -/

/-- Classes that go to the same type are in one group. -/
theorem type_cases (h : P.Valid v) {t : Descriptor} (ht : t.isArray = false) :
    P.type t = t ∨ ∃ g ∈ P.groups, t ∈ g.classes ∧ g.target = some (P.type t) := by
  rw [type_eq P ht]
  by_cases hgroup : ∃ g ∈ P.groups, t ∈ g.classes
  · obtain ⟨g, hg, hmem⟩ := hgroup
    obtain ⟨s, -, -, hs⟩ := h.groups.target g hg
    exact .inr ⟨g, hg, hmem, by rw [h.home_of_mem hg hmem hs, hs]⟩
  · exact .inl (h.home_of_not_mem fun g hg hmem => hgroup ⟨g, hg, hmem⟩)

/-- Library classes stay. -/
theorem home_of_library (h : P.Valid v) {c : ClassDef} (hc : c ∈ v.program.classes) (hlib : c.isLibrary = true) :
    P.home c.type = c.type := by
  refine h.home_of_not_mem fun g hg hmem => ?_
  obtain ⟨c', hc', htype⟩ := h.groups.program g hg c.type hmem
  obtain ⟨hc', hprog⟩ := List.mem_filter.1 hc'
  rw [Program.isLibrary_eq, ← Program.eq_of_type hc' hc htype, hprog] at hlib
  cases hlib

theorem type_of_library (h : P.Valid v) (hv : v.program.Regular) {c : ClassDef} (hc : c ∈ v.program.classes)
    (hlib : c.isLibrary = true) : P.type c.type = c.type := by
  rw [type_class P hv hc]
  exact h.home_of_library hc hlib

/-- Only arrays go to arrays: the target of a group is its first class. -/
theorem isArray_type (h : P.Valid v) (hv : v.program.ArraysLast) (t : Descriptor) : (P.type t).isArray = t.isArray := by
  cases ht : t.isArray with
  | true => exact Descriptor.isArray_mapBase ht _
  | false =>
    rcases h.type_cases ht with heq | ⟨g, hg, hmem, htarget⟩
    · rw [heq, ht]
    · obtain ⟨s, rest, hclasses, hs⟩ := h.groups.target g hg
      obtain rfl : s = P.type t := Option.some.inj (hs.symm.trans htarget)
      have hsorted := h.sorted g hg
      rw [MergeGroup.Sorted, hclasses, List.pairwise_cons] at hsorted
      rw [hclasses] at hmem
      rcases List.mem_cons.1 hmem with heq | hmem
      · rw [← heq, ht]
      · obtain ⟨d, hd, rfl⟩ := h.groups.program g hg t (by rw [hclasses]; exact List.mem_cons_of_mem _ hmem)
        obtain ⟨c, hc, hself⟩ := h.groups.program g hg (P.type d.type) (by rw [hclasses]; exact List.mem_cons_self)
        rw [← hself, Bool.eq_false_iff]
        intro harray
        rw [hv c hc d hd harray (hself ▸ hsorted.1 d.type hmem)] at ht
        cases ht

/-- Classes go to classes. -/
theorem isClass_type (h : P.Valid v) (hv : v.program.Regular) {t : Descriptor} (ht : t.isClass = true) :
    (P.type t).isClass = true := by
  rcases h.type_cases (Descriptor.isArray_of_isClass ht) with heq | ⟨g, hg, -, htarget⟩
  · rw [heq]
    exact ht
  · obtain ⟨d, hd, htarget', -⟩ := h.target_class hg
    rw [Option.some.inj (htarget.symm.trans htarget')]
    exact hv.isClass d (Program.mem_classes_of_mem_programClasses hd)

/-- Types that are not program classes stay. -/
theorem type_of_not_program (h : P.Valid v) {t : Descriptor} (ht : t.isArray = false)
    (hno : ∀ c ∈ v.program.programClasses, c.type ≠ t) : P.type t = t := by
  refine h.type_of_not_mem (fun g hg hmem => ?_) ht
  obtain ⟨c, hc, htype⟩ := h.groups.program g hg t hmem
  exact hno c hc htype

theorem type_of_isArray (P : Plan) {t : Descriptor} (ht : t.isArray = true) : P.type t = t.replaceBase (P.type t.base) := by
  rw [type_eq P (Descriptor.isArray_base t), Plan.type, Plan.home, MergeMap.type, Descriptor.mapBase, if_pos ht]

theorem base_type (h : P.Valid v) (hv : v.program.ArraysLast) (t : Descriptor) : (P.type t).base = P.type t.base := by
  cases ht : t.isArray with
  | true => rw [type_of_isArray P ht, Descriptor.base_replaceBase ht ((h.isArray_type hv _).trans (Descriptor.isArray_base t))]
  | false => rw [Descriptor.base_of_isArray ((h.isArray_type hv t).trans ht), Descriptor.base_of_isArray ht]

/-- Merged types stay. -/
theorem type_type (h : P.Valid v) (hv : v.program.ArraysLast) (t : Descriptor) : P.type (P.type t) = P.type t := by
  have hflat {t : Descriptor} (ht : t.isArray = false) : P.type (P.type t) = P.type t := by
    rcases h.type_cases ht with heq | ⟨g, hg, -, htarget⟩
    · rw [heq, heq]
    · obtain ⟨c, -, htarget', hmem, -⟩ := h.target_class hg
      rw [type_eq P ((h.isArray_type hv t).trans ht), Option.some.inj (htarget.symm.trans htarget'), h.home_of_mem hg hmem htarget']
  cases ht : t.isArray with
  | true =>
    have harray := (h.isArray_type hv t).trans ht
    rw [type_of_isArray P harray, h.base_type hv, hflat (Descriptor.isArray_base t), ← h.base_type hv,
      Descriptor.replaceBase_base harray]
  | false => exact hflat ht

/-- Classes with the same parents have the same supertypes. -/
theorem eq_of_parents {p : Program} {c d : ClassDef} (hc : c ∈ p.classes) (hd : d ∈ p.classes)
    (h : Policy.parents? p c.type = Policy.parents? p d.type) :
    c.superclass = d.superclass ∧ ∀ s, s ∈ c.interfaces ↔ s ∈ d.interfaces := by
  simp only [Policy.parents?, Program.mem_classes.1 hc, Program.mem_classes.1 hd, Option.map_some,
    Option.some.injEq, Prod.mk.injEq] at h
  obtain ⟨hsuper, hinterfaces⟩ := h
  have hmem (e : ClassDef) (s : Descriptor) : s ∈ e.interfaces ↔ s ∈ (.ofList e.interfaces : TypeSet).toList := by
    simp [TreeSet.mem_toList, TreeSet.mem_ofList]
  refine ⟨hsuper, fun s => ?_⟩
  rw [hmem c, hmem d, hinterfaces]

theorem mem_supertypes_of_parents {p : Program} {c d : ClassDef} (hc : c ∈ p.classes) (hd : d ∈ p.classes)
    (h : Policy.parents? p c.type = Policy.parents? p d.type) {s : Descriptor} (hs : s ∈ c.supertypes) : s ∈ d.supertypes := by
  obtain ⟨hsuper, hinterfaces⟩ := eq_of_parents hc hd h
  rcases List.mem_append.1 hs with hs | hs
  · exact List.mem_append_left _ (hsuper ▸ hs)
  · exact List.mem_append_right _ ((hinterfaces s).1 hs)

theorem nodup_visited (h : P.Valid v) :
    ((P.placement.visited P.classes).map ClassDef.type).Nodup := by
  have hsub (cs : List ClassDef) (hcs : cs ⊆ v.program.programClasses) :
      ((cs.filterMap (unplaced? P.placement P.state.unplaced)).map (·.shell.type)).Sublist (cs.map ClassDef.type) := by
    induction cs with
    | nil => simp
    | cons c cs ih =>
      have ih := ih fun d hd => hcs (List.mem_cons_of_mem c hd)
      cases hu : unplaced? P.placement P.state.unplaced c with
      | none => simpa [hu] using ih.cons c.type
      | some u =>
        have hshell : u.shell.type = c.type := h.type_of_unplaced? (hcs List.mem_cons_self) hu
        rw [List.filterMap_cons_some hu, List.map_cons, hshell]
        exact ih.cons_cons c.type
  have hnodup := Program.nodup_types v.program
  have hclasses : ∀ c ∈ v.program.classes, ∀ d ∈ v.program.classes, c.type = d.type → c = d :=
    fun c hc d hd => Program.eq_of_type hc hd
  rw [Placement.visited, List.map_append, List.map_map, h.program]
  refine List.nodup_append.2 ⟨?_, ?_, ?_⟩
  · refine (hsub _ (by rw [h.program]; exact List.Subset.refl _)).nodup ?_
    rw [h.program]
    exact hnodup.sublist (List.filter_sublist.map _)
  · exact hnodup.sublist (List.filter_sublist.map _)
  · rintro t ht _ hd rfl
    obtain ⟨u, hu, rfl⟩ := List.mem_map.1 ht
    obtain ⟨d, hd, hdt⟩ := List.mem_map.1 hd
    obtain ⟨hd, hlib⟩ := List.mem_filter.1 hd
    obtain ⟨c, hc, htype⟩ := h.exists_type_eq hu
    obtain ⟨hc, hprog⟩ := List.mem_filter.1 hc
    rw [Program.isLibrary_eq, hclasses d hd c hc (hdt.trans htype), hprog] at hlib
    cases hlib

/-- **Merging makes no cycles.** All classes of a group have the same supertypes, so the
    least rank in a group is still greater than the ranks of the supertypes. -/
theorem layered (h : P.Valid v) (hv : v.program.WellFormed) : ∃ rank, Placement.Layered P.placement P.classes rank := by
  obtain ⟨rank, hrank⟩ := hv.acyclic
  let height (t : Descriptor) : Nat := if (v.program.class? t).isSome then rank t + 1 else 0
  let least (t : Descriptor) : Nat := sInf (Set.image height {t' | P.type t' = P.type t})
  have hheight : ∀ c ∈ v.program.classes, ∀ s ∈ c.supertypes, height s < height c.type := by
    intro c hc s hs
    have hlt := hrank c hc s hs
    simp only [height, Program.mem_classes.1 hc]
    split
    · simp
      omega
    · simp
  have hle (t : Descriptor) : least t ≤ height t := Nat.sInf_le ⟨t, rfl, rfl⟩
  have harray {t : Descriptor} (ht : t.isArray = true) : height t = 0 := by
    simp only [height]
    split
    · next hsome =>
      obtain ⟨c, hc⟩ := Option.isSome_iff_exists.1 hsome
      have htype := Program.type_of_class? hc
      rw [← htype, hv.notArray c (Program.mem_classes.2 (htype ▸ hc))] at ht
      cases ht
    · rfl
  have hleast (t : Descriptor) : least (P.type t) ≤ height t := by
    cases ht : t.isArray with
    | true =>
      have hzero := harray (h.isArray_type hv t ▸ ht)
      have hle := hle (P.type t)
      omega
    | false =>
      have heq : least (P.type t) = least t := by simp only [least, h.type_type hv t]
      rw [heq]
      exact hle t
  have hlt {c : ClassDef} (hc : c ∈ v.program.classes) (hstays : P.type c.type = c.type) {s : Descriptor}
      (hs : s ∈ c.supertypes) : height s < least c.type := by
    obtain ⟨t, ht, heq⟩ := Nat.sInf_mem (s := Set.image height {t' | P.type t' = P.type c.type}) ⟨_, c.type, rfl, rfl⟩
    rw [show least c.type = height t from heq.symm]
    rw [Set.mem_ofPred_eq, hstays] at ht
    have hnotArray : t.isArray = false := by
      rw [← h.isArray_type hv t, ht]
      exact hv.notArray c hc
    rcases h.type_cases hnotArray with hself | ⟨g, hg, hmem, htarget⟩
    · rw [← hself, ht]
      exact hheight c hc s hs
    · obtain ⟨c', hc', rfl⟩ := h.groups.program g hg t hmem
      obtain ⟨c₀, -, htarget₀, hmem₀, -⟩ := h.target_class hg
      rw [ht] at htarget
      rw [← Option.some.inj (htarget.symm.trans htarget₀)] at hmem₀
      have hclass' := Program.mem_classes_of_mem_programClasses hc'
      exact hheight c' hclass' s
        (mem_supertypes_of_parents hc hclass' (h.groups.parents g hg _ hmem₀ _ hmem) hs)
  refine ⟨least, h.nodup_visited, fun d hd s hs => ?_⟩
  rcases List.mem_append.1 hd with hd | hd
  · obtain ⟨u, hu, rfl⟩ := List.mem_map.1 hd
    obtain ⟨types, c, hc, hgathers, hstays, -⟩ := h.origin hu
    obtain ⟨s', hs', rfl⟩ := (mem_supertypes_iff hgathers).1 hs
    have hclass := Program.mem_classes_of_mem_programClasses hc
    rw [hgathers.type]
    exact Nat.lt_of_le_of_lt (hleast s') (hlt hclass ((type_class P hv hclass).trans hstays) hs')
  · obtain ⟨hd, hlib⟩ := List.mem_filter.1 hd
    rw [h.program] at hd
    exact Nat.lt_of_le_of_lt (hle s) (hlt hd (h.type_of_library hv hd hlib) hs)

end Plan.Valid

end Merging

end DexShrinker
