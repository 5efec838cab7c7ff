/-
  DexShrinker/Proofs/Merging/Recording.lean
  =========================================
  **What a merge records.**

  Until the members of all classes are placed, only members are recorded as moved, and a
  method that is not an instance initializer moves to the class that its holder goes to
  (`Recorder.Tracks`). Every step of a merge keeps that. The moves of types at the end
  agree with the map of the merge (`Merging.types_foldl_recordTypes`).
-/
import DexShrinker.Merging.Merger
import DexShrinker.Proofs.Merging.Dispatching
import DexShrinker.Proofs.Merging.Groups
import DexShrinker.Proofs.Merging.Places
import DexShrinker.Proofs.Outcome

namespace DexShrinker

open Std

/-! ### Recording moves of members -/

namespace Recorder

/-- No type is recorded as moved, and methods move along with their holders. -/
structure Tracks (type : Descriptor → Descriptor) (r : Recorder) : Prop where
  types : ∀ t : Descriptor, r.moves.types[t]? = none
  methods : ∀ old new : MethodRef, r.moves.methods[old]? = some new → old.isInstanceInitializer = false →
    new.holder = type old.holder

variable {type : Descriptor → Descriptor} {r : Recorder}

theorem tracks_start (type : Descriptor → Descriptor) (kind : LayerKind) : (start kind).Tracks type :=
  ⟨fun t => by simp [start], fun old new h => by simp [start] at h⟩

theorem Tracks.moveField (h : r.Tracks type) (old new : FieldRef) : (r.moveField old new).Tracks type := by
  unfold Recorder.moveField
  split
  · exact ⟨h.types, h.methods⟩
  · split
    · split
      · exact h
      · exact ⟨h.types, h.methods⟩
    · exact ⟨h.types, h.methods⟩

theorem Tracks.moveMethod (h : r.Tracks type) {old new : MethodRef}
    (hnew : old.isInstanceInitializer = false → new.holder = type old.holder) : (r.moveMethod old new).Tracks type := by
  unfold Recorder.moveMethod
  split
  · exact ⟨h.types, h.methods⟩
  · split
    · split
      · exact h
      · exact ⟨h.types, h.methods⟩
    · refine ⟨h.types, fun old' new' hget hinit => ?_⟩
      simp only [TreeMap.getElem?_insert] at hget
      split at hget
      · next heq =>
        obtain rfl : old = old' := LawfulEqOrd.eq_of_compare heq
        cases hget
        exact hnew hinit
      · exact h.methods old' new' hget hinit

theorem Tracks.representField (h : r.Tracks type) (new old : FieldRef) : (r.representField new old).Tracks type :=
  ⟨h.types, h.methods⟩

theorem Tracks.representMethod (h : r.Tracks type) (new old : MethodRef) : (r.representMethod new old).Tracks type :=
  ⟨h.types, h.methods⟩

theorem Tracks.recordCall (h : r.Tracks type) (old : MethodRef) (changes : ProtoChanges) :
    (r.recordCall old changes).Tracks type := by
  unfold Recorder.recordCall
  split
  · exact h
  · exact ⟨h.types, h.methods⟩

theorem Tracks.recordDefinition (h : r.Tracks type) (new : MethodRef) (changes : ProtoChanges) :
    (r.recordDefinition new changes).Tracks type := by
  unfold Recorder.recordDefinition
  split
  · exact h
  · exact ⟨h.types, h.methods⟩

end Recorder

/-! ### Placing members -/

namespace Placement

variable {p : Placement} {r : Recorder}

theorem tracks_recordField (h : r.Tracks p.merges.type) (old new : FieldRef) : (p.recordField r old new).Tracks p.merges.type := by
  simp only [recordField]
  split
  · exact h
  · split
    · exact h.moveField old new
    · exact List.foldlRecOn _ _ (h.moveField old new) fun r hr sub _ => hr.moveField _ _

theorem tracks_recordMethod (h : r.Tracks p.merges.type) {old new : MethodRef} {isInitializer : Bool}
    (hnew : old.isInstanceInitializer = false → new.holder = p.merges.type old.holder) :
    (p.recordMethod r old new isInitializer).Tracks p.merges.type := by
  simp only [recordMethod]
  split
  · exact h
  · split
    · exact h.moveMethod hnew
    · exact List.foldlRecOn _ _ (h.moveMethod hnew) fun r hr sub _ => hr.moveMethod fun _ => rfl

theorem holder_place (p : Placement) (holder : Descriptor) (st : MethodState) (m : MethodDef) :
    (p.place holder st m).ref.holder = holder := by
  unfold place
  split
  · rfl
  · split
    · unfold Placement.virtual
      split <;> rfl
    · rfl

theorem tracks_placeMethod {holder : Descriptor} {st : MethodState} {m : MethodDef} (h : st.log.recorder.Tracks p.merges.type)
    (hm : m.isInstanceInitializer = false → holder = p.merges.type m.ref.holder) :
    (p.placeMethod holder st m).2.log.recorder.Tracks p.merges.type := by
  refine tracks_recordMethod ?_ fun hinit => (holder_place p holder st m).trans (hm hinit)
  split
  · exact h.recordDefinition _ _
  · exact h

theorem tracks_placeFields (h : r.Tracks p.merges.type) (shell : ClassDef) (fields : List FieldDef) :
    (p.placeFields shell r fields).2.Tracks p.merges.type := by
  unfold placeFields
  induction fields generalizing shell r with
  | nil => exact h
  | cons f fields ih => exact ih (tracks_recordField h _ _) _

/-- **Placing a class** keeps track of holders if its methods come from classes that go to it. -/
theorem tracks_placeClass {u : UnplacedClass} {log : PlacementLog} (h : log.recorder.Tracks p.merges.type)
    (hu : ∀ m ∈ u.methods, m.isInstanceInitializer = false → u.shell.type = p.merges.type m.ref.holder) (table : VirtualTable) :
    (p.placeClass u table log).2.2.recorder.Tracks p.merges.type := by
  obtain ⟨fs, hclass⟩ := placeClass_eq p u table log
  rw [hclass]
  refine (@placeMethods_spec (fun st => st.log.recorder.Tracks p.merges.type) p u.shell.type u.methods
    (fun st m hm hst => tracks_placeMethod hst (hu m hm)) _ ?_).1
  refine tracks_placeFields ?_ _ _
  exact List.foldlRecOn _ _ h fun r hr move _ => tracks_recordField hr _ _

theorem tracks_walk {classes : List UnplacedClass} {log : PlacementLog} (h : log.recorder.Tracks p.merges.type)
    (hclasses : ∀ u ∈ classes, ∀ m ∈ u.methods, m.isInstanceInitializer = false → u.shell.type = p.merges.type m.ref.holder) :
    (p.walk classes log).log.recorder.Tracks p.merges.type := by
  refine List.foldlRecOn (motive := fun st : Progress => st.log.recorder.Tracks p.merges.type) _ _ h fun st hst c _ => ?_
  unfold visit
  split
  · next u hu => exact tracks_placeClass hst (hclasses u (List.mem_of_find?_eq_some hu)) _
  · exact hst

end Placement

/-! ### Merging initializers -/

namespace InitMerge

variable {p : Program} {m : MergeMap} {g : MergeGroup} {type : Descriptor → Descriptor}

theorem isInstanceInitializer_of_mem {x : Nat × MethodDef} (hx : x ∈ initializers p g) : x.2.isInstanceInitializer = true := by
  obtain ⟨t, -, hx⟩ := List.mem_flatMap.1 hx
  obtain ⟨d, hd, rfl⟩ := List.mem_map.1 hx
  obtain ⟨c, -, hd⟩ := List.mem_flatMap.1 hd
  exact (List.mem_filter.1 hd).2

/-- The initializers of one prototype move, and nothing else does. -/
theorem mergeProto_spec {target : Descriptor} {classIdField : FieldRef} {argument : Descriptor} {taken : List Signature}
    {acc acc' : InitMerge × Nat} {bucket : Prototype × List MemberInit}
    (hinits : ∀ i ∈ bucket.2, i.method.isInstanceInitializer = true)
    (heq : mergeProto m target classIdField argument taken acc bucket.1 bucket.2 = .ok acc') :
    (acc.1.recorder.Tracks type → acc'.1.recorder.Tracks type) ∧ acc'.1.pending = acc.1.pending ∧
      ∀ d ∈ acc'.1.placed, d ∈ acc.1.placed ∨ d.ref.holder = target := by
  have hplaced := fun d => placed_mergeProto (d := d) heq
  obtain ⟨body, -, rfl⟩ := mergeProto_eq_ok heq
  refine ⟨fun h => ?_, rfl, fun d hd => ?_⟩
  · have hmoved {r : Recorder} (hr : r.Tracks type) :
        (recordMoves argument (dispatcher target argument bucket) (bucket.2.length > 1) r bucket.2).Tracks type := by
      refine List.foldlRecOn _ _ hr fun r hr i hi => (hr.moveMethod fun hinit => ?_).recordCall _ _
      exact absurd (hinits i hi) (by simpa [MethodDef.isInstanceInitializer] using hinit)
    simp only [recordBucket]
    have hrepresented := hmoved (List.foldlRecOn
      ((nameHelpers target taken acc.2 (bucket.2.map fun i => m.proto i.method.ref.proto)).1.zip bucket.2)
      (fun (r : Recorder) x => r.representMethod x.1 x.2.method.ref) h fun r hr x _ => hr.representMethod _ _)
    cases bucket.2.head? with
    | none => exact hrepresented
    | some i => exact hrepresented.representMethod _ _
  · rcases hplaced d hd with hd | ⟨n, i, -, rfl⟩ | ⟨helpers, body, -, rfl⟩
    · exact .inl hd
    · exact .inr rfl
    · exact .inr rfl

/-- **Only instance initializers are merged here**, and only they are left for later. What they
    are merged to is in the target. -/
theorem ofGroup_spec (type : Descriptor → Descriptor) {argument : Descriptor} {r : Recorder} {merge : InitMerge}
    (heq : ofGroup p m argument g r = .ok merge) :
    (r.Tracks type → merge.recorder.Tracks type) ∧ (∀ d ∈ merge.pending, d.isInstanceInitializer = true) ∧
      ∀ target, g.target = some target → ∀ d ∈ merge.placed, d.ref.holder = target := by
  rcases ofGroup_cases heq with ⟨target, classIdField, next, htarget, -, hfold⟩ | ⟨-, rfl⟩
  · have hmerge : (r.Tracks type → merge.recorder.Tracks type) ∧ merge.pending = [] ∧ ∀ d ∈ merge.placed, d.ref.holder = target := by
      refine foldlM_preserves (P := fun acc : InitMerge × Nat => (r.Tracks type → acc.1.recorder.Tracks type) ∧
        acc.1.pending = [] ∧ ∀ d ∈ acc.1.placed, d.ref.holder = target) ?_ ⟨id, rfl, fun d hd => by cases hd⟩ hfold
      rintro acc bucket hbucket acc' ⟨htracks, hpending, hplaced⟩ hstep
      obtain ⟨htracks', hpending', hplaced'⟩ :=
        mergeProto_spec (fun i hi => isInstanceInitializer_of_mem (of_mem_bucket hbucket hi).2.2.1) hstep
      refine ⟨fun hr => htracks' (htracks hr), hpending'.trans hpending, fun d hd => ?_⟩
      rcases hplaced' d hd with hd | hd
      · exact hplaced d hd
      · exact hd
    refine ⟨hmerge.1, fun d hd => ?_, fun target' htarget' => ?_⟩
    · rw [hmerge.2.1] at hd
      cases hd
    · cases htarget.symm.trans htarget'
      exact hmerge.2.2
  · refine ⟨id, fun d hd => ?_, fun target _ d hd => by cases hd⟩
    obtain ⟨x, hx, rfl⟩ := List.mem_map.1 hd
    exact isInstanceInitializer_of_mem hx

end InitMerge

/-! ### Merging groups -/

namespace Merging

/-- The class that a group is merged to, with the members that are to be placed. -/
def mergedClass (p : Placement) (g : MergeGroup) (target : ClassDef) (inits : InitMerge) : UnplacedClass :=
  let members := g.classes.filterMap p.program.class?
  let fields := FieldMerge.ofGroup p.program p.merges g target
  { shell := { (UnplacedClass.ofClass p.merges target).shell with
      access := mergeAccess target members, fields := fields.fields, methods := inits.placed }
    fields := members.flatMap ClassDef.staticFields
    methods := (members.flatMap ClassDef.methods).filter (!·.isInstanceInitializer) ++ inits.pending
    fieldMoves := fields.moves }

/-- The group has been merged into its target, and its initializers have become `inits`. -/
structure Merges (p : Placement) (st : State) (g : MergeGroup) (target : ClassDef) (inits : InitMerge) (st' : State) : Prop where
  found : g.target.bind p.program.class? = some target
  initialized : InitMerge.ofGroup p.program p.merges p.argument g ((FieldMerge.ofGroup p.program p.merges g target).representatives.foldl
    (fun (r : Recorder) (new, old) => r.representField new old) st.log.recorder) = .ok inits
  unplaced : st'.unplaced = st.unplaced.insert target.type (mergedClass p g target inits)
  recorder : st'.log.recorder = inits.recorder
  fieldAccess : st'.fieldAccess = g.classIdField.toList.foldl (fun t f =>
    inits.synthesized.foldl (fun t m => FieldAccess.recordWrite t f m) t) st.fieldAccess
  synthesized : st'.synthesized = st.synthesized ++ inits.synthesized

/-- **Merging one group.** Nothing is merged if the target is not a class. -/
theorem mergeGroup_cases {p : Placement} {st st' : State} {g : MergeGroup} (h : mergeGroup p st g = .ok st') :
    (g.target.bind p.program.class? = none ∧ st' = st) ∨ ∃ target inits, Merges p st g target inits st' := by
  unfold mergeGroup at h
  split at h
  · next hnone =>
    cases h
    exact .inl ⟨hnone, rfl⟩
  · next target htarget =>
    obtain ⟨inits, hinits, h⟩ := bind_eq_ok.1 h
    cases h
    exact .inr ⟨target, inits, htarget, hinits, rfl, rfl, rfl, rfl⟩

/-- **What holds of every class that a group has been merged to**, if it holds when the group is merged
    and merging further groups keeps it. -/
theorem of_unplaced {p : Placement} {groups : List MergeGroup} {Q : State → UnplacedClass → Prop}
    (hstep : ∀ st st' target inits, ∀ g ∈ groups, Merges p st g target inits st' →
      Q st' (mergedClass p g target inits) ∧ ∀ u, Q st u → Q st' u) {st st' : State}
    (h : groups.foldlM (mergeGroup p) st = .ok st') (hst : ∀ t : Descriptor, st.unplaced[t]? = none) {t : Descriptor} {u : UnplacedClass}
    (hu : st'.unplaced[t]? = some u) : Q st' u := by
  refine foldlM_preserves (P := fun st : State => ∀ t u, st.unplaced[t]? = some u → Q st u) ?_ (fun t u hu => ?_) h t u hu
  · intro st g hg st' hold hmerge t u hu
    rcases mergeGroup_cases hmerge with ⟨-, rfl⟩ | ⟨target, inits, hmerges⟩
    · exact hold t u hu
    · obtain ⟨hnew, hkeeps⟩ := hstep st st' target inits g hg hmerges
      rw [hmerges.unplaced, TreeMap.getElem?_insert] at hu
      split at hu
      · cases hu
        exact hnew
      · exact hkeeps u (hold t u hu)
  · rw [hst t] at hu
    cases hu

theorem tracks_mergeGroup {p : Placement} {st st' : State} {g : MergeGroup} {type : Descriptor → Descriptor}
    (h : st.log.recorder.Tracks type) (heq : mergeGroup p st g = .ok st') : st'.log.recorder.Tracks type := by
  rcases mergeGroup_cases heq with ⟨-, rfl⟩ | ⟨target, inits, hmerges⟩
  · exact h
  · rw [hmerges.recorder]
    exact (InitMerge.ofGroup_spec type hmerges.initialized).1 (List.foldlRecOn _ _ h fun r hr x _ => hr.representField _ _)

/-! ### Recording types -/

theorem getElem?_moveType {r : Recorder} {old new : Descriptor} (hne : old ≠ new) (hold : r.moves.types[old]? = none)
    (t : Descriptor) : (r.moveType old new).moves.types[t]? = if t = old then some new else r.moves.types[t]? := by
  have hinsert : (r.moves.types.insert old new)[t]? = if t = old then some new else r.moves.types[t]? := by
    rw [TreeMap.getElem?_insert]
    by_cases ht : t = old
    · simp [ht]
    · rw [if_neg fun heq => ht (LawfulEqOrd.eq_of_compare heq).symm, if_neg ht]
  simp only [Recorder.moveType, if_neg hne, hold]
  split <;> exact hinsert

theorem getElem?_foldl_moveType {new : Descriptor} (ts : List Descriptor) {r : Recorder} (hnodup : ts.Nodup) (hnew : new ∉ ts)
    (hts : ∀ t ∈ ts, r.moves.types[t]? = none) (t : Descriptor) :
    (ts.foldl (fun r t => r.moveType t new) r).moves.types[t]? = if t ∈ ts then some new else r.moves.types[t]? := by
  induction ts generalizing r with
  | nil => simp
  | cons s ts ih =>
    obtain ⟨hs, hnodup⟩ := List.nodup_cons.1 hnodup
    rw [List.mem_cons, not_or] at hnew
    have hmove := getElem?_moveType (fun heq => hnew.1 heq.symm) (hts s List.mem_cons_self)
    rw [List.foldl_cons, ih hnodup hnew.2, hmove]
    · by_cases ht : t = s
      · simp [ht]
      · simp [ht]
    · intro x hx
      rw [hmove, if_neg, hts x (List.mem_cons_of_mem s hx)]
      rintro rfl
      exact hs hx

/-- Recording the types of a group is adding the group to the map. -/
theorem getElem?_recordTypes {r : Recorder} {m : MergeMap} {g : MergeGroup} {h : Descriptor} {rest : List Descriptor}
    (hclasses : g.classes = h :: rest) (htarget : g.target = some h) (hnodup : g.classes.Nodup)
    (hr : ∀ t : Descriptor, r.moves.types[t]? = m.targets[t]?) (hm : ∀ t ∈ g.classes, m.targets[t]? = none) (t : Descriptor) :
    (recordTypes r g).moves.types[t]? = (m.addGroup g).targets[t]? := by
  have hself (s : Descriptor) : (r.moveType h h).moves.types[s]? = m.targets[s]? := by
    rw [← hr s]
    simp only [Recorder.moveType, if_true]
    split <;> rfl
  have hsources (s : Descriptor) : s ∈ g.sources ↔ s ∈ g.classes ∧ s ≠ h := by
    simp [MergeGroup.sources, htarget]
  rw [MergeMap.getElem?_addGroup m hclasses, recordTypes, htarget]
  simp only
  rw [getElem?_foldl_moveType g.sources (hnodup.filter _) (fun hmem => ((hsources h).1 hmem).2 rfl)]
  · simp only [hsources, hself]
  · intro s hs
    rw [hself, hm s ((hsources s).1 hs).1]

/-- **The moves of types agree with the map of the merge.** -/
theorem types_foldl_recordTypes {p : Program} {groups : List MergeGroup} (hgroups : Policy.MergedGroups p groups) {r : Recorder}
    (hr : ∀ t : Descriptor, r.moves.types[t]? = none) (t : Descriptor) :
    (groups.foldl recordTypes r).moves.types[t]? = (MergeMap.ofGroups groups).targets[t]? := by
  have hloop (gs : List MergeGroup) (r : Recorder) (m : MergeMap) (hapart : Policy.Apart gs)
      (htarget : ∀ g ∈ gs, ∃ t rest, g.classes = t :: rest ∧ g.target = some t)
      (hr : ∀ t : Descriptor, r.moves.types[t]? = m.targets[t]?) (hm : ∀ g ∈ gs, ∀ t ∈ g.classes, m.targets[t]? = none) :
      (gs.foldl recordTypes r).moves.types[t]? = (gs.foldl MergeMap.addGroup m).targets[t]? := by
    induction gs generalizing r m with
    | nil => exact hr t
    | cons g gs ih =>
      obtain ⟨hdisjoint, hapart'⟩ := List.pairwise_cons.1 hapart.disjoint
      obtain ⟨h, rest, hclasses, hh⟩ := htarget g List.mem_cons_self
      refine ih _ _ ⟨fun g' hg' => hapart.nodup g' (List.mem_cons_of_mem g hg'), hapart'⟩
        (fun g' hg' => htarget g' (List.mem_cons_of_mem g hg'))
        (getElem?_recordTypes hclasses hh (hapart.nodup g List.mem_cons_self) hr (hm g List.mem_cons_self)) ?_
      intro g' hg' s hs
      rw [MergeMap.getElem?_addGroup m hclasses, if_neg fun hmem => hdisjoint g' hg' s hmem.1 hs]
      exact hm g' (List.mem_cons_of_mem g hg') s hs
  refine hloop groups r {} hgroups.apart hgroups.target (fun t => ?_) fun g hg t ht => by simp
  rw [hr t]
  simp

theorem methods_foldl_recordTypes (groups : List MergeGroup) (r : Recorder) :
    (groups.foldl recordTypes r).moves.methods = r.moves.methods := by
  have hmove (r : Recorder) (old new : Descriptor) : (r.moveType old new).moves.methods = r.moves.methods := by
    simp only [Recorder.moveType]
    split
    · split <;> rfl
    · split
      · split <;> rfl
      · split <;> rfl
  refine List.foldlRecOn (motive := fun r' : Recorder => r'.moves.methods = r.moves.methods) _ _ rfl fun r' hr' g _ => ?_
  unfold recordTypes
  split
  · exact hr'
  · refine List.foldlRecOn (motive := fun r' : Recorder => r'.moves.methods = r.moves.methods) _ _ ?_ fun r' hr' t _ => ?_
    · rw [hmove, hr']
    · rw [hmove, hr']

end Merging

end DexShrinker
