/-
  DexShrinker/Proofs/Merging/Conflicts.lean
  =========================================
  **When the names that a merge gives contradict each other.**

  A member that gets a number moves a second time for every class that inherits it. That is the
  only way to two new names for one old one: a member that is declared goes to one place, no class
  inherits what it declares, and the types of a group have one target. But a class may inherit one
  name from several classes above it, each of which gives it a number of its own. So a merge
  contradicts itself if and only if that happens (`Merging.contradicts_iff_clashes`).
-/
import DexShrinker.Proofs.Merging.Members

namespace DexShrinker

open Std

/-! ### Conflicts of types -/

namespace Recorder

variable {r : Recorder}

/-- No type has been given two new names. -/
def NoTypeConflict (r : Recorder) : Prop := ∀ old first second, r.conflict ≠ some (.typeConflict old first second)

theorem NoTypeConflict.report (h : r.NoTypeConflict) {e : LensError} (he : ∀ old first second, e ≠ .typeConflict old first second) :
    (r.report e).NoTypeConflict := by
  intro old first second heq
  cases hconflict : r.conflict with
  | some e' =>
    rw [Recorder.report, hconflict] at heq
    cases heq
    exact h _ _ _ hconflict
  | none =>
    rw [Recorder.report, hconflict] at heq
    cases heq
    exact he _ _ _ rfl

theorem lasting_noTypeConflict : LastingInGroups NoTypeConflict where
  moveField old new h := by
    unfold moveField
    split
    · exact h
    · split
      · split
        · exact h
        · exact h.report fun _ _ _ => LensError.noConfusion
      · exact h
  moveMethod old new h := by
    unfold moveMethod
    split
    · exact h
    · split
      · split
        · exact h
        · exact h.report fun _ _ _ => LensError.noConfusion
      · exact h
  recordDefinition new changes h := by
    unfold recordDefinition
    split <;> exact h
  representField _ _ h := h
  representMethod _ _ h := h
  recordCall old changes h := by
    unfold recordCall
    split <;> exact h

theorem conflict_moveType {old new : Descriptor} (h : old = new ∨ r.moves.types[old]? = none) :
    (r.moveType old new).conflict = r.conflict := by
  by_cases heq : old = new
  · simp only [moveType, if_pos heq]
  · simp only [moveType, if_neg heq, h.resolve_left heq]

end Recorder

namespace Merging

theorem conflict_foldl_moveType {new : Descriptor} (ts : List Descriptor) {r : Recorder} (hnodup : ts.Nodup) (hnew : new ∉ ts)
    (hts : ∀ t ∈ ts, r.moves.types[t]? = none) : (ts.foldl (fun r t => r.moveType t new) r).conflict = r.conflict := by
  induction ts generalizing r with
  | nil => rfl
  | cons t ts ih =>
    obtain ⟨ht, hnodup⟩ := List.nodup_cons.1 hnodup
    rw [List.mem_cons, not_or] at hnew
    have hnone := hts t List.mem_cons_self
    rw [List.foldl_cons, ih hnodup hnew.2, Recorder.conflict_moveType (.inr hnone)]
    intro s hs
    rw [getElem?_moveType (fun heq => hnew.1 heq.symm) hnone, if_neg, hts s (List.mem_cons_of_mem t hs)]
    rintro rfl
    exact ht hs

theorem conflict_recordTypes {r : Recorder} {g : MergeGroup} (hnodup : g.classes.Nodup)
    (hr : ∀ t ∈ g.classes, r.moves.types[t]? = none) : (recordTypes r g).conflict = r.conflict := by
  unfold recordTypes
  split
  · rfl
  · next target htarget =>
    have hself (t : Descriptor) : (r.moveType target target).moves.types[t]? = r.moves.types[t]? := by
      simp only [Recorder.moveType, if_true]
      split <;> rfl
    rw [conflict_foldl_moveType g.sources (hnodup.filter _), Recorder.conflict_moveType (.inl rfl)]
    · simp [MergeGroup.sources, htarget]
    · intro t ht
      rw [hself]
      exact hr t (List.mem_filter.1 ht).1

/-- **Groups that have no class in common give no type two names.** -/
theorem conflict_foldl_recordTypes {p : Program} {groups : List MergeGroup} (hgroups : Policy.MergedGroups p groups) {r : Recorder}
    (hr : ∀ t : Descriptor, r.moves.types[t]? = none) : (groups.foldl recordTypes r).conflict = r.conflict := by
  induction groups using List.reverseRecOn with
  | nil => rfl
  | append_singleton gs g ih =>
    have hbefore : Policy.MergedGroups p gs := hgroups.sublist (List.sublist_append_left gs [g])
    rw [List.foldl_append, List.foldl_cons, List.foldl_nil, conflict_recordTypes (hgroups.apart.nodup g (by simp)), ih hbefore]
    intro t ht
    rw [types_foldl_recordTypes hbefore hr]
    apply MergeMap.getElem?_ofGroups_of_not_mem hbefore
    intro g' hg' ht'
    exact (List.pairwise_append.1 hgroups.apart.disjoint).2.2 g' hg' g (List.mem_singleton_self g) t ht' ht

/-! ### Members move to one place -/

variable {hash : HashOrder} {v : View} {maxGroupSize : Nat} {P : Plan}

namespace Plan.Valid

theorem declaresField_of_goes (h : P.Valid v) {old new : FieldRef} (hgoes : P.FieldGoes old new) :
    DeclaresField v.program old := by
  cases hgoes with
  | library c hc hlib f hf hold hnew => exact ⟨c, h.program ▸ hc, f, hf, hold.symm⟩
  | placed u hu d hd htype hx =>
    obtain ⟨c, hc, -, f, hf, hold⟩ := h.exists_class_of_fieldsTo hu hx
    exact ⟨c, Program.mem_classes_of_mem_programClasses hc, f, hf, hold.symm⟩

theorem declaresMethod_of_goes (h : P.Valid v) {old new : MethodRef} (hgoes : P.MethodGoes old new) :
    DeclaresMethod v.program old := by
  cases hgoes with
  | library c hc hlib m hm hold hnew => exact ⟨c, h.program ▸ hc, m, hm, hold.symm⟩
  | placed u hu d hd htype x hx hold hnew =>
    obtain ⟨c, hc, -, hm⟩ := h.exists_class_of_mem hu (List.of_mem_zip hx).1
    exact ⟨c, Program.mem_classes_of_mem_programClasses hc, x.1, hm, hold.symm⟩
  | dispatched g hg classIdField hid target htarget bucket hbucket i hi hold hnew =>
    obtain ⟨t, ht, c, hc, hm⟩ := exists_class_of_initializers (InitMerge.of_mem_bucket hbucket hi).2.2.1
    exact ⟨c, Program.mem_classes_of_mem_programClasses (h.mem_programClasses_of_group hg ht hc), i.method, hm, hold.symm⟩

theorem fieldGoes_once (h : P.Valid v) (hfields : v.program.HousesFields) (honce : v.program.Unrepeated)
    {old new new' : FieldRef} (hgoes : P.FieldGoes old new) (hgoes' : P.FieldGoes old new') : new = new' := by
  cases hgoes with
  | library c hc hlib f hf hold hnew =>
    subst hold
    rw [hnew, h.fieldGoes_library hfields (h.program ▸ hc) hlib hf hgoes']
  | placed u hu d hd htype hx => exact (h.fieldGoes_unique hfields honce hu hd htype hx hgoes').symm

/-- An initializer is in one bucket only. -/
theorem bucket_unique (h : P.Valid v) (hhoused : v.program.Housed) (honce : v.program.Unrepeated)
    {g : MergeGroup} (hg : g ∈ P.groups) {bucket bucket' : Prototype × List MemberInit}
    (hbucket : bucket ∈ InitMerge.buckets P.placement.program P.placement.merges P.placement.argument g)
    (hbucket' : bucket' ∈ InitMerge.buckets P.placement.program P.placement.merges P.placement.argument g) {i i' : MemberInit}
    (hi : i ∈ bucket.2) (hi' : i' ∈ bucket'.2) (heq : i.method.ref = i'.method.ref) : bucket = bucket' ∧ i = i' := by
  let inits := InitMerge.assignProtos P.placement.merges P.placement.argument (InitMerge.initializers P.placement.program g)
  have hmethods : inits.map (·.method) = ((g.classes.filterMap P.placement.program.class?).flatMap ClassDef.methods).filter
      (·.isInstanceInitializer) := by
    rw [← InitMerge.map_snd_initializers, ← InitMerge.map_assignProtos P.placement.merges P.placement.argument
      (InitMerge.initializers P.placement.program g), List.map_map]
    rfl
  have hnodup : (inits.map (·.method.ref)).Nodup := by
    rw [show inits.map (·.method.ref) = (inits.map (·.method)).map MethodDef.ref by rw [List.map_map]; rfl, hmethods]
    exact (List.filter_sublist.map _).nodup (h.nodup_groupMethods hhoused honce.methods hg)
  obtain ⟨hmem, hproto, -⟩ := InitMerge.of_mem_bucket hbucket hi
  obtain ⟨hmem', hproto', -⟩ := InitMerge.of_mem_bucket hbucket' hi'
  obtain rfl : i = i' := List.inj_on_of_nodup_map hnodup hmem hmem' heq
  obtain ⟨j, -, rfl⟩ := InitMerge.mem_byProto.1 hbucket
  obtain ⟨j', -, rfl⟩ := InitMerge.mem_byProto.1 hbucket'
  rw [← show i.proto = j.proto from hproto, ← show i.proto = j'.proto from hproto']
  exact ⟨rfl, rfl⟩

theorem methodGoes_once (h : P.Valid v) (hhoused : v.program.Housed) (honce : v.program.Unrepeated)
    {old new new' : MethodRef} (hgoes : P.MethodGoes old new) (hgoes' : P.MethodGoes old new') : new = new' := by
  cases hgoes with
  | library c hc hlib m hm hold hnew =>
    subst hold
    rw [hnew, h.methodGoes_library hhoused (h.program ▸ hc) hlib hm hgoes']
  | placed u hu d hd htype x hx hold hnew =>
    subst hold
    rw [hnew, h.methodGoes_unique hhoused honce hu hd htype hx hgoes']
  | dispatched g hg classIdField hid target htarget bucket hbucket i hi hold hnew =>
    have hgoes : P.MethodGoes old new := .dispatched g hg classIdField hid target htarget bucket hbucket i hi hold hnew
    cases hgoes' with
    | library c hc hlib m hm hold' hnew' =>
      subst hold'
      rw [hnew', h.methodGoes_library hhoused (h.program ▸ hc) hlib hm hgoes]
    | placed u hu d hd htype x hx hold' hnew' =>
      subst hold'
      rw [hnew', h.methodGoes_unique hhoused honce hu hd htype hx hgoes]
    | dispatched g' hg' classIdField' hid' target' htarget' bucket' hbucket' i' hi' hold' hnew' =>
      obtain ⟨t, ht, c, hc, hm⟩ := exists_class_of_initializers (InitMerge.of_mem_bucket hbucket hi).2.2.1
      obtain ⟨t', ht', c', hc', hm'⟩ := exists_class_of_initializers (InitMerge.of_mem_bucket hbucket' hi').2.2.1
      have hmem := Program.mem_classes_of_mem_programClasses (h.mem_programClasses_of_group hg ht hc)
      have hmem' := Program.mem_classes_of_mem_programClasses (h.mem_programClasses_of_group hg' ht' hc')
      have hsame : t = t' := by
        rw [h.program] at hc hc'
        rw [← Program.type_of_class? hc, ← Program.type_of_class? hc', ← hhoused c hmem i.method hm, ← hhoused c' hmem' i'.method hm', ← hold, hold']
      obtain rfl := h.groups.apart.eq_of_mem hg hg' ht (hsame ▸ ht')
      obtain ⟨rfl, -⟩ := h.bucket_unique hhoused honce hg hbucket hbucket' hi hi' (hold.symm.trans hold')
      rw [hnew, hnew', Option.some.inj (htarget.symm.trans htarget')]

end Plan.Valid

/-! ### What classes inherit -/

/-- A class inherits the field `old` from one that is not just `old` under new types any more,
    and so it moves to `new`. -/
inductive Plan.FieldFollows (P : Plan) (old new : FieldRef) : Prop
  | intro (f f' : FieldRef) (hgoes : P.FieldGoes f f') (hmoved : f ≠ f') (hrenamed : f' ≠ P.placement.merges.field f)
      (sub : Descriptor) (hsub : sub ∈ P.placement.fieldInheritors f) (hold : old = { f with holder := sub })
      (hnew : new = { f' with holder := P.type sub }) (hne : old ≠ new) : P.FieldFollows old new

/-- A class inherits the method `old` from one that is not just `old` under new types any more,
    and so it moves to `new`. -/
inductive Plan.MethodFollows (P : Plan) (old new : MethodRef) : Prop
  | intro (m m' : MethodRef) (hgoes : P.MethodGoes m m') (hmoved : m ≠ m') (hinit : m.isInstanceInitializer = false)
      (hrenamed : m' ≠ P.placement.merges.method m) (sub : Descriptor) (hsub : sub ∈ P.placement.methodInheritors m)
      (hold : old = { m with holder := sub }) (hnew : new = { m' with holder := P.type sub }) (hne : old ≠ new) : P.MethodFollows old new

/-- A class inherits one name from two members that get different names. -/
def Plan.Clashes (P : Plan) : Prop :=
  (∃ old a b, P.FieldFollows old a ∧ P.FieldFollows old b ∧ a ≠ b) ∨ ∃ old a b, P.MethodFollows old a ∧ P.MethodFollows old b ∧ a ≠ b

namespace Plan.Valid

theorem not_declares_of_fieldFollows (h : P.Valid v) (hfields : v.program.HousesFields) {old new : FieldRef}
    (hfollows : P.FieldFollows old new) : ¬ DeclaresField v.program old := by
  obtain ⟨f, f', -, -, -, sub, hsub, rfl, -, -⟩ := hfollows
  exact h.not_declaresField hfields hsub

theorem not_declares_of_methodFollows (h : P.Valid v) (hhoused : v.program.Housed) {old new : MethodRef}
    (hfollows : P.MethodFollows old new) : ¬ DeclaresMethod v.program old := by
  obtain ⟨m, m', -, -, -, -, sub, hsub, rfl, -, -⟩ := hfollows
  exact h.not_declaresMethod hhoused hsub

/-- **What a merge asks to be recorded**: where members go, and where they go for classes that
    inherit them. -/
theorem obeys_moves (h : P.Valid v) : P.recorder.Obeys
    ⟨fun old new => P.FieldGoes old new ∨ P.FieldFollows old new, fun old new => P.MethodGoes old new ∨ P.MethodFollows old new,
      fun _ _ => True, fun _ _ => True, fun _ _ => True, fun _ _ => True⟩ := by
  apply h.obeys
  · intro g hg
    refine ⟨fun _ _ _ _ => trivial, fun hid target htarget bucket hbucket i hi => ⟨.inl ?_, trivial, fun _ => trivial, fun _ => trivial⟩⟩
    obtain ⟨classIdField, hid⟩ := Option.isSome_iff_exists.1 hid
    exact .dispatched g hg classIdField hid target htarget bucket hbucket i hi rfl rfl
  · intro u hu d hd htype
    have hfield (x : FieldRef × FieldRef) (hx : x ∈ u.fieldsTo d) : P.placement.AllowsField
        ⟨fun old new => P.FieldGoes old new ∨ P.FieldFollows old new, fun old new => P.MethodGoes old new ∨ P.MethodFollows old new,
          fun _ _ => True, fun _ _ => True, fun _ _ => True, fun _ _ => True⟩ x.1 x.2 := by
      intro hne
      have hgoes : P.FieldGoes x.1 x.2 := .placed u hu d hd htype hx
      exact ⟨.inl hgoes, fun hnew sub hsub hsubne => .inr ⟨x.1, x.2, hgoes, hne, hnew, sub, hsub, rfl, rfl, hsubne⟩⟩
    refine ⟨fun x hx => hfield x (List.mem_append_left _ hx), fun x hx => ?_, fun x hx => ?_⟩
    · exact hfield (x.1.ref, x.2.ref) (List.mem_append_right _ (List.mem_map.2 ⟨x, hx, rfl⟩))
    · have hgoes : P.MethodGoes x.1.ref x.2.ref := .placed u hu d hd htype x hx rfl rfl
      refine ⟨fun _ => .inl hgoes, fun hne hinit hnew sub hsub hsubne => .inr ?_, fun _ _ _ _ => trivial⟩
      exact ⟨x.1.ref, x.2.ref, hgoes, hne, hinit, hnew, sub, hsub, rfl, rfl, hsubne⟩

/-- A conflict is one between two members that a class inherits. -/
theorem clashes_of_conflict (h : P.Valid v) (hhoused : v.program.Housed) (hfields : v.program.HousesFields)
    (honce : v.program.Unrepeated) {e : LensError} (he : P.recorder.conflict = some e) : P.Clashes := by
  have hexplains := h.obeys_moves.conflict e he
  cases e with
  | typeConflict old first second =>
    rw [recorder, conflict_foldl_recordTypes h.groups h.types_last] at he
    refine absurd he (h.lasting Recorder.lasting_noTypeConflict ?_ old first second)
    intro _ _ _ hstart
    cases hstart
  | fieldConflict old first second =>
    obtain ⟨hfirst, hsecond, hne⟩ := hexplains
    rcases hfirst with hfirst | hfirst
    · rcases hsecond with hsecond | hsecond
      · exact absurd (h.fieldGoes_once hfields honce hfirst hsecond) hne
      · exact absurd (h.declaresField_of_goes hfirst) (h.not_declares_of_fieldFollows hfields hsecond)
    · rcases hsecond with hsecond | hsecond
      · exact absurd (h.declaresField_of_goes hsecond) (h.not_declares_of_fieldFollows hfields hfirst)
      · exact .inl ⟨old, first, second, hfirst, hsecond, hne⟩
  | methodConflict old first second =>
    obtain ⟨hfirst, hsecond, hne⟩ := hexplains
    rcases hfirst with hfirst | hfirst
    · rcases hsecond with hsecond | hsecond
      · exact absurd (h.methodGoes_once hhoused honce hfirst hsecond) hne
      · exact absurd (h.declaresMethod_of_goes hfirst) (h.not_declares_of_methodFollows hhoused hsecond)
    · rcases hsecond with hsecond | hsecond
      · exact absurd (h.declaresMethod_of_goes hsecond) (h.not_declares_of_methodFollows hhoused hfirst)
      · exact .inr ⟨old, first, second, hfirst, hsecond, hne⟩

theorem recorded_fieldFollows (h : P.Valid v) (hconflict : P.recorder.conflict = none) {old new : FieldRef}
    (hfollows : P.FieldFollows old new) : P.recorder.moves.fields[old]? = some new := by
  obtain ⟨f, f', hgoes, hmoved, hrenamed, sub, hsub, rfl, rfl, hne⟩ := hfollows
  cases hgoes with
  | library c hc hlib k hk hold hnew => exact absurd (hold.trans hnew.symm) hmoved
  | placed u hu d hd htype hx =>
    have hrecords := h.recorded hconflict hu hd htype
    rcases List.mem_append.1 hx with hx | hx
    · exact (hrecords.slots _ hx hmoved).2 hrenamed sub hsub hne
    · obtain ⟨y, hy, heq⟩ := List.mem_map.1 hx
      cases heq
      exact (hrecords.fields y hy hmoved).2 hrenamed sub hsub hne

theorem recorded_methodFollows (h : P.Valid v) (hconflict : P.recorder.conflict = none) {old new : MethodRef}
    (hfollows : P.MethodFollows old new) : P.recorder.moves.methods[old]? = some new := by
  obtain ⟨m, m', hgoes, hmoved, hinit, hrenamed, sub, hsub, rfl, rfl, hne⟩ := hfollows
  cases hgoes with
  | library c hc hlib k hk hold hnew => exact absurd (hold.trans hnew.symm) hmoved
  | placed u hu d hd htype x hx hold hnew =>
    subst hold hnew
    exact ((h.recorded hconflict hu hd htype).methods x hx).inherited hmoved hinit hrenamed sub hsub hne
  | dispatched g hg classIdField hid target htarget bucket hbucket i hi hold hnew =>
    rw [hold] at hinit
    cases (InitMerge.isInstanceInitializer_of_mem (InitMerge.of_mem_bucket hbucket hi).2.2.1).symm.trans hinit

/-- Members that clash are a conflict: each of the two moves would have been recorded. -/
theorem conflict_of_clashes (h : P.Valid v) (hclashes : P.Clashes) : P.recorder.conflict ≠ none := by
  intro hnone
  rcases hclashes with ⟨old, a, b, ha, hb, hne⟩ | ⟨old, a, b, ha, hb, hne⟩
  · have hrecorded := h.recorded_fieldFollows hnone ha
    rw [h.recorded_fieldFollows hnone hb] at hrecorded
    exact hne (Option.some.inj hrecorded).symm
  · have hrecorded := h.recorded_methodFollows hnone ha
    rw [h.recorded_methodFollows hnone hb] at hrecorded
    exact hne (Option.some.inj hrecorded).symm

end Plan.Valid

/-! ### How a merge fails -/

/-- The operation does not fail for names that contradict each other. -/
def Consistent {α : Type} (x : Outcome MergeError α) : Prop := ∀ e, x ≠ Outcome.raise (.lens e)

theorem consistent_ok {α : Type} (a : α) : Consistent (.ok a : Outcome MergeError α) := fun _ h => by cases h

theorem Consistent.bind {α β : Type} {x : Outcome MergeError α} {f : α → Outcome MergeError β} (hx : Consistent x)
    (hf : ∀ a, Consistent (f a)) : Consistent (x >>= f) := by
  intro e h
  cases x with
  | error e' => exact hx e (congrArg Except.error (Except.error.inj h))
  | ok a => exact hf a e h

theorem Consistent.foldlM {α β : Type} {f : β → α → Outcome MergeError β} (hf : ∀ b a, Consistent (f b a)) (xs : List α) (b : β) :
    Consistent (xs.foldlM f b) := by
  induction xs generalizing b with
  | nil => exact consistent_ok b
  | cons x xs ih =>
    rw [List.foldlM_cons]
    exact (hf b x).bind ih

theorem consistent_lift {α : Type} (x : Guarded α) : Consistent (Outcome.lift x : Outcome MergeError α) := by
  intro e h
  cases x <;> cases h

theorem consistent_synthesize {α : Type} (m : MethodRef) (x : Outcome BodyError α) : Consistent (Outcome.mapError (.synthesize m) x) := by
  intro e h
  rcases x with (cause | fault) | a <;> cases h

theorem consistent_apply (v : View) (maxSize : Nat) (groups : List MergeGroup) (policy : Policy) :
    Consistent (policy.apply v maxSize groups) := by
  cases policy with
  | noDirectRuntimeTypeChecks =>
    apply Consistent.bind
    · intro e h
      cases hscan : Policy.observedTypes v.program <;> rw [hscan] at h <;> cases h
    · intro observed
      exact consistent_ok _
  | respectPackageBoundaries =>
    intro e h
    simp only [Policy.apply] at h
    split at h <;> cases h
  | _ => exact consistent_ok _

theorem consistent_runFrom (v : View) (maxSize : Nat) (policies : List Policy) (groups : List MergeGroup) (report : MergeReport) :
    Consistent (Policy.runFrom v maxSize policies groups report) := by
  induction policies generalizing groups report with
  | nil => exact consistent_ok _
  | cons policy policies ih =>
    unfold Policy.runFrom
    split
    · exact consistent_ok _
    · exact ((consistent_apply v maxSize groups policy).bind fun _ => consistent_ok _).bind fun x => ih x.1 x.2

theorem consistent_mergeGroup (p : Placement) (st : State) (g : MergeGroup) : Consistent (mergeGroup p st g) := by
  unfold mergeGroup
  split
  · exact consistent_ok _
  · refine Consistent.bind ?_ fun _ => consistent_ok _
    unfold InitMerge.ofGroup
    split
    · refine Consistent.bind (Consistent.foldlM ?_ _ _) fun _ => consistent_ok _
      intro acc bucket
      exact (consistent_synthesize _ _).bind fun _ => consistent_ok _
    · exact consistent_ok _

theorem consistent_prepare (v : View) (groups : List MergeGroup) (report : MergeReport) : Consistent (prepare hash v groups report) := by
  refine (consistent_lift _).bind fun argument => ?_
  exact (Consistent.foldlM (consistent_mergeGroup _) _ _).bind fun _ => consistent_ok _

/-- A merge contradicts itself where the renames of its plan do. -/
theorem run_eq_lens_iff {e : LensError} : Merging.run hash v maxGroupSize = Outcome.raise (.lens e) ↔
    ∃ P, planned hash v maxGroupSize = .ok (some P) ∧ P.recorder.conflict = some e := by
  unfold Merging.run runWith planned
  cases hpolicies : Policy.run v maxGroupSize Policy.all (Policy.candidates v.program) with
  | error failure =>
    constructor
    · intro h
      exact absurd (hpolicies.trans (congrArg Except.error (Except.error.inj h))) (consistent_runFrom _ _ _ _ _ e)
    · rintro ⟨P, hP, -⟩
      cases hP
  | ok found =>
    obtain ⟨groups, report⟩ := found
    simp only [ok_bind]
    split
    · constructor
      · intro h
        cases h
      · rintro ⟨P, hP, -⟩
        cases hP
    · unfold mergeGroups
      cases hprepare : prepare hash v (groups.filter (·.target.isSome)) report with
      | error failure =>
        constructor
        · intro h
          exact absurd (hprepare.trans (congrArg Except.error (Except.error.inj h))) (consistent_prepare _ _ _ e)
        · rintro ⟨P, hP, -⟩
          cases hP
      | ok prepared =>
        let P : Plan := ⟨groups.filter (·.target.isSome), prepared.1, prepared.2⟩
        change (Outcome.ofExcept MergeError.lens (P.recorder.build v.lens) >>= _) = _ ↔ ∃ P', Except.ok (some P) = .ok (some P') ∧ _
        simp only [Except.ok.injEq, Option.some.injEq, exists_eq_left', Recorder.build]
        cases P.recorder.conflict with
        | none =>
          constructor <;> intro h <;> cases h
        | some first =>
          constructor <;> intro h <;> cases h <;> rfl

/-- **A merge contradicts itself if and only if members clash.** -/
theorem contradicts_iff_clashes (hhoused : v.program.Housed) (hfields : v.program.HousesFields)
    (honce : v.program.Unrepeated) : (∃ e, Merging.run hash v maxGroupSize = Outcome.raise (.lens e)) ↔
      ∃ P, planned hash v maxGroupSize = .ok (some P) ∧ P.Clashes := by
  constructor
  · rintro ⟨e, he⟩
    obtain ⟨P, hP, hconflict⟩ := run_eq_lens_iff.1 he
    exact ⟨P, hP, (valid_of_planned hP).clashes_of_conflict hhoused hfields honce hconflict⟩
  · rintro ⟨P, hP, hclashes⟩
    obtain ⟨e, he⟩ := Option.ne_none_iff_exists'.1 ((valid_of_planned hP).conflict_of_clashes hclashes)
    exact ⟨e, run_eq_lens_iff.2 ⟨P, hP, he⟩⟩

/-! ### A method that is inherited twice

`A`, `B` and `C` become one class, and so do the interfaces `I` and `J`. All of them declare `m`. -/

namespace Inheriting

def interface (name : String) : ClassDef :=
  { Named.withMethods name ["m"] with access := .publicFlag ||| .interfaceFlag ||| .abstractFlag }

/-- A class below `C` that has the given interfaces. -/
def view (interfaces : List Descriptor) : View where
  program := .ofList [{ type := .object, kind := .library, superclass := none }, Named.withMethods "A" ["m"],
    Named.withMethods "B" ["m"], Named.withMethods "C" ["m"], interface "I", interface "J",
    { type := Named.type "S", superclass := some (Named.type "C"), interfaces := interfaces }]

/-- The names that contradict each other. -/
def outcome (interfaces : List Descriptor) : Option (Option LensError) :=
  match run .inserted (view interfaces) 30 with
  | .ok _ => some none
  | .error (.error (.lens e)) => some (some e)
  | .error _ => none

theorem exists_of_outcome {interfaces : List Descriptor} {e : Option LensError} (h : outcome interfaces = some e) :
    (∃ e, run .inserted (view interfaces) 30 = Outcome.raise (.lens e)) ↔ e.isSome = true := by
  unfold outcome at h
  split at h
  · next r hr =>
    cases h
    simp [hr, Outcome.raise]
  · next e' he' =>
    cases h
    simp [he', Outcome.raise]
  · cases h

theorem wellFormed (interfaces : List Descriptor) (h : interfaces = [] ∨ interfaces = [Named.type "J"]) :
    (view interfaces).program.WellFormed where
  isClass := by rcases h with rfl | rfl <;> decide
  acyclic := by
    refine ⟨fun t => if t = .object then 0 else if t = Named.type "S" then 2 else 1, ?_⟩
    unfold Program.Ranked
    rcases h with rfl | rfl <;> decide

theorem housed (interfaces : List Descriptor) (h : interfaces = [] ∨ interfaces = [Named.type "J"]) :
    (view interfaces).program.Housed := by
  unfold Program.Housed
  rcases h with rfl | rfl <;> decide

theorem housesFields (interfaces : List Descriptor) (h : interfaces = [] ∨ interfaces = [Named.type "J"]) :
    (view interfaces).program.HousesFields := by
  unfold Program.HousesFields
  rcases h with rfl | rfl <;> decide

theorem unrepeated (interfaces : List Descriptor) (h : interfaces = [] ∨ interfaces = [Named.type "J"]) :
    (view interfaces).program.Unrepeated := by
  rcases h with rfl | rfl <;> constructor <;> decide

end Inheriting

/-- A class that inherits `m` from `C` only does not clash, one that inherits it from `J` too does. -/
theorem contradicts_iff_clashes_inheriting :
    (¬ ∃ P, planned .inserted (Inheriting.view []) 30 = .ok (some P) ∧ P.Clashes) ∧
      ∃ P, planned .inserted (Inheriting.view [Named.type "J"]) 30 = .ok (some P) ∧ P.Clashes := by
  have hfirst : Inheriting.outcome [] = some none := by decide +kernel
  have hsecond : Inheriting.outcome [Named.type "J"] = some (some (.methodConflict (Named.method "S" "m")
      (Named.method "S" "m$2") (Named.method "S" "m$1"))) := by decide +kernel
  constructor
  · intro hclashes
    have hfails := (contradicts_iff_clashes (Inheriting.housed [] (.inl rfl))
      (Inheriting.housesFields [] (.inl rfl)) (Inheriting.unrepeated [] (.inl rfl))).2 hclashes
    cases (Inheriting.exists_of_outcome hfirst).1 hfails
  · apply (contradicts_iff_clashes (Inheriting.housed _ (.inr rfl))
      (Inheriting.housesFields _ (.inr rfl)) (Inheriting.unrepeated _ (.inr rfl))).1
    exact (Inheriting.exists_of_outcome hsecond).2 rfl

/-- So a merge fails for its own names, though all members differ, nothing has a body and no class is
    above itself. -/
theorem inherited_twice_fails :
    (Inheriting.view [Named.type "J"]).program.WellFormed ∧ (Inheriting.view [Named.type "J"]).program.Unrepeated ∧
      (∀ c ∈ (Inheriting.view [Named.type "J"]).program.classes, ∀ m ∈ c.methods, m.code = none) ∧
      ∃ e, run .inserted (Inheriting.view [Named.type "J"]) defaultMaxGroupSize = Outcome.raise (.lens e) := by
  have houtcome : Inheriting.outcome [Named.type "J"] = some (some (.methodConflict (Named.method "S" "m")
      (Named.method "S" "m$2") (Named.method "S" "m$1"))) := by decide +kernel
  refine ⟨Inheriting.wellFormed _ (.inr rfl), Inheriting.unrepeated _ (.inr rfl), by decide +kernel, ?_⟩
  exact (Inheriting.exists_of_outcome houtcome).2 rfl

end Merging

end DexShrinker
