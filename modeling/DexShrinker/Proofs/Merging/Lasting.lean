/-
  DexShrinker/Proofs/Merging/Lasting.lean
  =======================================
  **What a merge keeps of its record.**

  Until the types of the groups are recorded, a merge records only where members go, what
  the new ones stand for, and how calls and definitions of methods change. What all of these
  steps keep holds when all members are placed (`Plan.Valid.lasting`).
-/
import DexShrinker.Proofs.Lens.Lookup
import DexShrinker.Proofs.Lens.Rules
import DexShrinker.Proofs.Merging.Plan
import DexShrinker.Proofs.Merging.Trail

namespace DexShrinker

/-- Placing members keeps `K`. -/
structure Recorder.Lasting (K : Recorder → Prop) : Prop where
  moveField : ∀ {r : Recorder} (old new : FieldRef), K r → K (r.moveField old new)
  moveMethod : ∀ {r : Recorder} (old new : MethodRef), K r → K (r.moveMethod old new)
  recordDefinition : ∀ {r : Recorder} (new : MethodRef) (changes : ProtoChanges), K r → K (r.recordDefinition new changes)

/-- Merging the members of groups keeps `K` as well. -/
structure Recorder.LastingInGroups (K : Recorder → Prop) : Prop extends Recorder.Lasting K where
  representField : ∀ {r : Recorder} (new old : FieldRef), K r → K (r.representField new old)
  representMethod : ∀ {r : Recorder} (new old : MethodRef), K r → K (r.representMethod new old)
  recordCall : ∀ {r : Recorder} (old : MethodRef) (changes : ProtoChanges), K r → K (r.recordCall old changes)

namespace Recorder

/-- What has been recorded of members is there from then on. -/
theorem lasting_grows (r : Recorder) : Lasting r.Grows where
  moveField _ _ h := h.trans (grows_moveField _ _ _)
  moveMethod _ _ h := h.trans (grows_moveMethod _ _ _)
  recordDefinition _ _ h := h.trans (grows_recordDefinition _ _ _)

theorem lastingInGroups_grows (r : Recorder) : LastingInGroups r.Grows where
  toLasting := lasting_grows r
  representField _ _ h := h.trans (grows_representField _ _ _)
  representMethod _ _ h := h.trans (grows_representMethod _ _ _)
  recordCall _ _ h := h.trans (grows_recordCall _ _ _)

end Recorder

open Recorder (Lasting LastingInGroups)

/-! ### Placing members -/

namespace Placement

variable {p : Placement} {K : Recorder → Prop} {r : Recorder}

theorem lasting_recordField (hK : Lasting K) (h : K r) (old new : FieldRef) : K (p.recordField r old new) := by
  simp only [recordField]
  split
  · exact h
  · split
    · exact hK.moveField old new h
    · exact List.foldlRecOn _ _ (hK.moveField old new h) fun r hr sub _ => hK.moveField _ _ hr

theorem lasting_recordMethod (hK : Lasting K) (h : K r) (old new : MethodRef) (isInitializer : Bool) :
    K (p.recordMethod r old new isInitializer) := by
  simp only [recordMethod]
  split
  · exact h
  · split
    · exact hK.moveMethod old new h
    · exact List.foldlRecOn _ _ (hK.moveMethod old new h) fun r hr sub _ => hK.moveMethod _ _ hr

theorem lasting_placeMethod (hK : Lasting K) {st : MethodState} (h : K st.log.recorder) (holder : Descriptor) (m : MethodDef) :
    K (p.placeMethod holder st m).2.log.recorder := by
  refine lasting_recordMethod hK ?_ _ _ _
  split
  · exact hK.recordDefinition _ _ h
  · exact h

theorem Trail.lasting (hK : Lasting K) {holder : Descriptor} {st last : MethodState} {xs : List (MethodDef × MethodDef)}
    (h : Trail p holder st xs last) (hst : K st.log.recorder) : K last.log.recorder := by
  induction h with
  | nil => exact hst
  | cons m _ ih => exact ih (lasting_placeMethod hK hst _ m)

theorem lasting_placeFields (hK : Lasting K) (h : K r) (shell : ClassDef) (fields : List FieldDef) :
    K (p.placeFields shell r fields).2 := by
  unfold placeFields
  induction fields generalizing shell r with
  | nil => exact h
  | cons f fields ih => exact ih (lasting_recordField hK h _ _) _

theorem lasting_placeClass (hK : Lasting K) {log : PlacementLog} (h : K log.recorder) (u : UnplacedClass) (table : VirtualTable) :
    K (p.placeClass u table log).2.2.recorder := by
  obtain ⟨fs, hclass⟩ := placeClass_eq p u table log
  rw [hclass]
  refine (@placeMethods_spec (fun st => K st.log.recorder) p u.shell.type u.methods
    (fun st m _ hst => lasting_placeMethod hK hst _ m) _ ?_).1
  refine lasting_placeFields hK ?_ _ _
  exact List.foldlRecOn _ _ h fun r hr move _ => lasting_recordField hK hr _ _

theorem lasting_visit (hK : Lasting K) {classes : List UnplacedClass} {st : Progress} (h : K st.log.recorder) (c : ClassDef) :
    K (p.visit classes st c).log.recorder := by
  unfold visit
  split
  · exact lasting_placeClass hK h _ _
  · exact h

end Placement

/-! ### Merging groups -/

namespace InitMerge

variable {p : Program} {m : MergeMap} {argument : Descriptor} {K : Recorder → Prop}

theorem lasting_mergeProto (hK : LastingInGroups K) {target : Descriptor} {classIdField : FieldRef} {taken : List Signature}
    {acc acc' : InitMerge × Nat} {bucket : Prototype × List MemberInit} (h : K acc.1.recorder)
    (heq : mergeProto m target classIdField argument taken acc bucket.1 bucket.2 = .ok acc') : K acc'.1.recorder := by
  obtain ⟨body, -, rfl⟩ := mergeProto_eq_ok heq
  have hhelpers {named : List (MethodRef × MemberInit)} {r : Recorder} (hr : K r) :
      K (named.foldl (fun (r : Recorder) x => r.representMethod x.1 x.2.method.ref) r) :=
    List.foldlRecOn _ _ hr fun r hr x _ => hK.representMethod _ _ hr
  have hmoves {r : Recorder} (hr : K r) :
      K (recordMoves argument (dispatcher target argument bucket) (bucket.2.length > 1) r bucket.2) :=
    List.foldlRecOn _ _ hr fun r hr i _ => hK.recordCall _ _ (hK.moveMethod _ _ hr)
  simp only [recordBucket]
  cases bucket.2.head? with
  | none => exact hmoves (hhelpers h)
  | some i => exact hK.representMethod _ _ (hmoves (hhelpers h))

theorem lasting_ofGroup (hK : LastingInGroups K) {g : MergeGroup} {r : Recorder} {merge : InitMerge} (h : K r)
    (heq : ofGroup p m argument g r = .ok merge) : K merge.recorder := by
  rcases ofGroup_cases heq with ⟨target, classIdField, next, -, -, hfold⟩ | ⟨-, rfl⟩
  · exact foldlM_preserves (P := fun acc : InitMerge × Nat => K acc.1.recorder)
      (fun acc x _ acc' hacc hstep => lasting_mergeProto hK hacc hstep) h hfold
  · exact h

end InitMerge

namespace Merging

variable {K : Recorder → Prop}

theorem Merges.lasting (hK : LastingInGroups K) {p : Placement} {st st' : State} {g : MergeGroup} {target : ClassDef} {inits : InitMerge}
    (h : Merges p st g target inits st') (hst : K st.log.recorder) : K st'.log.recorder := by
  rw [h.recorder]
  exact InitMerge.lasting_ofGroup hK (List.foldlRecOn _ _ hst fun r hr x _ => hK.representField _ _ hr) h.initialized

theorem lasting_mergeGroup (hK : LastingInGroups K) {p : Placement} {st st' : State} {g : MergeGroup} (h : K st.log.recorder)
    (heq : mergeGroup p st g = .ok st') : K st'.log.recorder := by
  rcases mergeGroup_cases heq with ⟨-, rfl⟩ | ⟨target, inits, hmerges⟩
  · exact h
  · exact hmerges.lasting hK h

/-! ### From the start to the end -/

theorem Plan.lasting_walk (hK : Lasting K) {P : Plan} (h : K P.state.log.recorder) : K P.last.log.recorder :=
  List.foldlRecOn (motive := fun st : Placement.Progress => K st.log.recorder) _ _ h fun _ hst c _ =>
    Placement.lasting_visit hK hst c

/-- **What recording members keeps holds in the end.** -/
theorem Plan.Valid.lasting {v : View} {P : Plan} (h : P.Valid v) (hK : LastingInGroups K)
    (hstart : K (Recorder.start .horizontalClassMerger)) : K P.last.log.recorder := by
  obtain ⟨report, hmerged⟩ := h.merged
  exact P.lasting_walk hK.toLasting (foldlM_preserves (P := fun st : State => K st.log.recorder)
    (fun st g _ st' hst hstep => lasting_mergeGroup hK hst hstep) hstart hmerged)

/-- Nothing is recorded of types or of kinds of calls before the types of groups are. -/
theorem lastingInGroups_untouched (F : TypeMap Descriptor → MethodMap InvokeKind → Prop) :
    LastingInGroups fun r => F r.moves.types r.moves.invokeKinds where
  moveField {r} old new h := by
    obtain ⟨_, _, _, heq⟩ := r.exists_moveField old new
    rwa [heq]
  moveMethod {r} old new h := by
    obtain ⟨_, _, _, heq⟩ := r.exists_moveMethod old new
    rwa [heq]
  recordDefinition {r} new changes h := by
    obtain ⟨_, heq⟩ := r.exists_recordDefinition new changes
    rwa [heq]
  representField _ _ h := h
  representMethod _ _ h := h
  recordCall old changes h := by
    unfold Recorder.recordCall
    split <;> exact h

/-- No type has been recorded when all members are placed. -/
theorem Plan.Valid.types_last {v : View} {P : Plan} (h : P.Valid v) (t : Descriptor) :
    P.last.log.recorder.moves.types[t]? = none :=
  h.lasting (lastingInGroups_untouched fun types _ => types[t]? = none) (by simp [Recorder.start])

/-- A merge records no kind of call. -/
theorem Plan.Valid.invokeKinds_recorder {v : View} {P : Plan} (h : P.Valid v) (m : MethodRef) :
    P.recorder.moves.invokeKinds[m]? = none := by
  refine List.foldlRecOn (motive := fun r : Recorder => r.moves.invokeKinds[m]? = none) _ _ ?_ fun r hr g _ => ?_
  · exact h.lasting (lastingInGroups_untouched fun _ kinds => kinds[m]? = none) (by simp [Recorder.start])
  · have hmove {r : Recorder} (hr : r.moves.invokeKinds[m]? = none) (old new : Descriptor) :
        (r.moveType old new).moves.invokeKinds[m]? = none := by
      obtain ⟨_, _, _, heq⟩ := r.exists_moveType old new
      rwa [heq]
    unfold recordTypes
    split
    · exact hr
    · exact List.foldlRecOn (motive := fun r : Recorder => r.moves.invokeKinds[m]? = none) _ _ (hmove hr _ _) fun r hr t _ => hmove hr _ _

namespace Plan.Valid

variable {v : View} {P : Plan}

theorem mapClass_recorder (h : P.Valid v) (t : Descriptor) : P.recorder.moves.mapClass t = P.home t := by
  rw [Renaming.mapClass, Std.TreeMap.getD_eq_getD_getElem?, recorder, types_foldl_recordTypes h.groups h.types_last, home, h.merges,
    Std.TreeMap.getD_eq_getD_getElem?]

/-- What is recorded sends types where the merge sends them. -/
theorem mapType_recorder (h : P.Valid v) (t : Descriptor) : P.recorder.moves.mapType t = P.type t := by
  rw [Renaming.mapType, funext h.mapClass_recorder]
  rfl

theorem mapHolder_recorder (h : P.Valid v) (hv : v.program.Regular) {t : Descriptor} (ht : t.isClass = true) :
    P.recorder.moves.mapHolder t = P.type t := by
  have hclass : P.recorder.moves.mapClass t = P.type t := by
    rw [h.mapClass_recorder, type_eq P (Descriptor.isArray_of_isClass ht)]
  rw [Renaming.mapHolder, hclass, Descriptor.isReference, h.isClass_type hv ht]
  rfl

/-- The holder of a member that nothing is recorded of stays if its class does. -/
theorem mapHolder_of_stays (h : P.Valid v) {t : Descriptor} (ht : P.home t = t) : P.recorder.moves.mapHolder t = t := by
  rw [Renaming.mapHolder, h.mapClass_recorder, ht, ite_self]

/-- The lens sends types where the merge sends them. -/
theorem lookupType_eq (h : P.Valid v) {lens : Lens} (hlens : P.recorder.build v.lens = .ok lens) (t : Descriptor) :
    lens.lookupType t v.lens = P.type t := by
  rw [Recorder.lookupType_of_build hlens, h.mapType_recorder]

theorem isReference_type (h : P.Valid v) (hv : v.program.Regular) {t : Descriptor} (ht : t.isReference = true) :
    (P.type t).isReference = true := by
  rw [Descriptor.isReference, Bool.or_eq_true] at ht ⊢
  exact ht.imp (h.isClass_type hv) fun harray => (h.isArray_type hv t).trans harray

end Plan.Valid

end Merging

end DexShrinker
