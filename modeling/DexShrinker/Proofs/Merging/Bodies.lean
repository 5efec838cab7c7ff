/-
  DexShrinker/Proofs/Merging/Bodies.lean
  ======================================
  **Which bodies a merged program has.**

  A method of the program after a merge has the body of a method from before, and as many
  more parameters as the lens says (`Plan.Valid.bodies`). The only other bodies are those of
  dispatching initializers, which are put together for the merged class. What the merge
  records keeps apart the methods that return something and those that do not
  (`Plan.Valid.keepsVoid`).
-/
import DexShrinker.Proofs.Body.Assembly
import DexShrinker.Proofs.Merging.Destinations
import DexShrinker.Proofs.Merging.Padding
import DexShrinker.Proofs.Merging.Resolution
import DexShrinker.Proofs.Updating.Program

namespace DexShrinker

open Recorder (Rules)

/-! ### Dispatching initializers -/

namespace InitMerge

open Assembly

/-- Every constant. -/
def Anything (_ : Constant) : Prop := True

section

variable {Q : Instr → Prop} (hcall : ∀ helper args, (invoke .direct helper args).Adds Q) (hconstant : ∀ n, (constInt n).Adds Q)
include hcall

theorem adds_callHelper (receiver : ValueId) (parameters : List ValueId) (helper : MethodRef) :
    (callHelper receiver parameters helper).Adds Q :=
  (hcall _ _).bind fun _ => adds_ret none

include hconstant

theorem adds_dispatch (receiver classId : ValueId) (parameters : List ValueId) (helpers : List (Nat × MethodRef)) :
    (dispatch receiver classId parameters helpers).Adds Q := by
  induction helpers with
  | nil => exact adds_ret none
  | cons x rest ih =>
    cases rest with
    | nil => exact adds_callHelper hcall receiver parameters x.2
    | cons y rest =>
      refine (hconstant _).bind fun constant => adds_newBlock.bind fun callBlock => adds_newBlock.bind fun next => ?_
      refine (adds_terminate _).bind fun _ => (adds_switchTo callBlock).bind fun _ => ?_
      exact (adds_callHelper hcall receiver parameters x.2).bind fun _ => (adds_switchTo next).bind fun _ => ih

/-- **A dispatching initializer** stores the class id, loads numbers and calls helpers. -/
theorem adds_dispatchSteps {classIdField : FieldRef} (hput : ∀ receiver value, (instancePut classIdField receiver value).Adds Q)
    (method : MethodRef) (helpers : List (Nat × MethodRef)) (passesId : Bool) :
    (dispatchSteps method classIdField helpers passesId).Adds Q := by
  have hrest (receiver : ValueId) (parameters : List ValueId) (classId : ValueId) :
      (instancePut classIdField receiver classId >>= fun _ => dispatch receiver classId parameters helpers).Adds Q :=
    (hput _ _).bind fun _ => adds_dispatch hcall hconstant receiver classId parameters helpers
  refine (adds_argument 0).bind fun receiver => ?_
  dsimp only
  refine (adds_mapM fun i _ => adds_argument _).bind fun parameters => ?_
  split
  · exact (adds_argument _).bind (hrest receiver parameters)
  · exact (hconstant _).bind (hrest receiver parameters)

end

theorem emits_dispatchSteps (method : MethodRef) (classIdField : FieldRef) (helpers : List (Nat × MethodRef)) (passesId : Bool) :
    (dispatchSteps method classIdField helpers passesId).Emits Anything :=
  adds_dispatchSteps (fun _ args => emits_invoke args trivial) emits_constInt (fun _ _ => emits_emit fun _ _ => trivial) method helpers passesId

variable {p : Program} {m : MergeMap} {g : MergeGroup}

/-- A method of the target that stands for initializers of the group: the helper of one, or a
    dispatching initializer. -/
inductive Made (p : Program) (m : MergeMap) (g : MergeGroup) (synthesized : List MethodRef) (d : MethodDef) : Prop
  | helper (x : Nat × MethodDef) (hx : x ∈ initializers p g) (n : Nat) (hname : d.ref.name = helperName n)
      (hproto : d.ref.proto = m.proto x.2.ref.proto) (hstatic : d.isStatic = false) (hcode : d.code = x.2.code) : Made p m g synthesized d
  | dispatcher (c : Body) (href : d.ref ∈ synthesized) (hstatic : d.isStatic = false) (hcode : d.code = some (.body c))
      (hshaped : c.Shaped) (hsound : c.Each Instr.IsSound) (harguments : c.arguments.length = d.argumentTypes.length) : Made p m g synthesized d

theorem Made.mono {synthesized more : List MethodRef} {d : MethodDef} (h : Made p m g synthesized d) (hmore : synthesized ⊆ more) :
    Made p m g more d := by
  cases h with
  | helper x hx n hname hproto hstatic hcode => exact .helper x hx n hname hproto hstatic hcode
  | dispatcher c href hstatic hcode hshaped hsound harguments =>
    exact .dispatcher c (hmore href) hstatic hcode hshaped hsound harguments

theorem made_of_mergeProto {target : Descriptor} {classIdField : FieldRef} {argument : Descriptor} {taken : List Signature}
    {acc acc' : InitMerge × Nat} {bucket : Prototype × List MemberInit} (hbucket : bucket ∈ buckets p m argument g)
    (h : ∀ d ∈ acc.1.placed, Made p m g acc.1.synthesized d)
    (heq : mergeProto m target classIdField argument taken acc bucket.1 bucket.2 = .ok acc') :
    (∀ d ∈ acc'.1.placed, Made p m g acc'.1.synthesized d) ∧
      ∀ ref ∈ acc'.1.synthesized, ref ∈ acc.1.synthesized ∨ ref.name = MethodRef.initName ∧ ref.holder = target := by
  rw [synthesized_mergeProto heq]
  refine ⟨fun d hd => ?_, fun ref href => ?_⟩
  · rcases placed_mergeProto heq hd with hd | ⟨n, i, hi, rfl⟩ | ⟨helpers, body, hbody, rfl⟩
    · exact (h d hd).mono (List.subset_append_left _ _)
    · exact .helper _ (of_mem_bucket hbucket hi).2.2.1 n rfl rfl (show helperAccess.isStatic = false by decide) rfl
    · have hstatic : dispatchAccess.isStatic = false := by decide
      obtain ⟨⟨hshaped, hsound, -, -⟩, harguments⟩ := build_spec (emits_dispatchSteps _ _ _ _) hbody
      refine .dispatcher body ?_ hstatic rfl hshaped (fun b hb i hi => (hsound b hb i hi).sound) ?_
      · exact List.mem_append_right _ (List.mem_singleton_self _)
      · rw [harguments, MethodDef.argumentTypes, MethodDef.isStatic, dispatcherDef, hstatic]
  · rcases List.mem_append.1 href with href | href
    · exact .inl href
    · rw [List.mem_singleton.1 href]
      exact .inr ⟨rfl, rfl⟩

/-- **What becomes of the initializers of a group.** -/
theorem made_of_ofGroup {argument : Descriptor} {r : Recorder} {merge : InitMerge} (heq : ofGroup p m argument g r = .ok merge) :
    (∀ d ∈ merge.placed, Made p m g merge.synthesized d) ∧
      ∀ ref ∈ merge.synthesized, ref.name = MethodRef.initName ∧ g.target = some ref.holder ∧ g.classIdField.isSome = true := by
  rcases ofGroup_cases heq with ⟨target, classIdField, next, htarget, hid, hfold⟩ | ⟨-, rfl⟩
  · have hmerge : (∀ d ∈ merge.placed, Made p m g merge.synthesized d) ∧
        ∀ ref ∈ merge.synthesized, ref.name = MethodRef.initName ∧ ref.holder = target := by
      refine foldlM_preserves (P := fun acc : InitMerge × Nat => (∀ d ∈ acc.1.placed, Made p m g acc.1.synthesized d) ∧
        ∀ ref ∈ acc.1.synthesized, ref.name = MethodRef.initName ∧ ref.holder = target) ?_ ⟨by simp, by simp⟩ hfold
      rintro acc bucket hbucket acc' ⟨hplaced, hsynthesized⟩ hstep
      obtain ⟨hplaced', hsynthesized'⟩ := made_of_mergeProto hbucket hplaced hstep
      refine ⟨hplaced', fun ref href => ?_⟩
      rcases hsynthesized' ref href with hold | hnew
      · exact hsynthesized ref hold
      · exact hnew
    refine ⟨hmerge.1, fun ref href => ?_⟩
    obtain ⟨hname, hholder⟩ := hmerge.2 ref href
    exact ⟨hname, by rw [htarget, hholder], by rw [hid]; rfl⟩
  · exact ⟨by simp, by simp⟩

end InitMerge

/-! ### Methods of the merged program -/

/-- No instance initializer is static. -/
def Program.InitializersOfInstances (p : Program) : Prop :=
  ∀ c ∈ p.programClasses, ∀ m ∈ c.methods, m.isInstanceInitializer = true → m.isStatic = false

namespace Merging

variable {v : View} {P : Plan}

namespace Plan.Valid

theorem isVoid_of_mem (h : P.Valid v) (hv : v.program.Regular) {g : MergeGroup} (hg : g ∈ P.groups) {t : Descriptor}
    (ht : t ∈ g.classes) : t.isVoid = false := by
  obtain ⟨c, hc, rfl⟩ := h.groups.program g hg t ht
  exact Descriptor.isVoid_of_isClass (hv.isClass c (Program.mem_classes_of_mem_programClasses hc))

theorem isVoid_target (h : P.Valid v) (hv : v.program.Regular) {g : MergeGroup} (hg : g ∈ P.groups) {t : Descriptor}
    (ht : g.target = some t) : t.isVoid = false := by
  obtain ⟨c, -, htarget, hmem, -⟩ := h.target_class hg
  rw [Option.some.inj (ht.symm.trans htarget)]
  exact h.isVoid_of_mem hv hg hmem

theorem isVoid_type (h : P.Valid v) (hv : v.program.Regular) (t : Descriptor) : (P.type t).isVoid = t.isVoid := by
  cases harray : t.isArray with
  | true => rw [Descriptor.isVoid_of_isArray harray, Descriptor.isVoid_of_isArray ((h.isArray_type hv t).trans harray)]
  | false =>
    rcases h.type_cases harray with heq | ⟨g, hg, hmem, htarget⟩
    · rw [heq]
    · rw [h.isVoid_of_mem hv hg hmem, h.isVoid_target hv hg htarget]

theorem measured (h : P.Valid v) (hv : v.program.Regular) : Placement.Measured P.classes P.last := by
  have hnone : ∀ (m : MethodRef) (changes : ProtoChanges), P.state.log.recorder.moves.definitionChanges[m]? ≠ some changes := by
    obtain ⟨report, hmerged⟩ := h.merged
    let R : Rules := ⟨fun _ _ => True, fun _ _ => True, fun _ _ => True, fun _ _ => True, fun _ _ => False, fun _ _ => True⟩
    have hobeys := foldlM_preserves (P := fun st : State => st.log.recorder.Obeys R) (fun st g _ st' hst hstep =>
      obeys_mergeGroup hst ⟨fun _ _ _ _ => trivial, fun _ _ _ _ _ _ _ => ⟨trivial, trivial, fun _ => trivial, fun _ => trivial⟩⟩ hstep)
      (Recorder.obeys_start R _) hmerged
    exact fun m changes hget => hobeys.definitions m changes hget
  refine Placement.measured_foldl_visit (h.isVoid_type hv) (fun u hu => h.find?_shell hu)
    ⟨fun s t ht => ?_, fun m changes hget => absurd hget (hnone m changes), fun m changes hget => absurd hget (hnone m changes),
      fun u _ d hd => by cases hd⟩ ?_ fun d hd => by cases hd
  · simp at ht
  · exact ((Program.perm_topDown P.placement.hash (P.placement.visited P.classes)).map ClassDef.type).nodup_iff.2 (h.nodup_visited)

theorem definitionChanges_recorder (P : Plan) : P.recorder.layer.definitionChanges = P.last.log.recorder.moves.definitionChanges := by
  refine List.foldlRecOn (motive := fun r : Recorder => r.moves.definitionChanges = P.last.log.recorder.moves.definitionChanges) _ _ rfl
    fun r hr g _ => ?_
  unfold recordTypes
  split
  · exact hr
  · exact List.foldlRecOn (motive := fun r : Recorder => r.moves.definitionChanges = P.last.log.recorder.moves.definitionChanges)
      _ _ (by simpa using hr) fun r hr t _ => by rw [Recorder.definitionChanges_moveType, hr]

/-- What a merge records moves no field to itself and keeps apart what returns something. -/
theorem obeys_recorder (h : P.Valid v) (hv : v.program.Regular) : P.recorder.Obeys
    ⟨(· ≠ ·), fun old new => new.proto.returnType.isVoid = old.proto.returnType.isVoid, fun _ _ => True, fun _ _ => True, fun _ _ => True,
      fun _ _ => True⟩ := by
  have hmeasured := h.measured hv
  refine h.obeys (fun g _ => ⟨fun _ _ _ _ => trivial, fun _ target _ bucket hbucket i hi => ⟨?_, trivial, fun _ => trivial, fun _ => trivial⟩⟩)
    fun u hu d hd htype => ⟨fun x _ hne => ⟨hne, fun _ sub _ hsub => hsub⟩, fun x _ hne => ⟨hne, fun _ sub _ hsub => hsub⟩, fun x hx => ?_⟩
  · obtain ⟨extra, hextra⟩ := InitMerge.exists_dispatcher_eq hbucket hi target
    rw [hextra]
    exact h.isVoid_type hv _
  · have hvoid := (hmeasured.sized u hu d hd htype x hx).void
    exact ⟨fun _ => hvoid, fun _ _ _ _ _ _ => hvoid, fun _ _ _ _ => trivial⟩

theorem fields_ne (h : P.Valid v) (hv : v.program.Regular) (f : FieldRef) : P.recorder.layer.fields[f]? ≠ some f :=
  fun hget => (h.obeys_recorder hv).fields f f hget rfl

theorem keepsVoid (h : P.Valid v) (hv : v.program.Regular) (hhoused : v.program.Housed) : P.recorder.layer.KeepsVoid := by
  refine ⟨fun old new hget => ?_, (h.obeys_recorder hv).methods⟩
  replace hget : (P.groups.foldl recordTypes P.last.log.recorder).moves.types[old]? = some new := hget
  rw [types_foldl_recordTypes h.groups (h.tracks hv hhoused).types] at hget
  by_cases hgroup : ∃ g ∈ P.groups, old ∈ g.classes
  · obtain ⟨g, hg, hmem⟩ := hgroup
    obtain ⟨s, -, -, hs⟩ := h.groups.target g hg
    rw [MergeMap.getElem?_ofGroups h.groups hg hs hmem] at hget
    split at hget
    · cases hget
    · cases hget
      rw [h.isVoid_of_mem hv hg hmem, h.isVoid_target hv hg hs]
  · rw [MergeMap.getElem?_ofGroups_of_not_mem h.groups fun g hg hmem => hgroup ⟨g, hg, hmem⟩] at hget
    cases hget

/-- The methods that were put together are initializers of targets of groups with a class id. -/
theorem synthesized_cases (h : P.Valid v) {m : MethodRef} (hm : m ∈ P.state.synthesized) :
    m.name = MethodRef.initName ∧ ∃ g ∈ P.groups, g.target = some m.holder ∧ g.classIdField.isSome = true := by
  obtain ⟨report, hmerged⟩ := h.merged
  refine foldlM_preserves (P := fun st : State => ∀ m ∈ st.synthesized, m.name = MethodRef.initName ∧
    ∃ g ∈ P.groups, g.target = some m.holder ∧ g.classIdField.isSome = true) ?_ (by simp) hmerged m hm
  intro st g hg st' hst hstep
  rcases mergeGroup_cases hstep with ⟨-, rfl⟩ | ⟨target, inits, hmerges⟩
  · exact hst
  · intro m hm
    rw [hmerges.synthesized] at hm
    rcases List.mem_append.1 hm with hm | hm
    · exact hst m hm
    · obtain ⟨hname, htarget, hid⟩ := (InitMerge.made_of_ofGroup hmerges.initialized).2 m hm
      exact ⟨hname, g, hg, htarget, hid⟩

end Plan.Valid

theorem made_of_unplaced {p : Placement} {groups : List MergeGroup} {st st' : State} (h : groups.foldlM (mergeGroup p) st = .ok st')
    (hst : ∀ t : Descriptor, st.unplaced[t]? = none) {t : Descriptor} {u : UnplacedClass} (hu : st'.unplaced[t]? = some u) :
    ∀ d ∈ u.shell.methods, ∃ g ∈ groups, InitMerge.Made p.program p.merges g st'.synthesized d := by
  refine of_unplaced (Q := fun st u => ∀ d ∈ u.shell.methods, ∃ g ∈ groups, InitMerge.Made p.program p.merges g st.synthesized d)
    (fun st st' target inits g hg hmerges => ?_) h hst hu
  rw [hmerges.synthesized]
  refine ⟨fun d hd => ?_, fun u hu d hd => ?_⟩
  · exact ⟨g, hg, ((InitMerge.made_of_ofGroup hmerges.initialized).1 d hd).mono (List.subset_append_right _ _)⟩
  · obtain ⟨g', hg', hmade⟩ := hu d hd
    exact ⟨g', hg', hmade.mono (List.subset_append_left _ _)⟩

/-- A method of the merged program: one with the body of an earlier method and the parameters that the
    lens adds to it, or a dispatching initializer. -/
inductive Plan.Carries (P : Plan) (p : Program) (m' : MethodDef) : Prop
  | kept (c : ClassDef) (hc : c ∈ p.programClasses) (m : MethodDef) (hm : m ∈ c.methods) (hcode : m'.code = m.code)
      (hsizes : P.recorder.layer.Sizes m m') (hno : m'.ref ∉ P.state.synthesized)
      (hclinit : m'.isClassInitializer = true → m.isClassInitializer = true ∧ (m.ref.proto = .void → m'.ref.proto = .void)) : P.Carries p m'
  | dispatcher (b : Body) (hcode : m'.code = some (.body b)) (hshaped : b.Shaped) (hsound : b.Each Instr.IsSound)
      (harguments : b.arguments.length = m'.argumentTypes.length) (href : m'.ref ∈ P.state.synthesized) : P.Carries p m'

namespace Plan.Valid

/-- Only merged classes have methods before members are placed. -/
theorem exists_unplaced_of_shell {u : UnplacedClass} (hu : u ∈ P.classes) {d : MethodDef} (hd : d ∈ u.shell.methods) :
    ∃ t : Descriptor, P.state.unplaced[t]? = some u := by
  obtain ⟨c, -, hu⟩ := List.mem_filterMap.1 hu
  unfold unplaced? at hu
  split at hu
  · next u' hget =>
    cases hu
    exact ⟨c.type, hget⟩
  · split at hu
    · cases hu
    · cases hu
      cases hd

theorem shell_made (h : P.Valid v) {u : UnplacedClass} (hu : u ∈ P.classes) {d : MethodDef} (hd : d ∈ u.shell.methods) :
    ∃ g ∈ P.groups, InitMerge.Made P.placement.program P.placement.merges g P.state.synthesized d := by
  obtain ⟨t, hget⟩ := exists_unplaced_of_shell hu hd
  obtain ⟨report, hmerged⟩ := h.merged
  exact made_of_unplaced hmerged (fun t => by simp) hget d hd

/-- **Which bodies a merged program has.** -/
theorem carries (h : P.Valid v) (hv : v.program.Regular) (hinit : v.program.InitializersOfInstances) {d : ClassDef}
    (hd : d ∈ P.last.placed) {m' : MethodDef} (hm' : m' ∈ d.methods) :
    P.Carries v.program m' ∧ m'.ref.holder = d.type ∧ (m'.isInstanceInitializer = true → m'.isStatic = false) := by
  obtain ⟨u, hu, fs, ms, hd', hlength, -⟩ := h.exists_unplaced hd
  have htype : d.type = u.shell.type := by rw [hd']
  have hmeasured := h.measured hv
  have hsized := hmeasured.sized u hu d hd htype
  rw [hd', List.drop_left] at hsized
  rw [hd'] at hm'
  rcases List.mem_append.1 hm' with hm' | hm'
  · have hholder : m'.ref.holder = d.type := by
      obtain ⟨types, c, -, hgathers, -, -⟩ := h.origin hu
      rw [hgathers.housed m' hm', htype]
    obtain ⟨g, hg, hmade⟩ := h.shell_made hu hm'
    cases hmade with
    | helper x hx n hname hproto hstatic hcode =>
      obtain ⟨t, ht, c, hc, hx'⟩ := exists_class_of_initializers hx
      have hc' := h.mem_programClasses_of_group hg ht hc
      have hname' : m'.ref.name ≠ MethodRef.initName := by
        rw [hname]
        exact numbered_ne_initName _ _
      have hclinit : m'.isClassInitializer = false := by
        rw [MethodDef.isClassInitializer, MethodRef.isClassInitializer, hname]
        exact beq_eq_false_iff_ne.2 (numbered_ne_clinitName _ _)
      refine ⟨.kept c hc' x.2 hx' hcode ⟨0, Renaming.pads_of_getElem? ?_, ?_⟩ (fun hmem => ?_)
        (fun hyes => by cases hclinit.symm.trans hyes), hholder, fun _ => hstatic⟩
      · rw [definitionChanges_recorder]
        exact Option.eq_none_iff_forall_not_mem.2 fun changes hget => hname' (eq_of_beq (hmeasured.initializers _ changes hget))
      · have hold := hinit c hc' x.2 hx' (InitMerge.isInstanceInitializer_of_mem hx)
        refine MethodDef.length_argumentTypes (hstatic.trans hold.symm) ?_
        rw [hproto]
        exact List.length_map _
      · exact hname' (h.synthesized_cases hmem).1
    | dispatcher c href hstatic hcode hshaped hsound harguments =>
      exact ⟨.dispatcher c hcode hshaped hsound harguments href, hholder, fun _ => hstatic⟩
  · rw [← List.map_snd_zip (Nat.le_of_eq hlength)] at hm'
    obtain ⟨⟨m, _⟩, hzip, rfl⟩ := List.mem_map.1 hm'
    have hm := (List.of_mem_zip hzip).1
    obtain ⟨c, hc, -, hmc⟩ := h.exists_class_of_mem hu hm
    have hsize := hsized _ hzip
    refine ⟨.kept c hc m hmc hsize.code (hsize.sizes.congr ?_) (fun hmem => ?_) hsize.isClassInitializer, ?_, fun hyes => ?_⟩
    · rw [definitionChanges_recorder]
    · obtain ⟨hname, g, hg, htarget, hid⟩ := h.synthesized_cases hmem
      have hno := h.isInstanceInitializer_of_classId hu hg (by rw [htarget, hsize.holder]) hid hm
      have hyes := hsize.isInitializer
      rw [hno, MethodDef.isInstanceInitializer, MethodRef.isInstanceInitializer, hname] at hyes
      exact absurd hyes (by simp)
    · rw [hsize.holder, hd']
    · rw [hsize.static]
      exact hinit c hc m hmc (hsize.isInitializer ▸ hyes)

theorem programClasses_cases (h : P.Valid v) {d : ClassDef} (hd : d ∈ P.program.programClasses) :
    d ∈ P.last.placed ∨ d = argumentClass P.placement.argument := by
  obtain ⟨hd, hprogram⟩ := List.mem_filter.1 hd
  rcases h.program_cases hd with ⟨-, hlib⟩ | hd | ⟨hd, -⟩
  · rw [Program.isLibrary_eq, hprogram] at hlib
    cases hlib
  · exact .inl hd
  · exact .inr hd

/-- **Every body waits for its update**: it fits once that has been made. -/
theorem each_awaits (h : P.Valid v) (hv : v.program.Regular) (hinit : v.program.InitializersOfInstances)
    (hready : v.program.Each MethodDef.Ready) : P.program.Each (MethodDef.Awaits P.recorder.layer P.state.synthesized) := by
  intro d hd m' hm'
  rcases h.programClasses_cases hd with hd | rfl
  · obtain ⟨hcarries, -, -⟩ := h.carries hv hinit hd hm'
    cases hcarries with
    | kept c hc m hm hcode hsizes hno => exact (hready c hc m hm).awaits hcode hsizes hno
    | dispatcher b hcode hshaped hsound harguments href =>
      intro code hsome
      cases hcode.symm.trans hsome
      exact .inl ⟨href, hshaped, hsound, harguments⟩
  · cases hm'

theorem orderly (h : P.Valid v) (hv : v.program.Regular) (hinit : v.program.InitializersOfInstances) (hp : v.program.Orderly) :
    P.program.Orderly where
  isClass d hd := by
    rcases h.programClasses_cases hd with hd | rfl
    · obtain ⟨ds, hplaced, -, hshells⟩ := Placement.types_foldl_visit P.placement P.classes (P.placement.order P.classes) { log := P.state.log }
      obtain ⟨u, hu, htype⟩ := hshells d (by rw [← List.nil_append ds, ← hplaced]; exact hd)
      obtain ⟨types, c, hc, hgathers, -, -⟩ := h.origin hu
      rw [htype, hgathers.type]
      exact hp.isClass c hc
    · exact h.isClass_argument
  housed d hd m hm := by
    rcases h.program_cases hd with ⟨hd, -⟩ | hd | ⟨rfl, -⟩
    · exact hp.housed d hd m hm
    · exact (h.carries hv hinit hd hm).2.1
    · cases hm
  classInitializers d hd m' hm' hclinit := by
    rcases h.programClasses_cases hd with hd | rfl
    · obtain ⟨hcarries, -, -⟩ := h.carries hv hinit hd hm'
      cases hcarries with
      | kept c hc m hm hcode hsizes hno hkept =>
        obtain ⟨hold, hvoid⟩ := hkept hclinit
        exact hvoid (hp.classInitializers c hc m hm hold)
      | dispatcher b hcode hshaped hsound harguments href =>
        rw [MethodDef.isClassInitializer, MethodRef.isClassInitializer, (h.synthesized_cases href).1] at hclinit
        exact absurd hclinit (by decide)
    · cases hm'

end Plan.Valid

/-- What a merge gives beside the program and the lens. -/
theorem state_of_run {hash : HashOrder} {maxGroupSize : Nat} {r : MergeResult} (h : Merging.run hash v maxGroupSize = .ok r)
    (hplan : planned hash v maxGroupSize = .ok (some P)) : r.synthesized = P.state.synthesized ∧ r.fieldAccess = P.state.fieldAccess := by
  obtain ⟨⟨groups, report⟩, hgroups, h⟩ := bind_eq_ok.1 h
  unfold planned at hplan
  rw [hgroups, ok_bind] at hplan
  simp only at h hplan
  split at h
  · next hempty =>
    rw [if_pos hempty] at hplan
    cases hplan
  · next hempty =>
    rw [if_neg hempty] at hplan
    obtain ⟨⟨p, st⟩, hprepare, h⟩ := bind_eq_ok.1 h
    obtain ⟨lens, -, h⟩ := bind_eq_ok.1 h
    rw [hprepare] at hplan
    cases hplan
    cases h
    exact ⟨rfl, rfl⟩

/-- **What a merge leaves to be brought up to date.** -/
theorem awaits_of_run (hv : v.program.Regular) (hp : v.program.Orderly) (hinit : v.program.InitializersOfInstances)
    (hready : v.program.Each MethodDef.Ready) {hash : HashOrder} {maxGroupSize : Nat} {r : MergeResult} (h : Merging.run hash v maxGroupSize = .ok r)
    (hne : r.lens.same v.lens = false) :
    ∃ n, (⟨r.lens, v.lens⟩ : Update).Crosses n ∧ r.program.Orderly ∧ r.program.Each (MethodDef.Awaits n r.synthesized) := by
  rcases run_eq_ok h with ⟨-, -, hlens⟩ | ⟨P, hplan, -, hprogram, hlens⟩
  · rw [hlens] at hne
    simp [Lens.same] at hne
  · have hvalid := valid_of_planned hplan
    rw [hprogram, (state_of_run h hplan).1]
    exact ⟨P.recorder.layer, ⟨Recorder.eq_push_of_build hlens hne, hvalid.fields_ne hv, hvalid.keepsVoid hv hp.housed⟩,
      hvalid.orderly hv hinit hp, hvalid.each_awaits hv hinit hready⟩

end Merging

end DexShrinker
