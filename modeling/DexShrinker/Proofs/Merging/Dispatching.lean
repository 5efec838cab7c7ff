/-
  DexShrinker/Proofs/Merging/Dispatching.lean
  ===========================================
  **The initializers of a group that has a class id.**

  The initializers of the group are dealt out to buckets by their new prototypes. Each bucket
  gets one dispatching initializer, and each of its initializers gets a helper and moves to the
  dispatching initializer (`InitMerge.Dispatched`). What one bucket has brought about, the
  buckets after it leave alone.
-/
import DexShrinker.Merging.Initializers
import DexShrinker.Proofs.Lens.Rules
import DexShrinker.Proofs.Outcome

namespace DexShrinker.InitMerge

open Std

variable {p : Program} {m : MergeMap} {g : MergeGroup} {target argument : Descriptor} {classIdField : FieldRef}

/-! ### Buckets -/

/-- An initializer has its mapped prototype, with some padding. -/
theorem of_mem_assignProtos {inits : List (Nat × MethodDef)} :
    ∀ i ∈ assignProtos m argument inits, ∃ x ∈ inits, i.method = x.2 ∧ i.proto = pad (m.proto x.2.ref.proto) argument i.padding := by
  unfold assignProtos
  refine List.foldlRecOn (motive := fun assigned : List MemberInit => ∀ i ∈ assigned, ∃ x ∈ inits, i.method = x.2 ∧
    i.proto = pad (m.proto x.2.ref.proto) argument i.padding) _ _ (by simp) ?_
  intro assigned h x hx i hi
  rcases List.mem_append.1 hi with hi | hi
  · exact h i hi
  · rw [List.mem_singleton.1 hi]
    exact ⟨x, hx, rfl, rfl⟩

/-- Initializers keep their order and the ids of their classes. -/
theorem map_assignProtos (m : MergeMap) (argument : Descriptor) (inits : List (Nat × MethodDef)) :
    (assignProtos m argument inits).map (fun i => (i.classId, i.method)) = inits := by
  let step (assigned : List MemberInit) (x : Nat × MethodDef) : List MemberInit :=
    let proto := m.proto x.2.ref.proto
    let taken := (assigned.filter (·.classId == x.1)).map MemberInit.proto
    let n := firstFree (pad proto argument) taken
    assigned ++ [⟨x.1, x.2, pad proto argument n, n⟩]
  have hloop (inits : List (Nat × MethodDef)) (assigned : List MemberInit) :
      (inits.foldl step assigned).map (fun i => (i.classId, i.method)) = assigned.map (fun i => (i.classId, i.method)) ++ inits := by
    induction inits generalizing assigned with
    | nil => simp
    | cons x inits ih =>
      rw [List.foldl_cons, ih]
      simp [step]
  exact hloop inits []

/-- The initializers of a group by prototype. -/
def buckets (p : Program) (m : MergeMap) (argument : Descriptor) (g : MergeGroup) : List (Prototype × List MemberInit) :=
  byProto (assignProtos m argument (initializers p g))

theorem mem_byProto {inits : List MemberInit} {bucket : Prototype × List MemberInit} :
    bucket ∈ byProto inits ↔ ∃ i ∈ inits, bucket = (i.proto, inits.filter (·.proto == i.proto)) := by
  simp only [byProto, List.mem_map, TreeSet.mem_toList, TreeSet.mem_ofList, List.contains_iff_mem]
  constructor
  · rintro ⟨_, ⟨i, hi, rfl⟩, rfl⟩
    exact ⟨i, hi, rfl⟩
  · rintro ⟨i, hi, rfl⟩
    exact ⟨i.proto, ⟨i, hi, rfl⟩, rfl⟩

/-- Every initializer is in a bucket. -/
theorem exists_bucket {x : Nat × MethodDef} (hx : x ∈ initializers p g) :
    ∃ bucket ∈ buckets p m argument g, ∃ i ∈ bucket.2, i.classId = x.1 ∧ i.method = x.2 := by
  rw [← map_assignProtos m argument (initializers p g)] at hx
  obtain ⟨i, hi, rfl⟩ := List.mem_map.1 hx
  exact ⟨_, mem_byProto.2 ⟨i, hi, rfl⟩, i, List.mem_filter.2 ⟨hi, by simp⟩, rfl, rfl⟩

/-- What is in a bucket is an initializer of the group with the bucket's prototype. -/
theorem of_mem_bucket {bucket : Prototype × List MemberInit} (hbucket : bucket ∈ buckets p m argument g) {i : MemberInit}
    (hi : i ∈ bucket.2) :
    i ∈ assignProtos m argument (initializers p g) ∧ i.proto = bucket.1 ∧ (i.classId, i.method) ∈ initializers p g ∧
      i.proto = pad (m.proto i.method.ref.proto) argument i.padding := by
  obtain ⟨j, -, rfl⟩ := mem_byProto.1 hbucket
  obtain ⟨hi, hproto⟩ := List.mem_filter.1 hi
  obtain ⟨x, -, hmethod, hpad⟩ := of_mem_assignProtos i hi
  refine ⟨hi, beq_iff_eq.1 hproto, ?_, hmethod ▸ hpad⟩
  rw [← map_assignProtos m argument (initializers p g)]
  exact List.mem_map_of_mem hi

/-- The dispatching initializer of a bucket. -/
def dispatcher (target argument : Descriptor) (bucket : Prototype × List MemberInit) : MethodRef :=
  ⟨target, MethodRef.initName, if bucket.2.length > 1 then bucket.1.append [argument, .int] else bucket.1⟩

/-- It has the mapped parameters of each initializer, and maybe more. -/
theorem exists_dispatcher_eq {bucket : Prototype × List MemberInit} (hbucket : bucket ∈ buckets p m argument g) {i : MemberInit}
    (hi : i ∈ bucket.2) (target : Descriptor) :
    ∃ extra, dispatcher target argument bucket = ⟨target, MethodRef.initName, (m.proto i.method.ref.proto).append extra⟩ := by
  obtain ⟨-, hproto, -, hpad⟩ := of_mem_bucket hbucket hi
  rw [dispatcher, ← hproto, hpad]
  split
  · exact ⟨List.replicate i.padding argument ++ [argument, .int], by simp [pad, Prototype.append]⟩
  · exact ⟨_, rfl⟩

/-! ### One bucket -/

/-- Helpers have the prototypes they were named for. -/
theorem forall₂_nameHelpers (target : Descriptor) (taken : List Signature) (protos : List Prototype) (next : Nat) :
    List.Forall₂ (fun (h : MethodRef) proto => ∃ n, h = ⟨target, helperName n, proto⟩) (nameHelpers target taken next protos).1 protos := by
  induction protos generalizing next with
  | nil => exact .nil
  | cons proto protos ih =>
    rw [nameHelpers]
    exact .cons ⟨_, rfl⟩ (ih _)

/-- The definition of a dispatching initializer. -/
def dispatcherDef (ref : MethodRef) (body : Body) : MethodDef where
  ref := ref
  access := dispatchAccess
  code := some (.body body)

/-- Record where the initializers of a bucket go. -/
def recordMoves (argument : Descriptor) (dispatcher : MethodRef) (isShared : Bool) (r : Recorder) (inits : List MemberInit) : Recorder :=
  inits.foldl (fun r i => (r.moveMethod i.method.ref dispatcher).recordCall i.method.ref (callChanges argument i isShared)) r

/-- Record a bucket: what its helpers stand for, where its initializers go, and what the
    dispatching initializer stands for. -/
def recordBucket (argument : Descriptor) (dispatcher : MethodRef) (helpers : List MethodRef) (r : Recorder) (inits : List MemberInit) :
    Recorder :=
  let represented := (helpers.zip inits).foldl (fun r x => r.representMethod x.1 x.2.method.ref) r
  let moved := recordMoves argument dispatcher (inits.length > 1) represented inits
  (inits.head?.map fun i => moved.representMethod dispatcher i.method.ref).getD moved

/-- **What merging a bucket does.** -/
theorem mergeProto_eq_ok {taken : List Signature} {acc acc' : InitMerge × Nat} {bucket : Prototype × List MemberInit}
    (heq : mergeProto m target classIdField argument taken acc bucket.1 bucket.2 = .ok acc') :
    let d := dispatcher target argument bucket
    let named := nameHelpers target taken acc.2 (bucket.2.map fun i => m.proto i.method.ref.proto)
    ∃ body, Assembly.build d false (dispatchSteps d classIdField ((bucket.2.map MemberInit.classId).zip named.1) (bucket.2.length > 1)) =
        .ok body ∧
      acc' = ({ acc.1 with
        placed := acc.1.placed ++ (named.1.zip bucket.2).map (fun x => helperDef x.1 x.2) ++ [dispatcherDef d body]
        synthesized := acc.1.synthesized ++ [d]
        usesArgument := acc.1.usesArgument || decide (bucket.2.length > 1) || bucket.2.any (·.padding > 0)
        recorder := recordBucket argument d named.1 acc.1.recorder bucket.2 }, named.2) := by
  obtain ⟨body, hbody, heq⟩ := bind_eq_ok.1 heq
  refine ⟨body, Outcome.mapError_eq_ok.1 hbody, ?_⟩
  cases heq
  rfl

/-- What is placed is from an earlier bucket, a helper of this one or its dispatching initializer. -/
theorem placed_mergeProto {taken : List Signature} {acc acc' : InitMerge × Nat} {bucket : Prototype × List MemberInit}
    (heq : mergeProto m target classIdField argument taken acc bucket.1 bucket.2 = .ok acc') {d : MethodDef} (hd : d ∈ acc'.1.placed) :
    d ∈ acc.1.placed ∨ (∃ n, ∃ i ∈ bucket.2, d = helperDef ⟨target, helperName n, m.proto i.method.ref.proto⟩ i) ∨
      ∃ helpers body, Assembly.build (dispatcher target argument bucket) false (dispatchSteps (dispatcher target argument bucket) classIdField
        helpers (bucket.2.length > 1)) = .ok body ∧ d = dispatcherDef (dispatcher target argument bucket) body := by
  obtain ⟨body, hbody, rfl⟩ := mergeProto_eq_ok heq
  have hnamed := forall₂_nameHelpers target taken (bucket.2.map fun i => m.proto i.method.ref.proto) acc.2
  rw [List.forall₂_map_right_iff] at hnamed
  rcases List.mem_append.1 hd with hd | hd
  · rcases List.mem_append.1 hd with hd | hd
    · exact .inl hd
    · obtain ⟨⟨helper, i⟩, hmem, rfl⟩ := List.mem_map.1 hd
      obtain ⟨n, rfl⟩ := (List.forall₂_iff_zip.1 hnamed).2 hmem
      exact .inr (.inl ⟨n, i, (List.of_mem_zip hmem).2, rfl⟩)
  · exact .inr (.inr ⟨_, body, hbody, List.mem_singleton.1 hd⟩)

theorem synthesized_mergeProto {taken : List Signature} {acc acc' : InitMerge × Nat} {bucket : Prototype × List MemberInit}
    (heq : mergeProto m target classIdField argument taken acc bucket.1 bucket.2 = .ok acc') :
    acc'.1.synthesized = acc.1.synthesized ++ [dispatcher target argument bucket] := by
  obtain ⟨body, -, rfl⟩ := mergeProto_eq_ok heq
  rfl

theorem recordMoves_spec (argument : Descriptor) (dispatcher : MethodRef) (isShared : Bool) (inits : List MemberInit) (r : Recorder) :
    let r' := recordMoves argument dispatcher isShared r inits
    r.Grows r' ∧ (r'.conflict = none → ∀ i ∈ inits, i.method.ref ≠ dispatcher → r'.moves.methods[i.method.ref]? = some dispatcher) ∧
      ∀ i ∈ inits, (callChanges argument i isShared).isEmpty = false → (r'.moves.callChanges[i.method.ref]?).isSome = true := by
  induction inits generalizing r with
  | nil => exact ⟨.refl r, by simp, by simp⟩
  | cons i inits ih =>
    have hcall := (r.moveMethod i.method.ref dispatcher).grows_recordCall i.method.ref (callChanges argument i isShared)
    obtain ⟨hgrows, hmoved, hcalled⟩ := ih ((r.moveMethod i.method.ref dispatcher).recordCall i.method.ref (callChanges argument i isShared))
    refine ⟨((r.grows_moveMethod _ _).trans hcall).trans hgrows, fun hconflict => List.forall_mem_cons.2 ⟨fun hne => ?_, hmoved hconflict⟩,
      List.forall_mem_cons.2 ⟨fun hne => ?_, hcalled⟩⟩
    · have hafter := hcall.trans hgrows
      exact hafter.methods _ _ (Recorder.getElem?_moveMethod hne (hafter.conflict hconflict))
    · exact hgrows.calls _ (Recorder.isSome_recordCall _ hne)

theorem recordBucket_spec (argument : Descriptor) (dispatcher : MethodRef) (helpers : List MethodRef) (r : Recorder)
    (inits : List MemberInit) :
    let r' := recordBucket argument dispatcher helpers r inits
    r.Grows r' ∧ (r'.conflict = none → ∀ i ∈ inits, i.method.ref ≠ dispatcher → r'.moves.methods[i.method.ref]? = some dispatcher) ∧
      ∀ i ∈ inits, (callChanges argument i (inits.length > 1)).isEmpty = false → (r'.moves.callChanges[i.method.ref]?).isSome = true := by
  simp only [recordBucket]
  have hrepresented : r.Grows ((helpers.zip inits).foldl (fun r x => r.representMethod x.1 x.2.method.ref) r) :=
    List.foldlRecOn _ _ (.refl r) fun r' hr x _ => hr.trans (r'.grows_representMethod _ _)
  obtain ⟨hgrows, hrecorded⟩ := recordMoves_spec argument dispatcher (inits.length > 1) inits
    ((helpers.zip inits).foldl (fun r x => r.representMethod x.1 x.2.method.ref) r)
  cases inits.head? with
  | none => exact ⟨hrepresented.trans hgrows, hrecorded⟩
  | some i => exact ⟨(hrepresented.trans hgrows).trans (Recorder.grows_representMethod _ _ _), hrecorded⟩

/-- What has become of a bucket: its dispatching initializer has the given body, its
    initializers have the given helpers, they have been moved, and calls of them have changes
    unless nothing has to be passed on. -/
structure Dispatched (m : MergeMap) (target argument : Descriptor) (classIdField : FieldRef) (merge : InitMerge)
    (bucket : Prototype × List MemberInit) (helpers : List MethodRef) (body : Body) : Prop where
  named : List.Forall₂ (fun (h : MethodRef) (i : MemberInit) => ∃ n, h = ⟨target, helperName n, m.proto i.method.ref.proto⟩) helpers bucket.2
  built : Assembly.build (dispatcher target argument bucket) false (dispatchSteps (dispatcher target argument bucket) classIdField
    ((bucket.2.map MemberInit.classId).zip helpers) (bucket.2.length > 1)) = .ok body
  helped : ∀ x ∈ helpers.zip bucket.2, helperDef x.1 x.2 ∈ merge.placed
  placed : dispatcherDef (dispatcher target argument bucket) body ∈ merge.placed
  moved : merge.recorder.conflict = none → ∀ i ∈ bucket.2, i.method.ref ≠ dispatcher target argument bucket →
    merge.recorder.moves.methods[i.method.ref]? = some (dispatcher target argument bucket)
  called : ∀ i ∈ bucket.2, (callChanges argument i (bucket.2.length > 1)).isEmpty = false →
    (merge.recorder.moves.callChanges[i.method.ref]?).isSome = true

theorem dispatched_of_mergeProto {taken : List Signature} {acc acc' : InitMerge × Nat} {bucket : Prototype × List MemberInit}
    (heq : mergeProto m target classIdField argument taken acc bucket.1 bucket.2 = .ok acc') :
    ∃ helpers body, Dispatched m target argument classIdField acc'.1 bucket helpers body := by
  obtain ⟨body, hbody, rfl⟩ := mergeProto_eq_ok heq
  have hnamed := forall₂_nameHelpers target taken (bucket.2.map fun i => m.proto i.method.ref.proto) acc.2
  rw [List.forall₂_map_right_iff] at hnamed
  obtain ⟨-, hmoved, hcalled⟩ := recordBucket_spec argument (dispatcher target argument bucket)
    (nameHelpers target taken acc.2 (bucket.2.map fun i => m.proto i.method.ref.proto)).1 acc.1.recorder bucket.2
  refine ⟨_, body, hnamed, hbody, fun x hx => ?_, ?_, hmoved, hcalled⟩
  · exact List.mem_append_left _ (List.mem_append_right _ (List.mem_map_of_mem hx))
  · exact List.mem_append_right _ (List.mem_singleton_self _)

theorem Dispatched.mono {merge merge' : InitMerge} {bucket : Prototype × List MemberInit} {helpers : List MethodRef} {body : Body}
    (h : Dispatched m target argument classIdField merge bucket helpers body) (hplaced : merge.placed ⊆ merge'.placed)
    (hgrows : merge.recorder.Grows merge'.recorder) : Dispatched m target argument classIdField merge' bucket helpers body :=
  ⟨h.named, h.built, fun x hx => hplaced (h.helped x hx), hplaced h.placed, fun hconflict i hi hne =>
    hgrows.methods _ _ (h.moved (hgrows.conflict hconflict) i hi hne), fun i hi hne => hgrows.calls _ (h.called i hi hne)⟩

/-! ### All buckets -/

/-- With a class id the buckets are merged one after the other, without one all initializers are
    left for later. -/
theorem ofGroup_cases {r : Recorder} {merge : InitMerge} (h : ofGroup p m argument g r = .ok merge) :
    (∃ target classIdField next, g.target = some target ∧ g.classIdField = some classIdField ∧
      (buckets p m argument g).foldlM (fun acc bucket => mergeProto m target classIdField argument (takenSignatures p m g) acc
        bucket.1 bucket.2) (({ recorder := r } : InitMerge), 0) = .ok (merge, next)) ∨
    (¬ (g.target.isSome = true ∧ g.classIdField.isSome = true)) ∧
      merge = { pending := (initializers p g).map Prod.snd, recorder := r } := by
  unfold ofGroup at h
  split at h
  · next target classIdField htarget hid =>
    obtain ⟨⟨merge', next⟩, hfold, h⟩ := bind_eq_ok.1 h
    cases h
    exact .inl ⟨target, classIdField, next, htarget, hid, hfold⟩
  · next hnone =>
    cases h
    refine .inr ⟨fun hboth => ?_, rfl⟩
    obtain ⟨target, htarget⟩ := Option.isSome_iff_exists.1 hboth.1
    obtain ⟨classIdField, hid⟩ := Option.isSome_iff_exists.1 hboth.2
    exact hnone target classIdField htarget hid

theorem pending_of_classId {r : Recorder} {merge : InitMerge} (h : ofGroup p m argument g r = .ok merge)
    (htarget : g.target.isSome = true) (hid : g.classIdField.isSome = true) : merge.pending = [] := by
  rcases ofGroup_cases h with ⟨target, classIdField, next, -, -, hfold⟩ | ⟨hno, -⟩
  · refine foldlM_preserves (P := fun acc : InitMerge × Nat => acc.1.pending = []) ?_ rfl hfold
    intro acc bucket _ acc' hacc hstep
    obtain ⟨body, -, rfl⟩ := mergeProto_eq_ok hstep
    exact hacc
  · exact absurd ⟨htarget, hid⟩ hno

/-- **Every bucket is dispatched.** -/
theorem exists_dispatched {r : Recorder} {merge : InitMerge} (h : ofGroup p m argument g r = .ok merge) (htarget : g.target = some target)
    (hid : g.classIdField = some classIdField) {bucket : Prototype × List MemberInit} (hbucket : bucket ∈ buckets p m argument g) :
    ∃ helpers body, Dispatched m target argument classIdField merge bucket helpers body := by
  rcases ofGroup_cases h with ⟨target', field', next, htarget', hid', hfold⟩ | ⟨hno, -⟩
  swap
  · exact absurd ⟨by rw [htarget]; rfl, by rw [hid]; rfl⟩ hno
  cases htarget.symm.trans htarget'
  cases hid.symm.trans hid'
  refine foldlM_establishes (P := fun acc : InitMerge × Nat => ∃ helpers body, Dispatched m target argument classIdField acc.1 bucket
    helpers body) hbucket (fun _ _ hstep => dispatched_of_mergeProto hstep) ?_ hfold
  rintro acc other - acc' ⟨helpers, body, hdispatched⟩ hstep
  obtain ⟨body', -, rfl⟩ := mergeProto_eq_ok hstep
  refine ⟨helpers, body, hdispatched.mono ?_ (recordBucket_spec _ _ _ _ _).1⟩
  exact fun d hd => List.mem_append_left _ (List.mem_append_left _ hd)

end DexShrinker.InitMerge
