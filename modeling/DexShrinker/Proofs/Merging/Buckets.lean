/-
  DexShrinker/Proofs/Merging/Buckets.lean
  =======================================
  **What is put together for a group has names of its own.**

  A bucket has one initializer of a class at most, because the second one would have been
  padded, so class ids tell the initializers of a bucket apart. Helpers are numbered through.
  Two buckets have different prototypes, but a bucket of several classes gets two parameters
  more, and then another bucket may have had just that prototype from the start. That is the
  only way in which two things that are placed for the group get one name (`nodup_placed_iff`),
  and it takes a prototype that ends like that (`nodup_dispatchers`).
-/
import DexShrinker.Proofs.Merging.Padding

namespace DexShrinker.InitMerge

open Std

variable {p : Program} {m : MergeMap} {g : MergeGroup} {target argument : Descriptor} {classIdField : FieldRef}

/-! ### The initializers of a bucket -/

/-- No two initializers of a class have one prototype. -/
theorem pairwise_assignProtos (m : MergeMap) (argument : Descriptor) (inits : List (Nat × MethodDef)) :
    (assignProtos m argument inits).Pairwise fun i j => i.classId = j.classId → i.proto ≠ j.proto := by
  unfold assignProtos
  refine List.foldlRecOn (motive := List.Pairwise fun i j : MemberInit => i.classId = j.classId → i.proto ≠ j.proto) _ _ .nil ?_
  intro assigned h x _
  apply List.pairwise_append.2
  refine ⟨h, List.pairwise_singleton _ _, fun i hi j hj hid hproto => ?_⟩
  cases List.mem_singleton.1 hj
  let taken := (assigned.filter (·.classId == x.1)).map MemberInit.proto
  refine firstFree_not_mem (pad_injective (m.proto x.2.ref.proto) argument) taken ?_
  exact List.mem_map.2 ⟨i, List.mem_filter.2 ⟨hi, beq_iff_eq.2 hid⟩, hproto⟩

/-- A field can hold the id. -/
theorem classId_lt {bucket : Prototype × List MemberInit} (hbucket : bucket ∈ buckets p m argument g) {i : MemberInit} (hi : i ∈ bucket.2) :
    i.classId < 2 ^ 31 := by
  obtain ⟨t, -, hmem⟩ := List.mem_flatMap.1 (of_mem_bucket hbucket hi).2.2.1
  obtain ⟨d, -, heq⟩ := List.mem_map.1 hmem
  have hself : (g.classId? t).getD 0 = i.classId := congrArg Prod.fst heq
  rw [← hself]
  cases hid : g.classId? t with
  | none => simp
  | some k =>
    rw [MergeGroup.classId?, Option.filter_eq_some_iff] at hid
    simpa using hid.2

theorem ofNat_injOn {a b : Nat} (ha : a < 2 ^ 31) (hb : b < 2 ^ 31) (h : Int32.ofNat a = Int32.ofNat b) : a = b := by
  have hint := congrArg Int32.toInt h
  rw [Int32.toInt_ofNat_of_lt ha, Int32.toInt_ofNat_of_lt hb] at hint
  exact Int.ofNat_inj.1 hint

/-- **Class ids tell the initializers of a bucket apart.** -/
theorem nodup_classIds {bucket : Prototype × List MemberInit} (hbucket : bucket ∈ buckets p m argument g) :
    (bucket.2.map fun i => Int32.ofNat i.classId).Nodup := by
  have hapart : bucket.2.Pairwise fun i j => i.classId = j.classId → i.proto ≠ j.proto := by
    obtain ⟨j, -, rfl⟩ := mem_byProto.1 hbucket
    exact (pairwise_assignProtos m argument (initializers p g)).filter _
  apply List.pairwise_map.2
  refine hapart.imp_of_mem fun {i j} hi hj hne heq => ?_
  apply hne (ofNat_injOn (classId_lt hbucket hi) (classId_lt hbucket hj) heq)
  rw [(of_mem_bucket hbucket hi).2.1, (of_mem_bucket hbucket hj).2.1]

/-! ### Names -/

/-- Helpers get numbers that go up. -/
theorem nameHelpers_spec (target : Descriptor) (taken : List Signature) (protos : List Prototype) (next : Nat) :
    let named := nameHelpers target taken next protos
    next ≤ named.2 ∧ (∀ h ∈ named.1, ∃ n, next ≤ n ∧ n < named.2 ∧ h.name = helperName n) ∧ (named.1.map MethodRef.name).Nodup := by
  induction protos generalizing next with
  | nil => exact ⟨Nat.le_refl _, by simp [nameHelpers], .nil⟩
  | cons proto protos ih =>
    let n := next + firstFree (fun i => (⟨helperName (next + i), proto⟩ : Signature)) taken
    obtain ⟨hle, hnames, hnodup⟩ := ih (n + 1)
    have hn : next ≤ n := Nat.le_add_right _ _
    have hcons : nameHelpers target taken next (proto :: protos) =
        (⟨target, helperName n, proto⟩ :: (nameHelpers target taken (n + 1) protos).1, (nameHelpers target taken (n + 1) protos).2) := rfl
    simp only [hcons]
    refine ⟨by omega, ?_, ?_⟩
    · intro h hh
      rcases List.mem_cons.1 hh with rfl | hh
      · exact ⟨n, hn, hle, rfl⟩
      obtain ⟨k, hk, hlt, hname⟩ := hnames h hh
      exact ⟨k, by omega, hlt, hname⟩
    · apply List.nodup_cons.2
      refine ⟨fun hmem => ?_, hnodup⟩
      obtain ⟨h, hh, hname⟩ := List.mem_map.1 hmem
      obtain ⟨k, hk, -, hname'⟩ := hnames h hh
      have hsame : k = n := numbered_injective "constructor" (hname'.symm.trans hname)
      omega

/-- The prototypes of buckets differ. -/
theorem nodup_protos (p : Program) (m : MergeMap) (argument : Descriptor) (g : MergeGroup) :
    ((buckets p m argument g).map Prod.fst).Nodup := by
  rw [buckets, byProto, List.map_map]
  change (List.map (fun proto => proto) _).Nodup
  rw [List.map_id']
  exact TreeSet.distinct_toList.imp fun {a b} hne heq => hne (by rw [heq, compare_self])

/-- No prototype of a bucket ends like those that tell classes apart. -/
def Unmarked (p : Program) (m : MergeMap) (argument : Descriptor) (g : MergeGroup) : Prop :=
  ∀ bucket ∈ buckets p m argument g, ¬ [argument, .int] <:+ bucket.1.parameters

/-- The dispatching initializers of buckets differ. -/
theorem nodup_dispatchers (h : Unmarked p m argument g) (target : Descriptor) :
    ((buckets p m argument g).map (dispatcher target argument)).Nodup := by
  refine (List.Nodup.of_map _ (nodup_protos p m argument g)).map_on fun bucket hbucket bucket' hbucket' heq => ?_
  refine List.inj_on_of_nodup_map (nodup_protos p m argument g) hbucket hbucket' ?_
  have hproto := congrArg MethodRef.proto heq
  simp only [dispatcher] at hproto
  split at hproto
  · split at hproto
    · apply Prototype.ext
      · exact (congrArg Prototype.returnType hproto :)
      · exact List.append_cancel_right (congrArg Prototype.parameters hproto)
    · exact absurd ⟨_, congrArg Prototype.parameters hproto⟩ (h bucket' hbucket')
  · split at hproto
    · exact absurd ⟨_, (congrArg Prototype.parameters hproto).symm⟩ (h bucket hbucket)
    · exact hproto

/-! ### All that is placed -/

/-- What has been placed so far has names of its own. -/
structure Distinct (acc : InitMerge × Nat) : Prop where
  nodup : (acc.1.placed.map MethodDef.ref).Nodup
  named : ∀ d ∈ acc.1.placed, (∃ n < acc.2, d.ref.name = helperName n) ∨ d.ref ∈ acc.1.synthesized
  initializers : ∀ r ∈ acc.1.synthesized, r.name = MethodRef.initName

theorem Distinct.mergeProto {taken : List Signature} {acc acc' : InitMerge × Nat} {bucket : Prototype × List MemberInit}
    (h : Distinct acc) (hnew : dispatcher target argument bucket ∉ acc.1.synthesized)
    (heq : mergeProto m target classIdField argument taken acc bucket.1 bucket.2 = .ok acc') :
    Distinct acc' := by
  obtain ⟨body, -, rfl⟩ := mergeProto_eq_ok heq
  obtain ⟨hle, hnames, hnodup⟩ := nameHelpers_spec target taken (bucket.2.map fun i => m.proto i.method.ref.proto) acc.2
  have hlength := (forall₂_nameHelpers target taken (bucket.2.map fun i => m.proto i.method.ref.proto) acc.2).length_eq
  rw [List.length_map] at hlength
  let named := nameHelpers target taken acc.2 (bucket.2.map fun i => m.proto i.method.ref.proto)
  have hrefs : (acc.1.placed ++ (named.1.zip bucket.2).map (fun x => helperDef x.1 x.2) ++
      [dispatcherDef (dispatcher target argument bucket) body]).map MethodDef.ref =
        acc.1.placed.map MethodDef.ref ++ named.1 ++ [dispatcher target argument bucket] := by
    rw [List.map_append, List.map_append, List.map_map]
    conv_rhs => rw [← List.map_fst_zip (Nat.le_of_eq hlength)]
    rfl
  have hhelper (r : MethodRef) (hr : r ∈ named.1) : r.name ≠ MethodRef.initName := by
    obtain ⟨n, -, -, hname⟩ := hnames r hr
    rw [hname]
    exact numbered_ne_initName _ _
  refine ⟨?_, ?_, ?_⟩
  · rw [hrefs]
    apply List.nodup_append.2
    refine ⟨List.nodup_append.2 ⟨h.nodup, .of_map _ hnodup, ?_⟩, List.nodup_singleton _, ?_⟩
    · rintro _ hold r hr rfl
      obtain ⟨d, hd, href⟩ := List.mem_map.1 hold
      obtain ⟨k, hk, -, hname⟩ := hnames _ hr
      rcases h.named d hd with ⟨n, hn, hname'⟩ | hsynthesized
      · have hsame : k = n := numbered_injective "constructor" (by rw [← helperName, ← hname, ← href, hname', helperName])
        omega
      · exact hhelper _ hr (href ▸ h.initializers _ hsynthesized)
    · rintro _ hold r hr rfl
      rw [List.mem_singleton.1 hr] at hold
      rcases List.mem_append.1 hold with hold | hold
      · obtain ⟨d, hd, href⟩ := List.mem_map.1 hold
        rcases h.named d hd with ⟨n, -, hname⟩ | hsynthesized
        · rw [href] at hname
          exact numbered_ne_initName _ n hname.symm
        · exact hnew (href ▸ hsynthesized)
      · exact hhelper _ hold rfl
  · intro d hd
    rcases List.mem_append.1 hd with hd | hd
    · rcases List.mem_append.1 hd with hd | hd
      · rcases h.named d hd with ⟨n, hn, hname⟩ | hsynthesized
        · exact .inl ⟨n, Nat.lt_of_lt_of_le hn hle, hname⟩
        · exact .inr (List.mem_append_left _ hsynthesized)
      · obtain ⟨x, hx, rfl⟩ := List.mem_map.1 hd
        obtain ⟨n, -, hlt, hname⟩ := hnames x.1 (List.of_mem_zip hx).1
        exact .inl ⟨n, hlt, hname⟩
    · rw [List.mem_singleton.1 hd]
      exact .inr (List.mem_append_right _ (List.mem_singleton_self _))
  · intro r hr
    rcases List.mem_append.1 hr with hr | hr
    · exact h.initializers r hr
    · rw [List.mem_singleton.1 hr]
      rfl

/-- What has been synthesized is among what has been placed, in the same order. -/
theorem sublist_synthesized {r : Recorder} {merge : InitMerge} (h : ofGroup p m argument g r = .ok merge) :
    merge.synthesized.Sublist (merge.placed.map MethodDef.ref) := by
  rcases ofGroup_cases h with ⟨target, classIdField, next, -, -, hfold⟩ | ⟨-, rfl⟩
  · refine foldlM_preserves (P := fun acc : InitMerge × Nat => acc.1.synthesized.Sublist (acc.1.placed.map MethodDef.ref)) ?_
      (List.Sublist.refl _) hfold
    intro acc bucket _ acc' hacc hstep
    obtain ⟨body, -, rfl⟩ := mergeProto_eq_ok hstep
    dsimp only
    rw [List.map_append, List.map_append]
    exact (hacc.trans (List.sublist_append_left _ _)).append (List.Sublist.refl _)
  · exact List.Sublist.refl _

/-- **Everything that is placed for a group has a name of its own** exactly if no two buckets have
    one dispatching initializer. -/
theorem nodup_placed_iff {r : Recorder} {merge : InitMerge} (h : ofGroup p m argument g r = .ok merge) (htarget : g.target = some target)
    (hid : g.classIdField = some classIdField) :
    (merge.placed.map MethodDef.ref).Nodup ↔ ((buckets p m argument g).map (dispatcher target argument)).Nodup := by
  rcases ofGroup_cases h with ⟨target', field', next, htarget', hid', hfold⟩ | ⟨hno, -⟩
  swap
  · exact absurd ⟨by rw [htarget]; rfl, by rw [hid]; rfl⟩ hno
  cases htarget.symm.trans htarget'
  cases hid.symm.trans hid'
  have hloop (bs : List (Prototype × List MemberInit)) (acc acc' : InitMerge × Nat)
      (hfold : bs.foldlM (fun acc bucket => mergeProto m target classIdField argument (takenSignatures p m g) acc bucket.1 bucket.2)
        acc = .ok acc') : acc'.1.synthesized = acc.1.synthesized ++ bs.map (dispatcher target argument) ∧
          (Distinct acc → acc'.1.synthesized.Nodup → Distinct acc') := by
    induction bs generalizing acc with
    | nil =>
      cases hfold
      exact ⟨(List.append_nil _).symm, fun hacc _ => hacc⟩
    | cons bucket bs ih =>
      rw [List.foldlM_cons] at hfold
      obtain ⟨acc₁, hstep, hfold⟩ := bind_eq_ok.1 hfold
      obtain ⟨hsynthesized, hdistinct⟩ := ih acc₁ hfold
      rw [synthesized_mergeProto hstep, List.append_assoc, List.singleton_append, ← List.map_cons] at hsynthesized
      refine ⟨hsynthesized, fun hacc hnodup => hdistinct (hacc.mergeProto ?_ hstep) hnodup⟩
      intro hmem
      rw [hsynthesized] at hnodup
      exact (List.nodup_append.1 hnodup).2.2 _ hmem _ List.mem_cons_self rfl
  obtain ⟨hsynthesized, hdistinct⟩ := hloop _ _ _ hfold
  rw [List.nil_append] at hsynthesized
  refine ⟨fun hnodup => ?_, fun hnodup => ?_⟩
  · rw [← hsynthesized]
    exact (sublist_synthesized h).nodup hnodup
  · have hstart : Distinct ({ recorder := r }, 0) := ⟨List.nodup_nil, by simp, by simp⟩
    exact (hdistinct hstart (hsynthesized ▸ hnodup)).nodup

end DexShrinker.InitMerge
