/-
  DexShrinker/Proofs/Merging/Construction.lean
  ============================================
  **Objects of merged classes are made by the right initializer.**

  A call of an initializer of a group that has a class id becomes a call of the dispatching
  initializer of its bucket, with one argument for every parameter. What callers add is just
  what the dispatching initializer reads: it stores the id of the class that is made, then
  calls the helper that has the body of the old initializer, with the old arguments
  (`Merging.constructs_of_run`).

  That needs what was placed for the group to have names of its own, and the old initializer
  to be the only one of its name, in its class and in the others. If an initializer already has
  the two parameters that tell classes apart, two buckets may get one dispatching initializer,
  and objects get the id of another class (`Merging.makesWrong_marked`). If one is declared
  twice, calls of it can only go to one of the two (`Merging.makesWrong_repeated`), and if two
  classes list it, calls of it can only pass the id of one of them (`Merging.makesWrong_borrowed`).
-/
import DexShrinker.Proofs.Merging.Buckets
import DexShrinker.Proofs.Merging.Members
import DexShrinker.Proofs.Merging.Selecting
import DexShrinker.Proofs.Updating.Passing

namespace DexShrinker

open Std

theorem MergeGroup.mem_of_classId? {g : MergeGroup} {t : Descriptor} {id : Nat} (h : g.classId? t = some id) : t ∈ g.classes := by
  obtain ⟨hfind, -⟩ := Option.filter_eq_some_iff.1 h
  obtain ⟨hlt, hself, -⟩ := List.findIdx?_eq_some_iff_getElem.1 hfind
  rw [← beq_iff_eq.1 hself]
  exact List.getElem_mem hlt

namespace InitMerge

variable {p : Program} {m : MergeMap} {g : MergeGroup} {target argument : Descriptor} {classIdField : FieldRef}
  {bucket : Prototype × List MemberInit} {i : MemberInit}

/-! ### What callers add -/

/-- The parameters that callers add. -/
def added (argument : Descriptor) (i : MemberInit) (isShared : Bool) : List ExtraParameter :=
  List.replicate (if isShared then i.padding + 1 else i.padding) (.unusedNull argument) ++
    if isShared then [.constantInt (.ofNat i.classId)] else []

theorem callChanges_eq (argument : Descriptor) (i : MemberInit) (isShared : Bool) :
    callChanges argument i isShared = { extra := added argument i isShared } := by
  simp only [callChanges, ProtoChanges.foldl_addParameter]
  rfl

/-- Callers fill up the parameters of the dispatching initializer. -/
theorem arity_dispatcher (hbucket : bucket ∈ buckets p m argument g) (hi : i ∈ bucket.2) :
    (dispatcher target argument bucket).proto.arity =
      i.method.ref.proto.arity + (added argument i (bucket.2.length > 1)).length := by
  obtain ⟨-, hproto, -, hpad⟩ := of_mem_bucket hbucket hi
  simp only [dispatcher, added, ← hproto, hpad]
  by_cases hshared : bucket.2.length > 1
  · simp [hshared, pad, Prototype.arity, Prototype.append, MergeMap.proto, Prototype.mapTypes]
  · simp [hshared, pad, Prototype.arity, Prototype.append, MergeMap.proto, Prototype.mapTypes]

/-- **What callers add is what the dispatching initializer reads.** -/
theorem Dispatched.runs {merge : InitMerge} {helpers : List MethodRef} {body : Body}
    (h : Dispatched m target argument classIdField merge bucket helpers body) (hbucket : bucket ∈ buckets p m argument g)
    (hi : i ∈ bucket.2) :
    ∃ helper, (helper, i) ∈ helpers.zip bucket.2 ∧ ∀ answers this args, args.length = i.method.ref.proto.arity →
      body.Runs answers (this :: args ++ (added argument i (bucket.2.length > 1)).map ExtraParameter.datum)
        [.put classIdField this (.int (.ofNat i.classId)), .call .direct helper (this :: args)] := by
  have hlength := h.named.length_eq
  obtain ⟨helper, hzip⟩ := exists_zip_of_mem hlength.symm hi
  have hswap : (helper, i) ∈ helpers.zip bucket.2 := by
    rw [← List.zip_swap]
    exact List.mem_map.2 ⟨_, hzip, rfl⟩
  refine ⟨helper, hswap, fun answers this args hargs => ?_⟩
  obtain ⟨n, rfl⟩ := (List.forall₂_iff_zip.1 h.named).2 hswap
  have hids : (((bucket.2.map MemberInit.classId).zip helpers).map fun x => Int32.ofNat x.1).Nodup := by
    have hfst : ((bucket.2.map MemberInit.classId).zip helpers).map Prod.fst = bucket.2.map MemberInit.classId :=
      List.map_fst_zip (by rw [List.length_map, hlength])
    have hnodup := nodup_classIds hbucket
    rw [← Function.comp_def Int32.ofNat, ← List.map_map, ← hfst, List.map_map] at hnodup
    exact hnodup
  have hmem : (i.classId, (⟨target, helperName n, m.proto i.method.ref.proto⟩ : MethodRef)) ∈ (bucket.2.map MemberInit.classId).zip helpers := by
    rw [List.zip_map_left]
    exact List.mem_map.2 ⟨_, hzip, rfl⟩
  refine runs_of_build h.built hids hmem ?_ ⟨?_, ?_⟩
  · rw [hargs]
    exact (List.length_map _).symm
  · rw [List.length_append, List.length_map, hargs, arity_dispatcher hbucket hi]
  · by_cases hshared : bucket.2.length > 1
    · rw [if_pos (by simpa using hshared)]
      refine ⟨List.replicate i.padding .null, ?_⟩
      simp [added, hshared, ExtraParameter.datum, List.replicate_succ']
    · rw [if_neg (by simpa using hshared)]
      -- The bucket has one initializer.
      obtain ⟨j, hj⟩ : ∃ j, bucket.2 = [j] := by
        have hpos := List.length_pos_of_mem hi
        exact List.length_eq_one_iff.1 (by omega)
      rw [hj] at hi hlength ⊢
      cases List.mem_singleton.1 hi
      obtain ⟨k, rfl⟩ := List.length_eq_one_iff.1 hlength
      rfl

/-! ### Initializers that are the only ones of their name -/

theorem flatMap_eq_of_mem {α β : Type} {xs : List α} (hnodup : xs.Nodup) {x : α} (hx : x ∈ xs) {f : α → List β}
    (h : ∀ y ∈ xs, y ≠ x → f y = []) : xs.flatMap f = f x := by
  obtain ⟨before, after, rfl⟩ := List.append_of_mem hx
  obtain ⟨-, hafter, hbefore⟩ := List.nodup_append.1 hnodup
  have hnone : before.flatMap f = [] :=
    List.flatMap_eq_nil_iff.2 fun y hy => h y (List.mem_append_left _ hy) (hbefore y hy x List.mem_cons_self)
  have hnone' : after.flatMap f = [] := by
    refine List.flatMap_eq_nil_iff.2 fun y hy => h y (List.mem_append_right _ (List.mem_cons_of_mem x hy)) ?_
    rintro rfl
    exact (List.nodup_cons.1 hafter).1 hy
  rw [List.flatMap_append, List.flatMap_cons, hnone, hnone', List.nil_append, List.append_nil]

/-- If the class of the initializer has no other method of its name, no class of the group has. -/
theorem filter_initializers (hhoused : p.Housed) (hnodup : g.classes.Nodup) {c : ClassDef} (hc : p.class? c.type = some c)
    (hmem : c.type ∈ g.classes) {d : MethodDef} (honly : c.methods.filter (·.ref == d.ref) = [d]) (hinit : d.isInstanceInitializer = true) :
    (initializers p g).filter (·.2.ref == d.ref) = [((g.classId? c.type).getD 0, d)] := by
  have hd : d ∈ c.methods := (List.mem_filter.1 (honly ▸ List.mem_singleton_self d)).1
  rw [initializers, List.filter_flatMap, flatMap_eq_of_mem hnodup hmem]
  · have hself : c.instanceInitializers.filter (·.ref == d.ref) = [d] := by
      rw [ClassDef.instanceInitializers, List.filter_filter]
      simp only [Bool.and_comm _ (MethodDef.isInstanceInitializer _)]
      rw [← List.filter_filter, honly]
      simp [hinit]
    simp [hc, List.filter_map, Function.comp_def, hself]
  · intro t ht hne
    rw [List.filter_eq_nil_iff]
    intro x hx heq
    obtain ⟨e, he, rfl⟩ := List.mem_map.1 hx
    obtain ⟨b, hb, heb⟩ := List.mem_flatMap.1 he
    rw [Option.mem_toList] at hb
    obtain rfl := Program.type_of_class? hb
    apply hne
    rw [← hhoused b (Program.mem_classes.2 hb) e (List.mem_filter.1 heb).1, beq_iff_eq.1 heq,
      hhoused c (Program.mem_classes.2 hc) d hd]

/-- Then it is in one bucket only. -/
theorem eq_of_ref {x : Nat × MethodDef} {r : MethodRef} (hone : (initializers p g).filter (·.2.ref == r) = [x])
    {bucket' : Prototype × List MemberInit} (hbucket : bucket ∈ buckets p m argument g) (hbucket' : bucket' ∈ buckets p m argument g)
    {j : MemberInit} (hi : i ∈ bucket.2) (hj : j ∈ bucket'.2) (hir : i.method.ref = r) (hjr : j.method.ref = r) :
    bucket = bucket' ∧ i = j := by
  obtain ⟨hi', hproto, -⟩ := of_mem_bucket hbucket hi
  obtain ⟨hj', hproto', -⟩ := of_mem_bucket hbucket' hj
  have hlength : ((assignProtos m argument (initializers p g)).filter (·.method.ref == r)).length = 1 := by
    rw [← map_assignProtos m argument (initializers p g), List.filter_map] at hone
    simpa [Function.comp_def] using congrArg List.length hone
  obtain ⟨k, hk⟩ := List.length_eq_one_iff.1 hlength
  have hik : i ∈ [k] := hk ▸ List.mem_filter.2 ⟨hi', beq_iff_eq.2 hir⟩
  have hjk : j ∈ [k] := hk ▸ List.mem_filter.2 ⟨hj', beq_iff_eq.2 hjr⟩
  have hsame : i = j := (List.mem_singleton.1 hik).trans (List.mem_singleton.1 hjk).symm
  refine ⟨List.inj_on_of_nodup_map (nodup_protos p m argument g) hbucket hbucket' ?_, hsame⟩
  rw [← hproto, ← hproto', hsame]

end InitMerge

namespace Merging

variable {v : View} {P : Plan}

namespace Plan.Valid

/-! ### Prototypes that do not tell classes apart -/

/-- What is no program class comes from itself. -/
theorem eq_of_type (h : P.Valid v) {t s : Descriptor} (harray : s.isArray = false)
    (hno : s ∉ v.program.classes.map ClassDef.type) (heq : P.type t = s) : t = s := by
  have ht : t.isArray = false := by
    rw [Bool.eq_false_iff]
    intro ht
    rw [← heq] at harray
    cases (Descriptor.isArray_mapBase ht _).symm.trans harray
  rcases h.type_cases ht with hself | ⟨g, hg, -, htarget⟩
  · rw [← heq, hself]
  · obtain ⟨c, hc, htarget', -⟩ := h.target_class hg
    rw [heq, htarget', Option.some.injEq] at htarget
    exact absurd (List.mem_map.2 ⟨c, Program.mem_classes_of_mem_programClasses hc, htarget⟩) hno

/-- If all classes have class types, merging does not make up the two parameters that tell
    classes apart. -/
theorem marked_of_type (h : P.Valid v) (hv : v.program.Regular) {ts : List Descriptor}
    (hsuffix : [P.placement.argument, .int] <:+ ts.map P.type) : [P.placement.argument, .int] <:+ ts := by
  have hint : Descriptor.int ∉ v.program.classes.map ClassDef.type := by
    intro hmem
    obtain ⟨c, hc, htype⟩ := List.mem_map.1 hmem
    have hclass := hv.isClass c hc
    rw [htype] at hclass
    cases hclass
  obtain ⟨init, hparameters⟩ := hsuffix
  obtain ⟨before, after, rfl, -, hafter⟩ := List.map_eq_append_iff.1 hparameters.symm
  obtain ⟨a, rest, rfl, ha, hrest⟩ := List.map_eq_cons_iff.1 hafter
  obtain ⟨b, rfl, hb⟩ := List.map_eq_singleton_iff.1 hrest
  obtain ⟨target, htarget⟩ := h.argument
  obtain rfl := h.eq_of_type (Descriptor.isArray_of_isClass h.isClass_argument) (argumentType_not_mem htarget) ha
  obtain rfl := h.eq_of_type (by decide) hint hb
  exact ⟨before, rfl⟩

/-- Padding does not make them up. -/
theorem unmarked (h : P.Valid v) {g : MergeGroup}
    (hmarked : ∀ t ∈ g.classes, ∀ c, v.program.class? t = some c → ∀ d ∈ c.instanceInitializers,
      ¬ [P.placement.argument, .int] <:+ d.ref.proto.parameters.map P.type) :
    InitMerge.Unmarked P.placement.program P.placement.merges P.placement.argument g := by
  intro bucket hbucket hsuffix
  obtain ⟨i, hi, rfl⟩ := InitMerge.mem_byProto.1 hbucket
  obtain ⟨x, hx, -, hproto⟩ := InitMerge.of_mem_assignProtos i hi
  obtain ⟨init, hparameters⟩ := hsuffix
  dsimp only at hparameters
  rw [hproto] at hparameters
  cases hn : i.padding with
  | zero =>
    replace hparameters : init ++ [P.placement.argument, .int] = x.2.ref.proto.parameters.map P.type := by
      rw [hparameters, hn]
      exact List.append_nil _
    obtain ⟨t, ht, c, hc, hmem⟩ := exists_class_of_initializers hx
    rw [h.program] at hc
    refine hmarked t ht c hc x.2 ?_ ⟨init, hparameters⟩
    exact List.mem_filter.2 ⟨hmem, InitMerge.isInstanceInitializer_of_mem hx⟩
  | succ n =>
    -- The last parameter is padding.
    have hclass := h.isClass_argument
    rw [hn] at hparameters
    have hlast := congrArg List.getLast? hparameters
    simp [InitMerge.pad, Prototype.append, List.replicate_succ'] at hlast
    rw [← hlast] at hclass
    cases hclass

/-! ### What is recorded of an initializer -/

theorem recorded_init (h : P.Valid v) (hhoused : v.program.Housed) (hconflict : P.recorder.conflict = none)
    {g : MergeGroup} (hg : g ∈ P.groups) {classIdField : FieldRef} (hid : g.classIdField = some classIdField) {target : Descriptor}
    (htarget : g.target = some target) {bucket : Prototype × List MemberInit}
    (hbucket : bucket ∈ InitMerge.buckets P.placement.program P.placement.merges P.placement.argument g) {i : MemberInit}
    (hi : i ∈ bucket.2)
    (honly : ∀ g' ∈ P.groups, ∀ bucket' ∈ InitMerge.buckets P.placement.program P.placement.merges P.placement.argument g', ∀ j ∈ bucket'.2,
      j.method.ref = i.method.ref → g = g' ∧ bucket = bucket' ∧ i = j) :
    P.recorder.moves.mapMethod i.method.ref = InitMerge.dispatcher target P.placement.argument bucket ∧
      P.recorder.moves.changesForCall i.method.ref (InitMerge.dispatcher target P.placement.argument bucket) =
        { extra := InitMerge.added P.placement.argument i (bucket.2.length > 1) } := by
  let d := InitMerge.dispatcher target P.placement.argument bucket
  have hsome : g.classIdField.isSome = true := by rw [hid]; rfl
  obtain ⟨t, ht, c, hc, hmem⟩ := exists_class_of_initializers (InitMerge.of_mem_bucket hbucket hi).2.2.1
  have hprogram := h.mem_programClasses_of_group hg ht hc
  have hclass := Program.mem_classes_of_mem_programClasses hprogram
  have hobeys : P.recorder.Obeys ⟨fun _ _ => True, fun old new => old = i.method.ref → new = d, fun _ _ => True, fun _ _ => True,
      fun m _ => m ≠ d, fun old changes => old = i.method.ref →
        changes = InitMerge.callChanges P.placement.argument i (bucket.2.length > 1)⟩ := by
    refine h.obeys (fun g' hg' => ⟨fun _ _ _ _ => trivial, fun _ target' htarget' bucket' hbucket' j hj => ?_⟩)
      fun u hu e he htype => ⟨fun _ _ _ => ⟨trivial, fun _ _ _ _ => trivial⟩, fun _ _ _ => ⟨trivial, fun _ _ _ _ => trivial⟩, fun x hx => ?_⟩
    · refine ⟨fun hold => ?_, trivial, fun _ => trivial, fun _ hold => ?_⟩
      · obtain ⟨rfl, rfl, rfl⟩ := honly g' hg' bucket' hbucket' j hj hold
        cases htarget.symm.trans htarget'
        rfl
      · obtain ⟨rfl, rfl, rfl⟩ := honly g' hg' bucket' hbucket' j hj hold
        rfl
    · refine ⟨fun _ hold => ?_, fun _ _ _ sub hsub _ hold => ?_, fun hinit n _ _ hdef => ?_⟩
      · exact absurd hold (h.ref_ne_of_dispatched hhoused hu (List.of_mem_zip hx).1 hg hsome htarget hbucket hi)
      · exact absurd ⟨c, hclass, i.method, hmem, hold.symm⟩ (h.not_declaresMethod hhoused hsub)
      · have hholder := h.holder_of_placed hu he htype hx
        rw [hdef] at hholder
        rw [h.isInstanceInitializer_of_classId hu hg (htarget.trans (congrArg some hholder)) hsome (List.of_mem_zip hx).1] at hinit
        cases hinit
  obtain ⟨r, inits, helpers, body, -, hdispatched, hgrows, -⟩ := h.exists_dispatched hg hid htarget hbucket
  constructor
  · cases hget : P.recorder.moves.methods[i.method.ref]? with
    | some new =>
      rw [Renaming.mapMethod, TreeMap.getD_eq_getD_getElem?, hget]
      exact hobeys.methods _ _ hget rfl
    | none =>
      have hself : i.method.ref = d := by
        by_contra hne
        rw [hgrows.methods _ _ (hdispatched.moved (hgrows.conflict hconflict) i hi hne)] at hget
        cases hget
      exact (h.mapMethod_of_fixed (h.dispatched_fixed hg htarget hbucket hi hself) hget).trans hself
  · have hdefinition : P.recorder.moves.definitionChanges[d]? = none := by
      cases hget : P.recorder.moves.definitionChanges[d]? with
      | none => rfl
      | some changes => exact absurd rfl (hobeys.definitions _ _ hget)
    rw [← InitMerge.callChanges_eq, Renaming.changesForCall]
    change (_ <|> P.recorder.moves.definitionChanges[d]?).getD _ = _
    rw [hdefinition]
    cases hget : P.recorder.moves.callChanges[i.method.ref]? with
    | some changes => exact hobeys.calls _ _ hget rfl
    | none =>
      have hempty : (InitMerge.callChanges P.placement.argument i (bucket.2.length > 1)).isEmpty = true := by
        by_contra hne
        have hcalled := hgrows.calls _ (hdispatched.called i hi (Bool.eq_false_iff.2 hne))
        rw [hget] at hcalled
        cases hcalled
      rw [InitMerge.callChanges_eq, ProtoChanges.isEmpty, Bool.and_eq_true, Bool.and_eq_true, List.isEmpty_iff] at hempty
      have hnone : InitMerge.added P.placement.argument i (bucket.2.length > 1) = [] := hempty.1.2
      rw [InitMerge.callChanges_eq, hnone]
      rfl

/-- An initializer that is the only method of its name is in one bucket only. -/
theorem bucket_of_ref (h : P.Valid v) (hhoused : v.program.Housed) {g : MergeGroup} (hg : g ∈ P.groups)
    {c : ClassDef} (hc : v.program.class? c.type = some c) (hmem : c.type ∈ g.classes) {d : MethodDef}
    (honly : c.methods.filter (·.ref == d.ref) = [d]) (hinit : d.isInstanceInitializer = true) {bucket : Prototype × List MemberInit}
    (hbucket : bucket ∈ InitMerge.buckets P.placement.program P.placement.merges P.placement.argument g) {i : MemberInit}
    (hi : i ∈ bucket.2) (hid : i.method = d) : ∀ g' ∈ P.groups,
      ∀ bucket' ∈ InitMerge.buckets P.placement.program P.placement.merges P.placement.argument g', ∀ j ∈ bucket'.2,
        j.method.ref = i.method.ref → g = g' ∧ bucket = bucket' ∧ i = j := by
  intro g' hg' bucket' hbucket' j hj hjr
  rw [hid] at hjr
  have hd : d ∈ c.methods := (List.mem_filter.1 (honly ▸ List.mem_singleton_self d)).1
  obtain ⟨t, ht, e, he, hje⟩ := exists_class_of_initializers (InitMerge.of_mem_bucket hbucket' hj).2.2.1
  rw [h.program] at he
  obtain rfl := Program.type_of_class? he
  have htype : e.type = c.type := by
    rw [← hhoused e (Program.mem_classes.2 he) j.method hje, hjr, hhoused c (Program.mem_classes.2 hc) d hd]
  obtain rfl := h.groups.apart.eq_of_mem hg hg' hmem (htype ▸ ht)
  refine ⟨rfl, ?_⟩
  have hone := InitMerge.filter_initializers (g := g) hhoused (h.groups.apart.nodup g hg) hc hmem honly hinit
  rw [← h.program] at hone
  exact InitMerge.eq_of_ref hone hbucket hbucket' hi hj (congrArg MethodDef.ref hid) hjr

/-- What was placed for a group is found under its name. -/
theorem method?_of_placed (h : P.Valid v) {c : ClassDef} (hc : c ∈ P.last.placed) {inits : InitMerge}
    (hplaced : inits.placed <+: c.methods) (hnodup : (inits.placed.map MethodDef.ref).Nodup) {m : MethodDef} (hm : m ∈ inits.placed)
    (hholder : m.ref.holder = c.type) : P.program.method? m.ref = some m := by
  obtain ⟨rest, hrest⟩ := hplaced
  rw [Program.method?, hholder, h.class?_placed hc, Option.bind_some, ClassDef.method?, ← hrest, List.find?_append,
    find?_of_nodup hnodup hm, Option.some_or]

end Plan.Valid

/-! ### Calls of initializers -/

/-- After a merge objects that were made with `d` are made with `e`, which gives them the id and
    calls `helper`, which has the body of `d`. -/
structure Constructs (v : View) (r : MergeResult) (classIdField : FieldRef) (id : Nat) (d e helper : MethodDef) : Prop where
  declared : r.program.method? e.ref = some e
  helped : r.program.method? helper.ref = some helper
  code : helper.code = d.code
  found : ∀ context, ∃ changes, r.lens.lookupMethod d.ref context .direct v.lens = .ok ⟨e.ref, .direct, changes⟩
  runs : ∃ body, e.code = some (.body body) ∧ ∀ (context : MethodRef) (dest : Option ValueId) (args : List ValueId) (itf : Bool) (line : Line)
    (values : List Value), args.length = d.ref.proto.arity + 1 → (∀ w ∈ args, w < values.length) →
      ∃ call values', ((Update.mk r.lens v.lens).instr context ⟨dest, .invoke .direct d.ref args itf, line⟩).run values = .ok (call, values') ∧
        ∀ answers env this data, args.mapM env = some (this :: data) →
          ∃ env' passed, Instr.executeAll answers call env = some (env', [.call .direct e.ref passed]) ∧
            passed.length = e.ref.proto.arity + 1 ∧
            body.Runs answers passed [.put classIdField this (.int (.ofNat id)), .call .direct helper.ref (this :: data)]

/-- What the call passes is what the dispatching initializer was run on. -/
theorem constructs_of_lookup {r : MergeResult} {m : MergeMap} {g : MergeGroup} {target argument : Descriptor} {classIdField : FieldRef}
    {bucket : Prototype × List MemberInit} (hbucket : bucket ∈ InitMerge.buckets v.program m argument g) {i : MemberInit} (hi : i ∈ bucket.2)
    {inits : InitMerge} {helpers : List MethodRef} {body : Body}
    (hdispatched : InitMerge.Dispatched m target argument classIdField inits bucket helpers body)
    (hfound : ∀ d ∈ inits.placed, d.ref.holder = target → r.program.method? d.ref = some d)
    (hlookup : ∀ context, r.lens.lookupMethod i.method.ref context .direct v.lens =
      .ok ⟨InitMerge.dispatcher target argument bucket, .direct, { extra := InitMerge.added argument i (bucket.2.length > 1) }⟩) :
    ∃ e helper, Constructs v r classIdField i.classId i.method e helper := by
  obtain ⟨helper, hhelper, hruns⟩ := hdispatched.runs hbucket hi
  obtain ⟨n, rfl⟩ := (List.forall₂_iff_zip.1 hdispatched.named).2 hhelper
  refine ⟨_, _, ⟨hfound _ hdispatched.placed rfl, hfound _ (hdispatched.helped _ hhelper) rfl, rfl, fun context => ⟨_, hlookup context⟩,
    body, rfl, ?_⟩⟩
  intro context dest args itf line values hargs hold
  obtain ⟨call, values', hrun, hcall⟩ := Update.exists_call (u := ⟨r.lens, v.lens⟩) (hlookup (some context)) dest itf line hold
  refine ⟨call, values', hrun, fun answers env this data hdata => ?_⟩
  have hlength : data.length = i.method.ref.proto.arity := by
    have hdata := length_of_mapM hdata
    rw [hargs] at hdata
    exact Nat.succ.inj hdata
  obtain ⟨env', hexecute⟩ := hcall answers env (this :: data) hdata
  refine ⟨env', _, hexecute, ?_, hruns answers this data hlength⟩
  have harity : (InitMerge.dispatcher target argument bucket).proto.arity = _ := InitMerge.arity_dispatcher hbucket hi
  rw [List.length_append, List.length_cons, List.length_map, hlength, InitMerge.dispatcherDef, harity]
  omega

/-- **Objects are made by the right initializer**, if no initializer of the group has the two
    parameters already that tell classes apart, and no other method has its name. -/
theorem constructs_of_run {hash : HashOrder} {maxGroupSize : Nat} {r : MergeResult} (hhoused : v.program.Housed)
    (hrun : run hash v maxGroupSize = .ok r) (hplan : planned hash v maxGroupSize = .ok (some P)) {g : MergeGroup} (hg : g ∈ P.groups)
    {classIdField : FieldRef} (hid : g.classIdField = some classIdField)
    (hmarked : ∀ t ∈ g.classes, ∀ c, v.program.class? t = some c → ∀ d ∈ c.instanceInitializers,
      ¬ [P.placement.argument, .int] <:+ d.ref.proto.parameters.map fun t => r.lens.lookupType t v.lens)
    {c : ClassDef} (hc : v.program.class? c.type = some c) {id : Nat} (hclassId : g.classId? c.type = some id) {d : MethodDef}
    (honly : c.methods.filter (·.ref == d.ref) = [d]) (hinit : d.isInstanceInitializer = true) :
    ∃ e helper, Constructs v r classIdField id d e helper := by
  have h := valid_of_planned hplan
  obtain ⟨hprogram, hbuild⟩ := run_of_planned hrun hplan
  have hconflict := (Recorder.exists_lookup_of_build hbuild d.ref none .direct).1
  have hmem := MergeGroup.mem_of_classId? hclassId
  obtain ⟨target, -, htarget, -⟩ := h.target_class hg
  have hx : (id, d) ∈ InitMerge.initializers P.placement.program g := by
    rw [h.program]
    have hone := InitMerge.filter_initializers (g := g) hhoused (h.groups.apart.nodup g hg) hc hmem honly hinit
    rw [hclassId] at hone
    exact (List.mem_filter.1 (hone ▸ List.mem_singleton_self (id, d))).1
  obtain ⟨bucket, hbucket, i, hi, rfl, rfl⟩ : ∃ bucket ∈ InitMerge.buckets P.placement.program P.placement.merges P.placement.argument g,
      ∃ i ∈ bucket.2, i.classId = id ∧ i.method = d := InitMerge.exists_bucket hx
  obtain ⟨hmap, hchanges⟩ := h.recorded_init hhoused hconflict hg hid htarget hbucket hi
    (h.bucket_of_ref hhoused hg hc hmem honly hinit hbucket hi rfl)
  have hlookup := Recorder.lookupMethod_of_build hbuild (h.invokeKinds_recorder _) (hmap ▸ hchanges)
  simp only [hmap] at hlookup
  obtain ⟨recorder, inits, helpers, body, hinits, hdispatched, -, merged, hmerged, htype, hplaced⟩ :=
    h.exists_dispatched hg hid htarget hbucket
  simp only [h.lookupType_eq hbuild] at hmarked
  have hnodup := (InitMerge.nodup_placed_iff hinits htarget hid).2 (InitMerge.nodup_dispatchers (h.unmarked hmarked) _)
  refine constructs_of_lookup (h.program ▸ hbucket) hi hdispatched (fun m hm hholder => ?_) hlookup
  rw [hprogram]
  exact h.method?_of_placed hmerged hplaced hnodup hm (hholder.trans htype.symm)

/-! ### Two classes with initializers

`A` and `B` become one class. They have initializers with the given parameters and bodies. -/

namespace Initialized

def initializer (holder : String) (x : List Descriptor × Option Code) : MethodDef where
  ref := ⟨Named.type holder, MethodRef.initName, ⟨.void, x.1⟩⟩
  access := .publicFlag ||| .constructorFlag
  code := x.2

def withInitializers (holder : String) (xs : List (List Descriptor × Option Code)) : ClassDef where
  type := Named.type holder
  superclass := some .object
  methods := xs.map (initializer holder)

def view (ofA ofB : List (List Descriptor × Option Code)) : View where
  program := .ofList [{ type := .object, kind := .library, superclass := none }, withInitializers "A" ofA, withInitializers "B" ofB]

/-- The parameter type that tells initializers apart. -/
def argument : Descriptor := Named.type "A$$MergedConstructorArgument"

def classId : FieldRef := ⟨Named.type "A", "$classId", .int⟩

def group : MergeGroup where
  classes := [Named.type "A", Named.type "B"]
  isInterface := false
  target := some (Named.type "A")
  classIdField := some classId

/-- What a call becomes, where it goes, and how the method there starts. -/
structure Trace where
  call : List Instr
  target : MethodRef
  arguments : List ValueId
  start : List Instr
deriving DecidableEq

def trace (v : View) (r : MergeResult) (m : MethodRef) (args : List ValueId) : Option Trace := do
  let found ← (r.lens.lookupMethod m none .direct v.lens).toOption
  let e ← r.program.method? found.ref
  let .body body ← e.code | none
  let block ← body.blocks[0]?
  let (call, _) ← (((Update.mk r.lens v.lens).instr m ⟨none, .invoke .direct m args false, 0⟩).run (args.map fun _ => ⟨.int, .instruction⟩)).toOption
  return ⟨call, found.ref, body.arguments, block.body⟩

/-- The group is merged, a call of `m` has the given trace, and `helper` has a body or not. -/
structure Traced (v : View) (m : MethodRef) (args : List ValueId) (t : Trace) (helper : MethodRef) (hasBody : Bool) (r : MergeResult)
    (P : Plan) : Prop where
  run : Merging.run .inserted v defaultMaxGroupSize = .ok r
  planned : Merging.planned .inserted v defaultMaxGroupSize = .ok (some P)
  group : group ∈ P.groups
  argument : P.placement.argument = argument
  trace : trace v r m args = some t
  helper : (r.program.method? helper).map (·.code.isSome) = some hasBody

def outcome (v : View) (m : MethodRef) (args : List ValueId) (helper : MethodRef) :
    Option (Bool × Descriptor × Option Trace × Option Bool) :=
  match run .inserted v defaultMaxGroupSize, planned .inserted v defaultMaxGroupSize with
  | .ok r, .ok (some P) => some (P.groups.contains group, P.placement.argument, trace v r m args,
      (r.program.method? helper).map (·.code.isSome))
  | _, _ => none

theorem exists_traced (v : View) (m : MethodRef) (args : List ValueId) (t : Trace) (helper : MethodRef) (hasBody : Bool)
    (h : outcome v m args helper = some (true, argument, some t, some hasBody)) : ∃ r P, Traced v m args t helper hasBody r P := by
  unfold outcome at h
  split at h
  · next r P hr hP =>
    simp only [Option.some.injEq, Prod.mk.injEq, List.contains_iff_mem] at h
    obtain ⟨hgroup, hargument, htrace, hhelper⟩ := h
    exact ⟨r, P, hr, hP, hgroup, hargument, htrace, hhelper⟩
  · cases h

/-- Objects are made as the trace says. -/
theorem exists_start {v : View} {r : MergeResult} {f : FieldRef} {id : Nat} {d e helper : MethodDef} (h : Constructs v r f id d e helper)
    {args : List ValueId} {t : Trace} (htrace : trace v r d.ref args = some t) (hargs : args.length = d.ref.proto.arity + 1)
    (hold : ∀ w ∈ args, w < args.length) (answers : Answers) (env : Env) (this : Datum) (data : List Datum)
    (hdata : args.mapM env = some (this :: data)) :
    ∃ env' passed env'' first more, Instr.executeAll answers t.call env = some (env', [.call .direct t.target passed]) ∧
      Instr.executeAll answers t.start (.ofArguments t.arguments passed) = some (env'', first) ∧
      [.put f this (.int (.ofNat id)), .call .direct helper.ref (this :: data)] = first ++ more := by
  obtain ⟨body, hbody, hruns⟩ := h.runs
  obtain ⟨changes, hfound⟩ := h.found none
  obtain ⟨call, values', hrun, hcall⟩ := hruns d.ref none args false 0 (args.map fun _ => ⟨.int, .instruction⟩) hargs (by simpa using hold)
  simp only [trace, hfound, hrun, Except.toOption, Option.bind_eq_bind, Option.bind_some, h.declared, hbody] at htrace
  obtain ⟨block, hblock, htrace⟩ := Option.bind_eq_some_iff.1 htrace
  cases htrace
  obtain ⟨env', passed, hexecute, -, hbodyRuns⟩ := hcall answers env this data hdata
  obtain ⟨env'', first, more, hstart, hevents⟩ := hbodyRuns.exists_first hblock
  exact ⟨env', passed, env'', first, more, hexecute, hstart, hevents⟩

/-- `A` and `B` have initializers of an integer. -/
def alike : View := view [([.int], none)] [([.int], none)]

def dispatcher (parameters : List Descriptor) : MethodRef := ⟨Named.type "A", MethodRef.initName, ⟨.void, parameters⟩⟩

def helper (n : Nat) (parameters : List Descriptor) : MethodRef := ⟨Named.type "A", InitMerge.helperName n, ⟨.void, parameters⟩⟩

/-- Calls of the initializer of `B` pass a null and the class id as well. -/
def sharing : Trace where
  call := [⟨some 2, .constNull, 0⟩, ⟨some 3, .constInt 1, 0⟩,
    ⟨none, .invoke .direct (dispatcher [.int, argument, .int]) [0, 1, 2, 3] false, 0⟩]
  target := dispatcher [.int, argument, .int]
  arguments := [0, 1, 2, 3]
  start := [⟨none, .instancePut classId 0 3, 0⟩, ⟨some 4, .constInt 0, 0⟩]

/-- `B` has an initializer with just the parameters that tell classes apart. -/
def marked : View := view [([], none)] [([], none), ([argument, .int], none)]

/-- Calls stay as they are, and their last argument is stored. -/
def keeping : Trace where
  call := [⟨none, .invoke .direct (dispatcher [argument, .int]) [0, 1, 2] false, 0⟩]
  target := dispatcher [argument, .int]
  arguments := [0, 1, 2]
  start := [⟨none, .instancePut classId 0 2, 0⟩, ⟨some 3, .constInt 0, 0⟩]

/-- An initializer that is declared twice, and that has a body only the first time. -/
def twice : List (List Descriptor × Option Code) :=
  [([.int], none), ([], some (.body (Body.empty ⟨Named.type "A", MethodRef.initName, .void⟩ false))), ([], none)]

def repeated : View := view twice [([.int], none)]

/-- Calls go to the second one, which has a helper without a body. -/
def following : Trace where
  call := [⟨some 1, .constNull, 0⟩, ⟨none, .invoke .direct (dispatcher [argument]) [0, 1] false, 0⟩]
  target := dispatcher [argument]
  arguments := [0, 1]
  start := [⟨some 2, .constInt 0, 0⟩, ⟨none, .instancePut classId 0 2, 0⟩, ⟨none, .invoke .direct (helper 3 []) [0] false, 0⟩]

def withBorrowed (holder : String) : ClassDef :=
  { withInitializers holder [] with methods := [initializer "X" ([], none)] }

/-- `A` and `B` both list the initializer of `X`. -/
def borrowed : View where
  program := .ofList [{ type := .object, kind := .library, superclass := none }, withBorrowed "A", withBorrowed "B"]

/-- Calls pass the class id of `B`. -/
def passing : Trace where
  call := [⟨some 1, .constNull, 0⟩, ⟨some 2, .constInt 1, 0⟩, ⟨none, .invoke .direct (dispatcher [argument, .int]) [0, 1, 2] false, 0⟩]
  target := dispatcher [argument, .int]
  arguments := [0, 1, 2]
  start := [⟨none, .instancePut classId 0 2, 0⟩, ⟨some 3, .constInt 0, 0⟩]

theorem exists_runs :
    (∃ r P, Traced alike (initializer "B" ([.int], none)).ref [0, 1] sharing (helper 1 [.int]) false r P) ∧
    (∃ r P, Traced marked (initializer "B" ([argument, .int], none)).ref [0, 1, 2] keeping (helper 0 []) false r P) ∧
    (∃ r P, Traced repeated (initializer "A" ([], none)).ref [0] following (helper 3 []) false r P) ∧
    ∃ r P, Traced borrowed (initializer "X" ([], none)).ref [0] passing (helper 0 []) false r P := by
  refine ⟨?_, ?_, ?_, ?_⟩
  all_goals
    apply exists_traced
    decide +kernel

end Initialized

/-- Objects of `B` are made by the initializer of `A` that takes a null and the class id as well. -/
theorem constructs_of_run_alike : ∃ r P helper,
    Initialized.Traced Initialized.alike (Initialized.initializer "B" ([.int], none)).ref [0, 1] Initialized.sharing helper false r P ∧
    ∃ e helper, Constructs Initialized.alike r Initialized.classId 1 (Initialized.initializer "B" ([.int], none)) e helper := by
  obtain ⟨⟨r, P, htraced⟩, -⟩ := Initialized.exists_runs
  refine ⟨r, P, _, htraced, ?_⟩
  refine constructs_of_run (by unfold Program.Housed; decide) htraced.run htraced.planned
    htraced.group rfl ?_ (c := Initialized.withInitializers "B" [([.int], none)]) rfl (by decide) rfl rfl
  have hshort : ∀ t ∈ Initialized.group.classes, ∀ c ∈ Initialized.alike.program.class? t, ∀ d ∈ c.instanceInitializers,
      d.ref.proto.parameters.length = 1 := by decide
  intro t ht c hc d hd hsuffix
  have hle := hsuffix.length_le
  rw [List.length_map, hshort t ht c hc d hd] at hle
  cases hle with
  | step h => cases h

/-- Some initializer of a group does not become what makes the objects of its class. -/
def MakesWrong (v : View) : Prop :=
  ∃ r P g classIdField c id d, run .inserted v defaultMaxGroupSize = .ok r ∧
    planned .inserted v defaultMaxGroupSize = .ok (some P) ∧ g ∈ P.groups ∧ g.classIdField = some classIdField ∧ v.program.class? c.type = some c ∧
    g.classId? c.type = some id ∧ d ∈ c.instanceInitializers ∧ ¬ ∃ e helper, Constructs v r classIdField id d e helper

/-- Objects get the class id that was meant for an argument of the old initializer. -/
theorem makesWrong_marked : MakesWrong Initialized.marked := by
  obtain ⟨-, ⟨r, P, htraced⟩, -⟩ := Initialized.exists_runs
  refine ⟨r, P, Initialized.group, Initialized.classId,
    Initialized.withInitializers "B" [([], none), ([Initialized.argument, .int], none)], 1,
    Initialized.initializer "B" ([Initialized.argument, .int], none), htraced.run, htraced.planned, htraced.group, rfl, by rfl, by decide,
    List.mem_filter.2 ⟨.tail _ (.head _), rfl⟩, ?_⟩
  rintro ⟨e, helper, h⟩
  obtain ⟨env', passed, env'', first, more, hcall, hstart, hevents⟩ := Initialized.exists_start h htraced.trace rfl (by decide)
    (fun _ _ => .null) (.ofArguments [0, 1, 2] [.object 0, .null, .int 0]) (.object 0) [.null, .int 0] rfl
  cases hcall
  cases hstart
  cases hevents

/-- Objects are made by the initializer that comes second. -/
theorem makesWrong_repeated : MakesWrong Initialized.repeated := by
  obtain ⟨-, -, ⟨r, P, htraced⟩, -⟩ := Initialized.exists_runs
  refine ⟨r, P, Initialized.group, Initialized.classId, Initialized.withInitializers "A" Initialized.twice, 0,
    Initialized.initializer "A" ([], some (.body (Body.empty ⟨Named.type "A", MethodRef.initName, .void⟩ false))), htraced.run,
    htraced.planned, htraced.group, rfl, by rfl, by decide, List.mem_filter.2 ⟨.tail _ (.head _), rfl⟩, ?_⟩
  rintro ⟨e, helper, h⟩
  obtain ⟨env', passed, env'', first, more, hcall, hstart, hevents⟩ := Initialized.exists_start h htraced.trace rfl (by decide)
    (fun _ _ => .null) (.ofArguments [0] [.object 0]) (.object 0) [] rfl
  cases hcall
  cases hstart
  have hhelper : helper.ref = Initialized.helper 3 [] := by
    injection hevents with _ hevents
    injection hevents with hevent
    injection hevent
  have hbody := htraced.helper
  rw [← hhelper, h.helped, Option.map_some, h.code] at hbody
  cases hbody

/-- Calls of one name pass one class id, and that is the id of `B`. -/
theorem makesWrong_borrowed : MakesWrong Initialized.borrowed := by
  obtain ⟨-, -, -, r, P, htraced⟩ := Initialized.exists_runs
  refine ⟨r, P, Initialized.group, Initialized.classId, Initialized.withBorrowed "A", 0, Initialized.initializer "X" ([], none),
    htraced.run, htraced.planned, htraced.group, rfl, by rfl, by decide, List.mem_filter.2 ⟨.head _, rfl⟩, ?_⟩
  rintro ⟨e, helper, h⟩
  obtain ⟨env', passed, env'', first, more, hcall, hstart, hevents⟩ := Initialized.exists_start h htraced.trace rfl (by decide)
    (fun _ _ => .null) (.ofArguments [0] [.object 0]) (.object 0) [] rfl
  cases hcall
  cases hstart
  cases hevents

/-- Without the conditions it fails: `marked` has an initializer with the two parameters,
    `repeated` declares one twice, and `borrowed` has classes that list the same one. -/
theorem initializers_make_wrong : (Initialized.marked.program.Housed ∧ MakesWrong Initialized.marked) ∧
    (Initialized.repeated.program.Housed ∧ MakesWrong Initialized.repeated) ∧ MakesWrong Initialized.borrowed :=
  ⟨⟨by unfold Program.Housed; decide, makesWrong_marked⟩, ⟨by unfold Program.Housed; decide, makesWrong_repeated⟩,
    makesWrong_borrowed⟩

end Merging

end DexShrinker
