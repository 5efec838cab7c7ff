/-
  DexShrinker/Proofs/Merging/Members.lean
  =======================================
  **The lens and the program of a merge agree on every member.**

  Members go to what the merged program declares, and two methods that are no initializers
  never go to the same (`Plan.Valid.eq_of_methodGoes`): a class gets no two virtual methods
  from different classes of its group that had one signature, and everything else that is
  taken is avoided.

  In the other direction, everything in the merged program comes from somewhere
  (`Merging.members_agree`), as long as no class declares a member twice. The second of two
  equal methods gets another name, and the lens can only follow one of them. Nor can it follow
  what one class lists and another one inherits under the same name, or types whose arrays are
  classes that come before other classes (`Merging.members_disagree`).
-/
import DexShrinker.Proofs.Merging.Bodies

namespace DexShrinker

open Std

/-! ### Members of several classes -/

theorem nodup_flatMap_classes {β : Type} {cs : List ClassDef} (hcs : (cs.map ClassDef.type).Nodup) {f : ClassDef → List β}
    (holder : β → Descriptor) (hnodup : ∀ c ∈ cs, (f c).Nodup) (hholder : ∀ c ∈ cs, ∀ b ∈ f c, holder b = c.type) :
    (cs.flatMap f).Nodup := by
  rw [List.nodup_flatMap]
  refine ⟨hnodup, ?_⟩
  have hpairwise : cs.Pairwise fun c c' => c.type ≠ c'.type := List.pairwise_map.1 hcs
  refine hpairwise.imp_of_mem fun {c c'} hc hc' hne b hb hb' => ?_
  exact hne ((hholder c hc b hb).symm.trans (hholder c' hc' b hb'))

theorem Program.map_type_filterMap {p : Program} (ts : List Descriptor) :
    ((ts.filterMap p.class?).map ClassDef.type).Sublist ts := by
  induction ts with
  | nil => exact List.Sublist.slnil
  | cons t ts ih =>
    cases hget : p.class? t with
    | none =>
      rw [List.filterMap_cons_none hget]
      exact ih.cons t
    | some c =>
      rw [List.filterMap_cons_some hget, List.map_cons, Program.type_of_class? hget]
      exact ih.cons_cons t

theorem InitMerge.map_snd_initializers (p : Program) (g : MergeGroup) :
    (initializers p g).map Prod.snd = ((g.classes.filterMap p.class?).flatMap ClassDef.methods).filter (·.isInstanceInitializer) := by
  unfold initializers
  induction g.classes with
  | nil => rfl
  | cons t ts ih =>
    rw [List.flatMap_cons, List.map_append, ih]
    cases hget : p.class? t with
    | none => simp [List.filterMap_cons_none hget]
    | some c =>
      rw [List.filterMap_cons_some hget, List.flatMap_cons, List.filter_append]
      simp [ClassDef.instanceInitializers, Function.comp_def]

/-- No program class declares a member twice. -/
structure Program.Unrepeated (p : Program) : Prop where
  fields : ∀ c ∈ p.programClasses, (c.fields.map FieldDef.ref).Nodup
  methods : ∀ c ∈ p.programClasses, (c.methods.map MethodDef.ref).Nodup

namespace Merging

variable {hash : HashOrder} {v : View} {maxGroupSize : Nat} {P : Plan}

namespace Plan.Valid

theorem members_eq (h : P.Valid v) {g : MergeGroup} (hg : g ∈ P.groups) {target : ClassDef}
    (htarget : g.target.bind P.placement.program.class? = some target) :
    FieldMerge.members P.placement.program g target = g.classes.filterMap P.placement.program.class? := by
  obtain ⟨t, rest, hclasses, ht⟩ := h.groups.target g hg
  have hnodup := h.groups.apart.nodup g hg
  rw [hclasses, List.nodup_cons] at hnodup
  have hsources : g.sources = rest := by
    rw [MergeGroup.sources, hclasses, ht, List.filter_cons_of_neg (by simp), List.filter_eq_self]
    intro s hs
    simpa using fun heq : s = t => hnodup.1 (heq ▸ hs)
  rw [ht, Option.bind_some] at htarget
  rw [FieldMerge.members, hsources, hclasses, List.filterMap_cons_some htarget]

/-- The classes of a group, each once. -/
theorem nodup_members (h : P.Valid v) {g : MergeGroup} (hg : g ∈ P.groups) :
    ((g.classes.filterMap P.placement.program.class?).map ClassDef.type).Nodup := by
  rw [h.program]
  exact (Program.map_type_filterMap g.classes).nodup (h.groups.apart.nodup g hg)

theorem mem_programClasses_of_members (h : P.Valid v) {g : MergeGroup} (hg : g ∈ P.groups) {c : ClassDef}
    (hc : c ∈ g.classes.filterMap P.placement.program.class?) : c ∈ v.program.programClasses := by
  obtain ⟨t, ht, hget⟩ := List.mem_filterMap.1 hc
  exact h.mem_programClasses_of_group hg ht hget

/-- The methods of a group, each once. -/
theorem nodup_groupMethods (h : P.Valid v) (hhoused : v.program.Housed)
    (honce : ∀ c ∈ v.program.programClasses, (c.methods.map MethodDef.ref).Nodup) {g : MergeGroup} (hg : g ∈ P.groups) :
    (((g.classes.filterMap P.placement.program.class?).flatMap ClassDef.methods).map MethodDef.ref).Nodup := by
  rw [List.map_flatMap]
  refine nodup_flatMap_classes (h.nodup_members hg) MethodRef.holder
    (fun c hc => honce c (h.mem_programClasses_of_members hg hc)) fun c hc m hm => ?_
  obtain ⟨d, hd, rfl⟩ := List.mem_map.1 hm
  exact hhoused c (Program.mem_classes_of_mem_programClasses (h.mem_programClasses_of_members hg hc)) d hd

/-- No method is placed twice. -/
theorem nodup_methods (h : P.Valid v) (hhoused : v.program.Housed)
    (honce : ∀ c ∈ v.program.programClasses, (c.methods.map MethodDef.ref).Nodup) {u : UnplacedClass} (hu : u ∈ P.classes) :
    (u.methods.map MethodDef.ref).Nodup := by
  rcases h.classes_cases hu with ⟨c, hc, -, rfl⟩ | ⟨g, hg, target, r, inits, -, hinits, rfl, -⟩
  · exact honce c hc
  · let all := (g.classes.filterMap P.placement.program.class?).flatMap ClassDef.methods
    have hall : (all.map MethodDef.ref).Nodup := h.nodup_groupMethods hhoused honce hg
    have hpending : inits.pending = [] ∨ inits.pending = all.filter (·.isInstanceInitializer) := by
      rcases InitMerge.ofGroup_cases hinits with ⟨_, _, _, htarget, hid, -⟩ | ⟨-, rfl⟩
      · exact .inl (InitMerge.pending_of_classId hinits (by rw [htarget]; rfl) (by rw [hid]; rfl))
      · exact .inr (InitMerge.map_snd_initializers P.placement.program g)
    change ((all.filter (!·.isInstanceInitializer) ++ inits.pending).map MethodDef.ref).Nodup
    rcases hpending with heq | heq
    · rw [heq, List.append_nil]
      exact (List.filter_sublist.map _).nodup hall
    · rw [heq]
      refine (List.Perm.nodup_iff (List.Perm.map _ ?_)).2 hall
      exact List.perm_append_comm.trans (List.filter_append_perm (·.isInstanceInitializer) all)

/-- No field goes to two places. -/
theorem nodup_fieldsTo (h : P.Valid v) (hhoused : v.program.HousesFields)
    (honce : ∀ c ∈ v.program.programClasses, (c.fields.map FieldDef.ref).Nodup) {u : UnplacedClass} (hu : u ∈ P.classes)
    {d : ClassDef} (hd : d ∈ P.last.placed) (htype : d.type = u.shell.type) : ((u.fieldsTo d).map Prod.fst).Nodup := by
  obtain ⟨fs, ms, rfl, hfs, -, -⟩ := h.exists_members hu hd htype
  have hfst : (u.fieldsTo { u.shell with fields := u.shell.fields ++ fs, methods := u.shell.methods ++ ms }).map Prod.fst =
      u.fieldMoves.map Prod.fst ++ u.fields.map FieldDef.ref := by
    rw [UnplacedClass.fieldsTo, List.drop_left, List.map_append, List.map_map]
    congr 1
    conv_rhs => rw [← List.map_fst_zip (Nat.le_of_eq hfs.symm), List.map_map]
    rfl
  rw [hfst]
  rcases h.classes_cases hu with ⟨c, hc, -, rfl⟩ | ⟨g, hg, target, r, inits, htarget, -, rfl, -⟩
  · exact honce c hc
  · let all := (g.classes.filterMap P.placement.program.class?).flatMap ClassDef.fields
    have hall : (all.map FieldDef.ref).Nodup := by
      rw [List.map_flatMap]
      refine nodup_flatMap_classes (h.nodup_members hg) FieldRef.holder
        (fun c hc => honce c (h.mem_programClasses_of_members hg hc)) fun c hc f hf => ?_
      obtain ⟨d, hd, rfl⟩ := List.mem_map.1 hf
      exact hhoused c (Program.mem_classes_of_mem_programClasses (h.mem_programClasses_of_members hg hc)) d hd
    have hmoves : (mergedClass P.placement g target inits).fieldMoves.map Prod.fst = (all.filter (!·.isStatic)).map FieldDef.ref := by
      rw [List.filter_flatMap, ← h.members_eq hg htarget]
      exact (FieldMerge.moves_ofGroup P.placement.program P.placement.merges g target).1
    have hstatic : (mergedClass P.placement g target inits).fields = all.filter (·.isStatic) := by
      rw [List.filter_flatMap]
      rfl
    rw [hmoves, hstatic, ← List.map_append]
    refine (List.Perm.nodup_iff (List.Perm.map _ ?_)).2 hall
    exact List.perm_append_comm.trans (List.filter_append_perm (·.isStatic) all)

/-! ### No two methods go to the same place -/

/-- Virtual methods of one signature that are placed together come from one class. -/
theorem unrelated_methods (h : P.Valid v) (hhoused : v.program.Housed) {u : UnplacedClass}
    (hu : u ∈ P.classes) : Placement.Unrelated fun r => ∃ m ∈ u.methods, m.isVirtual = true ∧ m.ref = r := by
  rintro _ _ ⟨m, hm, hvirtual, rfl⟩ ⟨k, hk, hvirtual', rfl⟩ heq
  rcases h.classes_cases hu with ⟨c, hc, -, rfl⟩ | ⟨g, hg, hcomes⟩
  · have hc' := Program.mem_classes_of_mem_programClasses hc
    rw [hhoused c hc' m hm, hhoused c hc' k hk]
  · obtain ⟨t, ht, c, hc, hmc⟩ := hcomes.methods hm
    obtain ⟨t', ht', c', hc', hkc⟩ := hcomes.methods hk
    by_cases hsame : t = t'
    · subst hsame
      cases hc.symm.trans hc'
      have hmem := Program.mem_classes_of_mem_programClasses (h.mem_programClasses_of_group hg ht hc)
      rw [hhoused c hmem m hmc, hhoused c hmem k hkc]
    · rw [h.program] at hc hc'
      refine absurd heq (h.groups.virtuals g hg t ht t' ht' hsame c hc c' hc' m ?_ k ?_)
      · exact List.mem_filter.2 ⟨hmc, hvirtual⟩
      · exact List.mem_filter.2 ⟨hkc, hvirtual'⟩

theorem ref_eq_of_placed (h : P.Valid v) (hhoused : v.program.Housed) {u : UnplacedClass}
    (hu : u ∈ P.classes) {d : ClassDef} (hd : d ∈ P.last.placed) (htype : d.type = u.shell.type) {x y : MethodDef × MethodDef}
    (hx : x ∈ u.methods.zip (d.methods.drop u.shell.methods.length)) (hy : y ∈ u.methods.zip (d.methods.drop u.shell.methods.length))
    (heq : x.2.ref = y.2.ref) : x.1.ref = y.1.ref := by
  obtain ⟨st, hst⟩ := h.exists_reached hu
  obtain ⟨fs, ms, first, rest, start, last, hplace, -, -, -, -, htable, -, htrail, hperm, hfirst, hrest⟩ :=
    Placement.exists_placeClass P.placement u (Placement.inherited P.placement.hash st.tables u.shell) st.log
  rw [h.eq_place hst hd htype, place, hplace, List.drop_left] at hx hy
  refine htrail.ref_inj ⟨[], by rw [htable, List.append_nil], by simp⟩ (h.unrelated_methods hhoused hu)
    (fun z hz hvirtual => ⟨z.1, ?_, hvirtual, rfl⟩) (Placement.inherited_spec P.placement.hash st.tables u.shell).1 hfirst hrest
    (hperm.mem_iff.2 hx) (hperm.mem_iff.2 hy) (congrArg MethodRef.signature heq)
  exact (List.of_mem_zip (hperm.mem_iff.1 hz)).1

theorem ne_shell_of_library (h : P.Valid v) {c : ClassDef} (hc : c ∈ v.program.classes)
    (hlib : c.isLibrary = true) {u : UnplacedClass} (hu : u ∈ P.classes) : c.type ≠ u.shell.type := by
  intro htype
  obtain ⟨types, e, he, hgathers, -, -⟩ := h.origin hu
  obtain rfl := Program.eq_of_type hc (Program.mem_classes_of_mem_programClasses he) (htype.trans hgathers.type)
  rw [Program.isLibrary_eq, (List.mem_filter.1 he).2] at hlib
  cases hlib

/-- **Methods that are no initializers go to different places.** -/
theorem eq_of_methodGoes (h : P.Valid v) (hhoused : v.program.Housed) {a b new : MethodRef}
    (ha : a.isInstanceInitializer = false) (hb : b.isInstanceInitializer = false) (hgoes : P.MethodGoes a new)
    (hgoes' : P.MethodGoes b new) : a = b := by
  have hinit {i : MemberInit} {g : MergeGroup} {bucket : Prototype × List MemberInit}
      (hbucket : bucket ∈ InitMerge.buckets P.placement.program P.placement.merges P.placement.argument g) (hi : i ∈ bucket.2) :
      i.method.ref.isInstanceInitializer = true :=
    InitMerge.isInstanceInitializer_of_mem (InitMerge.of_mem_bucket hbucket hi).2.2.1
  cases hgoes with
  | library c hc hlib m hm hold hnew =>
    cases hgoes' with
    | library c' hc' hlib' m' hm' hold' hnew' => rw [hold, ← hnew, hnew', ← hold']
    | placed u hu d hd htype x hx hold' hnew' =>
      rw [h.program] at hc
      refine absurd ?_ (h.ne_shell_of_library hc hlib hu)
      rw [← hhoused c hc m hm, ← h.holder_of_placed hu hd htype hx, ← hnew, hnew']
    | dispatched g hg classIdField hid target htarget bucket hbucket i hi hold' hnew' =>
      rw [hold', hinit hbucket hi] at hb
      cases hb
  | placed u hu d hd htype x hx hold hnew =>
    cases hgoes' with
    | library c hc hlib m hm hold' hnew' =>
      rw [h.program] at hc
      refine absurd ?_ (h.ne_shell_of_library hc hlib hu)
      rw [← hhoused c hc m hm, ← h.holder_of_placed hu hd htype hx, ← hnew, hnew']
    | placed u' hu' d' hd' htype' x' hx' hold' hnew' =>
      obtain rfl : u = u' := h.eq_of_shell hu hu' (by
        rw [← h.holder_of_placed hu hd htype hx, ← h.holder_of_placed hu' hd' htype' hx', ← hnew, hnew'])
      obtain rfl := h.eq_of_placed hd hd' (htype.trans htype'.symm)
      rw [hold, hold']
      exact h.ref_eq_of_placed hhoused hu hd htype hx hx' (hnew.symm.trans hnew')
    | dispatched g hg classIdField hid target htarget bucket hbucket i hi hold' hnew' =>
      rw [hold', hinit hbucket hi] at hb
      cases hb
  | dispatched g hg classIdField hid target htarget bucket hbucket i hi hold hnew =>
    rw [hold, hinit hbucket hi] at ha
    cases ha

/-! ### No member goes to two places -/

theorem fieldGoes_unique (h : P.Valid v) (hhoused : v.program.HousesFields) (honce : v.program.Unrepeated)
    {u : UnplacedClass} (hu : u ∈ P.classes) {d : ClassDef} (hd : d ∈ P.last.placed) (htype : d.type = u.shell.type)
    {x : FieldRef × FieldRef} (hx : x ∈ u.fieldsTo d) {new : FieldRef} (hgoes : P.FieldGoes x.1 new) : new = x.2 := by
  obtain ⟨c, hc, hshell, f, hf, hxf⟩ := h.exists_class_of_fieldsTo hu hx
  have hc' := Program.mem_classes_of_mem_programClasses hc
  have hholder : x.1.holder = c.type := by rw [hxf, hhoused c hc' f hf]
  cases hgoes with
  | library e he hlib f' hf' hold hnew =>
    rw [h.program] at he
    obtain rfl := Program.eq_of_type hc' he (by rw [← hholder, hold, hhoused e he f' hf'])
    rw [Program.isLibrary_eq, (List.mem_filter.1 hc).2] at hlib
    cases hlib
  | placed u' hu' d' hd' htype' hx' =>
    obtain ⟨e, he, hshell', f', hf', hxf'⟩ := h.exists_class_of_fieldsTo hu' hx'
    have hsame : e.type = c.type := by
      rw [← hhoused e (Program.mem_classes_of_mem_programClasses he) f' hf', ← hxf', hholder]
    obtain rfl := h.eq_of_shell hu hu' (by rw [hshell, hshell', hsame])
    obtain rfl := h.eq_of_placed hd hd' (htype.trans htype'.symm)
    exact congrArg Prod.snd (List.inj_on_of_nodup_map (h.nodup_fieldsTo hhoused honce.fields hu hd htype) hx' hx rfl)

/-- An initializer that is dispatched is not placed. -/
theorem ref_ne_of_dispatched (h : P.Valid v) (hhoused : v.program.Housed) {u : UnplacedClass} (hu : u ∈ P.classes)
    {m : MethodDef} (hm : m ∈ u.methods) {g : MergeGroup} (hg : g ∈ P.groups) (hid : g.classIdField.isSome = true) {target : Descriptor}
    (htarget : g.target = some target) {bucket : Prototype × List MemberInit}
    (hbucket : bucket ∈ InitMerge.buckets P.placement.program P.placement.merges P.placement.argument g) {i : MemberInit}
    (hi : i ∈ bucket.2) : m.ref ≠ i.method.ref := by
  intro heq
  obtain ⟨c, hc, hshell, hm'⟩ := h.exists_class_of_mem hu hm
  have hinit := (InitMerge.of_mem_bucket hbucket hi).2.2.1
  obtain ⟨t, ht, e, he, hie⟩ := exists_class_of_initializers hinit
  have he' := h.mem_programClasses_of_group hg ht he
  rw [h.program] at he
  obtain rfl := Program.type_of_class? he
  have hsame : e.type = c.type := by
    rw [← hhoused e (Program.mem_classes_of_mem_programClasses he') i.method hie, ← heq,
      hhoused c (Program.mem_classes_of_mem_programClasses hc) m hm']
  have htarget' : g.target = some u.shell.type := by
    rw [hshell, ← hsame, h.home_of_mem hg ht htarget, htarget]
  have hno := h.isInstanceInitializer_of_classId hu hg htarget' hid hm
  rw [MethodDef.isInstanceInitializer, heq] at hno
  cases (InitMerge.isInstanceInitializer_of_mem hinit).symm.trans hno

theorem methodGoes_unique (h : P.Valid v) (hhoused : v.program.Housed) (honce : v.program.Unrepeated)
    {u : UnplacedClass} (hu : u ∈ P.classes) {d : ClassDef} (hd : d ∈ P.last.placed) (htype : d.type = u.shell.type)
    {x : MethodDef × MethodDef} (hx : x ∈ u.methods.zip (d.methods.drop u.shell.methods.length)) {new : MethodRef}
    (hgoes : P.MethodGoes x.1.ref new) : new = x.2.ref := by
  obtain ⟨c, hc, hshell, hm⟩ := h.exists_class_of_mem hu (List.of_mem_zip hx).1
  have hc' := Program.mem_classes_of_mem_programClasses hc
  have hholder : x.1.ref.holder = c.type := hhoused c hc' x.1 hm
  cases hgoes with
  | library e he hlib m he' hold hnew =>
    rw [h.program] at he
    obtain rfl := Program.eq_of_type hc' he (by rw [← hholder, hold, hhoused e he m he'])
    rw [Program.isLibrary_eq, (List.mem_filter.1 hc).2] at hlib
    cases hlib
  | placed u' hu' d' hd' htype' x' hx' hold hnew =>
    obtain ⟨e, he, hshell', hm'⟩ := h.exists_class_of_mem hu' (List.of_mem_zip hx').1
    have hsame : e.type = c.type := by
      rw [← hhoused e (Program.mem_classes_of_mem_programClasses he) x'.1 hm', ← hold, hholder]
    obtain rfl := h.eq_of_shell hu hu' (by rw [hshell, hshell', hsame])
    obtain rfl := h.eq_of_placed hd hd' (htype.trans htype'.symm)
    obtain ⟨fs, ms, hmembers, -, hms, -⟩ := h.exists_members hu hd htype
    rw [hmembers, List.drop_left] at hx hx'
    rw [hnew, eq_of_mem_zip hms.symm (h.nodup_methods hhoused honce.methods hu) hx hx' hold]
  | dispatched g hg classIdField hid target htarget bucket hbucket i hi hold hnew =>
    exact absurd hold (h.ref_ne_of_dispatched hhoused hu (List.of_mem_zip hx).1 hg (by rw [hid]; rfl) htarget hbucket hi)

theorem fieldGoes_library (h : P.Valid v) (hhoused : v.program.HousesFields) {c : ClassDef}
    (hc : c ∈ v.program.classes) (hlib : c.isLibrary = true) {f : FieldDef} (hf : f ∈ c.fields) {new : FieldRef}
    (hgoes : P.FieldGoes f.ref new) : new = f.ref := by
  cases hgoes with
  | library _ _ _ _ _ hold hnew => exact hnew.trans hold.symm
  | placed u hu d hd htype hx =>
    obtain ⟨e, he, -, f', hf', heq⟩ := h.exists_class_of_fieldsTo hu hx
    have he' := Program.mem_classes_of_mem_programClasses he
    obtain rfl := Program.eq_of_type hc he' (by rw [← hhoused c hc f hf, ← hhoused e he' f' hf', ← heq])
    rw [Program.isLibrary_eq, (List.mem_filter.1 he).2] at hlib
    cases hlib

theorem methodGoes_library (h : P.Valid v) (hhoused : v.program.Housed) {c : ClassDef}
    (hc : c ∈ v.program.classes) (hlib : c.isLibrary = true) {m : MethodDef} (hm : m ∈ c.methods) {new : MethodRef}
    (hgoes : P.MethodGoes m.ref new) : new = m.ref := by
  have hprogram {e : ClassDef} (he : e ∈ v.program.programClasses) {k : MethodDef} (hk : k ∈ e.methods) : m.ref ≠ k.ref := by
    intro heq
    have he' := Program.mem_classes_of_mem_programClasses he
    obtain rfl := Program.eq_of_type hc he' (by rw [← hhoused c hc m hm, ← hhoused e he' k hk, heq])
    rw [Program.isLibrary_eq, (List.mem_filter.1 he).2] at hlib
    cases hlib
  cases hgoes with
  | library _ _ _ _ _ hold hnew => exact hnew.trans hold.symm
  | placed u hu d hd htype x hx hold hnew =>
    obtain ⟨e, he, -, hk⟩ := h.exists_class_of_mem hu (List.of_mem_zip hx).1
    exact absurd hold (hprogram he hk)
  | dispatched g hg classIdField hid target htarget bucket hbucket i hi hold hnew =>
    obtain ⟨t, ht, e, he, hk⟩ := exists_class_of_initializers (InitMerge.of_mem_bucket hbucket hi).2.2.1
    exact absurd hold (hprogram (h.mem_programClasses_of_group hg ht he) hk)

/-! ### Where everything comes from -/

theorem field_origin (h : P.Valid v) (hhoused : v.program.HousesFields) (honce : v.program.Unrepeated)
    {d : ClassDef} (hd : d ∈ P.program.classes) {f : FieldDef} (hf : f ∈ d.fields) :
    (∃ g ∈ P.groups, g.classIdField = some f.ref) ∨
      ∃ c ∈ v.program.classes, ∃ k ∈ c.fields, ∀ new, P.FieldGoes k.ref new → new = f.ref := by
  rcases h.program_cases hd with ⟨hc, hlib⟩ | hd | ⟨rfl, -⟩
  · exact .inr ⟨d, hc, f, hf, fun new hgoes => h.fieldGoes_library hhoused hc hlib hf hgoes⟩
  · obtain ⟨u, hu, _, _, hshell, -⟩ := h.exists_unplaced hd
    have htype : d.type = u.shell.type := by rw [hshell]
    obtain ⟨fs, ms, hmembers, hfs, -, -⟩ := h.exists_members hu hd htype
    have hunique {x : FieldRef × FieldRef} (hx : x ∈ u.fieldsTo d) (heq : x.2 = f.ref) :
        ∃ c ∈ v.program.classes, ∃ k ∈ c.fields, ∀ new, P.FieldGoes k.ref new → new = f.ref := by
      obtain ⟨c, hc, -, k, hk, hxk⟩ := h.exists_class_of_fieldsTo hu hx
      refine ⟨c, Program.mem_classes_of_mem_programClasses hc, k, hk, fun new hgoes => ?_⟩
      rw [← hxk] at hgoes
      rw [h.fieldGoes_unique hhoused honce hu hd htype hx hgoes, heq]
    rw [hmembers] at hf
    rcases List.mem_append.1 hf with hf | hf
    · rcases h.classes_cases hu with ⟨c, -, -, rfl⟩ | ⟨g, hg, target, r, inits, -, -, rfl, -⟩
      · cases hf
      · rcases (FieldMerge.moves_ofGroup P.placement.program P.placement.merges g target).2.2 f hf with ⟨x, hx, heq⟩ | hid
        · exact .inr (hunique (List.mem_append_left _ hx) heq)
        · exact .inl ⟨g, hg, hid⟩
    · obtain ⟨k, hzip⟩ := exists_zip_of_mem hfs hf
      refine .inr (hunique (x := (k.ref, f.ref)) (List.mem_append_right _ (List.mem_map.2 ⟨(k, f), ?_, rfl⟩)) rfl)
      rw [hmembers, List.drop_left, ← List.zip_swap]
      exact List.mem_map.2 ⟨(f, k), hzip, rfl⟩
  · cases hf

theorem method_origin (h : P.Valid v) (hhoused : v.program.Housed) (honce : v.program.Unrepeated)
    {d : ClassDef} (hd : d ∈ P.program.classes) {m : MethodDef} (hm : m ∈ d.methods) :
    (∃ g ∈ P.groups, InitMerge.Made v.program P.placement.merges g P.state.synthesized m) ∨
      ∃ c ∈ v.program.classes, ∃ k ∈ c.methods, ∀ new, P.MethodGoes k.ref new → new = m.ref := by
  rcases h.program_cases hd with ⟨hc, hlib⟩ | hd | ⟨rfl, -⟩
  · exact .inr ⟨d, hc, m, hm, fun new hgoes => h.methodGoes_library hhoused hc hlib hm hgoes⟩
  · obtain ⟨u, hu, _, _, hshell, -⟩ := h.exists_unplaced hd
    have htype : d.type = u.shell.type := by rw [hshell]
    obtain ⟨fs, ms, hmembers, -, hms, -⟩ := h.exists_members hu hd htype
    rw [hmembers] at hm
    rcases List.mem_append.1 hm with hm | hm
    · left
      rw [← h.program]
      exact h.shell_made hu hm
    · right
      obtain ⟨k, hzip⟩ := exists_zip_of_mem hms hm
      have hx : (k, m) ∈ u.methods.zip (d.methods.drop u.shell.methods.length) := by
        rw [hmembers, List.drop_left, ← List.zip_swap]
        exact List.mem_map.2 ⟨(m, k), hzip, rfl⟩
      obtain ⟨c, hc, -, hk⟩ := h.exists_class_of_mem hu (List.of_mem_zip hx).1
      refine ⟨c, Program.mem_classes_of_mem_programClasses hc, k, hk, fun new hgoes => ?_⟩
      exact h.methodGoes_unique hhoused honce hu hd htype hx hgoes
  · cases hm

end Plan.Valid

/-! ### Agreement -/

/-- The lens of a merge takes the field `f` to `f'`. -/
def TakesField (v : View) (r : MergeResult) (f f' : FieldRef) : Prop := (r.lens.lookupField f v.lens).ref = f'

/-- The lens of a merge takes the method `m` to `m'`, whatever calls it. -/
def TakesMethod (v : View) (r : MergeResult) (m m' : MethodRef) : Prop :=
  ∀ context kind, ∃ found, r.lens.lookupMethod m context kind v.lens = .ok found ∧ found.ref = m'

/-- Library members name no class that is merged into another. -/
structure LibraryKept (v : View) (r : MergeResult) : Prop where
  fields : ∀ c ∈ v.program.classes, c.isLibrary = true → ∀ f ∈ c.fields, r.lens.lookupType f.ref.type v.lens = f.ref.type
  methods : ∀ c ∈ v.program.classes, c.isLibrary = true → ∀ m ∈ c.methods, ∀ t ∈ m.ref.proto.types, r.lens.lookupType t v.lens = t

/-- The class id of a group. -/
def IsClassId (hash : HashOrder) (v : View) (maxGroupSize : Nat) (f : FieldDef) : Prop :=
  ∃ P, planned hash v maxGroupSize = .ok (some P) ∧ ∃ g ∈ P.groups, g.classIdField = some f.ref

/-- The helper of an initializer of a group, or a dispatching initializer. -/
def StandsForInitializers (hash : HashOrder) (v : View) (maxGroupSize : Nat) (r : MergeResult) (m : MethodDef) : Prop :=
  ∃ P, planned hash v maxGroupSize = .ok (some P) ∧ ∃ g ∈ P.groups, InitMerge.Made v.program P.placement.merges g r.synthesized m

/-- The lens and the program of a merge agree on every member. -/
structure Agree (hash : HashOrder) (v : View) (maxGroupSize : Nat) (r : MergeResult) : Prop where
  fields : ∀ c ∈ v.program.classes, ∀ f ∈ c.fields, ∃ f', TakesField v r f.ref f' ∧ (r.program.field? f').isSome = true
  methods : ∀ c ∈ v.program.classes, ∀ m ∈ c.methods, ∃ m', TakesMethod v r m.ref m' ∧ (r.program.method? m').isSome = true
  apart : ∀ c ∈ v.program.classes, ∀ m ∈ c.methods, ∀ d ∈ v.program.classes, ∀ k ∈ d.methods, m.isInstanceInitializer = false →
    k.isInstanceInitializer = false → ∀ new, TakesMethod v r m.ref new → TakesMethod v r k.ref new → m.ref = k.ref
  fieldOrigin : v.program.Unrepeated → ∀ d ∈ r.program.classes, ∀ f ∈ d.fields,
    IsClassId hash v maxGroupSize f ∨ ∃ c ∈ v.program.classes, ∃ k ∈ c.fields, TakesField v r k.ref f.ref
  methodOrigin : v.program.Unrepeated → ∀ d ∈ r.program.classes, ∀ m ∈ d.methods,
    StandsForInitializers hash v maxGroupSize r m ∨ ∃ c ∈ v.program.classes, ∃ k ∈ c.methods, TakesMethod v r k.ref m.ref

/-- Library classes declare nothing. -/
theorem libraryKept_of_isEmpty {r : MergeResult} (h : ∀ c ∈ v.program.classes, c.isLibrary = true → c.fields.isEmpty ∧ c.methods.isEmpty) :
    LibraryKept v r := by
  constructor
  · intro c hc hlib f hf
    rw [List.isEmpty_iff.1 (h c hc hlib).1] at hf
    cases hf
  · intro c hc hlib m hm
    rw [List.isEmpty_iff.1 (h c hc hlib).2] at hm
    cases hm

section

variable {r : MergeResult}

theorem agree_of_unmerged (hhoused : v.program.Housed) (hfields : v.program.HousesFields)
    (hprogram : r.program = v.program) (hlens : r.lens = v.lens) : Agree hash v maxGroupSize r := by
  have hfield (f : FieldRef) : TakesField v r f f := by
    rw [TakesField, hlens, Lens.lookupField, Lens.forward_self]
    rfl
  have hmethod (m : MethodRef) : TakesMethod v r m m := by
    intro context kind
    rw [hlens]
    exact Lens.lookupMethod_self v.lens m context kind
  refine ⟨fun c hc f hf => ⟨f.ref, hfield _, ?_⟩, fun c hc m hm => ⟨m.ref, hmethod _, ?_⟩, fun c hc m hm d hd k hk _ _ new htakes htakes' => ?_,
    fun _ d hd f hf => .inr ⟨d, hprogram ▸ hd, f, hf, hfield _⟩, fun _ d hd m hm => .inr ⟨d, hprogram ▸ hd, m, hm, hmethod _⟩⟩
  · rw [hprogram, Program.field?, hfields c hc f hf, Program.mem_classes.1 hc]
    exact List.find?_isSome.2 ⟨f, hf, by simp⟩
  · rw [hprogram, Program.method?, hhoused c hc m hm, Program.mem_classes.1 hc]
    exact List.find?_isSome.2 ⟨m, hm, by simp⟩
  · have hself {m : MethodRef} (htakes : TakesMethod v r m new) : m = new := by
      obtain ⟨found, hfound, href⟩ := htakes none .direct
      obtain ⟨found', hfound', href'⟩ := hmethod m none .direct
      cases hfound.symm.trans hfound'
      exact href'.symm.trans href
    rw [hself htakes, hself htakes']

/-- **The lens and the program of a merge agree.** Every member is taken to one that the merged
    program declares, methods that are no initializers are taken to different ones, and unless a
    class declares a member twice, there is nothing in the merged program that no member is
    taken to, but class ids and what stands for initializers. -/
theorem members_agree (hv : v.program.ArraysLast) (hhoused : v.program.Housed) (hfields : v.program.HousesFields)
    (hrun : run hash v maxGroupSize = .ok r) (hlib : LibraryKept v r) : Agree hash v maxGroupSize r := by
  rcases run_eq_ok hrun with ⟨-, hprogram, hlens⟩ | ⟨P, hplan, -, hprogram, hbuild⟩
  · exact agree_of_unmerged hhoused hfields hprogram hlens
  have h := valid_of_planned hplan
  have hconflict := (Recorder.exists_lookup_of_build hbuild ⟨.object, "", .void⟩ none .direct).1
  have hspares : P.SparesLibrary v.program := by
    refine ⟨fun c hc hlibrary f hf => ?_, fun c hc hlibrary m hm => ?_⟩
    · rw [← h.lookupType_eq hbuild]
      exact hlib.fields c hc hlibrary f hf
    · have htypes : ∀ t ∈ m.ref.proto.types, P.placement.merges.type t = t :=
        fun t ht => (h.lookupType_eq hbuild t).symm.trans (hlib.methods c hc hlibrary m hm t ht)
      rw [MergeMap.proto, Prototype.mapTypes, htypes _ List.mem_cons_self,
        List.map_congr_left fun t ht => htypes t (List.mem_cons_of_mem _ ht), List.map_id']
  have hfield (f f' : FieldRef) : TakesField v r f f' ↔ P.recorder.moves.mapField f = f' := by
    rw [TakesField, Recorder.lookupField_of_build hbuild]
  have hmethod (m m' : MethodRef) : TakesMethod v r m m' ↔ P.recorder.moves.mapMethod m = m' := by
    constructor
    · intro htakes
      obtain ⟨found, hfound, href⟩ := htakes none .direct
      obtain ⟨-, found', hfound', href'⟩ := Recorder.exists_lookup_of_build hbuild m none .direct
      cases hfound.symm.trans hfound'
      exact href'.symm.trans href
    · rintro rfl context kind
      exact (Recorder.exists_lookup_of_build hbuild m context kind).2
  have hfieldGoes {c : ClassDef} (hc : c ∈ v.program.classes) {f : FieldDef} (hf : f ∈ c.fields) :=
    h.goes_mapField hv hhoused hfields hspares hconflict ⟨c, hc, f, hf, rfl⟩
  have hmethodGoes {c : ClassDef} (hc : c ∈ v.program.classes) {m : MethodDef} (hm : m ∈ c.methods) :=
    h.goes_mapMethod hhoused hfields hspares hconflict ⟨c, hc, m, hm, rfl⟩
  refine ⟨fun c hc f hf => ⟨_, (hfield _ _).2 rfl, ?_⟩, fun c hc m hm => ⟨_, (hmethod _ _).2 rfl, ?_⟩,
    fun c hc m hm d hd k hk hinit hinit' new htakes htakes' => ?_, fun honce d hd f hf => ?_, fun honce d hd m hm => ?_⟩
  · rw [hprogram]
    exact h.declared_field hfields (hfieldGoes hc hf)
  · rw [hprogram]
    exact h.declared_method hhoused (hmethodGoes hc hm)
  · rw [hmethod] at htakes htakes'
    exact h.eq_of_methodGoes hhoused hinit hinit' (htakes ▸ hmethodGoes hc hm) (htakes' ▸ hmethodGoes hd hk)
  · rw [hprogram] at hd
    rcases h.field_origin hfields honce hd hf with hid | ⟨c, hc, k, hk, hunique⟩
    · exact .inl ⟨P, hplan, hid⟩
    · exact .inr ⟨c, hc, k, hk, (hfield _ _).2 (hunique _ (hfieldGoes hc hk))⟩
  · rw [hprogram] at hd
    rcases h.method_origin hhoused honce hd hm with hmade | ⟨c, hc, k, hk, hunique⟩
    · rw [← (state_of_run hrun hplan).1] at hmade
      exact .inl ⟨P, hplan, hmade⟩
    · exact .inr ⟨c, hc, k, hk, (hmethod _ _).2 (hunique _ (hmethodGoes hc hk))⟩

end

/-! ### Two classes with methods

`A` and `B` become one class. They have static methods with the given names. -/

namespace Named

def type (name : String) : Descriptor := .ofBinaryName ("p/" ++ name)

def method (holder name : String) : MethodRef := ⟨type holder, name, .void⟩

def withMethods (holder : String) (names : List String) : ClassDef where
  type := type holder
  superclass := some .object
  methods := names.map fun name => { ref := method holder name, access := .publicFlag ||| .staticFlag, code := none }

def view (ofA ofB : List String) : View where
  program := .ofList [{ type := .object, kind := .library, superclass := none }, withMethods "A" ofA, withMethods "B" ofB]

/-- The methods of `A` after the merge, those that were synthesized, and where `m` goes. -/
def outcome (ofA ofB : List String) (m : MethodRef) : Option (List MethodRef × List MethodRef × Option MethodRef) :=
  match run .inserted (view ofA ofB) 30 with
  | .ok r => some (((r.program.class? (type "A")).toList.flatMap ClassDef.methods).map MethodDef.ref, r.synthesized,
      (r.lens.lookupMethod m none .direct (view ofA ofB).lens).toOption.map MethodLookup.ref)
  | .error _ => none

/-- A run that has an outcome. -/
theorem exists_run (ofA ofB : List String) (m m' : MethodRef) (methods synthesized : List MethodRef)
    (h : outcome ofA ofB m = some (methods, synthesized, some m')) :
    ∃ r, run .inserted (view ofA ofB) 30 = .ok r ∧
      ((r.program.class? (type "A")).toList.flatMap ClassDef.methods).map MethodDef.ref = methods ∧ r.synthesized = synthesized ∧
      ∀ new, TakesMethod (view ofA ofB) r m new → new = m' := by
  unfold outcome at h
  split at h
  · next r hr =>
    simp only [Option.some.injEq, Prod.mk.injEq, Option.map_eq_some_iff] at h
    obtain ⟨hmethods, hsynthesized, found, hfound, href⟩ := h
    refine ⟨r, hr, hmethods, hsynthesized, fun new htakes => ?_⟩
    obtain ⟨found', hfound', href'⟩ := htakes none .direct
    rw [hfound'] at hfound
    cases hfound
    exact href'.symm.trans href
  · cases h

end Named

/-- If `A` and `B` both declare `m`, the lens takes that of `B` to a new name, which is declared. -/
theorem members_agree_named : ∃ r, run .inserted (Named.view ["m"] ["m"]) 30 = .ok r ∧
    TakesMethod (Named.view ["m"] ["m"]) r (Named.method "B" "m") (Named.method "A" "m$1") ∧
    (r.program.method? (Named.method "A" "m$1")).isSome = true := by
  obtain ⟨r, hrun, -, -, htaken⟩ := Named.exists_run ["m"] ["m"] (Named.method "B" "m") (Named.method "A" "m$1")
    [Named.method "A" "m", Named.method "A" "m$1"] [] (by decide +kernel)
  have hagree := members_agree (v := Named.view ["m"] ["m"]) (by unfold Program.ArraysLast; decide +kernel)
    (by unfold Program.Housed; decide) (by unfold Program.HousesFields; decide) hrun (libraryKept_of_isEmpty (by decide))
  obtain ⟨c, hc, m, hm, heq⟩ : ∃ c ∈ (Named.view ["m"] ["m"]).program.classes, ∃ m ∈ c.methods, m.ref = Named.method "B" "m" := by
    decide
  obtain ⟨m', htakes, hdeclared⟩ := hagree.methods c hc m hm
  rw [heq] at htakes
  obtain rfl := htaken m' htakes
  exact ⟨r, hrun, htakes, hdeclared⟩

/-! ### Members that get lost

What the conditions are for: in each of these programs one of them fails. -/

namespace Lost

/-- The classes, below `java.lang.Object`. -/
def view (cs : List ClassDef) : View where
  program := .ofList ({ type := .object, kind := .library, superclass := none } :: cs)

def field (holder name : String) : FieldDef where
  ref := ⟨Named.type holder, name, .object⟩
  access := .publicFlag ||| .staticFlag

/-- The class `name` lists the static members of `holder`. -/
def listing (name : String) (superclass : Descriptor) (holder : String) (fields methods : List String) : ClassDef :=
  { Named.withMethods holder methods with type := Named.type name, superclass := some superclass, fields := fields.map (field holder) }

/-- `S` and `T` become one class, which renames the members of `T`, and so do `X` and `Z` below
    `T`. What `Z` lists names `X`. -/
def borrowing (fields methods : List String) : View :=
  view [listing "S" .object "S" fields methods, listing "T" .object "T" fields methods, listing "X" (Named.type "T") "X" [] [],
    listing "Z" (Named.type "T") "X" fields methods]

/-- `A` declares the field twice. -/
def repeating (name : String) : View :=
  view [listing "A" .object "A" [name, name] [], listing "B" .object "B" [] []]

def plain (text superclass : String) (access : AccessFlags) (fields : List FieldDef) : ClassDef where
  type := ⟨text⟩
  superclass := some ⟨superclass⟩
  access := access
  fields := fields

def slot (text type : String) : FieldDef where
  ref := ⟨⟨text⟩, "f", ⟨type⟩⟩
  access := .publicFlag

/-- Types that are no types of anything: `foo` becomes `[LB;`, and `goo` becomes `[foo`. The field
    of `LE;` shares a slot with one that widens it to what the field had as its type before. -/
def malformed : View :=
  view [plain "LA;" "Ljava/lang/Object;" .publicFlag [], plain "LB;" "Ljava/lang/Object;" .publicFlag [],
    plain "[LB;" "Ljava/lang/Object;" (.publicFlag ||| .abstractFlag) [], plain "foo" "Ljava/lang/Object;" (.publicFlag ||| .abstractFlag) [],
    plain "[foo" "foo" .publicFlag [], plain "goo" "foo" .publicFlag [], plain "[[[LA;" "LX;" .publicFlag [], plain "LX;" "[[foo" .publicFlag [],
    plain "LE;" "Ljava/lang/Object;" .publicFlag [slot "LE;" "[[[LB;"], plain "LF;" "Ljava/lang/Object;" .publicFlag [slot "LF;" "LX;"],
    plain "LG;" "Ljava/lang/Object;" .publicFlag [slot "LG;" "[goo"]]

/-- The run succeeds, and what the lens takes the field to is not declared. -/
def losesField (v : View) (f : FieldRef) : Bool :=
  match run .inserted v 30 with
  | .ok r => (r.program.field? (r.lens.lookupField f v.lens).ref).isNone
  | .error _ => false

/-- The run succeeds, and what the lens takes the method to is not declared. -/
def losesMethod (v : View) (m : MethodRef) : Bool :=
  match run .inserted v 30 with
  | .ok r => (r.lens.lookupMethod m none .direct v.lens).toOption.any fun found => (r.program.method? found.ref).isNone
  | .error _ => false

/-- The run succeeds, and the field is still declared, but the lens takes it somewhere else. -/
def gainsField (v : View) (f : FieldRef) : Bool :=
  match run .inserted v 30 with
  | .ok r => (r.program.field? f).isSome && (r.lens.lookupField f v.lens).ref != f
  | .error _ => false

end Lost

/-- The program has a field that the lens takes to nothing. -/
def LosesField (v : View) : Prop :=
  ∃ r, run .inserted v 30 = .ok r ∧ LibraryKept v r ∧ ∃ c ∈ v.program.programClasses, ∃ f ∈ c.fields,
    ∀ f', TakesField v r f.ref f' → r.program.field? f' = none

/-- The program has a method that the lens takes to nothing. -/
def LosesMethod (v : View) : Prop :=
  ∃ r, run .inserted v 30 = .ok r ∧ LibraryKept v r ∧ ∃ c ∈ v.program.programClasses, ∃ m ∈ c.methods,
    ∀ m', TakesMethod v r m.ref m' → r.program.method? m' = none

theorem losesField_of_lost {v : View} {f : FieldRef} (hlost : Lost.losesField v f = true)
    (hlib : ∀ c ∈ v.program.classes, c.isLibrary = true → c.fields.isEmpty ∧ c.methods.isEmpty)
    (hf : ∃ c ∈ v.program.programClasses, ∃ d ∈ c.fields, d.ref = f) : LosesField v := by
  unfold Lost.losesField at hlost
  split at hlost
  · next r hr =>
    obtain ⟨c, hc, d, hd, rfl⟩ := hf
    refine ⟨r, hr, libraryKept_of_isEmpty hlib, c, hc, d, hd, ?_⟩
    rintro f' rfl
    exact Option.isNone_iff_eq_none.1 hlost
  · cases hlost

theorem losesMethod_of_lost {v : View} {m : MethodRef} (hlost : Lost.losesMethod v m = true)
    (hlib : ∀ c ∈ v.program.classes, c.isLibrary = true → c.fields.isEmpty ∧ c.methods.isEmpty)
    (hm : ∃ c ∈ v.program.programClasses, ∃ d ∈ c.methods, d.ref = m) : LosesMethod v := by
  unfold Lost.losesMethod at hlost
  split at hlost
  · next r hr =>
    obtain ⟨c, hc, d, hd, rfl⟩ := hm
    refine ⟨r, hr, libraryKept_of_isEmpty hlib, c, hc, d, hd, fun m' htakes => ?_⟩
    obtain ⟨found, hfound, rfl⟩ := htakes none .direct
    rw [hfound] at hlost
    exact Option.isNone_iff_eq_none.1 hlost
  · cases hlost

/-- The merged program has a field that the lens takes nothing to. -/
def GainsField (v : View) : Prop :=
  ∃ r, run .inserted v 30 = .ok r ∧ LibraryKept v r ∧ ∃ d ∈ r.program.classes, ∃ f ∈ d.fields, ¬ IsClassId .inserted v 30 f ∧
    ¬ ∃ c ∈ v.program.classes, ∃ k ∈ c.fields, TakesField v r k.ref f.ref

/-- The merged program has a method that the lens takes nothing to. -/
def GainsMethod (v : View) : Prop :=
  ∃ r, run .inserted v 30 = .ok r ∧ LibraryKept v r ∧ ∃ d ∈ r.program.classes, ∃ m ∈ d.methods,
    ¬ StandsForInitializers .inserted v 30 r m ∧ ¬ ∃ c ∈ v.program.classes, ∃ k ∈ c.methods, TakesMethod v r k.ref m.ref

/-- If `A` declares `m` twice, `m` is still declared after the merge, but the lens takes nothing
    to it. -/
theorem repeated_method_gained : GainsMethod (Named.view ["m", "m"] []) := by
  obtain ⟨r, hrun, hmethods, hsynthesized, htaken⟩ := Named.exists_run ["m", "m"] [] (Named.method "A" "m")
    (Named.method "A" "m$1") [Named.method "A" "m", Named.method "A" "m$1"] [] (by decide +kernel)
  have hmem : Named.method "A" "m" ∈ ((r.program.class? (Named.type "A")).toList.flatMap ClassDef.methods).map MethodDef.ref := by
    rw [hmethods]
    exact List.mem_cons_self
  obtain ⟨m, hm, href⟩ := List.mem_map.1 hmem
  obtain ⟨d, hd, hm⟩ := List.mem_flatMap.1 hm
  refine ⟨r, hrun, libraryKept_of_isEmpty (by decide), d, ?_, m, hm, ?_, ?_⟩
  · have hget := Option.mem_toList.1 hd
    rw [Program.mem_classes, Program.type_of_class? hget]
    exact hget
  · rintro ⟨P, -, g, -, hmade⟩
    cases hmade with
    | helper x hx n hname hproto hstatic hcode =>
      rw [href] at hname
      exact numbered_ne (by decide) n hname.symm
    | dispatcher c hin hstatic hcode hshaped hsound harguments =>
      rw [hsynthesized] at hin
      cases hin
  · rintro ⟨c, hc, k, hk, htakes⟩
    have hall : ∀ c ∈ (Named.view ["m", "m"] []).program.classes, ∀ k ∈ c.methods, k.ref = Named.method "A" "m" := by decide
    rw [hall c hc k hk, href] at htakes
    exact absurd (htaken _ htakes) (by decide)

/-- The same goes for fields. -/
theorem repeated_field_gained : GainsField (Lost.repeating "f") := by
  obtain ⟨r, hrun, hgained⟩ : ∃ r, run .inserted (Lost.repeating "f") 30 = .ok r ∧
      ((r.program.field? (Lost.field "A" "f").ref).isSome &&
        (r.lens.lookupField (Lost.field "A" "f").ref (Lost.repeating "f").lens).ref != (Lost.field "A" "f").ref) = true := by
    have hrun : Lost.gainsField (Lost.repeating "f") (Lost.field "A" "f").ref = true := by decide +kernel
    unfold Lost.gainsField at hrun
    split at hrun
    · next r hr => exact ⟨r, hr, hrun⟩
    · cases hrun
  obtain ⟨hsome, hne⟩ := Bool.and_eq_true_iff.1 hgained
  obtain ⟨f, hf⟩ := Option.isSome_iff_exists.1 hsome
  obtain ⟨d, hd, hfind⟩ := Option.bind_eq_some_iff.1 hf
  have href : f.ref = (Lost.field "A" "f").ref := by simpa using List.find?_some hfind
  refine ⟨r, hrun, libraryKept_of_isEmpty (by decide), d, ?_, f, List.mem_of_find?_eq_some hfind, ?_, ?_⟩
  · rw [Program.mem_classes, Program.type_of_class? hd]
    exact hd
  · rintro ⟨P, hplan, g, hg, hid⟩
    obtain ⟨t, heq, -⟩ := (valid_of_planned hplan).groups.classId g hg f.ref hid
    rw [href] at heq
    have htype : Descriptor.object = Descriptor.int := congrArg FieldRef.type heq
    exact absurd htype (by decide)
  · rintro ⟨c, hc, k, hk, htakes⟩
    have hall : ∀ c ∈ (Lost.repeating "f").program.classes, ∀ k ∈ c.fields, k.ref = (Lost.field "A" "f").ref := by decide
    rw [hall c hc k hk, href] at htakes
    rw [htakes] at hne
    exact absurd hne (by simp)

/-- Without the conditions it fails: for a class that declares a method or a field twice, for one
    that lists a method or a field of another one, and for malformed types. -/
theorem members_disagree :
    (((Named.view ["m", "m"] []).program.ArraysLast ∧ (Named.view ["m", "m"] []).program.Housed ∧
      (Named.view ["m", "m"] []).program.HousesFields) ∧ GainsMethod (Named.view ["m", "m"] [])) ∧
    (((Lost.repeating "f").program.ArraysLast ∧ (Lost.repeating "f").program.Housed ∧ (Lost.repeating "f").program.HousesFields) ∧
      GainsField (Lost.repeating "f")) ∧
    (((Lost.borrowing [] ["m"]).program.ArraysLast ∧ (Lost.borrowing [] ["m"]).program.HousesFields) ∧
      LosesMethod (Lost.borrowing [] ["m"])) ∧
    (((Lost.borrowing ["f"] []).program.ArraysLast ∧ (Lost.borrowing ["f"] []).program.Housed) ∧
      LosesField (Lost.borrowing ["f"] [])) ∧
    ((Lost.malformed.program.Housed ∧ Lost.malformed.program.HousesFields) ∧ LosesField Lost.malformed) := by
  refine ⟨⟨?_, repeated_method_gained⟩, ⟨?_, repeated_field_gained⟩, ⟨?_, ?_⟩, ⟨?_, ?_⟩, ?_, ?_⟩
  · unfold Program.ArraysLast Program.Housed Program.HousesFields
    decide
  · unfold Program.ArraysLast Program.Housed Program.HousesFields
    decide
  · unfold Program.ArraysLast Program.HousesFields
    decide
  · exact losesMethod_of_lost (m := Named.method "X" "m") (by decide +kernel) (by decide) (by decide)
  · unfold Program.ArraysLast Program.Housed
    decide
  · exact losesField_of_lost (f := (Lost.field "X" "f").ref) (by decide +kernel) (by decide) (by decide)
  · unfold Program.Housed Program.HousesFields
    decide
  · exact losesField_of_lost (f := (Lost.slot "LE;" "[[[LB;").ref) (by decide +kernel) (by decide) (by decide)

end Merging

end DexShrinker
