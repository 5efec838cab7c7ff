/-
  DexShrinker/Proofs/Merging/Pins.lean
  ====================================
  **Which pins survive a merge.**

  No class that is pinned, or that a pinned member names, is in a group. So pinned types stay,
  and so do pinned fields: fields only get another name if another field comes to have their
  type. A pinned method keeps its signature exactly when nothing takes it that its class
  inherits after the merge, or that its class comes to declare (`Merging.pinned_kept`). Placing
  methods does not look at pins, and a method that a merge puts above its class can take it
  (`Merging.pinned_method_renamed`).
-/
import DexShrinker.Proofs.Merging.Fitting
import DexShrinker.Proofs.Merging.Resolution
import DexShrinker.Proofs.Merging.Moves
import DexShrinker.Proofs.Unboxing.Resolution

namespace DexShrinker

open Std

namespace Merging

variable {hash : HashOrder} {v : View} {maxGroupSize : Nat} {P : Plan}

/-! ### What is pinned is not merged -/

/-- No class of a group is pinned or named by a pinned member. -/
theorem contains_visibleTypes (hplan : planned hash v maxGroupSize = .ok (some P)) :
    ∀ g ∈ P.groups, ∀ t ∈ g.classes, (Policy.visibleTypes v.pins).contains t = false := by
  obtain ⟨⟨groups, report⟩, hgroups, hplan⟩ := bind_eq_ok.1 hplan
  simp only at hplan
  split at hplan
  · cases hplan
  · obtain ⟨⟨p, st⟩, -, hplan⟩ := bind_eq_ok.1 hplan
    cases hplan
    intro g hg t ht
    obtain ⟨hg, -⟩ := List.mem_filter.1 hg
    obtain ⟨c, hc, rfl⟩ := (Policy.mergedGroups_of_run hgroups).program g hg t ht
    simpa using Policy.admits_of_run .noKeepRules (fun _ => rfl) (by decide) (Policy.candidates_spec _).1 hgroups hg
      (Program.mem_programClasses.1 hc).1 ht

/-- The type is of no group. -/
def Plan.Spares (P : Plan) (t : Descriptor) : Prop := ∀ g ∈ P.groups, t.base ∉ g.classes

namespace Plan.Valid

/-- Types that no pin lets a merge touch. -/
theorem spares (h : P.Valid v) (hv : v.program.WellFormed) (hplan : planned hash v maxGroupSize = .ok (some P)) {t : Descriptor}
    (ht : t.base ∈ v.pins.types ∨ (∃ f ∈ v.pins.fields, f.holder.base = t.base ∨ f.type.base = t.base) ∨
      ∃ m ∈ v.pins.methods, m.holder.base = t.base ∨ ∃ s ∈ m.proto.types, s.base = t.base) : P.Spares t := by
  intro g hg hmem
  obtain ⟨c, hc, htype⟩ := h.groups.program g hg _ hmem
  have hclass := hv.isClass c (Program.mem_classes_of_mem_programClasses hc)
  rw [htype] at hclass
  have hvisible := Policy.mem_visibleTypes (k := v.pins) (t := t.base) (ht.imp id fun ht => ⟨hclass, ht⟩)
  rw [contains_visibleTypes hplan g hg _ hmem] at hvisible
  cases hvisible

theorem type_of_spares (h : P.Valid v) {t : Descriptor} (ht : P.Spares t) : P.type t = t := by
  have hget : P.placement.merges.targets.getD t.base t.base = t.base := by
    rw [h.merges, TreeMap.getD_eq_getD_getElem?, MergeMap.getElem?_ofGroups_of_not_mem h.groups ht]
    rfl
  unfold Plan.type MergeMap.type Descriptor.mapBase
  split
  · next harray =>
    dsimp only
    rw [hget, Descriptor.replaceBase_base harray]
  · next harray =>
    rw [Descriptor.base, if_neg harray] at hget
    exact hget

/-- No other type comes to be a type of no group. -/
theorem type_eq_iff_of_spares (h : P.Valid v) (hv : v.program.WellFormed) {t : Descriptor} (ht : P.Spares t) (s : Descriptor) :
    P.type s = t ↔ s = t := by
  constructor
  · intro heq
    by_cases hs : P.Spares s
    · exact (h.type_of_spares hs).symm.trans heq
    · simp only [Plan.Spares, not_forall, not_not] at hs
      obtain ⟨g, hg, hmem⟩ := hs
      obtain ⟨c, -, htarget, htargetMem, -⟩ := h.target_class hg
      have hto : t.base = c.type := by rw [← heq, h.base_type hv, h.type_of_mem hv hg hmem htarget]
      refine absurd htargetMem ?_
      exact hto ▸ ht g hg
  · rintro rfl
    exact h.type_of_spares ht

theorem proto_of_spares (h : P.Valid v) {q : Prototype} (hq : ∀ t ∈ q.types, P.Spares t) : P.placement.merges.proto q = q := by
  have hreturn : P.placement.merges.type q.returnType = q.returnType := h.type_of_spares (hq q.returnType List.mem_cons_self)
  have hparameters : q.parameters.map P.placement.merges.type = q.parameters :=
    (List.map_congr_left fun t ht => h.type_of_spares (hq t (List.mem_cons_of_mem _ ht))).trans (List.map_id _)
  rw [MergeMap.proto, Prototype.mapTypes, hreturn, hparameters]

end Plan.Valid

/-! ### Classes of no group -/

/-- Members are in the classes that they name as their holders, and no program class declares
    one of them twice. -/
structure Tidy (p : Program) : Prop where
  housed : p.Housed
  housedFields : ∀ c ∈ p.classes, ∀ f ∈ c.fields, f.ref.holder = c.type
  methods : ∀ c ∈ p.programClasses, (c.methods.map (·.ref)).Nodup
  fields : ∀ c ∈ p.programClasses, (c.fields.map (·.ref)).Nodup

/-- The class `d` is what has become of `c`, a class of no group. -/
structure Plan.Keeps (P : Plan) (c d : ClassDef) : Prop where
  unplaced : .ofClass P.placement.merges c ∈ P.classes
  placed : d ∈ P.last.placed
  type : d.type = c.type
  fields : ∃ r, d.fields = (P.placement.placeFields (UnplacedClass.ofClass P.placement.merges c).shell r c.fields).1.fields
  methods : d.methods.length = c.methods.length
  trail : ∃ first rest st last, st.reserved = [] ∧ st.table = P.inSight (.ofClass P.placement.merges c) ∧
    Placement.Trail P.placement c.type st (first ++ rest) last ∧ (first ++ rest).Perm (c.methods.zip d.methods) ∧
    (∀ x ∈ first, P.placement.overrides (P.inSight (.ofClass P.placement.merges c)) x.1 = true) ∧
    ∀ x ∈ rest, P.placement.overrides (P.inSight (.ofClass P.placement.merges c)) x.1 = false

namespace Plan.Valid

variable {c d : ClassDef}

theorem not_mem_of_spares (hv : v.program.WellFormed) (hc : c ∈ v.program.programClasses) (hspares : P.Spares c.type) :
    ∀ g ∈ P.groups, c.type ∉ g.classes := by
  intro g hg
  have hbase := hspares g hg
  have harray := hv.notArray c (Program.mem_classes_of_mem_programClasses hc)
  rwa [Descriptor.base, if_neg (by simp [harray])] at hbase

theorem exists_keeps (h : P.Valid v) (hv : v.program.WellFormed) (hc : c ∈ v.program.programClasses) (hspares : P.Spares c.type) :
    ∃ d, P.Keeps c d := by
  have hno := not_mem_of_spares hv hc hspares
  have hu : .ofClass P.placement.merges c ∈ P.classes := by
    refine List.mem_filterMap.2 ⟨c, by rw [h.program]; exact hc, ?_⟩
    rcases h.unplaced?_cases hc with ⟨-, hu⟩ | ⟨g, hg, hmem, -⟩
    · exact hu
    · exact absurd hmem (hno g hg)
  obtain ⟨rank, hlayered⟩ := h.layered hv
  have hsettled := Placement.settled_walk hlayered P.state.log (shell_mem_visited hu)
  rw [Placement.Settled, h.find?_shell hu] at hsettled
  obtain ⟨log, -, hplaced⟩ := hsettled
  obtain ⟨fs, ms, first, rest, st, last, hd, hms, -, -, hreserved, htable, -, htrail, hperm, hfirst, hrest⟩ :=
    Placement.exists_placeClass P.placement (.ofClass P.placement.merges c) (P.inSight (.ofClass P.placement.merges c)) log
  obtain ⟨r, hfields⟩ := Placement.fields_placeClass P.placement (.ofClass P.placement.merges c)
    (P.inSight (.ofClass P.placement.merges c)) log
  change (P.placement.placeClass _ (P.inSight _) log).1 ∈ P.last.placed at hplaced
  rw [hd] at hplaced hfields
  exact ⟨_, hu, hplaced, rfl, ⟨r, hfields⟩, hms, first, rest, st, last, hreserved, htable, htrail, hperm, hfirst, hrest⟩

/-- A method of a class of no group is placed with that class. -/
theorem eq_ofClass_of_method (h : P.Valid v) (hv : v.program.WellFormed) (htidy : Tidy v.program)
    (hc : c ∈ v.program.programClasses) (hspares : P.Spares c.type) {u : UnplacedClass} (hu : u ∈ P.classes) {m : MethodDef}
    (hm : m ∈ u.methods) (hholder : m.ref.holder = c.type) : u = .ofClass P.placement.merges c := by
  have hc' := Program.mem_classes_of_mem_programClasses hc
  rcases h.classes_cases hu with ⟨e, he, -, rfl⟩ | ⟨g, hg, hcomes⟩
  · have he' := Program.mem_classes_of_mem_programClasses he
    rw [Program.eq_of_type he' hc' ((htidy.housed e he' m hm).symm.trans hholder)]
  · obtain ⟨t, ht, e, he, hme⟩ := hcomes.methods hm
    rw [h.program] at he
    obtain rfl := Program.type_of_class? he
    have hsame := (htidy.housed e (Program.mem_classes.2 he) m hme).symm.trans hholder
    exact absurd (hsame ▸ ht) (not_mem_of_spares hv hc hspares g hg)

/-- A field of a class of no group is placed with that class. -/
theorem eq_ofClass_of_field (h : P.Valid v) (hv : v.program.WellFormed) (htidy : Tidy v.program)
    (hc : c ∈ v.program.programClasses) (hspares : P.Spares c.type) {u : UnplacedClass} (hu : u ∈ P.classes) {f : FieldDef}
    (hf : f ∈ u.fields) (hholder : f.ref.holder = c.type) : u = .ofClass P.placement.merges c := by
  have hc' := Program.mem_classes_of_mem_programClasses hc
  rcases h.classes_cases hu with ⟨e, he, -, rfl⟩ | ⟨g, hg, hcomes⟩
  · have he' := Program.mem_classes_of_mem_programClasses he
    rw [Program.eq_of_type he' hc' ((htidy.housedFields e he' f hf).symm.trans hholder)]
  · obtain ⟨t, ht, e, he, hfe⟩ := hcomes.fields hf
    rw [h.program] at he
    obtain rfl := Program.type_of_class? he
    have hsame := (htidy.housedFields e (Program.mem_classes.2 he) f hfe).symm.trans hholder
    exact absurd (hsame ▸ ht) (not_mem_of_spares hv hc hspares g hg)

theorem eq_of_keeps (h : P.Valid v) (hkeeps : P.Keeps c d) {e : ClassDef} (he : e ∈ P.last.placed)
    (htype : e.type = c.type) : e = d :=
  h.eq_of_placed he hkeeps.placed (htype.trans hkeeps.type.symm)

/-- A method that keeps its name is not recorded as moved. -/
theorem methods_eq_none (h : P.Valid v) (hv : v.program.WellFormed) (htidy : Tidy v.program) (hc : c ∈ v.program.programClasses)
    (hspares : P.Spares c.type) (hkeeps : P.Keeps c d) {m : MethodDef} (hm : m ∈ c.methods)
    (hkept : ∀ x ∈ c.methods.zip d.methods, x.1.ref = m.ref → x.2.ref = m.ref) :
    P.recorder.moves.methods[m.ref]? = none := by
  have hc' := Program.mem_classes_of_mem_programClasses hc
  have hholder : m.ref.holder = c.type := htidy.housed c hc' m hm
  have hobeys := h.obeys (R := ⟨fun _ _ => True, fun old _ => old ≠ m.ref, fun _ _ => True, fun _ _ => True, fun _ _ => True,
    fun _ _ => True⟩) ?_ ?_
  · cases hget : P.recorder.moves.methods[m.ref]? with
    | none => rfl
    | some new => exact absurd rfl (hobeys.methods m.ref new hget)
  · refine fun g hg => ⟨fun _ _ _ _ => trivial, fun _ target _ bucket hbucket i hi => ⟨fun heq => ?_, trivial, fun _ => trivial, fun _ => trivial⟩⟩
    obtain ⟨t, ht, e, he, hie⟩ := exists_class_of_initializers (InitMerge.of_mem_bucket hbucket hi).2.2.1
    rw [h.program] at he
    obtain rfl := Program.type_of_class? he
    have hsame := htidy.housed e (Program.mem_classes.2 he) i.method hie
    rw [heq, hholder] at hsame
    exact not_mem_of_spares hv hc hspares g hg (hsame ▸ ht)
  · intro u hu e he htype
    refine ⟨fun _ _ _ => ⟨trivial, fun _ _ _ _ => trivial⟩, fun _ _ _ => ⟨trivial, fun _ _ _ _ => trivial⟩,
      fun x hx => ⟨?_, ?_, fun _ _ _ _ => trivial⟩⟩
    · intro hne heq
      obtain rfl := h.eq_ofClass_of_method hv htidy hc hspares hu (List.of_mem_zip hx).1 (by rw [heq, hholder])
      obtain rfl := h.eq_of_keeps hkeeps he htype
      exact hne (heq.trans (hkept x hx heq).symm)
    · intro _ _ _ sub hsub _ heq
      obtain ⟨e, he, rfl, hdeclares⟩ := Program.exists_of_mem_inheritors hsub
      rw [h.program] at he
      have hsignature : x.1.ref.signature = m.ref.signature := by
        rw [← heq]
        rfl
      obtain rfl := Program.eq_of_type he hc' ((congrArg MethodRef.holder heq).trans hholder)
      rw [hsignature, ClassDef.methodBySignature?, Option.isSome_eq_false_iff, Option.isNone_iff_eq_none, List.find?_eq_none] at hdeclares
      exact hdeclares m hm (by simp)

/-- A field that keeps its name is not recorded as moved. -/
theorem fields_eq_none (h : P.Valid v) (hv : v.program.WellFormed) (htidy : Tidy v.program) (hc : c ∈ v.program.programClasses)
    (hspares : P.Spares c.type) (hkeeps : P.Keeps c d) {f : FieldDef} (hf : f ∈ c.fields)
    (hkept : ∀ x ∈ c.fields.zip d.fields, x.1.ref = f.ref → x.2.ref = f.ref) :
    P.recorder.moves.fields[f.ref]? = none := by
  have hc' := Program.mem_classes_of_mem_programClasses hc
  have hholder : f.ref.holder = c.type := htidy.housedFields c hc' f hf
  have hobeys := h.obeys (R := ⟨fun old _ => old ≠ f.ref, fun _ _ => True, fun _ _ => True, fun _ _ => True, fun _ _ => True,
    fun _ _ => True⟩) ?_ ?_
  · cases hget : P.recorder.moves.fields[f.ref]? with
    | none => rfl
    | some new => exact absurd rfl (hobeys.fields f.ref new hget)
  · exact fun g hg => ⟨fun _ _ _ _ => trivial, fun _ _ _ _ _ _ _ => ⟨trivial, trivial, fun _ => trivial, fun _ => trivial⟩⟩
  · intro u hu e he htype
    have hinherited (old : FieldRef) (sub : Descriptor) (hsub : sub ∈ P.placement.fieldInheritors old) :
        { old with holder := sub } ≠ f.ref := by
      intro heq
      obtain ⟨e, he, rfl, hdeclares⟩ := Program.exists_of_mem_inheritors hsub
      rw [h.program] at he
      obtain rfl := Program.eq_of_type he hc' ((congrArg FieldRef.holder heq).trans hholder)
      rw [heq, ClassDef.field?, Option.isSome_eq_false_iff, Option.isNone_iff_eq_none, List.find?_eq_none] at hdeclares
      exact hdeclares f hf (by simp)
    refine ⟨fun x hx hne => ⟨fun heq => ?_, fun _ sub hsub _ => hinherited x.1 sub hsub⟩,
      fun x hx hne => ⟨fun heq => ?_, fun _ sub hsub _ => hinherited x.1.ref sub hsub⟩,
      fun _ _ => ⟨fun _ => trivial, fun _ _ _ _ _ _ => trivial, fun _ _ _ _ => trivial⟩⟩
    · rcases h.classes_cases hu with ⟨e, -, -, rfl⟩ | ⟨g, hg, hcomes⟩
      · cases hx
      · obtain ⟨e, he, hmem, f', hf', hxf⟩ := h.exists_of_fieldMoves hg hcomes hx
        have hsame := htidy.housedFields e he f' hf'
        rw [← hxf, heq, hholder] at hsame
        exact not_mem_of_spares hv hc hspares g hg (hsame ▸ hmem)
    · obtain rfl := h.eq_ofClass_of_field hv htidy hc hspares hu (List.of_mem_zip hx).1 (by rw [heq, hholder])
      obtain rfl := h.eq_of_keeps hkeeps he htype
      exact hne (heq.trans (hkept x hx heq).symm)

theorem types_of_spares (h : P.Valid v) {t : Descriptor} (ht : P.Spares t) :
    P.recorder.moves.types[t.base]? = none := by
  rw [recorder, types_foldl_recordTypes h.groups h.types_last]
  exact MergeMap.getElem?_ofGroups_of_not_mem h.groups ht

end Plan.Valid

/-! ### Pins after a merge -/

/-- The lens leaves the type alone, and there is a class for it. -/
structure KeepsType (v : View) (r : MergeResult) (t : Descriptor) : Prop where
  lens : r.lens.lookupType t v.lens = t
  program : (r.program.class? t).isSome = true

/-- The lens leaves the field alone, and it is declared. -/
structure KeepsField (v : View) (r : MergeResult) (f : FieldRef) : Prop where
  lens : (r.lens.lookupField f v.lens).ref = f
  program : (r.program.field? f).isSome = true

/-- The lens leaves the method alone, and it is declared. -/
structure KeepsMethod (v : View) (r : MergeResult) (m : MethodRef) : Prop where
  lens : ∀ context kind, ∃ found, r.lens.lookupMethod m context kind v.lens = .ok found ∧ found.ref = m
  program : (r.program.method? m).isSome = true

/-- Nothing takes the signature of the method `m` of `c`: neither what `c` inherits after the
    merge nor another method of `c`. -/
structure Undisturbed (hash : HashOrder) (v : View) (maxGroupSize : Nat) (c : ClassDef) (m : MethodDef) : Prop where
  sight : ∀ P, planned hash v maxGroupSize = .ok (some P) →
    Placement.LeftAlone v.program (P.inSight (.ofClass P.placement.merges c)) m
  others : ∀ k ∈ c.methods, k.ref ≠ m.ref → ∀ k', Placed hash v maxGroupSize c k k' → k'.ref.signature ≠ m.ref.signature

namespace Plan.Valid

variable {c d : ClassDef}

theorem placed_iff (h : P.Valid v) (hplan : planned hash v maxGroupSize = .ok (some P))
    (hc : c ∈ v.program.programClasses) (hspares : P.Spares c.type) (hkeeps : P.Keeps c d) {m m' : MethodDef} :
    Placed hash v maxGroupSize c m m' ↔ (m, m') ∈ c.methods.zip d.methods := by
  have hprog : c.isLibrary = false := by rw [Program.isLibrary_eq, (List.mem_filter.1 hc).2, Bool.not_true]
  have htype : (UnplacedClass.ofClass P.placement.merges c).shell.type = P.type c.type := (h.type_of_spares hspares).symm
  constructor
  · intro hplaced
    cases hplaced with
    | unmerged hnone => cases hnone.symm.trans hplan
    | library hlib => cases hlib.symm.trans hprog
    | @placed Q u e _ hplan' _ hu hutype he hetype hm =>
      cases hplan'.symm.trans hplan
      obtain rfl : u = .ofClass P.placement.merges c := by
        have hfind := h.find?_shell hu
        rw [hutype, ← htype, h.find?_shell hkeeps.unplaced] at hfind
        exact (Option.some.inj hfind).symm
      rw [h.eq_of_keeps hkeeps he hetype] at hm
      exact hm
  · exact fun hm => .placed hplan hprog hkeeps.unplaced htype hkeeps.placed hkeeps.type hm

/-- **When a method keeps its name.** -/
theorem ref_eq_iff (h : P.Valid v) (htidy : Tidy v.program) (hplan : planned hash v maxGroupSize = .ok (some P))
    (hc : c ∈ v.program.programClasses) (hkeeps : P.Keeps c d) (hspares : P.Spares c.type) {x : MethodDef × MethodDef}
    (hx : x ∈ c.methods.zip d.methods) (hproto : ∀ t ∈ x.1.ref.proto.types, P.Spares t) :
    x.2.ref = x.1.ref ↔ Undisturbed hash v maxGroupSize c x.1 := by
  have hc' := Program.mem_classes_of_mem_programClasses hc
  obtain ⟨first, rest, st, last, hreserved, htable, htrail, hperm, hfirst, hrest⟩ := hkeeps.trail
  have hmem {y : MethodDef × MethodDef} : y ∈ first ++ rest ↔ y ∈ c.methods.zip d.methods := hperm.mem_iff
  have hholder : ∀ y ∈ first ++ rest, y.1.ref.holder = c.type :=
    fun y hy => htidy.housed c hc' y.1 (List.of_mem_zip (hmem.1 hy)).1
  have howns : Placement.Owns (·.holder = c.type) (P.inSight (.ofClass P.placement.merges c)) st := ⟨[], by simp [htable], by simp⟩
  have hdistinct : ((first ++ rest).map (·.1.ref.signature)).Nodup := by
    have hzip : (c.methods.zip d.methods).map (·.1.ref.signature) = c.methods.map (·.ref.signature) := by
      have hfst : (c.methods.zip d.methods).map Prod.fst = c.methods := List.map_fst_zip (Nat.le_of_eq hkeeps.methods.symm)
      conv_rhs => rw [← hfst, List.map_map]
      rfl
    rw [(hperm.map _).nodup_iff, hzip]
    refine List.Nodup.of_map (MethodRef.ofSignature c.type) ?_
    rw [List.map_map]
    refine (List.map_congr_left fun m hm => ?_) ▸ htidy.methods c hc
    exact MethodRef.ext (htidy.housed c hc' m hm) rfl rfl
  have hsignature : P.placement.merges.signature x.1.ref.signature = x.1.ref.signature := by
    exact Signature.ext rfl (h.proto_of_spares hproto)
  have hiff := htrail.signature_eq_iff howns hreserved (Placement.inherited_spec _ _ _).1 hholder hfirst hrest hdistinct (hmem.2 hx) hsignature
  have href : x.2.ref = x.1.ref ↔ x.2.ref.signature = x.1.ref.signature := by
    obtain ⟨before, after, hsplit⟩ := List.append_of_mem (hmem.2 hx)
    obtain ⟨mid, -, -, hplace⟩ := htrail.exists_state howns (fun x hx _ => hholder x hx) hsplit
    have hsame : x.2.ref.holder = x.1.ref.holder := by
      rw [hplace, Placement.holder_place, hholder x (hmem.2 hx)]
    exact ⟨congrArg _, fun heq => MethodRef.ext hsame (congrArg Signature.name heq) (congrArg Signature.proto heq)⟩
  rw [href, hiff, h.program]
  constructor
  · rintro ⟨halone, hothers⟩
    refine ⟨fun Q hQ => ?_, fun k _ hne k' hk' => ?_⟩
    · cases hQ.symm.trans hplan
      exact halone
    · have hy := (h.placed_iff hplan hc hspares hkeeps).1 hk'
      refine hothers (k, k') (hmem.2 hy) fun heq => hne (MethodRef.ext ?_ (congrArg Signature.name heq) (congrArg Signature.proto heq))
      exact (hholder _ (hmem.2 hy)).trans (hholder x (hmem.2 hx)).symm
  · intro hundisturbed
    refine ⟨hundisturbed.sight P hplan, fun y hy hne => ?_⟩
    exact hundisturbed.others y.1 (List.of_mem_zip (hmem.1 hy)).1 (fun heq => hne (congrArg _ heq)) y.2
      ((h.placed_iff hplan hc hspares hkeeps).2 (hmem.1 hy))

section

variable {r : MergeResult}

theorem keepsType (h : P.Valid v) (hv : v.program.WellFormed) (hprogram : r.program = P.program)
    (hlens : P.recorder.build v.lens = .ok r.lens) (hc : c ∈ v.program.programClasses)
    (hspares : P.Spares c.type) : KeepsType v r c.type := by
  obtain ⟨d, hkeeps⟩ := h.exists_keeps hv hc hspares
  constructor
  · rw [Recorder.lookupType_of_build hlens, Renaming.mapType_of_none (h.types_of_spares hspares)]
  · rw [hprogram, ← hkeeps.type, h.class?_placed hkeeps.placed]
    rfl

theorem keepsField (h : P.Valid v) (hv : v.program.WellFormed) (htidy : Tidy v.program) (hprogram : r.program = P.program)
    (hlens : P.recorder.build v.lens = .ok r.lens) (hc : c ∈ v.program.programClasses)
    (hspares : P.Spares c.type) {f : FieldDef} (hf : f ∈ c.fields) (htype : P.Spares f.ref.type) : KeepsField v r f.ref := by
  have hc' := Program.mem_classes_of_mem_programClasses hc
  obtain ⟨d, hkeeps⟩ := h.exists_keeps hv hc hspares
  have hholder := htidy.housedFields c hc' f hf
  obtain ⟨recorder, hfields⟩ := hkeeps.fields
  have hlength : c.fields.length = d.fields.length := by
    obtain ⟨fs, hfs, hplaced⟩ :=
      Placement.exists_fields P.placement (UnplacedClass.ofClass P.placement.merges c).shell recorder c.fields
    rw [hfields, hfs]
    exact hplaced.length.symm
  have hkept : ∀ x ∈ c.fields.zip d.fields, x.1.ref = f.ref → x.2.ref = f.ref := by
    intro x hx heq
    have hnodup : ((c.fields.filter (·.ref.type == f.ref.type)).map (·.ref.name)).Nodup := by
      refine List.Nodup.of_map (fun n => FieldRef.mk c.type n f.ref.type) ?_
      rw [List.map_map]
      refine (List.map_congr_left fun g hg => ?_) ▸ (htidy.fields c hc).sublist (List.filter_sublist.map _)
      obtain ⟨hg, hgtype⟩ := List.mem_filter.1 hg
      exact FieldRef.ext (htidy.housedFields c hc' g hg) rfl (beq_iff_eq.1 hgtype)
    rw [hfields] at hx
    have hshell : (UnplacedClass.ofClass P.placement.merges c).shell.fields = [] := rfl
    have hstays := Placement.fields_placeFields (h.type_eq_iff_of_spares hv htype) (UnplacedClass.ofClass P.placement.merges c).shell
      recorder c.fields hnodup (by simp [hshell]) x hx (by rw [heq])
    rw [hstays, heq]
    exact FieldRef.ext hholder.symm rfl rfl
  constructor
  · have hnone := h.types_of_spares hspares
    rw [Descriptor.base, if_neg (by simp [hv.notArray c hc']), ← hholder] at hnone
    rw [Recorder.lookupField_of_build hlens, Renaming.mapField, TreeMap.getD_eq_getD_getElem?,
      h.fields_eq_none hv htidy hc hspares hkeeps hf hkept, Option.getD_none, Renaming.mapHolder_of_none hnone,
      Renaming.mapType_of_none (h.types_of_spares htype)]
  · obtain ⟨f', hf'⟩ := exists_zip_of_mem hlength hf
    rw [hprogram, Program.field?, hholder, ← hkeeps.type, h.class?_placed hkeeps.placed]
    exact List.find?_isSome.2 ⟨f', (List.of_mem_zip hf').2, by simpa using hkept _ hf' rfl⟩

theorem keepsMethod_iff (h : P.Valid v) (hv : v.program.WellFormed) (htidy : Tidy v.program)
    (hplan : planned hash v maxGroupSize = .ok (some P)) (hprogram : r.program = P.program)
    (hlens : P.recorder.build v.lens = .ok r.lens) (hc : c ∈ v.program.programClasses)
    (hspares : P.Spares c.type) {m : MethodDef} (hm : m ∈ c.methods) (hproto : ∀ t ∈ m.ref.proto.types, P.Spares t) :
    KeepsMethod v r m.ref ↔ Undisturbed hash v maxGroupSize c m := by
  have hc' := Program.mem_classes_of_mem_programClasses hc
  obtain ⟨d, hkeeps⟩ := h.exists_keeps hv hc hspares
  have hholder := htidy.housed c hc' m hm
  obtain ⟨m', hm'⟩ := exists_zip_of_mem hkeeps.methods.symm hm
  rw [← h.ref_eq_iff htidy hplan hc hkeeps hspares hm' hproto]
  have hlookup (context : Option MethodRef) (kind : InvokeKind) := Recorder.exists_lookup_of_build hlens m.ref context kind
  constructor
  · intro hkept
    by_contra hne
    obtain ⟨hconflict, found, hfound, href⟩ := hlookup none .direct
    obtain ⟨found', hfound', href'⟩ := hkept.lens none .direct
    cases hfound.symm.trans hfound'
    have hmoved := ((h.recorded hconflict hkeeps.unplaced hkeeps.placed hkeeps.type).methods (m, m') hm').moved fun heq => hne heq.symm
    rw [href, Renaming.mapMethod, TreeMap.getD_eq_getD_getElem?, hmoved, Option.getD_some] at href'
    exact hne href'
  · intro heq
    have hkept : ∀ x ∈ c.methods.zip d.methods, x.1.ref = m.ref → x.2.ref = m.ref := by
      intro x hx hsame
      rw [eq_of_mem_zip hkeeps.methods.symm (htidy.methods c hc) hx hm' hsame]
      exact heq
    constructor
    · intro context kind
      obtain ⟨-, found, hfound, href⟩ := hlookup context kind
      have hnone := h.types_of_spares hspares
      rw [Descriptor.base, if_neg (by simp [hv.notArray c hc']), ← hholder] at hnone
      refine ⟨found, hfound, ?_⟩
      rw [href, Renaming.mapMethod, TreeMap.getD_eq_getD_getElem?, h.methods_eq_none hv htidy hc hspares hkeeps hm hkept,
        Option.getD_none, Renaming.mapHolder_of_none hnone,
        Renaming.mapProto_of_none fun t ht => h.types_of_spares (hproto t ht)]
    · rw [hprogram, Program.method?, hholder, ← hkeeps.type, h.class?_placed hkeeps.placed]
      exact List.find?_isSome.2 ⟨m', (List.of_mem_zip hm').2, by simpa using heq⟩

end

end Plan.Valid

/-- Without a merge all pins survive. -/
theorem pinned_kept_of_unmerged {r : MergeResult} (htidy : Tidy v.program)
    (hplan : planned hash v maxGroupSize = .ok none) (hprogram : r.program = v.program) (hlens : r.lens = v.lens) {c : ClassDef}
    (hc : c ∈ v.program.programClasses) :
    KeepsType v r c.type ∧ (∀ f ∈ c.fields, KeepsField v r f.ref) ∧
      ∀ m ∈ c.methods, KeepsMethod v r m.ref ∧ Undisturbed hash v maxGroupSize c m := by
  have hc' := Program.mem_classes_of_mem_programClasses hc
  have hget := Program.mem_classes.1 hc'
  refine ⟨⟨?_, ?_⟩, fun f hf => ⟨?_, ?_⟩, fun m hm => ⟨⟨?_, ?_⟩, ?_, ?_⟩⟩
  · rw [hlens, Lens.lookupType, Lens.forward_self]
    rfl
  · rw [hprogram, hget]
    rfl
  · rw [hlens, Lens.lookupField, Lens.forward_self]
    rfl
  · rw [hprogram, Program.field?, htidy.housedFields c hc' f hf, hget]
    exact List.find?_isSome.2 ⟨f, hf, by simp⟩
  · intro context kind
    rw [hlens]
    exact v.lens.lookupMethod_self m.ref context kind
  · rw [hprogram, Program.method?, htidy.housed c hc' m hm, hget]
    exact List.find?_isSome.2 ⟨m, hm, by simp⟩
  · intro P hP
    cases hP.symm.trans hplan
  · intro k hk hne k' hk' heq
    obtain rfl := hk'.eq_of_unmerged hplan
    refine hne (MethodRef.ext ?_ (congrArg Signature.name heq) (congrArg Signature.proto heq))
    rw [htidy.housed c hc' k hk, htidy.housed c hc' m hm]

/-- **Which pins survive a merge.** -/
theorem pinned_kept {r : MergeResult} (hv : v.program.WellFormed) (htidy : Tidy v.program) (hrun : Merging.run hash v maxGroupSize = .ok r)
    {c : ClassDef} (hc : c ∈ v.program.programClasses) :
    (c.type ∈ v.pins.types → KeepsType v r c.type) ∧
      (∀ f ∈ c.fields, f.ref ∈ v.pins.fields → KeepsField v r f.ref) ∧
      ∀ m ∈ c.methods, m.ref ∈ v.pins.methods → (KeepsMethod v r m.ref ↔ Undisturbed hash v maxGroupSize c m) := by
  have hc' := Program.mem_classes_of_mem_programClasses hc
  rcases run_eq_ok hrun with ⟨hplan, hprogram, hlens⟩ | ⟨P, hplan, -, hprogram, hlens⟩
  · obtain ⟨htype, hfields, hmethods⟩ := pinned_kept_of_unmerged htidy hplan hprogram hlens hc
    exact ⟨fun _ => htype, fun f hf _ => hfields f hf, fun m hm _ => ⟨fun _ => (hmethods m hm).2, fun _ => (hmethods m hm).1⟩⟩
  · have hvalid := valid_of_planned hplan
    refine ⟨fun hpin => ?_, fun f hf hpin => ?_, fun m hm hpin => ?_⟩
    · refine hvalid.keepsType hv hprogram hlens hc (hvalid.spares hv hplan (.inl ?_))
      rwa [Descriptor.base, if_neg (by simp [hv.notArray c hc'])]
    · have hholder := htidy.housedFields c hc' f hf
      exact hvalid.keepsField hv htidy hprogram hlens hc (hvalid.spares hv hplan (.inr (.inl ⟨f.ref, hpin, .inl (by rw [hholder])⟩))) hf
        (hvalid.spares hv hplan (.inr (.inl ⟨f.ref, hpin, .inr rfl⟩)))
    · have hholder := htidy.housed c hc' m hm
      exact hvalid.keepsMethod_iff hv htidy hplan hprogram hlens hc
        (hvalid.spares hv hplan (.inr (.inr ⟨m.ref, hpin, .inl (by rw [hholder])⟩))) hm
        fun t ht => hvalid.spares hv hplan (.inr (.inr ⟨m.ref, hpin, .inr ⟨t, ht, rfl⟩⟩))

/-! ### A pinned method that is renamed

`A` and `B` become one class. `C` and `D`, which are below `B`, have pinned methods `run` and
`stop`, and `A` has a method of the name `run` as well. -/

namespace PinnedRun

def type (name : String) : Descriptor := .ofBinaryName ("p/" ++ name)

def method (holder name : String) : MethodDef where
  ref := ⟨type holder, name, .void⟩
  access := .publicFlag
  code := none

def below (name declared : String) : ClassDef where
  type := type name
  superclass := some (type "B")
  methods := [method name declared]

def classes : List ClassDef :=
  [{ type := .object, kind := .library, superclass := none },
    { type := type "A", superclass := some .object, methods := [method "A" "run"] },
    { type := type "B", superclass := some .object }, below "C" "run", below "D" "stop"]

def view : View where
  program := .ofList classes
  pins := { methods := .ofList [(method "C" "run").ref, (method "D" "stop").ref] }

theorem wellFormed : view.program.WellFormed where
  isClass := by decide
  acyclic := by
    refine ⟨fun t => if t = .object then 0 else if t = type "C" ∨ t = type "D" then 2 else 1, ?_⟩
    unfold Program.Ranked
    decide

theorem tidy : Tidy view.program where
  housed := by
    unfold Program.Housed
    decide
  housedFields := by decide
  methods := by decide
  fields := by decide

theorem mem_programClasses {c : ClassDef} (hc : c ∈ classes) (hprog : c.isProgram = true) : c ∈ view.program.programClasses :=
  List.mem_filter.2 ⟨Program.mem_classes.2 (Program.class?_ofList (by decide) hc), hprog⟩

/-- Nothing in sight of a class below `B` takes the signature of its method. -/
def isLeftAlone (name declared : String) : Bool :=
  match planned .inserted view 30 with
  | .ok (some P) =>
    decide (Placement.LeftAlone view.program (P.inSight (.ofClass P.placement.merges (below name declared))) (method name declared))
  | _ => false

/-- What the lens of the merge makes of a method. -/
def found (m : MethodRef) : Option MethodRef :=
  match Merging.run .inserted view 30 with
  | .ok r => (r.lens.lookupMethod m none .virtual view.lens).toOption.map (·.ref)
  | .error _ => none

theorem exists_run_of_found (m m' : MethodRef) (h : found m = some m') :
    ∃ r, Merging.run .inserted view 30 = .ok r ∧ ∃ l, r.lens.lookupMethod m none .virtual view.lens = .ok l ∧ l.ref = m' := by
  unfold found at h
  split at h
  · next r hrun =>
    obtain ⟨l, hl, href⟩ := Option.map_eq_some_iff.1 h
    refine ⟨r, hrun, l, ?_, href⟩
    cases hlookup : r.lens.lookupMethod m none .virtual view.lens with
    | ok l' =>
      rw [hlookup] at hl
      exact congrArg _ (Option.some.inj hl)
    | error e =>
      rw [hlookup] at hl
      cases hl
  · cases h

end PinnedRun

/-- `D` keeps its method. -/
theorem pinned_kept_stop : ∃ r, Merging.run .inserted PinnedRun.view 30 = .ok r ∧
    KeepsMethod PinnedRun.view r (PinnedRun.method "D" "stop").ref := by
  obtain ⟨r, hrun, -⟩ := PinnedRun.exists_run_of_found (PinnedRun.method "D" "stop").ref (PinnedRun.method "D" "stop").ref
    (by decide +kernel)
  have hmethods := (pinned_kept PinnedRun.wellFormed PinnedRun.tidy hrun
    (PinnedRun.mem_programClasses (c := PinnedRun.below "D" "stop") (by simp [PinnedRun.classes]) rfl)).2.2
  refine ⟨r, hrun, (hmethods (PinnedRun.method "D" "stop") List.mem_cons_self (by decide +kernel)).2 ⟨fun P hP => ?_, ?_⟩⟩
  · have hdecided : PinnedRun.isLeftAlone "D" "stop" = true := by decide +kernel
    rw [PinnedRun.isLeftAlone, hP] at hdecided
    exact of_decide_eq_true hdecided
  · intro k hk hne
    rw [List.mem_singleton.1 hk] at hne
    exact absurd rfl hne

/-- The clash: `C` loses the name of its method, because the one of `A` has come to be above it. -/
theorem pinned_method_renamed : ∃ r, Merging.run .inserted PinnedRun.view 30 = .ok r ∧
    PinnedRun.below "C" "run" ∈ PinnedRun.view.program.programClasses ∧
    PinnedRun.method "C" "run" ∈ (PinnedRun.below "C" "run").methods ∧
    (PinnedRun.method "C" "run").ref ∈ PinnedRun.view.pins.methods ∧
    ¬ KeepsMethod PinnedRun.view r (PinnedRun.method "C" "run").ref := by
  obtain ⟨r, hrun, l, hl, href⟩ := PinnedRun.exists_run_of_found (PinnedRun.method "C" "run").ref
    (PinnedRun.method "C" "run$1").ref (by decide +kernel)
  refine ⟨r, hrun, PinnedRun.mem_programClasses (by simp [PinnedRun.classes]) rfl, List.mem_cons_self, by decide +kernel, fun hkeeps => ?_⟩
  obtain ⟨l', hl', href'⟩ := hkeeps.lens none .virtual
  cases hl.symm.trans hl'
  exact absurd (href.symm.trans href') (by decide)

end Merging

end DexShrinker
