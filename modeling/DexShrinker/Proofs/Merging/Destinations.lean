/-
  DexShrinker/Proofs/Merging/Destinations.lean
  ============================================
  **Where members go when classes are merged.**

  A field goes to its slot or to where it is placed, a method to where it is placed or to the
  dispatching initializer of its bucket. What a library class declares stays. The merged program
  declares everything that something goes to (`Plan.Valid.declared_field`,
  `Plan.Valid.declared_method`).

  The lens is built apart from that: a member is only recorded if its name changes, and all
  other names are taken apart into types. Still every member is taken to a place it goes to
  (`Plan.Valid.goes_mapField`, `Plan.Valid.goes_mapMethod`), because a member that goes to
  itself has only types that stay.
-/
import DexShrinker.Proofs.Merging.Moves

namespace DexShrinker

/-- Where the fields of `u` go when it becomes `d`. -/
def UnplacedClass.fieldsTo (u : UnplacedClass) (d : ClassDef) : List (FieldRef × FieldRef) :=
  u.fieldMoves ++ (u.fields.zip (d.fields.drop u.shell.fields.length)).map fun x => (x.1.ref, x.2.ref)

namespace Merging

variable {v : View} {P : Plan}

/-! ### Where members come from -/

namespace Plan.Valid

/-- A class of a group is a program class. -/
theorem mem_programClasses_of_group (h : P.Valid v) {g : MergeGroup} (hg : g ∈ P.groups) {t : Descriptor}
    (ht : t ∈ g.classes) {c : ClassDef} (hc : P.placement.program.class? t = some c) : c ∈ v.program.programClasses := by
  obtain ⟨c', hc', rfl⟩ := h.groups.program g hg t ht
  rw [h.program, (Program.mem_programClasses.1 hc').1] at hc
  cases hc
  exact hc'

theorem eq_of_shell (h : P.Valid v) {u u' : UnplacedClass} (hu : u ∈ P.classes) (hu' : u' ∈ P.classes)
    (htype : u.shell.type = u'.shell.type) : u = u' := by
  have hfind := h.find?_shell hu
  rw [htype, h.find?_shell hu'] at hfind
  exact (Option.some.inj hfind).symm

/-- What a class of a group was merged to. -/
theorem shell_of_comesFrom (h : P.Valid v) {g : MergeGroup} (hg : g ∈ P.groups) {u : UnplacedClass}
    (hu : ComesFrom P.placement P.state g u) {t : Descriptor} (ht : t ∈ g.classes) :
    g.target = some u.shell.type ∧ u.shell.type ∈ g.classes ∧ u.shell.type = P.home t := by
  obtain ⟨target, r, inits, hbind, -, rfl, -⟩ := hu
  obtain ⟨c, -, htarget, hmem, hbind'⟩ := h.target_class hg
  obtain rfl : c = target := Option.some.inj (hbind'.symm.trans hbind)
  exact ⟨htarget, hmem, (h.home_of_mem hg ht htarget).symm⟩

/-- Every program class is placed alone or with its group. -/
theorem exists_home (h : P.Valid v) {c : ClassDef} (hc : c ∈ v.program.programClasses) :
    ∃ u ∈ P.classes, u.shell.type = P.home c.type ∧
      (((∀ g ∈ P.groups, c.type ∉ g.classes) ∧ u = .ofClass P.placement.merges c) ∨
        ∃ g ∈ P.groups, c.type ∈ g.classes ∧ ComesFrom P.placement P.state g u) := by
  obtain ⟨u, hu, -, -, -, -, htype, -⟩ := h.exists_gathers hc
  refine ⟨u, hu, htype, ?_⟩
  by_cases hgroup : ∃ g ∈ P.groups, c.type ∈ g.classes
  · obtain ⟨g, hg, hmem⟩ := hgroup
    obtain ⟨c', -, htarget, hmem', -⟩ := h.target_class hg
    rw [h.home_of_mem hg hmem htarget] at htype
    right
    refine ⟨g, hg, hmem, ?_⟩
    rcases h.classes_cases hu with ⟨d, -, hno, rfl⟩ | ⟨g', hg', hcomes⟩
    · exact absurd (htype ▸ hmem') (hno g hg)
    · obtain ⟨t, rest, hclasses, -⟩ := h.groups.target g' hg'
      obtain ⟨-, hshell, -⟩ := h.shell_of_comesFrom hg' hcomes (t := t) (by rw [hclasses]; exact List.mem_cons_self)
      rwa [h.groups.apart.eq_of_mem hg hg' hmem' (htype ▸ hshell)]
  · have hno : ∀ g ∈ P.groups, c.type ∉ g.classes := fun g hg hmem => hgroup ⟨g, hg, hmem⟩
    rw [h.home_of_not_mem hno] at htype
    left
    refine ⟨hno, ?_⟩
    rcases h.classes_cases hu with ⟨d, hd, -, rfl⟩ | ⟨g', hg', hcomes⟩
    · rw [Program.eq_of_type (Program.mem_classes_of_mem_programClasses hd) (Program.mem_classes_of_mem_programClasses hc) htype]
    · obtain ⟨t, rest, hclasses, -⟩ := h.groups.target g' hg'
      obtain ⟨-, hshell, -⟩ := h.shell_of_comesFrom hg' hcomes (t := t) (by rw [hclasses]; exact List.mem_cons_self)
      exact absurd (htype ▸ hshell) (hno g' hg')

/-- Where the methods come from that are placed. -/
theorem exists_class_of_mem (h : P.Valid v) {u : UnplacedClass} (hu : u ∈ P.classes) {m : MethodDef}
    (hm : m ∈ u.methods) : ∃ c ∈ v.program.programClasses, u.shell.type = P.home c.type ∧ m ∈ c.methods := by
  rcases h.classes_cases hu with ⟨c, hc, hno, rfl⟩ | ⟨g, hg, hcomes⟩
  · exact ⟨c, hc, (h.home_of_not_mem hno).symm, hm⟩
  · obtain ⟨t, ht, c, hc, hm⟩ := hcomes.methods hm
    obtain rfl : c.type = t := Program.type_of_class? (h.program ▸ hc)
    exact ⟨c, h.mem_programClasses_of_group hg ht hc, (h.shell_of_comesFrom hg hcomes ht).2.2, hm⟩

/-- Where the fields come from that are placed or kept in slots. -/
theorem exists_class_of_fieldsTo (h : P.Valid v) {u : UnplacedClass} (hu : u ∈ P.classes) {d : ClassDef}
    {x : FieldRef × FieldRef} (hx : x ∈ u.fieldsTo d) :
    ∃ c ∈ v.program.programClasses, u.shell.type = P.home c.type ∧ ∃ f ∈ c.fields, x.1 = f.ref := by
  rcases h.classes_cases hu with ⟨c, hc, hno, rfl⟩ | ⟨g, hg, hcomes⟩
  · refine ⟨c, hc, (h.home_of_not_mem hno).symm, ?_⟩
    obtain ⟨y, hy, rfl⟩ := List.mem_map.1 hx
    exact ⟨y.1, (List.of_mem_zip hy).1, rfl⟩
  · rcases List.mem_append.1 hx with hx | hx
    · obtain ⟨c, hc, ht, hfield⟩ := h.exists_of_fieldMoves hg hcomes hx
      obtain ⟨c', hc', htype⟩ := h.groups.program g hg _ ht
      obtain rfl := Program.eq_of_type (Program.mem_classes_of_mem_programClasses hc') hc htype
      exact ⟨c', hc', (h.shell_of_comesFrom hg hcomes ht).2.2, hfield⟩
    · obtain ⟨y, hy, rfl⟩ := List.mem_map.1 hx
      obtain ⟨t, ht, c, hc, hf⟩ := hcomes.fields (List.of_mem_zip hy).1
      obtain rfl : c.type = t := Program.type_of_class? (h.program ▸ hc)
      exact ⟨c, h.mem_programClasses_of_group hg ht hc, (h.shell_of_comesFrom hg hcomes ht).2.2, y.1, hf, rfl⟩

/-- No initializer is placed where there are dispatching initializers. -/
theorem isInstanceInitializer_of_classId (h : P.Valid v) {u : UnplacedClass} (hu : u ∈ P.classes)
    {g : MergeGroup} (hg : g ∈ P.groups) (htarget : g.target = some u.shell.type) (hid : g.classIdField.isSome = true) {m : MethodDef}
    (hm : m ∈ u.methods) : m.isInstanceInitializer = false := by
  have hmem : u.shell.type ∈ g.classes := by
    obtain ⟨c, -, htarget', hmem, -⟩ := h.target_class hg
    rwa [Option.some.inj (htarget.symm.trans htarget')]
  rcases h.classes_cases hu with ⟨c, -, hno, rfl⟩ | ⟨g', hg', target, r, inits, hbind, hinits, rfl, -⟩
  · exact absurd hmem (hno g hg)
  · obtain ⟨c, -, htarget', hmem', hbind'⟩ := h.target_class hg'
    obtain rfl : c = target := Option.some.inj (hbind'.symm.trans hbind)
    obtain rfl := h.groups.apart.eq_of_mem hg hg' hmem hmem'
    rcases List.mem_append.1 hm with hm | hm
    · simpa using (List.mem_filter.1 hm).2
    · rw [InitMerge.pending_of_classId hinits (by rw [htarget]; rfl) hid] at hm
      cases hm

end Plan.Valid

/-! ### Destinations -/

/-- A merge takes the field `old` to `new`. -/
inductive Plan.FieldGoes (P : Plan) (old new : FieldRef) : Prop
  | library (c : ClassDef) (hc : c ∈ P.placement.program.classes) (hlib : c.isLibrary = true) (f : FieldDef) (hf : f ∈ c.fields)
      (hold : old = f.ref) (hnew : new = f.ref) : P.FieldGoes old new
  | placed (u : UnplacedClass) (hu : u ∈ P.classes) (d : ClassDef) (hd : d ∈ P.last.placed) (htype : d.type = u.shell.type)
      (hx : (old, new) ∈ u.fieldsTo d) : P.FieldGoes old new

/-- A merge takes the method `old` to `new`. -/
inductive Plan.MethodGoes (P : Plan) (old new : MethodRef) : Prop
  | library (c : ClassDef) (hc : c ∈ P.placement.program.classes) (hlib : c.isLibrary = true) (m : MethodDef) (hm : m ∈ c.methods)
      (hold : old = m.ref) (hnew : new = m.ref) : P.MethodGoes old new
  | placed (u : UnplacedClass) (hu : u ∈ P.classes) (d : ClassDef) (hd : d ∈ P.last.placed) (htype : d.type = u.shell.type)
      (x : MethodDef × MethodDef) (hx : x ∈ u.methods.zip (d.methods.drop u.shell.methods.length)) (hold : old = x.1.ref)
      (hnew : new = x.2.ref) : P.MethodGoes old new
  | dispatched (g : MergeGroup) (hg : g ∈ P.groups) (classIdField : FieldRef) (hid : g.classIdField = some classIdField)
      (target : Descriptor) (htarget : g.target = some target) (bucket : Prototype × List MemberInit)
      (hbucket : bucket ∈ InitMerge.buckets P.placement.program P.placement.merges P.placement.argument g) (i : MemberInit)
      (hi : i ∈ bucket.2) (hold : old = i.method.ref) (hnew : new = InitMerge.dispatcher target P.placement.argument bucket) :
      P.MethodGoes old new

namespace Plan.Valid

/-- The members of a class that has been placed: those of its shell, then one for every member
    that was to be placed. -/
theorem exists_members (h : P.Valid v) {u : UnplacedClass} (hu : u ∈ P.classes) {d : ClassDef}
    (hd : d ∈ P.last.placed) (htype : d.type = u.shell.type) :
    ∃ fs ms, d = { u.shell with fields := u.shell.fields ++ fs, methods := u.shell.methods ++ ms } ∧ fs.length = u.fields.length ∧
      ms.length = u.methods.length ∧ (∀ x ∈ u.fields.zip fs, x.2.ref.holder = u.shell.type ∧ x.2.ref.type = P.type x.1.ref.type) := by
  obtain ⟨st, hst⟩ := h.exists_reached hu
  obtain ⟨fs, ms, first, rest, begin, last, hplace, hms, -, -, -, -, hfields, -⟩ :=
    Placement.exists_placeClass P.placement u (Placement.inherited P.placement.hash st.tables u.shell) st.log
  exact ⟨fs, ms, (h.eq_place hst hd htype).trans hplace, hfields.length, hms, hfields.place⟩

theorem exists_placed_of_mem (h : P.Valid v) {u : UnplacedClass} (hu : u ∈ P.classes) :
    ∃ d ∈ P.last.placed, d.type = u.shell.type := by
  obtain ⟨d, hd, fs, ms, rfl, -⟩ := h.exists_shell hu
  exact ⟨_, hd, rfl⟩

/-- Every field goes somewhere. -/
theorem exists_fieldGoes (h : P.Valid v) {c : ClassDef} (hc : c ∈ v.program.classes) {f : FieldDef}
    (hf : f ∈ c.fields) : ∃ new, P.FieldGoes f.ref new := by
  cases hlib : c.isLibrary with
  | true => exact ⟨f.ref, .library c (by rwa [h.program]) hlib f hf rfl rfl⟩
  | false =>
    have hprogram : c ∈ v.program.programClasses := List.mem_filter.2 ⟨hc, by simpa [Program.isLibrary_eq] using hlib⟩
    obtain ⟨u, hu, -, hcases⟩ := h.exists_home hprogram
    obtain ⟨d, hd, htype⟩ := h.exists_placed_of_mem hu
    obtain ⟨fs, ms, hmembers, hfs, -, -⟩ := h.exists_members hu hd htype
    have hplaced (hmem : f ∈ u.fields) : ∃ new, P.FieldGoes f.ref new := by
      obtain ⟨f', hzip⟩ := exists_zip_of_mem hfs.symm hmem
      refine ⟨f'.ref, .placed u hu d hd htype (List.mem_append_right _ (List.mem_map.2 ⟨(f, f'), ?_, rfl⟩))⟩
      rwa [hmembers, List.drop_left]
    rcases hcases with ⟨-, rfl⟩ | ⟨g, hg, hmem, target, r, inits, hbind, -, rfl, -⟩
    · exact hplaced hf
    · have hget : P.placement.program.class? c.type = some c := by
        rw [h.program]
        exact Program.mem_classes.1 hc
      cases hstatic : f.isStatic with
      | true =>
        refine hplaced (List.mem_flatMap.2 ⟨c, List.mem_filterMap.2 ⟨c.type, hmem, hget⟩, ?_⟩)
        exact List.mem_filter.2 ⟨hf, hstatic⟩
      | false =>
        have hmember : c ∈ FieldMerge.members P.placement.program g target := by
          by_cases heq : g.target = some c.type
          · rw [heq, Option.bind_some, hget, Option.some.injEq] at hbind
            rw [hbind]
            exact List.mem_cons_self
          · refine List.mem_cons_of_mem _ (List.mem_filterMap.2 ⟨c.type, List.mem_filter.2 ⟨hmem, ?_⟩, hget⟩)
            simpa using Ne.symm heq
        have hmoves : f.ref ∈ (FieldMerge.ofGroup P.placement.program P.placement.merges g target).moves.map Prod.fst := by
          rw [(FieldMerge.moves_ofGroup _ _ g target).1]
          exact List.mem_map_of_mem (List.mem_flatMap.2 ⟨c, hmember, List.mem_filter.2 ⟨hf, by simp [hstatic]⟩⟩)
        obtain ⟨x, hx, hfst⟩ := List.mem_map.1 hmoves
        rw [← hfst]
        exact ⟨x.2, .placed _ hu d hd htype (List.mem_append_left _ hx)⟩

/-- Every method goes somewhere. -/
theorem exists_methodGoes (h : P.Valid v) {c : ClassDef} (hc : c ∈ v.program.classes) {m : MethodDef}
    (hm : m ∈ c.methods) : ∃ new, P.MethodGoes m.ref new := by
  cases hlib : c.isLibrary with
  | true => exact ⟨m.ref, .library c (by rwa [h.program]) hlib m hm rfl rfl⟩
  | false =>
    have hprogram : c ∈ v.program.programClasses := List.mem_filter.2 ⟨hc, by simpa [Program.isLibrary_eq] using hlib⟩
    obtain ⟨u, hu, -, hcases⟩ := h.exists_home hprogram
    obtain ⟨d, hd, htype⟩ := h.exists_placed_of_mem hu
    obtain ⟨fs, ms, hmembers, -, hms, -⟩ := h.exists_members hu hd htype
    have hplaced (hmem : m ∈ u.methods) : ∃ new, P.MethodGoes m.ref new := by
      obtain ⟨m', hzip⟩ := exists_zip_of_mem hms.symm hmem
      refine ⟨m'.ref, .placed u hu d hd htype (m, m') ?_ rfl rfl⟩
      rwa [hmembers, List.drop_left]
    rcases hcases with ⟨-, rfl⟩ | ⟨g, hg, hmem, target, r, inits, hbind, hinits, rfl, -⟩
    · exact hplaced hm
    · have hget : P.placement.program.class? c.type = some c := by
        rw [h.program]
        exact Program.mem_classes.1 hc
      cases hinit : m.isInstanceInitializer with
      | false =>
        refine hplaced (List.mem_append_left _ (List.mem_filter.2 ⟨List.mem_flatMap.2 ⟨c, ?_, hm⟩, by simp [hinit]⟩))
        exact List.mem_filterMap.2 ⟨c.type, hmem, hget⟩
      | true =>
        have hx : ((g.classId? c.type).getD 0, m) ∈ InitMerge.initializers P.placement.program g := by
          refine List.mem_flatMap.2 ⟨c.type, hmem, List.mem_map.2 ⟨m, ?_, rfl⟩⟩
          simp [hget, ClassDef.instanceInitializers, hm, hinit]
        rcases InitMerge.ofGroup_cases hinits with ⟨target', field, next, htarget, hid, -⟩ | ⟨-, rfl⟩
        · obtain ⟨bucket, hbucket, i, hi, -, himethod⟩ := InitMerge.exists_bucket hx
          refine ⟨_, .dispatched g hg field hid target' htarget bucket hbucket i hi ?_ rfl⟩
          rw [himethod]
        · exact hplaced (List.mem_append_right _ (List.mem_map.2 ⟨_, hx, rfl⟩))

/-! ### What is declared in the end -/

/-- Where a field goes there is a field of a type that stays. -/
theorem exists_field_of_fieldsTo (h : P.Valid v) {u : UnplacedClass} (hu : u ∈ P.classes) {d : ClassDef}
    (hd : d ∈ P.last.placed) (htype : d.type = u.shell.type) {x : FieldRef × FieldRef} (hx : x ∈ u.fieldsTo d) :
    (∃ f ∈ d.fields, f.ref = x.2) ∧ x.2.holder = u.shell.type ∧ ∃ t, x.2.type = P.type t := by
  obtain ⟨fs, ms, rfl, -, -, hfields⟩ := h.exists_members hu hd htype
  rcases List.mem_append.1 hx with hx | hx
  · rcases h.classes_cases hu with ⟨c, -, -, rfl⟩ | ⟨g, -, target, r, inits, -, -, rfl, -⟩
    · cases hx
    · obtain ⟨⟨f, hf, href⟩, hholder, htypes⟩ := (FieldMerge.moves_ofGroup _ _ g target).2.1 x hx
      exact ⟨⟨f, List.mem_append_left _ hf, href⟩, hholder, htypes⟩
  · obtain ⟨y, hy, rfl⟩ := List.mem_map.1 hx
    rw [List.drop_left] at hy
    obtain ⟨hholder, htypes⟩ := hfields y hy
    exact ⟨⟨y.2, List.mem_append_right _ (List.of_mem_zip hy).2, rfl⟩, hholder, _, htypes⟩

/-- A field goes to one that the merged program declares. -/
theorem declared_field (h : P.Valid v) (hhoused : v.program.HousesFields) {old new : FieldRef}
    (hgoes : P.FieldGoes old new) : (P.program.field? new).isSome = true := by
  cases hgoes with
  | library c hc hlib f hf hold hnew =>
    rw [h.program] at hc
    rw [Program.field?, hnew, hhoused c hc f hf, h.class?_library hc hlib]
    exact List.find?_isSome.2 ⟨f, hf, by simp⟩
  | placed u hu d hd htype hx =>
    obtain ⟨⟨f, hf, href⟩, hholder, -⟩ := h.exists_field_of_fieldsTo hu hd htype hx
    rw [Program.field?, hholder, ← htype, h.class?_placed hd]
    exact List.find?_isSome.2 ⟨f, hf, by simpa using href⟩

/-- The class into which a group is merged. -/
theorem exists_comesFrom (h : P.Valid v) {g : MergeGroup} (hg : g ∈ P.groups) :
    ∃ u ∈ P.classes, g.target = some u.shell.type ∧ ComesFrom P.placement P.state g u := by
  obtain ⟨c, hc, htarget, hmem, -⟩ := h.target_class hg
  rcases h.unplaced?_cases hc with ⟨hno, -⟩ | ⟨g', hg', hmem', hcases⟩
  · exact absurd hmem (hno g hg)
  obtain rfl := h.groups.apart.eq_of_mem hg hg' hmem hmem'
  rcases hcases with ⟨-, u, hgathers, hu⟩ | ⟨hne, -⟩
  · have hu : u ∈ P.classes := List.mem_filterMap.2 ⟨c, h.program ▸ hc, hu⟩
    refine ⟨u, hu, by rw [hgathers.type, htarget], ?_⟩
    rcases h.classes_cases hu with ⟨d, -, hno, rfl⟩ | ⟨g', hg', target, r, inits, hbind, hcomes⟩
    · refine absurd hmem ?_
      rw [← show d.type = c.type from hgathers.type]
      exact hno g hg
    · obtain ⟨d, -, -, hmem', hbind'⟩ := h.target_class hg'
      obtain rfl : d = target := Option.some.inj (hbind'.symm.trans hbind)
      obtain ⟨-, rfl, -⟩ := id hcomes
      obtain rfl := h.groups.apart.eq_of_mem hg hg' hmem (hgathers.type ▸ hmem')
      exact ⟨d, r, inits, hbind, hcomes⟩
  · exact absurd htarget hne

/-- The dispatching initializer of a bucket, and what is recorded of it. -/
theorem exists_dispatched (h : P.Valid v) {g : MergeGroup} (hg : g ∈ P.groups) {classIdField : FieldRef}
    (hid : g.classIdField = some classIdField) {target : Descriptor} (htarget : g.target = some target)
    {bucket : Prototype × List MemberInit}
    (hbucket : bucket ∈ InitMerge.buckets P.placement.program P.placement.merges P.placement.argument g) :
    ∃ r inits helpers body, InitMerge.ofGroup P.placement.program P.placement.merges P.placement.argument g r = .ok inits ∧
      InitMerge.Dispatched P.placement.merges target P.placement.argument classIdField inits bucket helpers body ∧
      inits.recorder.Grows P.recorder ∧ ∃ d ∈ P.last.placed, d.type = target ∧ inits.placed <+: d.methods := by
  obtain ⟨u, hu, htarget', c, r, inits, -, hinits, rfl, hgrows⟩ := h.exists_comesFrom hg
  obtain ⟨helpers, body, hdispatched⟩ := InitMerge.exists_dispatched hinits htarget hid hbucket
  obtain ⟨d, hd, htype⟩ := h.exists_placed_of_mem hu
  obtain ⟨fs, ms, hmembers, -⟩ := h.exists_members hu hd htype
  have hwalk : P.state.log.recorder.Grows P.recorder :=
    (Plan.lasting_walk (Recorder.lasting_grows _) (.refl _)).trans (grows_foldl_recordTypes P.groups _)
  refine ⟨r, inits, helpers, body, hinits, hdispatched, hgrows.trans hwalk, d, hd, ?_, ?_⟩
  · rw [htype, Option.some.inj (htarget.symm.trans htarget')]
  · rw [hmembers]
    exact List.prefix_append _ _

theorem holder_of_placed (h : P.Valid v) {u : UnplacedClass} (hu : u ∈ P.classes) {d : ClassDef}
    (hd : d ∈ P.last.placed) (htype : d.type = u.shell.type) {x : MethodDef × MethodDef}
    (hx : x ∈ u.methods.zip (d.methods.drop u.shell.methods.length)) : x.2.ref.holder = u.shell.type := by
  obtain ⟨d', hd', fs, ms, hmembers, -, hholder⟩ := h.exists_shell hu
  obtain rfl := h.eq_of_placed hd' hd (by rw [hmembers, htype])
  rw [hmembers, List.drop_left] at hx
  exact hholder x.2 (List.of_mem_zip hx).2

/-- A method goes to one that the merged program declares. -/
theorem declared_method (h : P.Valid v) (hhoused : v.program.Housed) {old new : MethodRef}
    (hgoes : P.MethodGoes old new) : (P.program.method? new).isSome = true := by
  cases hgoes with
  | library c hc hlib m hm hold hnew =>
    rw [h.program] at hc
    rw [Program.method?, hnew, hhoused c hc m hm, h.class?_library hc hlib]
    exact List.find?_isSome.2 ⟨m, hm, by simp⟩
  | placed u hu d hd htype x hx hold hnew =>
    rw [Program.method?, hnew, h.holder_of_placed hu hd htype hx, ← htype, h.class?_placed hd]
    exact List.find?_isSome.2 ⟨x.2, List.mem_of_mem_drop (List.of_mem_zip hx).2, by simp⟩
  | dispatched g hg classIdField hid target htarget bucket hbucket i hi hold hnew =>
    obtain ⟨r, inits, helpers, body, -, hdispatched, -, d, hd, htype, hplaced⟩ := h.exists_dispatched hg hid htarget hbucket
    rw [Program.method?, hnew, show (InitMerge.dispatcher target P.placement.argument bucket).holder = d.type from htype.symm,
      h.class?_placed hd]
    exact List.find?_isSome.2 ⟨_, hplaced.subset hdispatched.placed, by simp [InitMerge.dispatcherDef]⟩

/-! ### What goes to itself -/

theorem home_shell (h : P.Valid v) {u : UnplacedClass} (hu : u ∈ P.classes) : P.home u.shell.type = u.shell.type := by
  obtain ⟨types, c, -, hgathers, hstays, -⟩ := h.origin hu
  rw [hgathers.type, hstays]

/-- Tables have only what fits, if that is so for library methods. -/
theorem each_tables (h : P.Valid v) {F : Signature → MethodRef → Prop} (hF : P.placement.Suits F)
    (hlib : ∀ c ∈ v.program.classes, c.isLibrary = true → ∀ m ∈ c.methods, F m.ref.signature m.ref) {u : UnplacedClass}
    {st : Placement.Progress} (hst : P.Reaches u st) (s : Descriptor) (t : VirtualTable) (ht : st.tables[s]? = some t) : t.Each F := by
  obtain ⟨cs, hcs, rfl⟩ := hst.before
  refine List.foldlRecOn (motive := fun st : Placement.Progress =>
    ∀ (s : Descriptor) (t : VirtualTable), st.tables[s]? = some t → t.Each F) cs _ (by simp) (fun st hst c hc => ?_) s t ht
  refine hF.visit hst fun hfind m hm => ?_
  rcases List.mem_append.1 (hcs c hc) with hshell | hlibrary
  · obtain ⟨u, hu, rfl⟩ := List.mem_map.1 hshell
    rw [h.find?_shell hu] at hfind
    cases hfind
  · obtain ⟨hc, hlibrary⟩ := List.mem_filter.1 hlibrary
    rw [h.program] at hc
    exact hlib c hc hlibrary m (List.mem_filter.1 hm).1

end Plan.Valid

/-- The types that library members name stay. -/
structure Plan.SparesLibrary (P : Plan) (p : Program) : Prop where
  fields : ∀ c ∈ p.classes, c.isLibrary = true → ∀ f ∈ c.fields, P.type f.ref.type = f.ref.type
  methods : ∀ c ∈ p.classes, c.isLibrary = true → ∀ m ∈ c.methods, P.placement.merges.proto m.ref.proto = m.ref.proto

theorem suits_proto (p : Placement) : p.Suits fun s old => s.proto = p.merges.proto old.proto where
  same heq h := by
    have hproto := congrArg Signature.proto heq
    exact h.trans (congrArg p.merges.proto hproto)
  renamed _ holder taken := by
    unfold Placement.renamed
    dsimp only
    split <;> rfl

theorem proto_of_append {m : MergeMap} {q : Prototype} {extra : List Descriptor} (h : q = (m.proto q).append extra) : m.proto q = q := by
  have hlength : q.parameters.length = q.parameters.length + extra.length := by
    simpa [Prototype.append, MergeMap.proto, Prototype.mapTypes] using congrArg (fun q : Prototype => q.parameters.length) h
  obtain rfl : extra = [] := List.length_eq_zero_iff.1 (by omega)
  rw [Prototype.append, List.append_nil] at h
  exact h.symm

namespace Plan.Valid

/-- A method gets the types that its own have become, and padding. -/
theorem proto_of_placed (h : P.Valid v) (hlib : P.SparesLibrary v.program) {u : UnplacedClass}
    (hu : u ∈ P.classes) {d : ClassDef} (hd : d ∈ P.last.placed) (htype : d.type = u.shell.type) {x : MethodDef × MethodDef}
    (hx : x ∈ u.methods.zip (d.methods.drop u.shell.methods.length)) :
    ∃ extra, x.2.ref.proto = (P.placement.merges.proto x.1.ref.proto).append extra := by
  obtain ⟨st, hst⟩ := h.exists_reached hu
  rw [h.eq_place hst hd htype] at hx
  cases hinit : x.1.isInstanceInitializer with
  | false =>
    have htables := h.each_tables (suits_proto P.placement) (fun c hc hlibrary m hm => (hlib.methods c hc hlibrary m hm).symm) hst
    have hproto := ((suits_proto P.placement).placeClass u (Placement.each_inherited P.placement.hash htables u.shell) st.log).2 x hx hinit
    refine ⟨[], ?_⟩
    rw [Prototype.append, List.append_nil]
    exact hproto
  | true =>
    obtain ⟨fs, ms, last, hplace, -, -, -, hforall⟩ :=
      Placement.placeClass_spec (p := P.placement) u (Placement.inherited_spec P.placement.hash st.tables u.shell).1 st.log
    rw [place, hplace, List.drop_left] at hx
    obtain ⟨st', -, hplaced, -⟩ := (List.forall₂_iff_zip.1 hforall).2 hx
    rw [hplaced, Placement.placeMethod, Placement.place, if_pos hinit]
    exact ⟨_, rfl⟩

theorem field_fixed (h : P.Valid v) (hv : v.program.ArraysLast) (hhoused : v.program.HousesFields) (hlib : P.SparesLibrary v.program)
    {f : FieldRef} (hgoes : P.FieldGoes f f) : P.home f.holder = f.holder ∧ P.type f.type = f.type := by
  cases hgoes with
  | library c hc hlibrary f' hf' hold hnew =>
    rw [h.program] at hc
    rw [hold, hhoused c hc f' hf']
    exact ⟨h.home_of_library hc hlibrary, hlib.fields c hc hlibrary f' hf'⟩
  | placed u hu d hd htype hx =>
    obtain ⟨-, hholder, t, ht⟩ := h.exists_field_of_fieldsTo hu hd htype hx
    dsimp only at hholder ht
    rw [hholder, ht]
    exact ⟨h.home_shell hu, h.type_type hv t⟩

/-- If an initializer is its own dispatching initializer, its types stay. -/
theorem dispatched_fixed (h : P.Valid v) {g : MergeGroup} (hg : g ∈ P.groups) {target : Descriptor}
    (htarget : g.target = some target) {bucket : Prototype × List MemberInit}
    (hbucket : bucket ∈ InitMerge.buckets P.placement.program P.placement.merges P.placement.argument g) {i : MemberInit}
    (hi : i ∈ bucket.2) (hself : i.method.ref = InitMerge.dispatcher target P.placement.argument bucket) :
    P.home i.method.ref.holder = i.method.ref.holder ∧ P.placement.merges.proto i.method.ref.proto = i.method.ref.proto := by
  obtain ⟨extra, hextra⟩ := InitMerge.exists_dispatcher_eq hbucket hi target
  obtain ⟨c, -, htarget', hmem, -⟩ := h.target_class hg
  rw [hextra] at hself
  refine ⟨?_, proto_of_append (congrArg MethodRef.proto hself)⟩
  rw [congrArg MethodRef.holder hself, Option.some.inj (htarget.symm.trans htarget')]
  exact h.home_of_mem hg hmem htarget'

theorem method_fixed (h : P.Valid v) (hhoused : v.program.Housed) (hlib : P.SparesLibrary v.program)
    {m : MethodRef} (hgoes : P.MethodGoes m m) : P.home m.holder = m.holder ∧ P.placement.merges.proto m.proto = m.proto := by
  cases hgoes with
  | library c hc hlibrary m' hm' hold hnew =>
    rw [h.program] at hc
    rw [hold, hhoused c hc m' hm']
    exact ⟨h.home_of_library hc hlibrary, hlib.methods c hc hlibrary m' hm'⟩
  | placed u hu d hd htype x hx hold hnew =>
    obtain ⟨extra, hproto⟩ := h.proto_of_placed hlib hu hd htype hx
    rw [← hold, ← hnew] at hproto
    refine ⟨?_, proto_of_append hproto⟩
    rw [hnew, h.holder_of_placed hu hd htype hx, h.home_shell hu]
  | dispatched g hg classIdField hid target htarget bucket hbucket i hi hold hnew =>
    rw [hold]
    exact h.dispatched_fixed hg htarget hbucket hi (hold.symm.trans hnew)

/-! ### What the lens records -/

theorem recorded_field (h : P.Valid v) (hconflict : P.recorder.conflict = none) {old new : FieldRef}
    (hgoes : P.FieldGoes old new) (hne : old ≠ new) : P.recorder.moves.fields[old]? = some new := by
  cases hgoes with
  | library c hc hlibrary f hf hold hnew => exact absurd (hold.trans hnew.symm) hne
  | placed u hu d hd htype hx =>
    have hrecords := h.recorded hconflict hu hd htype
    rcases List.mem_append.1 hx with hx | hx
    · exact (hrecords.slots _ hx hne).1
    · obtain ⟨y, hy, heq⟩ := List.mem_map.1 hx
      cases heq
      exact (hrecords.fields y hy hne).1

theorem recorded_method (h : P.Valid v) (hconflict : P.recorder.conflict = none) {old new : MethodRef}
    (hgoes : P.MethodGoes old new) (hne : old ≠ new) : P.recorder.moves.methods[old]? = some new := by
  cases hgoes with
  | library c hc hlibrary m hm hold hnew => exact absurd (hold.trans hnew.symm) hne
  | placed u hu d hd htype x hx hold hnew =>
    rw [hold, hnew] at hne ⊢
    exact ((h.recorded hconflict hu hd htype).methods x hx).moved hne
  | dispatched g hg classIdField hid target htarget bucket hbucket i hi hold hnew =>
    obtain ⟨r, inits, helpers, body, -, hdispatched, hgrows, -⟩ := h.exists_dispatched hg hid htarget hbucket
    rw [hold, hnew] at hne ⊢
    exact hgrows.methods _ _ (hdispatched.moved (hgrows.conflict hconflict) i hi hne)

end Plan.Valid

/-- A class of the program declares the field. -/
def DeclaresField (p : Program) (f : FieldRef) : Prop := ∃ c ∈ p.classes, ∃ d ∈ c.fields, d.ref = f

/-- A class of the program declares the method. -/
def DeclaresMethod (p : Program) (m : MethodRef) : Prop := ∃ c ∈ p.classes, ∃ d ∈ c.methods, d.ref = m

namespace Plan.Valid

/-- A class that inherits a field does not declare it. -/
theorem not_declaresField (h : P.Valid v) (hfields : v.program.HousesFields) {f : FieldRef} {sub : Descriptor}
    (hsub : sub ∈ P.placement.fieldInheritors f) : ¬ DeclaresField v.program { f with holder := sub } := by
  rintro ⟨c, hc, d, hd, heq⟩
  obtain ⟨e, he, htype, hdeclares⟩ := Program.exists_of_mem_inheritors hsub
  rw [h.program] at he
  obtain rfl := Program.eq_of_type he hc (by rw [htype, ← hfields c hc d hd, heq])
  rw [htype, ClassDef.field?, Option.isSome_eq_false_iff, Option.isNone_iff_eq_none, List.find?_eq_none] at hdeclares
  exact hdeclares d hd (by simpa using heq)

/-- A class that inherits a method does not declare it. -/
theorem not_declaresMethod (h : P.Valid v) (hhoused : v.program.Housed) {m : MethodRef} {sub : Descriptor}
    (hsub : sub ∈ P.placement.methodInheritors m) : ¬ DeclaresMethod v.program { m with holder := sub } := by
  rintro ⟨c, hc, d, hd, heq⟩
  obtain ⟨e, he, htype, hdeclares⟩ := Program.exists_of_mem_inheritors hsub
  rw [h.program] at he
  obtain rfl := Program.eq_of_type he hc (by rw [htype, ← hhoused c hc d hd, heq])
  rw [ClassDef.methodBySignature?, Option.isSome_eq_false_iff, Option.isNone_iff_eq_none, List.find?_eq_none] at hdeclares
  exact hdeclares d hd (by simp [heq, MethodRef.signature])

/-- What is recorded of a member that is declared is where it goes. Moves of members for classes
    that inherit them are moves of names that nothing declares. -/
theorem obeys_goes (h : P.Valid v) (hhoused : v.program.Housed) (hfields : v.program.HousesFields) :
    P.recorder.Obeys ⟨fun old new => DeclaresField v.program old → P.FieldGoes old new,
      fun old new => DeclaresMethod v.program old → P.MethodGoes old new, fun _ _ => True, fun _ _ => True, fun _ _ => True,
      fun _ _ => True⟩ := by
  refine h.obeys (fun g hg => ⟨fun _ _ _ _ => trivial, fun hid target htarget bucket hbucket i hi =>
      ⟨fun _ => ?_, trivial, fun _ => trivial, fun _ => trivial⟩⟩) fun u hu d hd htype =>
    ⟨fun x hx _ => ⟨fun _ => ?_, ?_⟩, fun x hx _ => ⟨fun _ => ?_, ?_⟩, fun x hx => ⟨fun _ _ => ?_, ?_, fun _ _ _ _ => trivial⟩⟩
  · obtain ⟨classIdField, hid⟩ := Option.isSome_iff_exists.1 hid
    exact .dispatched g hg classIdField hid target htarget bucket hbucket i hi rfl rfl
  · exact .placed u hu d hd htype (List.mem_append_left _ hx)
  · exact fun _ sub hsub _ hdeclared => absurd hdeclared (h.not_declaresField hfields hsub)
  · exact .placed u hu d hd htype (List.mem_append_right _ (List.mem_map.2 ⟨x, hx, rfl⟩))
  · exact fun _ sub hsub _ hdeclared => absurd hdeclared (h.not_declaresField hfields hsub)
  · exact .placed u hu d hd htype x hx rfl rfl
  · exact fun _ _ _ sub hsub _ hdeclared => absurd hdeclared (h.not_declaresMethod hhoused hsub)

/-- **Where the lens takes a field, the field goes.** -/
theorem goes_mapField (h : P.Valid v) (hv : v.program.ArraysLast) (hhoused : v.program.Housed) (hfields : v.program.HousesFields)
    (hlib : P.SparesLibrary v.program) (hconflict : P.recorder.conflict = none) {f : FieldRef} (hf : DeclaresField v.program f) :
    P.FieldGoes f (P.recorder.moves.mapField f) := by
  rw [Renaming.mapField, Std.TreeMap.getD_eq_getD_getElem?]
  cases hget : P.recorder.moves.fields[f]? with
  | some new => exact (h.obeys_goes hhoused hfields).fields f new hget hf
  | none =>
    obtain ⟨c, hc, d, hd, rfl⟩ := hf
    obtain ⟨new, hgoes⟩ := h.exists_fieldGoes hc hd
    have hself : new = d.ref := by
      by_contra hne
      rw [h.recorded_field hconflict hgoes (Ne.symm hne)] at hget
      cases hget
    rw [hself] at hgoes
    obtain ⟨hholder, htype⟩ := h.field_fixed hv hfields hlib hgoes
    rw [Option.getD_none, h.mapHolder_of_stays hholder, h.mapType_recorder, htype]
    exact hgoes

/-- A method that nothing is recorded of stays if its types do. -/
theorem mapMethod_of_fixed (h : P.Valid v) {m : MethodRef}
    (hfixed : P.home m.holder = m.holder ∧ P.placement.merges.proto m.proto = m.proto) (hget : P.recorder.moves.methods[m]? = none) :
    P.recorder.moves.mapMethod m = m := by
  have hmap : P.recorder.moves.mapProto m.proto = P.placement.merges.proto m.proto :=
    congrArg m.proto.mapTypes (funext h.mapType_recorder)
  rw [Renaming.mapMethod, Std.TreeMap.getD_eq_getD_getElem?, hget, Option.getD_none, h.mapHolder_of_stays hfixed.1, hmap,
    hfixed.2]

/-- **Where the lens takes a method, the method goes.** -/
theorem goes_mapMethod (h : P.Valid v) (hhoused : v.program.Housed) (hfields : v.program.HousesFields)
    (hlib : P.SparesLibrary v.program) (hconflict : P.recorder.conflict = none) {m : MethodRef} (hm : DeclaresMethod v.program m) :
    P.MethodGoes m (P.recorder.moves.mapMethod m) := by
  rw [Renaming.mapMethod, Std.TreeMap.getD_eq_getD_getElem?]
  cases hget : P.recorder.moves.methods[m]? with
  | some new => exact (h.obeys_goes hhoused hfields).methods m new hget hm
  | none =>
    obtain ⟨c, hc, d, hd, rfl⟩ := hm
    obtain ⟨new, hgoes⟩ := h.exists_methodGoes hc hd
    have hself : new = d.ref := by
      by_contra hne
      rw [h.recorded_method hconflict hgoes (Ne.symm hne)] at hget
      cases hget
    rw [hself] at hgoes
    have hmap := h.mapMethod_of_fixed (h.method_fixed hhoused hlib hgoes) hget
    rw [Renaming.mapMethod, Std.TreeMap.getD_eq_getD_getElem?, hget] at hmap
    rwa [hmap]

end Plan.Valid

end Merging

end DexShrinker
