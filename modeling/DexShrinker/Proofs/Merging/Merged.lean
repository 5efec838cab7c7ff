/-
  DexShrinker/Proofs/Merging/Merged.lean
  ======================================
  **The program after a merge.**

  Library classes stay as they are, and every class whose members were to be placed is
  there with its members placed. So every method that a program class declares, other
  than an instance initializer, is found again in the class that its class went to
  (`Merging.Placed`), and a class that was below another one is below what the other one
  became.
-/
import DexShrinker.Proofs.Merging.Plan

namespace DexShrinker.Merging

open Std

/-! ### The class of padding parameters -/

theorem argumentType_not_mem {p : Program} {target t : Descriptor} (h : argumentType p target = .ok t) :
    t ∉ p.classes.map ClassDef.type := by
  unfold argumentType at h
  cases hname : target.binaryName? with
  | none => simp [Descriptor.withSuffix?, hname, throw, throwThe, MonadExceptOf.throw] at h
  | some name =>
    simp only [Descriptor.withSuffix?, hname, Option.map_some, Option.getD_some, pure_eq_ok] at h
    subst h
    generalize "$$MergedConstructorArgument" = suffix
    have hinj : Function.Injective fun i : Nat => if i = 0 then Descriptor.ofBinaryName (name ++ suffix)
        else Descriptor.ofBinaryName (name ++ (suffix ++ toString i)) := by
      intro i j hij
      have hnumber (k : Nat) : (if k = 0 then Descriptor.ofBinaryName (name ++ suffix)
          else Descriptor.ofBinaryName (name ++ (suffix ++ toString k))) =
            Descriptor.ofBinaryName (name ++ (suffix ++ if k = 0 then "" else toString k)) := by
        split <;> simp
      simp only [hnumber] at hij
      have htext := (String.append_right_inj _).1 ((String.append_right_inj _).1 (Descriptor.ofBinaryName_injective hij))
      have hne (k : Nat) : toString k ≠ "" := Nat.repr_ne_empty
      split at htext <;> split at htext
      · omega
      · exact absurd htext.symm (hne j)
      · exact absurd htext (hne i)
      · exact Nat.repr_injective htext
    exact firstFree_not_mem hinj _

theorem isClass_argumentType {p : Program} {target t : Descriptor} (h : argumentType p target = .ok t) : t.isClass = true := by
  unfold argumentType at h
  cases hname : target.binaryName? with
  | none => simp [Descriptor.withSuffix?, hname, throw, throwThe, MonadExceptOf.throw] at h
  | some name =>
    simp only [Descriptor.withSuffix?, hname, Option.map_some, Option.getD_some, pure_eq_ok] at h
    subst h
    split <;> exact Descriptor.isClass_ofBinaryName _

/-- The class of padding parameters is not the top class, in whose name there is no `$`. -/
theorem argumentType_ne_object {p : Program} {target t : Descriptor} (h : argumentType p target = .ok t) : t ≠ .object := by
  unfold argumentType at h
  cases hname : target.binaryName? with
  | none => simp [Descriptor.withSuffix?, hname, throw, throwThe, MonadExceptOf.throw] at h
  | some name =>
    simp only [Descriptor.withSuffix?, hname, Option.map_some, Option.getD_some, pure_eq_ok] at h
    have hdollar : '$' ∈ t.chars := by
      rw [← h]
      split <;> simp [Descriptor.ofBinaryName, Descriptor.chars]
    rintro rfl
    exact absurd hdollar (by decide)

/-! ### Classes -/

namespace Plan

/-- The virtual methods that a class inherits. -/
def inSight (P : Plan) (u : UnplacedClass) : VirtualTable := P.placement.inSight P.classes P.state.log u.shell

/-- What becomes of a class when it is reached in the given state. -/
def place (P : Plan) (u : UnplacedClass) (st : Placement.Progress) : ClassDef × VirtualTable × PlacementLog :=
  P.placement.placeClass u (Placement.inherited P.placement.hash st.tables u.shell) st.log

/-- The class `u` is reached in the state `st`. -/
structure Reaches (P : Plan) (u : UnplacedClass) (st : Placement.Progress) : Prop where
  before : ∃ cs : List ClassDef, (∀ c ∈ cs, c ∈ P.placement.visited P.classes) ∧
    st = cs.foldl (P.placement.visit P.classes) { log := P.state.log }
  after : ∃ cs : List ClassDef, P.last = cs.foldl (P.placement.visit P.classes)
    ⟨st.placed ++ [(P.place u st).1], st.tables.insert u.shell.type (P.place u st).2.1, (P.place u st).2.2⟩

theorem Reaches.mem_placed {P : Plan} {u : UnplacedClass} {st : Placement.Progress} (h : P.Reaches u st) :
    (P.place u st).1 ∈ P.last.placed := by
  obtain ⟨cs, hlast⟩ := h.after
  rw [hlast]
  exact (Placement.foldl_visit P.placement P.classes cs _).1.subset (by simp)

namespace Valid

variable {v : View} {P : Plan}

theorem mem_visited (h : P.Valid v) {c : ClassDef} (hc : c ∈ v.program.classes) (hlib : c.isLibrary = true) :
    c ∈ P.placement.visited P.classes :=
  List.mem_append_right _ (List.mem_filter.2 ⟨h.program ▸ hc, hlib⟩)

theorem shell_mem_visited {u : UnplacedClass} (hu : u ∈ P.classes) : u.shell ∈ P.placement.visited P.classes :=
  List.mem_append_left _ (List.mem_map_of_mem hu)

theorem find?_shell (h : P.Valid v) {u : UnplacedClass} (hu : u ∈ P.classes) :
    P.classes.find? (·.shell.type == u.shell.type) = some u := by
  have hnodup := h.nodup_visited
  rw [Placement.visited, List.map_append, List.map_map] at hnodup
  exact find?_of_nodup (f := fun u : UnplacedClass => u.shell.type) (List.nodup_append.1 hnodup).1 hu

theorem isClass_argument (h : P.Valid v) : P.placement.argument.isClass = true := by
  obtain ⟨t, ht⟩ := h.argument
  exact isClass_argumentType ht

/-- A class is placed when it is reached. -/
theorem exists_reached (h : P.Valid v) {u : UnplacedClass} (hu : u ∈ P.classes) :
    ∃ st, P.Reaches u st := by
  have hmem : u.shell ∈ P.placement.order P.classes :=
    (Program.perm_topDown P.placement.hash (P.placement.visited P.classes)).mem_iff.2 (shell_mem_visited hu)
  obtain ⟨before, after, horder⟩ := List.append_of_mem hmem
  have hlast : P.last = (before ++ u.shell :: after).foldl (P.placement.visit P.classes) { log := P.state.log } := by
    rw [← horder]
    rfl
  rw [List.foldl_append, List.foldl_cons, Placement.visit_of_some (h.find?_shell hu)] at hlast
  refine ⟨_, ⟨before, fun c hc => ?_, rfl⟩, after, hlast⟩
  have hc' : c ∈ P.placement.order P.classes := by
    rw [horder]
    exact List.mem_append_left _ hc
  exact (Program.perm_topDown P.placement.hash (P.placement.visited P.classes)).mem_iff.1 hc'

/-- Every class whose members were to be placed is there in the end. -/
theorem exists_shell (h : P.Valid v) {u : UnplacedClass} (hu : u ∈ P.classes) :
    ∃ d ∈ P.last.placed, ∃ fs ms, d = { u.shell with fields := fs, methods := u.shell.methods ++ ms } ∧
      ms.length = u.methods.length ∧ ∀ m ∈ ms, m.ref.holder = u.shell.type := by
  obtain ⟨st, hst⟩ := h.exists_reached hu
  obtain ⟨fs, ms, last, hd, -, -, -, hforall⟩ :=
    Placement.placeClass_spec (p := P.placement) u (Placement.inherited_spec P.placement.hash st.tables u.shell).1 st.log
  refine ⟨_, hst.mem_placed, fs, ms, hd, hforall.length_eq.symm, fun m hm => ?_⟩
  obtain ⟨m₀, -, st', -, rfl, -⟩ := exists_of_mem_left hforall.flip hm
  exact Placement.holder_place _ _ _ _

/-- **A class with its members placed.** -/
theorem exists_placed (h : P.Valid v) (hv : v.program.WellFormed) {u : UnplacedClass} (hu : u ∈ P.classes) :
    ∃ d ∈ P.last.placed, ∃ fs ms st, d = { u.shell with fields := fs, methods := u.shell.methods ++ ms } ∧
      P.last.tables[u.shell.type]? = some st.table ∧
      List.Forall₂ (Placement.PlacedIn P.placement u.shell.type (Placement.Extends (P.inSight u)) st) u.methods ms := by
  obtain ⟨rank, hlayered⟩ := h.layered hv
  have hsettled := Placement.settled_walk hlayered P.state.log (shell_mem_visited hu)
  rw [Placement.Settled, h.find?_shell hu] at hsettled
  obtain ⟨log, htable, hplaced⟩ := hsettled
  obtain ⟨fs, ms, st, hd, hst, -, -, hforall⟩ :=
    Placement.placeClass_spec (p := P.placement) u (Placement.inherited_spec P.placement.hash P.last.tables u.shell).1 log
  exact ⟨_, hplaced, fs, ms, st, hd, by rw [hst]; exact htable, hforall⟩

/-- No type comes twice in the program after the merge. -/
theorem nodup_program (h : P.Valid v) :
    ((P.placement.program.classes.filter (·.isLibrary) ++ P.last.placed
      ++ if P.last.log.usesArgument then [argumentClass P.placement.argument] else []).map ClassDef.type).Nodup := by
  have hvisited := h.nodup_visited
  obtain ⟨ds, hplaced, hsub, hshell⟩ :=
    Placement.types_foldl_visit P.placement P.classes (P.placement.order P.classes) { log := P.state.log }
  replace hplaced : P.last.placed = ds := hplaced
  have horder := (Program.perm_topDown P.placement.hash (P.placement.visited P.classes)).map ClassDef.type
  have hds : (ds.map ClassDef.type).Nodup := (horder.nodup_iff.2 hvisited).sublist hsub
  rw [Placement.visited, List.map_append, List.map_map] at hvisited
  obtain ⟨-, hlib, hdisjoint⟩ := List.nodup_append.1 hvisited
  -- Shells have types of program classes.
  have hprogram {d : ClassDef} (hd : d ∈ ds) : d.type ∈ v.program.classes.map ClassDef.type := by
    obtain ⟨u, hu, htype⟩ := hshell d hd
    obtain ⟨c, hc, hshell⟩ := h.exists_type_eq hu
    rw [htype, hshell]
    exact List.mem_map_of_mem (Program.mem_classes_of_mem_programClasses hc)
  have hfresh : P.placement.argument ∉ v.program.classes.map ClassDef.type := by
    obtain ⟨t, ht⟩ := h.argument
    exact argumentType_not_mem ht
  rw [hplaced, List.map_append, List.map_append]
  refine List.nodup_append.2 ⟨List.nodup_append.2 ⟨hlib, hds, ?_⟩, ?_, ?_⟩
  · rintro t ht t' ht' rfl
    obtain ⟨d, hd, rfl⟩ := List.mem_map.1 ht'
    obtain ⟨u, hu, htype⟩ := hshell d hd
    exact hdisjoint d.type (List.mem_map.2 ⟨u, hu, htype.symm⟩) d.type ht rfl
  · split <;> simp
  · rintro t ht t' ht' rfl
    split at ht'
    · obtain rfl : t = P.placement.argument := by simpa [argumentClass] using ht'
      refine hfresh ?_
      rcases List.mem_append.1 ht with ht | ht
      · rw [h.program] at ht
        exact (List.filter_sublist.map _).subset ht
      · obtain ⟨d, hd, htype⟩ := List.mem_map.1 ht
        exact htype ▸ hprogram hd
    · cases ht'

/-- **The classes of the program after the merge** are found there. -/
theorem class?_placed (h : P.Valid v) {d : ClassDef} (hd : d ∈ P.last.placed) :
    P.program.class? d.type = some d :=
  Program.class?_ofList (h.nodup_program) (by simp [hd])

theorem eq_of_placed (h : P.Valid v) {d d' : ClassDef} (hd : d ∈ P.last.placed) (hd' : d' ∈ P.last.placed)
    (htype : d.type = d'.type) : d = d' := by
  have hget := h.class?_placed hd
  rw [htype, h.class?_placed hd'] at hget
  exact (Option.some.inj hget).symm

/-- The class that `u` has become. -/
theorem eq_place (h : P.Valid v) {u : UnplacedClass} {st : Placement.Progress} (hst : P.Reaches u st)
    {d : ClassDef} (hd : d ∈ P.last.placed) (htype : d.type = u.shell.type) : d = (P.place u st).1 := by
  refine h.eq_of_placed hd hst.mem_placed (htype.trans ?_)
  obtain ⟨fs, hclass⟩ := Placement.placeClass_eq P.placement u (Placement.inherited P.placement.hash st.tables u.shell) st.log
  rw [place, hclass]

theorem class?_library (h : P.Valid v) {c : ClassDef} (hc : c ∈ v.program.classes)
    (hlib : c.isLibrary = true) : P.program.class? c.type = some c :=
  Program.class?_ofList (h.nodup_program) (by simp [h.program, hc, hlib])

/-- The classes whose members have been placed are those whose members were to be placed. -/
theorem exists_unplaced (h : P.Valid v) {d : ClassDef} (hd : d ∈ P.last.placed) :
    ∃ u ∈ P.classes, ∃ fs ms, d = { u.shell with fields := fs, methods := u.shell.methods ++ ms } ∧
      ms.length = u.methods.length ∧ ∀ m ∈ ms, m.ref.holder = u.shell.type := by
  obtain ⟨ds, hplaced, -, hshells⟩ :=
    Placement.types_foldl_visit P.placement P.classes (P.placement.order P.classes) { log := P.state.log }
  obtain ⟨u, hu, htype⟩ := hshells d (by rw [← List.nil_append ds, ← hplaced]; exact hd)
  obtain ⟨d', hplaced', fs, ms, hd', hms⟩ := h.exists_shell hu
  exact ⟨u, hu, fs, ms, (h.eq_of_placed hd hplaced' (htype.trans (by rw [hd']))).trans hd', hms⟩

/-- The classes after the merge. -/
theorem program_cases (h : P.Valid v) {d : ClassDef} (hd : d ∈ P.program.classes) :
    (d ∈ v.program.classes ∧ d.isLibrary = true) ∨ d ∈ P.last.placed ∨
      d = argumentClass P.placement.argument ∧ P.last.log.usesArgument = true := by
  rcases List.mem_append.1 (Program.mem_of_class?_ofList (Program.mem_classes.1 hd)) with hd | hd
  · rcases List.mem_append.1 hd with hd | hd
    · rw [h.program] at hd
      exact .inl (List.mem_filter.1 hd)
    · exact .inr (.inl hd)
  · split at hd
    · next huses => exact .inr (.inr ⟨List.mem_singleton.1 hd, huses⟩)
    · cases hd

/-- What a class is called after the merge is below what its supertypes are called. -/
theorem names_type (h : P.Valid v) (hv : v.program.Regular) (hclosed : v.program.LibraryClosed) {d : ClassDef}
    (hd : d ∈ v.program.classes) {t : Descriptor} (hnames : Placement.Names v.program.classes d.type t) :
    Placement.Names (P.placement.visited P.classes) (P.type d.type) (P.type t) := by
  obtain ⟨c, hc, rfl, hs⟩ := hnames
  cases hlib : c.isLibrary with
  | true =>
    rw [h.type_of_library hv hc hlib, h.type_of_library hv hd (hclosed c hc hlib d hd hs)]
    exact ⟨c, h.mem_visited hc hlib, rfl, hs⟩
  | false =>
    have hprog : c ∈ v.program.programClasses := List.mem_filter.2 ⟨hc, by simpa [Program.isLibrary_eq] using hlib⟩
    obtain ⟨u, hu, types, c₀, hgathers, -, htype, hc₀, hparents⟩ := h.exists_gathers hprog
    refine ⟨u.shell, shell_mem_visited hu, htype.trans (type_class P hv hc).symm, (mem_supertypes_iff hgathers).2 ⟨d.type, ?_, rfl⟩⟩
    exact mem_supertypes_of_parents hc (Program.mem_classes_of_mem_programClasses hc₀) hparents.symm hs

/-- **Classes below another one stay below it.** -/
theorem below_type (h : P.Valid v) (hv : v.program.Regular) (hclosed : v.program.LibraryClosed) {d : ClassDef}
    (hd : d ∈ v.program.classes) {t : Descriptor} (hbelow : Relation.TransGen (Placement.Names v.program.classes) d.type t) :
    Relation.TransGen (Placement.Names (P.placement.visited P.classes)) (P.type d.type) (P.type t) := by
  induction hbelow with
  | single hnames => exact .single (h.names_type hv hclosed hd hnames)
  | tail hbelow hnames ih =>
    obtain ⟨b, hb, rfl⟩ := Placement.exists_class_of_below hbelow
    exact ih.tail (h.names_type hv hclosed hb hnames)

end Valid

end Plan

/-! ### Methods -/

/-- The method `m` of the class `c` has become `m'`. Nothing happens to it if there is no
    merge or the class is a library class. Otherwise it stands in the class that `c` went
    to, behind the methods that were there before members were placed. -/
inductive Placed (hash : HashOrder) (v : View) (maxGroupSize : Nat) (c : ClassDef) (m : MethodDef) : MethodDef → Prop
  | unmerged (hplan : planned hash v maxGroupSize = .ok none) : Placed hash v maxGroupSize c m m
  | library (hlib : c.isLibrary = true) : Placed hash v maxGroupSize c m m
  | placed {P : Plan} {u : UnplacedClass} {d : ClassDef} {m' : MethodDef} (hplan : planned hash v maxGroupSize = .ok (some P))
      (hprog : c.isLibrary = false) (hu : u ∈ P.classes) (htype : u.shell.type = P.type c.type) (hd : d ∈ P.last.placed)
      (hdtype : d.type = u.shell.type) (hm : (m, m') ∈ u.methods.zip (d.methods.drop u.shell.methods.length)) :
      Placed hash v maxGroupSize c m m'

section

variable {hash : HashOrder} {v : View} {maxGroupSize : Nat}

theorem Placed.eq_of_unmerged (hplan : planned hash v maxGroupSize = .ok none) {c : ClassDef} {m m' : MethodDef}
    (h : Placed hash v maxGroupSize c m m') : m = m' := by
  cases h with
  | unmerged => rfl
  | library => rfl
  | placed hplan' => cases hplan'.symm.trans hplan

theorem Placed.eq_of_library {c : ClassDef} (hlib : c.isLibrary = true) {m m' : MethodDef}
    (h : Placed hash v maxGroupSize c m m') : m = m' := by
  cases h with
  | unmerged => rfl
  | library => rfl
  | placed _ hprog => cases hprog.symm.trans hlib

/-- How a method of a program class came to its place. -/
theorem Placed.placedIn (hv : v.program.WellFormed) {P : Plan} (hplan : planned hash v maxGroupSize = .ok (some P)) {c : ClassDef}
    (hprog : c.isLibrary = false) {m m' : MethodDef} (h : Placed hash v maxGroupSize c m m') :
    ∃ u ∈ P.classes, u.shell.type = P.type c.type ∧ ∃ st, P.last.tables[u.shell.type]? = some st.table ∧
      Placement.PlacedIn P.placement u.shell.type (Placement.Extends (P.inSight u)) st m m' := by
  cases h with
  | unmerged hnone => cases hnone.symm.trans hplan
  | library hlib => cases hlib.symm.trans hprog
  | @placed Q u d _ hplan' _ hu htype hd hdtype hm =>
    cases hplan'.symm.trans hplan
    have hvalid := valid_of_planned hplan
    obtain ⟨d', hplaced, fs, ms, st, hd', htable, hforall⟩ := hvalid.exists_placed hv hu
    have heq : d = d' := hvalid.eq_of_placed hd hplaced (hdtype.trans (by rw [hd']))
    refine ⟨u, hu, htype, st, htable, ?_⟩
    rw [heq, hd', List.drop_left] at hm
    exact (List.forall₂_iff_zip.1 hforall).2 hm

/-- **Every method is placed**, unless it is an instance initializer. -/
theorem exists_placed_method {r : MergeResult} (hv : v.program.Regular) (hrun : Merging.run hash v maxGroupSize = .ok r)
    {c : ClassDef} (hc : c ∈ v.program.classes) {m : MethodDef} (hm : m ∈ c.methods) (hinit : m.isInstanceInitializer = false) :
    ∃ m', Placed hash v maxGroupSize c m m' := by
  rcases run_eq_ok hrun with ⟨hplan, -, -⟩ | ⟨P, hplan, -, -, -⟩
  · exact ⟨m, .unmerged hplan⟩
  · cases hlib : c.isLibrary with
    | true => exact ⟨m, .library hlib⟩
    | false =>
      have hvalid := valid_of_planned hplan
      have hprog : c ∈ v.program.programClasses := List.mem_filter.2 ⟨hc, by simpa [Program.isLibrary_eq] using hlib⟩
      obtain ⟨u, hu, types, c₀, hgathers, hin, htype, -, -⟩ := hvalid.exists_gathers hprog
      have hget : P.placement.program.class? c.type = some c := by
        rw [hvalid.program]
        exact Program.mem_classes.1 hc
      have hmu := (hgathers.methods m hinit).2 ⟨c.type, hin, c, hget, hm⟩
      obtain ⟨d, hplaced, fs, ms, hd, hlength, -⟩ := hvalid.exists_shell hu
      rw [← List.map_fst_zip (Nat.le_of_eq hlength.symm)] at hmu
      obtain ⟨⟨_, m'⟩, hzip, rfl⟩ := List.mem_map.1 hmu
      have htype' := htype.trans (Plan.Valid.type_class P hv hc).symm
      refine ⟨m', .placed hplan hlib hu htype' hplaced (by rw [hd]) ?_⟩
      rw [hd, List.drop_left]
      exact hzip

/-- What a method has become is in the program after the merge. -/
theorem Placed.mem_program {r : MergeResult} (hrun : Merging.run hash v maxGroupSize = .ok r)
    {c : ClassDef} (hc : c ∈ v.program.classes) {m m' : MethodDef} (hm : m ∈ c.methods) (h : Placed hash v maxGroupSize c m m') :
    ∃ d, r.program.class? d.type = some d ∧ m' ∈ d.methods := by
  have hself := Program.mem_classes.1 hc
  rcases run_eq_ok hrun with ⟨hplan, hprogram, -⟩ | ⟨P, hplan, -, hprogram, -⟩
  · rw [← h.eq_of_unmerged hplan]
    exact ⟨c, hprogram ▸ hself, hm⟩
  · have hvalid := valid_of_planned hplan
    rw [hprogram]
    cases h with
    | unmerged hnone => cases hnone.symm.trans hplan
    | library hlib => exact ⟨c, hvalid.class?_library hc hlib, hm⟩
    | @placed Q u d _ hplan' _ _ _ hd _ hm' =>
      cases hplan'.symm.trans hplan
      exact ⟨d, hvalid.class?_placed hd, List.mem_of_mem_drop (List.of_mem_zip hm').2⟩

end

end DexShrinker.Merging
