/-
  DexShrinker/Proofs/Merging/MethodsApart.lean
  ============================================
  **When merged classes declare methods twice.**

  The helpers and dispatching initializers of a group are placed first, and their signatures are
  in use from then on. A method that overrides nothing in sight takes a signature that is not in
  use. A method that overrides follows the first one in sight that it overrides, and does not ask
  what is in use: two methods that override never follow the same one, but one of them may follow
  to the name of a helper.

  So a class declares a method twice exactly if that happens or two buckets of its group have one
  dispatching initializer (`Merging.methods_apart_iff`). Neither can happen if virtual methods are
  not called like helpers, and initializers have no parameters like those that tell classes apart
  (`Merging.methods_apart_of_names`). A class that inherits a method with the name of a helper is
  enough for the first (`Merging.method_declared_twice`).
-/
import DexShrinker.Proofs.Merging.Construction

namespace DexShrinker

namespace Merging

variable {v : View} {P : Plan}

/-- The names that are placed for the initializers of a group are left alone: no two buckets have
    one dispatching initializer, and nothing that overrides follows to a name placed before. -/
structure Plan.LeavesNames (P : Plan) (g : MergeGroup) : Prop where
  dispatchers : ∀ target, g.target = some target →
    ((InitMerge.buckets P.placement.program P.placement.merges P.placement.argument g).map
      (InitMerge.dispatcher target P.placement.argument)).Nodup
  followed : ∀ u ∈ P.classes, g.target = some u.shell.type → ∀ st, P.Reaches u st → ∀ m ∈ u.methods, m.isVirtual = true →
    ∀ s, (Placement.inherited P.placement.hash st.tables u.shell).overridden? P.placement.program m.ref = some s →
      s ∉ u.shell.methods.map (·.ref.signature)

/-! ### Names of helpers -/

/-- A method has the name that it had, or that name with a number. -/
def Renames (s : Signature) (old : MethodRef) : Prop := s.name = old.name ∨ ∃ n, s.name = numbered old.name n

theorem suits_renames (p : Placement) : p.Suits Renames where
  same := by
    intro s a b heq h
    have hname : a.name = b.name := congrArg Signature.name heq
    rwa [Renames, ← hname]
  renamed := by
    intro m _ holder taken
    unfold Placement.renamed
    dsimp only
    split
    · exact .inr ⟨_, rfl⟩
    · exact .inl rfl

/-- Only a name that is like that of a helper becomes the name of one. -/
theorem Renames.eq_helperName {s : Signature} {old : MethodRef} {n : Nat} (h : Renames s old) (hs : s.name = InitMerge.helperName n) :
    old.name = "constructor" ∨ old.name = InitMerge.helperName n := by
  rcases h with hsame | ⟨k, hk⟩
  · exact .inr (hsame.symm.trans hs)
  · exact .inl (eq_of_numbered_eq (hk.symm.trans hs))

namespace Plan.Valid

/-! ### One class -/

/-- **When the methods of a class stay apart.** Its shell has no method twice, and no method follows
    to a signature of the shell. -/
theorem nodup_place_iff (h : P.Valid v) (hhoused : v.program.Housed)
    (honce : ∀ c ∈ v.program.programClasses, (c.methods.map MethodDef.ref).Nodup) {u : UnplacedClass} (hu : u ∈ P.classes)
    (st : Placement.Progress) :
    ((P.place u st).1.methods.map (·.ref.signature)).Nodup ↔ (u.shell.methods.map (·.ref.signature)).Nodup ∧
      ∀ m ∈ u.methods, m.isVirtual = true → ∀ s,
        (Placement.inherited P.placement.hash st.tables u.shell).overridden? P.placement.program m.ref = some s →
          s ∉ u.shell.methods.map (·.ref.signature) := by
  let inherited := Placement.inherited P.placement.hash st.tables u.shell
  obtain ⟨fs, ms, first, rest, start, last, hplace, hms, -, -, hreserved, htable, -, htrail, hperm, hfirst, hrest⟩ :=
    Placement.exists_placeClass P.placement u inherited st.log
  have hnew : (ms.map (·.ref.signature)).Perm ((first ++ rest).map (·.2.ref.signature)) := by
    refine List.Perm.trans (List.Perm.of_eq ?_) (hperm.symm.map _)
    conv_lhs => rw [← List.map_snd_zip (Nat.le_of_eq hms), List.map_map]
    rfl
  have hold : ((first ++ rest).map (·.1.ref)).Nodup := by
    have hnodup := h.nodup_methods hhoused honce hu
    rw [← List.map_fst_zip (Nat.le_of_eq hms.symm), List.map_map] at hnodup
    exact (hperm.map _).nodup_iff.2 hnodup
  have hmem {x : MethodDef × MethodDef} (hx : x ∈ first ++ rest) : x.1 ∈ u.methods := (List.of_mem_zip (hperm.mem_iff.1 hx)).1
  have howns : Placement.Owns (fun r => ∃ m ∈ u.methods, m.isVirtual = true ∧ m.ref = r) inherited start :=
    ⟨[], by rw [htable, List.append_nil], by simp⟩
  have hrelated := h.unrelated_methods hhoused hu
  have hvirtual : ∀ x ∈ first ++ rest, x.1.isVirtual = true → ∃ m ∈ u.methods, m.isVirtual = true ∧ m.ref = x.1.ref :=
    fun x hx hx' => ⟨x.1, hmem hx, hx', rfl⟩
  have hapart := htrail.nodup_iff howns hrelated hvirtual (Placement.inherited_spec P.placement.hash st.tables u.shell).1 hfirst hrest hold
  rw [place, hplace, List.map_append, (hnew.append_left _).nodup_iff, ← hreserved, hapart]
  refine and_congr_right fun _ => ⟨fun hfree m hm hm' s hs => ?_, fun hfree x hx => ?_⟩
  · obtain ⟨m', hzip⟩ := exists_zip_of_mem hms.symm hm
    have hx := hperm.mem_iff.2 hzip
    have hover : P.placement.overrides inherited m = true := by
      rw [Placement.overrides, hm', Bool.true_and, hs]
      rfl
    rcases List.mem_append.1 hx with hx | hx
    · obtain ⟨-, hfollows⟩ := htrail.follows howns hrelated hvirtual hfirst hx
      cases hs.symm.trans hfollows
      exact hfree _ hx
    · rw [hrest _ hx] at hover
      cases hover
  · obtain ⟨-, hfollows⟩ := htrail.follows howns hrelated hvirtual hfirst hx
    have hover := hfirst x hx
    rw [Placement.overrides, Bool.and_eq_true] at hover
    exact hfree x.1 (hmem (List.mem_append_left rest hx)) hover.1 _ hfollows

/-- The shell of a merged class has no method twice exactly if no two buckets have one dispatching
    initializer. -/
theorem nodup_shell_iff (h : P.Valid v) {g : MergeGroup} (hg : g ∈ P.groups) {u : UnplacedClass}
    (hcomes : ComesFrom P.placement P.state g u) (hid : g.classIdField.isSome = true) :
    (u.shell.methods.map (·.ref.signature)).Nodup ↔
      ((InitMerge.buckets P.placement.program P.placement.merges P.placement.argument g).map
        (InitMerge.dispatcher u.shell.type P.placement.argument)).Nodup := by
  obtain ⟨c, -, -, hmem, -⟩ := h.target_class hg
  obtain ⟨htarget, -, -⟩ := h.shell_of_comesFrom hg hcomes hmem
  obtain ⟨classIdField, hid⟩ := Option.isSome_iff_exists.1 hid
  obtain ⟨target, r, inits, hbind, hinits, rfl, -⟩ := hcomes
  obtain ⟨-, -, hplaced⟩ := InitMerge.ofGroup_spec id hinits
  rw [← InitMerge.nodup_placed_iff hinits htarget hid]
  exact (nodup_signatures_iff (hplaced _ htarget)).symm

/-- A class that does not come of a merged group with a class id has no methods in its shell. -/
theorem exists_group_of_shell (h : P.Valid v) {u : UnplacedClass} (hu : u ∈ P.classes)
    (hshell : u.shell.methods ≠ []) : ∃ g ∈ P.groups, ComesFrom P.placement P.state g u ∧ g.classIdField.isSome = true := by
  rcases h.classes_cases hu with ⟨c, -, -, rfl⟩ | ⟨g, hg, hcomes⟩
  · exact absurd rfl hshell
  · refine ⟨g, hg, hcomes, ?_⟩
    obtain ⟨target, r, inits, -, hinits, rfl, -⟩ := hcomes
    rcases InitMerge.ofGroup_cases hinits with ⟨_, _, _, -, hid, -⟩ | ⟨-, rfl⟩
    · rw [hid]
      rfl
    · exact absurd rfl hshell

/-! ### The merged program -/

/-- Merged classes declare no method twice as long as the names that were placed for the
    initializers of their groups are left alone. -/
theorem nodup_placed_class (h : P.Valid v) (hhoused : v.program.Housed)
    (honce : ∀ c ∈ v.program.programClasses, (c.methods.map MethodDef.ref).Nodup)
    (hleaves : ∀ g ∈ P.groups, g.classIdField.isSome = true → P.LeavesNames g) {d : ClassDef} (hd : d ∈ P.last.placed) :
    (d.methods.map (·.ref.signature)).Nodup := by
  obtain ⟨u, hu, fs, ms, hdu, -⟩ := h.exists_unplaced hd
  obtain ⟨st, hst⟩ := h.exists_reached hu
  rw [h.eq_place hst hd (by rw [hdu]), h.nodup_place_iff hhoused honce hu st]
  by_cases hshell : u.shell.methods = []
  · rw [hshell]
    exact ⟨List.nodup_nil, fun _ _ _ _ _ => List.not_mem_nil⟩
  · obtain ⟨g, hg, hcomes, hid⟩ := h.exists_group_of_shell hu hshell
    obtain ⟨c, -, -, hmem, -⟩ := h.target_class hg
    obtain ⟨htarget, -, -⟩ := h.shell_of_comesFrom hg hcomes hmem
    have hleaves := hleaves g hg hid
    exact ⟨(h.nodup_shell_iff hg hcomes hid).2 (hleaves.dispatchers _ htarget), hleaves.followed u hu htarget st hst⟩

/-- If merged classes declare no method twice, the names that were placed are left alone. -/
theorem leavesNames (h : P.Valid v) (hhoused : v.program.Housed)
    (honce : ∀ c ∈ v.program.programClasses, (c.methods.map MethodDef.ref).Nodup)
    (hapart : ∀ d ∈ P.last.placed, (d.methods.map (·.ref.signature)).Nodup) {g : MergeGroup} (hg : g ∈ P.groups)
    (hid : g.classIdField.isSome = true) : P.LeavesNames g := by
  have hparts {u : UnplacedClass} (hu : u ∈ P.classes) {st : Placement.Progress} (hst : P.Reaches u st) :=
    (h.nodup_place_iff hhoused honce hu st).1 (hapart _ hst.mem_placed)
  refine ⟨fun target htarget => ?_, fun u hu _ st hst => (hparts hu hst).2⟩
  obtain ⟨c, hc, htarget', hmem, -⟩ := h.target_class hg
  obtain ⟨u, hu, -, ⟨hno, -⟩ | ⟨g', hg', hmem', hcomes⟩⟩ := h.exists_home hc
  · exact absurd hmem (hno g hg)
  · obtain rfl := h.groups.apart.eq_of_mem hg hg' hmem hmem'
    obtain ⟨hshell, -, -⟩ := h.shell_of_comesFrom hg hcomes hmem
    cases htarget.symm.trans hshell
    obtain ⟨st, hst⟩ := h.exists_reached hu
    exact (h.nodup_shell_iff hg hcomes hid).1 (hparts hu hst).1

/-- The names that are placed for initializers are left alone if no virtual method is called like a
    helper, and no initializer has parameters like those that tell classes apart. -/
theorem leavesNames_of_names (h : P.Valid v) (hv : v.program.Regular)
    (hnames : ∀ c ∈ v.program.classes, ∀ m ∈ c.virtualMethods, m.ref.name ≠ "constructor" ∧ ∀ n, m.ref.name ≠ InitMerge.helperName n)
    (hmarked : ∀ c ∈ v.program.programClasses, ∀ d ∈ c.instanceInitializers, ¬ [P.placement.argument, .int] <:+ d.ref.proto.parameters)
    {g : MergeGroup} (hg : g ∈ P.groups) : P.LeavesNames g := by
  constructor
  · intro target _
    refine InitMerge.nodup_dispatchers (h.unmarked fun t ht c hc d hd hsuffix => ?_) target
    exact hmarked c (h.mem_programClasses_of_group hg ht (h.program ▸ hc)) d hd (h.marked_of_type hv hsuffix)
  · intro u hu _ st hst m hm hvirtual s hs hmem
    have htables := h.each_tables (suits_renames P.placement) (fun _ _ _ _ _ => .inl rfl) hst
    obtain ⟨e, he, rfl⟩ := Option.map_eq_some_iff.1 hs
    have hmatch := List.find?_some he
    simp only [Bool.and_eq_true, beq_iff_eq] at hmatch
    have hrenames : Renames e.1 m.ref :=
      (suits_renames P.placement).same hmatch.1.1 (Placement.each_inherited P.placement.hash htables u.shell e (List.mem_of_find?_eq_some he))
    obtain ⟨d, hd, hsignature⟩ := List.mem_map.1 hmem
    have hname : e.1.name = d.ref.name := congrArg Signature.name hsignature.symm
    obtain ⟨g', hg', hcomes, -⟩ := h.exists_group_of_shell hu (List.ne_nil_of_mem hd)
    obtain ⟨target, r, inits, -, hinits, rfl, -⟩ := hcomes
    obtain ⟨hmade, hsynthesized⟩ := InitMerge.made_of_ofGroup hinits
    cases hmade d hd with
    | helper x hx n hhelper hproto hstatic hcode =>
      obtain ⟨c, hc, -, hmc⟩ := h.exists_class_of_mem hu hm
      have hclass := Program.mem_classes_of_mem_programClasses hc
      obtain ⟨hno, hno'⟩ := hnames c hclass m (List.mem_filter.2 ⟨hmc, hvirtual⟩)
      rcases hrenames.eq_helperName (hname.trans hhelper) with hm' | hm'
      · exact hno hm'
      · exact hno' n hm'
    | dispatcher c href hstatic hcode hshaped hsound harguments =>
      -- Only initializers are called like that, also after the merge.
      have hinit := MethodDef.isInstanceInitializer_of_isVirtual hvirtual
      rcases hrenames with hsame | ⟨n, hn⟩
      · exact Placement.name_ne_initName hinit (hsame.symm.trans (hname.trans (hsynthesized _ href).1))
      · exact numbered_ne_initName _ n (hn.symm.trans (hname.trans (hsynthesized _ href).1))

/-- What a merge leaves alone declares no method twice either. -/
theorem nodup_signatures (h : P.Valid v) (hhoused : v.program.Housed)
    (honce : ∀ c ∈ v.program.classes, (c.methods.map MethodDef.ref).Nodup)
    (hleaves : ∀ g ∈ P.groups, g.classIdField.isSome = true → P.LeavesNames g) {d : ClassDef} (hd : d ∈ P.program.classes) :
    (d.methods.map (·.ref.signature)).Nodup := by
  rcases h.program_cases hd with ⟨hc, -⟩ | hd | ⟨rfl, -⟩
  · exact (nodup_signatures_iff (hhoused d hc)).1 (honce d hc)
  · exact h.nodup_placed_class hhoused (fun c hc => honce c (Program.mem_classes_of_mem_programClasses hc)) hleaves hd
  · exact List.nodup_nil

end Plan.Valid

section

variable {hash : HashOrder} {maxGroupSize : Nat} {r : MergeResult}

/-- **No method is declared twice** if no virtual method is called like a helper, and no initializer
    has parameters like those that tell classes apart. -/
theorem methods_apart_of_names (hv : v.program.Regular) (hhoused : v.program.Housed)
    (honce : ∀ c ∈ v.program.classes, (c.methods.map MethodDef.ref).Nodup)
    (hnames : ∀ c ∈ v.program.classes, ∀ m ∈ c.virtualMethods, m.ref.name ≠ "constructor" ∧ ∀ n, m.ref.name ≠ InitMerge.helperName n)
    (hrun : run hash v maxGroupSize = .ok r)
    (hmarked : ∀ P, planned hash v maxGroupSize = .ok (some P) → ∀ c ∈ v.program.programClasses, ∀ d ∈ c.instanceInitializers,
      ¬ [P.placement.argument, .int] <:+ d.ref.proto.parameters) {d : ClassDef} (hd : d ∈ r.program.classes) :
    (d.methods.map (·.ref.signature)).Nodup := by
  rcases run_eq_ok hrun with ⟨-, hprogram, -⟩ | ⟨P, hplan, -, hprogram, -⟩
  · rw [hprogram] at hd
    exact (nodup_signatures_iff (hhoused d hd)).1 (honce d hd)
  · rw [hprogram] at hd
    have h := valid_of_planned hplan
    exact h.nodup_signatures hhoused honce (fun g hg _ => h.leavesNames_of_names hv hnames (hmarked P hplan) hg) hd

/-- **When merged classes declare no method twice.** If every class declares each method once, the
    classes after a merge do so too exactly if, in every group with a class id, the names that were
    placed for its initializers are left alone. -/
theorem methods_apart_iff (hhoused : v.program.Housed)
    (honce : ∀ c ∈ v.program.classes, (c.methods.map MethodDef.ref).Nodup) (hrun : run hash v maxGroupSize = .ok r) :
    (∀ d ∈ r.program.classes, (d.methods.map (·.ref.signature)).Nodup) ↔
      ∀ P, planned hash v maxGroupSize = .ok (some P) → ∀ g ∈ P.groups, g.classIdField.isSome = true → P.LeavesNames g := by
  rcases run_eq_ok hrun with ⟨hnone, hprogram, -⟩ | ⟨P, hplan, -, hprogram, -⟩
  · refine ⟨fun _ P hplan => ?_, fun _ d hd => ?_⟩
    · cases hnone.symm.trans hplan
    · rw [hprogram] at hd
      exact (nodup_signatures_iff (hhoused d hd)).1 (honce d hd)
  have h := valid_of_planned hplan
  rw [hprogram]
  constructor
  · intro hapart P' hplan' g hg hid
    cases hplan.symm.trans hplan'
    refine h.leavesNames hhoused (fun c hc => honce c (Program.mem_classes_of_mem_programClasses hc)) (fun d hd => hapart d ?_) hg hid
    exact Program.mem_classes.2 (h.class?_placed hd)
  · exact fun hleaves d hd => h.nodup_signatures hhoused honce (hleaves P hplan) hd

end

/-! ### Methods called like helpers

`A` and `B` become one class, and so do `C` and `D` below `P`, which have initializers of an `A`. `P`
declares a method of an `A` and one of a `B`, which `D` overrides. -/

namespace Followed

def method (holder name parameter : String) (access : AccessFlags) : MethodDef where
  ref := ⟨Named.type holder, name, ⟨.void, [Named.type parameter]⟩⟩
  access := access
  code := none

def initializer (holder : String) : MethodDef := method holder MethodRef.initName "A" (.publicFlag ||| .constructorFlag)

def withParent (holder parent : String) (methods : List MethodDef) : ClassDef where
  type := Named.type holder
  superclass := some (Named.type parent)
  methods := methods

def view (name : String) : View where
  program := .ofList [{ type := .object, kind := .library, superclass := none }, Named.withMethods "A" [], Named.withMethods "B" [],
    { type := Named.type "P", superclass := some .object, fields := [⟨⟨Named.type "P", "x", .int⟩, .publicFlag, none⟩],
      methods := [method "P" name "A" .publicFlag, method "P" name "B" .publicFlag] },
    withParent "C" "P" [initializer "C"], withParent "D" "P" [initializer "D", method "D" name "B" .publicFlag]]

/-- Whether classes declare no method twice after the merge, and the classes of the groups that have a class id. -/
def outcome (name : String) : Option (Bool × List (List Descriptor)) :=
  match run .inserted (view name) defaultMaxGroupSize, planned .inserted (view name) defaultMaxGroupSize with
  | .ok r, .ok (some P) => some (r.program.classes.all fun d => decide (d.methods.map (·.ref.signature)).Nodup,
      (P.groups.filter (·.classIdField.isSome)).map MergeGroup.classes)
  | _, _ => none

/-- `C` and `D` become one class with a class id. -/
structure Merged (name : String) (r : MergeResult) (P : Plan) : Prop where
  regular : (view name).program.Regular
  housed : (view name).program.Housed
  once : ∀ c ∈ (view name).program.classes, (c.methods.map MethodDef.ref).Nodup
  run : Merging.run .inserted (view name) defaultMaxGroupSize = .ok r
  planned : Merging.planned .inserted (view name) defaultMaxGroupSize = .ok (some P)
  group : ∃ g ∈ P.groups, g.classIdField.isSome = true ∧ g.classes = [Named.type "C", Named.type "D"]

theorem exists_merged {name : String} {apart : Bool} (hregular : ∀ c ∈ (view name).program.classes, c.type.isClass = true)
    (hhoused : (view name).program.Housed) (honce : ∀ c ∈ (view name).program.classes, (c.methods.map MethodDef.ref).Nodup)
    (h : outcome name = some (apart, [[Named.type "C", Named.type "D"]])) :
    ∃ r P, Merged name r P ∧ (apart = true ↔ ∀ d ∈ r.program.classes, (d.methods.map (·.ref.signature)).Nodup) := by
  unfold outcome at h
  split at h
  · next r P hr hP =>
    simp only [Option.some.injEq, Prod.mk.injEq] at h
    obtain ⟨happart, hgroups⟩ := h
    refine ⟨r, P, ⟨⟨hregular⟩, hhoused, honce, hr, hP, ?_⟩, by simp [← happart]⟩
    have hmem : [Named.type "C", Named.type "D"] ∈ (P.groups.filter (·.classIdField.isSome)).map MergeGroup.classes := by
      rw [hgroups]
      exact List.mem_singleton_self _
    obtain ⟨g, hg, hclasses⟩ := List.mem_map.1 hmem
    obtain ⟨hg, hid⟩ := List.mem_filter.1 hg
    exact ⟨g, hg, hid, hclasses⟩
  · cases h

end Followed

/-- If the methods are called `make`, that of `D` follows to a name that no helper has. -/
theorem methods_apart_make : ∃ r P, Followed.Merged "make" r P ∧ (∀ d ∈ r.program.classes, (d.methods.map (·.ref.signature)).Nodup) ∧
    ∀ g ∈ P.groups, g.classIdField.isSome = true → P.LeavesNames g := by
  obtain ⟨r, P, h, hapart⟩ := @Followed.exists_merged "make" true (by decide +kernel)
    (by unfold Program.Housed; decide +kernel) (by decide +kernel) (by decide +kernel)
  exact ⟨r, P, h, hapart.1 rfl, (methods_apart_iff h.housed h.once h.run).1 (hapart.1 rfl) P h.planned⟩

/-- If they are called `constructor`, one of `P` gets a number, because both would take an `A`. That
    of `D` follows to the name that the helper of its initializer has. -/
theorem method_declared_twice : ∃ r P, Followed.Merged "constructor" r P ∧
    ¬ ∀ d ∈ r.program.classes, (d.methods.map (·.ref.signature)).Nodup := by
  obtain ⟨r, P, h, hapart⟩ := @Followed.exists_merged "constructor" false (by decide +kernel)
    (by unfold Program.Housed; decide +kernel) (by decide +kernel) (by decide +kernel)
  exact ⟨r, P, h, fun hall => Bool.false_ne_true (hapart.2 hall)⟩

end Merging

end DexShrinker
