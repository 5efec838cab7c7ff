/-
  DexShrinker/Proofs/Merging/Hierarchy.lean
  =========================================
  **A merge is a morphism of hierarchies.**

  The classes of a group name the same supertypes, so what a class has become names what its
  supertypes have become (`Plan.Valid.namesSuper_type`), and subtypes stay subtypes. Merging
  classes of the same parents makes no cycles either. But the class of padding parameters is
  new and has the top class as its superclass. Its name is one that no class has, which does
  not mean that no class names it as a supertype: the hierarchy stays without cycles exactly
  if the top class is not below it (`Plan.Valid.acyclic_iff`). Classes have class types here.
  Nothing is below one that is called like a primitive type, so what is merged into it loses
  its subtypes.
-/
import DexShrinker.Proofs.App.Subtyping
import DexShrinker.Proofs.Lens.Lookup
import DexShrinker.Proofs.Merging.Lasting
import DexShrinker.Proofs.Merging.Merged

namespace DexShrinker.Merging

open Program (Ranked)

namespace Plan.Valid

variable {v : View} {P : Plan}

/-! ### Subtypes -/

/-- What a class has become names what its supertypes have become. -/
theorem namesSuper_type (h : P.Valid v) (hv : v.program.Regular) (hclosed : v.program.LibraryClosed) {t s : Descriptor}
    (hs : s.isArray = false) (hnames : v.program.NamesSuper t s) : P.program.NamesSuper (P.type t) (P.type s) := by
  obtain ⟨c, hget, hmem⟩ := hnames
  obtain rfl := Program.type_of_class? hget
  have hc := Program.mem_classes.2 hget
  cases hlib : c.isLibrary with
  | true =>
    refine ⟨c, ?_, ?_⟩
    · rw [h.type_of_library hv hc hlib]
      exact h.class?_library hc hlib
    · rw [h.type_of_not_program hs]
      · exact hmem
      · rintro d hd rfl
        obtain ⟨hd, hprogram⟩ := List.mem_filter.1 hd
        have hlib' := hclosed c hc hlib d hd hmem
        rw [Program.isLibrary_eq, hprogram] at hlib'
        cases hlib'
  | false =>
    have hprog : c ∈ v.program.programClasses := List.mem_filter.2 ⟨hc, by simpa [Program.isLibrary_eq] using hlib⟩
    obtain ⟨u, hu, types, c₀, hgathers, -, htype, hc₀, hparents⟩ := h.exists_gathers hprog
    obtain ⟨d, hd, fs, ms, heq, -, -⟩ := h.exists_shell hu
    refine ⟨d, ?_, ?_⟩
    · rw [type_class P hv hc, ← htype, show u.shell.type = d.type by rw [heq]]
      exact h.class?_placed hd
    · rw [show d.supertypes = u.shell.supertypes by rw [heq]; rfl]
      exact (mem_supertypes_iff hgathers).2
        ⟨s, mem_supertypes_of_parents hc (Program.mem_classes_of_mem_programClasses hc₀) hparents.symm hmem, rfl⟩

theorem transGen_type (h : P.Valid v) (hv : v.program.Regular) (hclosed : v.program.LibraryClosed) {t s : Descriptor}
    (hs : s.isArray = false) (habove : Relation.TransGen v.program.NamesSuper t s) :
    Relation.TransGen P.program.NamesSuper (P.type t) (P.type s) := by
  induction habove using Relation.TransGen.head_induction_on with
  | single hnames => exact .single (h.namesSuper_type hv hclosed hs hnames)
  | head hnames hrest ih =>
    -- A type in between names another one, so it is a class.
    obtain ⟨_, ⟨c, hget, -⟩, -⟩ := Relation.TransGen.head'_iff.1 hrest
    obtain rfl := Program.type_of_class? hget
    exact .head (h.namesSuper_type hv hclosed (hv.notArray c (Program.mem_classes.2 hget)) hnames) ih

/-- **Subtypes go to subtypes.** -/
theorem below_of_below (h : P.Valid v) (hv : v.program.Regular) (hclosed : v.program.LibraryClosed)
    (hobject : ∀ c ∈ v.program.programClasses, c.type ≠ .object) {a b : Descriptor} (hbelow : v.program.Below a b) :
    P.program.Below (P.type a) (P.type b) := by
  induction hbelow with
  | refl t => exact .refl _
  | top ht =>
    rw [h.type_of_not_program (Descriptor.isArray_of_isClass Descriptor.isClass_object) hobject]
    exact .top (h.isReference_type hv ht)
  | @array x y hx _ ih =>
    rw [Plan.type, Plan.type, MergeMap.type, MergeMap.type, Descriptor.mapBase_toArray, Descriptor.mapBase_toArray]
    exact .array (h.isReference_type hv hx) ih
  | named ht hs habove =>
    exact .named (h.isClass_type hv ht) (h.isClass_type hv hs)
      (h.transGen_type hv hclosed (Descriptor.isArray_of_isClass hs) habove)

/-! ### Cycles -/

/-- The class of padding parameters is new. -/
theorem class?_argument (h : P.Valid v) : v.program.class? P.placement.argument = none := by
  obtain ⟨t, ht⟩ := h.argument
  refine Option.eq_none_iff_forall_ne_some.2 fun c hc => argumentType_not_mem ht ?_
  have htype := Program.type_of_class? hc
  exact htype ▸ List.mem_map_of_mem (Program.mem_classes.2 (htype ▸ hc))

/-- What names a supertype after the merge: a class that was gone through, or the class of
    padding parameters. -/
theorem namesSuper_cases (h : P.Valid v) {t s : Descriptor} (hnames : P.program.NamesSuper t s) :
    Placement.Names (P.placement.visited P.classes) s t ∨
      t = P.placement.argument ∧ s = .object ∧ P.last.log.usesArgument = true := by
  obtain ⟨d, hget, hs⟩ := hnames
  obtain rfl := Program.type_of_class? hget
  rcases h.program_cases (Program.mem_classes.2 hget) with ⟨hd, hlib⟩ | hd | ⟨rfl, huses⟩
  · exact .inl ⟨d, h.mem_visited hd hlib, rfl, hs⟩
  · obtain ⟨u, hu, fs, ms, rfl, -, -⟩ := h.exists_unplaced hd
    exact .inl ⟨u.shell, shell_mem_visited hu, rfl, hs⟩
  · exact .inr ⟨rfl, by simpa [argumentClass, ClassDef.supertypes] using hs, huses⟩

/-- A way upwards goes through classes that were gone through, or it comes to the class of
    padding parameters. -/
theorem transGen_cases (h : P.Valid v) {a b : Descriptor}
    (habove : Relation.TransGen P.program.NamesSuper a b) :
    Relation.TransGen (Placement.Names (P.placement.visited P.classes)) b a ∨
      P.last.log.usesArgument = true ∧ Relation.ReflTransGen P.program.NamesSuper a P.placement.argument ∧
        Relation.ReflTransGen P.program.NamesSuper .object b := by
  induction habove with
  | single hnames =>
    rcases h.namesSuper_cases hnames with hvisited | ⟨rfl, rfl, huses⟩
    · exact .inl (.single hvisited)
    · exact .inr ⟨huses, .refl, .refl⟩
  | tail habove hnames ih =>
    rcases ih with hvisited | ⟨huses, hto, hfrom⟩
    · rcases h.namesSuper_cases hnames with hlast | ⟨rfl, rfl, huses⟩
      · exact .inl (.head hlast hvisited)
      · exact .inr ⟨huses, habove.to_reflTransGen, .refl⟩
    · exact .inr ⟨huses, hto, hfrom.tail hnames⟩

/-- A way upwards from the top has been there before the merge, because it goes through
    library classes only. -/
theorem reflTransGen_object (h : P.Valid v) (hclosed : v.program.LibraryClosed)
    (hobject : ∀ c ∈ v.program.programClasses, c.type ≠ .object) {b : Descriptor}
    (habove : Relation.ReflTransGen P.program.NamesSuper .object b) :
    Relation.ReflTransGen v.program.NamesSuper .object b ∧ ∀ c ∈ v.program.programClasses, c.type ≠ b := by
  induction habove with
  | refl => exact ⟨.refl, hobject⟩
  | tail _ hnames ih =>
    obtain ⟨hway, hprogram⟩ := ih
    rcases h.namesSuper_cases hnames with ⟨c, hc, rfl, hs⟩ | ⟨-, rfl, -⟩
    · rcases List.mem_append.1 hc with hc | hc
      · obtain ⟨u, hu, rfl⟩ := List.mem_map.1 hc
        obtain ⟨types, c, hc, hgathers, -, -⟩ := h.origin hu
        exact absurd hgathers.type.symm (hprogram c hc)
      · obtain ⟨hc, hlib⟩ := List.mem_filter.1 hc
        rw [h.program] at hc
        refine ⟨hway.tail ⟨c, Program.mem_classes.1 hc, hs⟩, ?_⟩
        rintro d hd rfl
        obtain ⟨hd, hisProgram⟩ := List.mem_filter.1 hd
        have hlib' := hclosed c hc hlib d hd hs
        rw [Program.isLibrary_eq, hisProgram] at hlib'
        cases hlib'
    · exact ⟨.refl, hobject⟩

theorem isSubtype_object_argument_iff (h : P.Valid v) :
    v.program.isSubtype .object P.placement.argument = true ↔
      Relation.ReflTransGen v.program.NamesSuper .object P.placement.argument := by
  rw [Program.isSubtype_iff]
  constructor
  · intro hbelow
    generalize P.placement.argument = t at hbelow
    generalize ha : Descriptor.object = a at hbelow
    cases hbelow with
    | refl => exact .refl
    | top => rw [ha]
    | array =>
      have harray := Descriptor.isArray_of_isClass Descriptor.isClass_object
      rw [ha, Descriptor.isArray_toArray] at harray
      cases harray
    | named _ _ habove => exact habove.to_reflTransGen
  · intro hway
    rcases Relation.reflTransGen_iff_eq_or_transGen.1 hway with heq | habove
    · rw [heq]
      exact .refl _
    · exact .named Descriptor.isClass_object h.isClass_argument habove

/-- **Merging closes a cycle only with the class of padding parameters**, and then only if the
    top class is below it. -/
theorem acyclic_iff (h : P.Valid v) (hv : v.program.Regular) (hclosed : v.program.LibraryClosed)
    (hobject : ∀ c ∈ v.program.programClasses, c.type ≠ .object) (hacyclic : v.program.Acyclic) :
    P.program.Acyclic ↔ (P.last.log.usesArgument = true → v.program.isSubtype .object P.placement.argument = false) := by
  constructor
  · intro hcycle huses
    rw [← Bool.not_eq_true, h.isSubtype_object_argument_iff]
    intro hway
    have hnames : P.program.NamesSuper P.placement.argument .object :=
      ⟨argumentClass P.placement.argument,
        Program.class?_ofList (c := argumentClass P.placement.argument) (h.nodup_program) (by simp [huses]),
        by simp [argumentClass, ClassDef.supertypes]⟩
    rcases Relation.reflTransGen_iff_eq_or_transGen.1 hway with heq | habove
    · rw [heq] at hnames
      exact hcycle _ (.single hnames)
    · have habove' := h.transGen_type hv hclosed (Descriptor.isArray_of_isClass h.isClass_argument) habove
      have hargument : ∀ c ∈ v.program.programClasses, c.type ≠ P.placement.argument := by
        intro c hc heq
        have hget := (Program.mem_programClasses.1 hc).1
        rw [heq, h.class?_argument] at hget
        cases hget
      rw [h.type_of_not_program (Descriptor.isArray_of_isClass Descriptor.isClass_object) hobject,
        h.type_of_not_program (Descriptor.isArray_of_isClass h.isClass_argument) hargument] at habove'
      exact hcycle _ (habove'.tail hnames)
  · intro hno t hcycle
    obtain ⟨rank, hlayered⟩ := h.layered ⟨hv.isClass, Program.acyclic_iff.1 hacyclic⟩
    rcases h.transGen_cases hcycle with hvisited | ⟨huses, hto, hfrom⟩
    · exact Nat.lt_irrefl _ (hlayered.rank_lt hvisited)
    · have hway := (h.reflTransGen_object hclosed hobject (hfrom.trans hto)).1
      rw [← h.isSubtype_object_argument_iff, hno huses] at hway
      cases hway

/-- A class that the program did not have before is the class of padding parameters. -/
theorem forall_added_iff (h : P.Valid v) {Q : Descriptor → Prop} :
    (∀ c ∈ P.program.classes, v.program.class? c.type = none → Q c.type) ↔
      (P.last.log.usesArgument = true → Q P.placement.argument) := by
  constructor
  · intro hall huses
    have hget : P.program.class? P.placement.argument = some (argumentClass P.placement.argument) :=
      Program.class?_ofList (c := argumentClass P.placement.argument) (h.nodup_program) (by simp [huses])
    exact hall (argumentClass P.placement.argument) (Program.mem_classes.2 hget) (h.class?_argument)
  · intro hadded c hc hnone
    rcases h.program_cases hc with ⟨hc, -⟩ | hc | ⟨rfl, huses⟩
    · cases (Program.mem_classes.1 hc).symm.trans hnone
    · obtain ⟨u, hu, fs, ms, rfl, -, -⟩ := h.exists_unplaced hc
      obtain ⟨types, d, hd, hgathers, -, -⟩ := h.origin hu
      cases ((Program.mem_programClasses.1 hd).1.symm.trans (hgathers.type ▸ hnone) :)
    · exact hadded huses

end Plan.Valid

/-! ### Merging classes -/

variable {hash : HashOrder} {v : View} {maxGroupSize : Nat} {r : MergeResult}

/-- **A merge is a morphism of hierarchies.** Subtypes go to subtypes, and there are no cycles
    afterwards if there were none before, unless the top class was below a class that the merge
    adds. -/
theorem morphism_of_run (hv : v.program.Regular) (hclosed : v.program.LibraryClosed)
    (hobject : ∀ c ∈ v.program.programClasses, c.type ≠ .object) (hrun : run hash v maxGroupSize = .ok r) :
    (∀ a b, v.program.isSubtype a b = true →
      r.program.isSubtype (r.lens.lookupType a v.lens) (r.lens.lookupType b v.lens) = true) ∧
    (v.program.Acyclic → (r.program.Acyclic ↔
      ∀ c ∈ r.program.classes, v.program.class? c.type = none → v.program.isSubtype .object c.type = false)) := by
  rcases run_eq_ok hrun with ⟨-, hprogram, hlens⟩ | ⟨P, hplan, -, hprogram, hlens⟩
  · have hself (t : Descriptor) : v.lens.lookupType t v.lens = t := by
      rw [Lens.lookupType, Lens.forward_self, List.foldl_nil]
    rw [hprogram, hlens]
    simp only [hself]
    refine ⟨fun _ _ hsub => hsub, fun hacyclic => iff_of_true hacyclic fun c hc hnone => ?_⟩
    cases (Program.mem_classes.1 hc).symm.trans hnone
  · have hvalid := valid_of_planned hplan
    rw [hprogram]
    simp only [hvalid.lookupType_eq hlens]
    refine ⟨fun a b hsub => ?_, fun hacyclic => ?_⟩
    · rw [Program.isSubtype_iff]
      exact hvalid.below_of_below hv hclosed hobject (Program.isSubtype_iff.1 hsub)
    · rw [hvalid.forall_added_iff (Q := fun t => v.program.isSubtype .object t = false)]
      exact hvalid.acyclic_iff hv hclosed hobject hacyclic

/-! ### A name that is taken

`A` and `B` become one class, and their initializers become one that takes a padding parameter.
No class has the name that the class of this parameter gets, but `top` may be the superclass that
the top class names. -/

namespace Padded

def type (name : String) : Descriptor := .ofBinaryName ("p/" ++ name)

def withInitializer (name : String) : ClassDef where
  type := type name
  superclass := some .object
  methods := [{ ref := ⟨type name, MethodRef.initName, .void⟩, access := .publicFlag ||| .constructorFlag, code := none }]

def view (top : Option Descriptor) : View where
  program := .ofList [{ type := .object, kind := .library, superclass := top }, withInitializer "A", withInitializer "B"]

def added : Descriptor := type "A$$MergedConstructorArgument"

/-- Which supertypes the class `t` names after the merge. -/
def supertypesAfter (top : Option Descriptor) (t : Descriptor) : List Descriptor :=
  match run .inserted (view top) 30 with
  | .ok r => ((r.program.class? t).map ClassDef.supertypes).getD []
  | .error _ => []

theorem exists_run (top : Option Descriptor) (t s : Descriptor) (h : s ∈ supertypesAfter top t) :
    ∃ r, run .inserted (view top) 30 = .ok r ∧ r.program.NamesSuper t s := by
  unfold supertypesAfter at h
  split at h
  · next r hr =>
    refine ⟨r, hr, ?_⟩
    cases hget : r.program.class? t with
    | none => simp [hget] at h
    | some c => exact ⟨c, hget, by simpa [hget] using h⟩
  · cases h

/-- Whether the top class is below none of the classes that the merge adds. -/
def isFree (top : Option Descriptor) : Bool :=
  match run .inserted (view top) 30 with
  | .ok r => r.program.classes.all fun c =>
    ((view top).program.class? c.type).isSome || !(view top).program.isSubtype .object c.type
  | .error _ => false

theorem isSubtype_of_isFree {top : Option Descriptor} (h : isFree top = true) {r : MergeResult}
    (hrun : run .inserted (view top) 30 = .ok r) {c : ClassDef} (hc : c ∈ r.program.classes)
    (hnone : (view top).program.class? c.type = none) : (view top).program.isSubtype .object c.type = false := by
  unfold isFree at h
  split at h
  · next r' hr' =>
    cases hrun.symm.trans hr'
    simpa [hnone] using List.all_eq_true.1 h c hc
  · cases h

end Padded

/-- Where the top class has no superclass, `B` is still below what it was below, as are arrays of
    it, and there is no cycle. -/
theorem morphism_of_run_padded : ∃ r, run .inserted (Padded.view none) 30 = .ok r ∧ r.program.Acyclic ∧
    r.program.isSubtype (r.lens.lookupType (Padded.type "B").toArray (Padded.view none).lens)
      (r.lens.lookupType Descriptor.object.toArray (Padded.view none).lens) = true := by
  obtain ⟨r, hrun, -⟩ := Padded.exists_run none Padded.added .object (by decide +kernel)
  obtain ⟨hsubtypes, hcycles⟩ := morphism_of_run (v := Padded.view none) ⟨by decide⟩
    (by unfold Program.LibraryClosed; decide) (by decide) hrun
  have hacyclic : (Padded.view none).program.Acyclic := by
    refine Program.acyclic_iff.2 ⟨fun t => if t = .object then 0 else 1, ?_⟩
    unfold Program.Ranked
    decide
  exact ⟨r, hrun, (hcycles hacyclic).2 fun c hc hnone => Padded.isSubtype_of_isFree (by decide +kernel) hrun hc hnone,
    hsubtypes _ _ (by decide +kernel)⟩

/-! ### Where it fails -/

/-- The merge of a hierarchy that has the top class in the library, and nothing of the program
    above library classes. -/
structure MergesHierarchy (v : View) (r : MergeResult) : Prop where
  closed : v.program.LibraryClosed
  object : ∀ c ∈ v.program.programClasses, c.type ≠ .object
  run : Merging.run .inserted v 30 = .ok r

/-- The clash: where the top class names the new class as its superclass, the merge closes a
    cycle. -/
theorem exists_cycle : ∃ r, (Padded.view (some Padded.added)).program.Regular ∧ MergesHierarchy (Padded.view (some Padded.added)) r ∧
    (Padded.view (some Padded.added)).program.Acyclic ∧ ¬ r.program.Acyclic := by
  obtain ⟨r, hrun, hadded⟩ := Padded.exists_run (some Padded.added) Padded.added .object (by decide +kernel)
  refine ⟨r, ⟨by decide⟩, ⟨by unfold Program.LibraryClosed; decide, by decide, hrun⟩, ?_, ?_⟩
  · refine Program.acyclic_iff.2 ⟨fun t => if t = Padded.added then 0 else if t = .object then 1 else 2, ?_⟩
    unfold Program.Ranked
    decide
  · intro hacyclic
    obtain ⟨r', hrun', htop⟩ := Padded.exists_run (some Padded.added) .object Padded.added (by decide +kernel)
    cases hrun.symm.trans hrun'
    exact hacyclic .object (.tail (.single htop) hadded)

namespace Padded

/-- `LA;` becomes a class that is called like the integers, and `LD;` is below `LA;`. -/
def primitive : View where
  program := .ofList [{ type := .object, kind := .library, superclass := none }, { type := .int, superclass := some .object },
    { type := ⟨"LA;"⟩, superclass := some .object }, { type := ⟨"LD;"⟩, superclass := some ⟨"LA;"⟩ }]

def isBelow (r : MergeResult) : Bool :=
  r.program.isSubtype (r.lens.lookupType ⟨"LD;"⟩ primitive.lens) (r.lens.lookupType ⟨"LA;"⟩ primitive.lens)

end Padded

/-- Nothing is below the integers. -/
theorem exists_lost_subtype : ∃ r, MergesHierarchy Padded.primitive r ∧
    Padded.primitive.program.isSubtype ⟨"LD;"⟩ ⟨"LA;"⟩ = true ∧ Padded.isBelow r = false := by
  have hlost : (run .inserted Padded.primitive 30).toOption.map Padded.isBelow = some false := by decide +kernel
  obtain ⟨r, hr, hlost⟩ := Option.map_eq_some_iff.1 hlost
  exact ⟨r, ⟨by unfold Program.LibraryClosed; decide, by decide, toOption_eq_some.1 hr⟩, by decide +kernel, hlost⟩

/-- **What a morphism needs.** A cycle is closed if the top class is below the new class, and a
    subtype is lost if a class has no class type. -/
theorem cycle_closed :
    (∃ r, (Padded.view (some Padded.added)).program.Regular ∧ MergesHierarchy (Padded.view (some Padded.added)) r ∧
      (Padded.view (some Padded.added)).program.Acyclic ∧ ¬ r.program.Acyclic) ∧
    ∃ r, MergesHierarchy Padded.primitive r ∧ Padded.primitive.program.isSubtype ⟨"LD;"⟩ ⟨"LA;"⟩ = true ∧
      r.program.isSubtype (r.lens.lookupType ⟨"LD;"⟩ Padded.primitive.lens) (r.lens.lookupType ⟨"LA;"⟩ Padded.primitive.lens) = false :=
  ⟨exists_cycle, exists_lost_subtype⟩

end DexShrinker.Merging
