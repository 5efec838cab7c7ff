/-
  DexShrinker/Proofs/Unboxing/Pieces.lean
  =======================================
  **What unboxing puts together.**

  If anything is unboxed, the new program consists of the library classes, the local classes
  of the enums, the shared class and all other classes with new types, and the lens has one
  layer more with everything that was recorded (`Unboxing.exists_pieces`).
-/
import DexShrinker.Proofs.Unboxing.Recording
import DexShrinker.Proofs.Unboxing.Resolution

namespace DexShrinker

open Std (TreeMap TreeSet LawfulEqOrd)

namespace Unboxing

/-- The pieces that unboxing puts together. -/
structure Pieces where
  fixed : Fixed
  shared : SharedUtility
  locals : TypeMap LocalUtility
  localClasses : List ClassDef
  /-- The methods of the local classes that were put together. -/
  methods : List MethodRef
  /-- What is recorded once the enums are gone. -/
  dissolved : Recorder
  sharedClass : ClassDef

namespace Pieces

variable (x : Pieces)

/-- The types that become numbers. -/
def enums : TypeSet := .ofList x.fixed.keys

/-- The other classes, and what is recorded in the end. -/
def retyped (p : Program) : List ClassDef × Recorder := retypeAll p x.enums x.shared.type x.dissolved

/-- The pieces make up what unboxing gives. -/
structure MakeUp (v : View) (r : UnboxingResult) : Prop where
  isFixed : ∀ (t : Descriptor) (f : FixedEnum), x.fixed[t]? = some f → ∃ c ∈ v.program.programClasses, c.type = t ∧
    v.program.hasSubtypes t = false ∧ ∃ read, FixedEnum.ofClass c read = .ok (.ok f)
  shared : Fresh v.program x.shared.type
  locals : ∀ (t : Descriptor) (u : LocalUtility), x.locals[t]? = some u → Fresh v.program u.type
  hasLocal : ∀ t ∈ x.fixed, ∃ u, x.locals[t]? = some u
  sharedOf : ∃ first n, SharedUtility.ofProgram v.program first n = .ok x.shared
  localOf : ∀ (t : Descriptor) (u : LocalUtility), x.locals[t]? = some u → LocalUtility.ofProgram v.program t = .ok u
  dissolve : dissolveAll v.program x.enums x.fixed x.locals (Recorder.start .enumUnboxing) = .ok (x.localClasses, x.methods, x.dissolved)
  build : x.shared.build = .ok x.sharedClass
  program : r.program = .ofList (v.program.classes.filter (·.isLibrary) ++ x.localClasses ++ (x.retyped v.program).1 ++ [x.sharedClass])
  lens : (x.retyped v.program).2.build v.lens = .ok r.lens
  synthesized : r.synthesized = x.methods ++ x.sharedClass.methods.map MethodDef.ref
  report : r.report.unboxed = x.enums
  unboxed : ∃ u, r.unboxed = some u ∧ ∀ t, u.isUnboxed t = x.enums.contains t
  data : r.enums = x.fixed.map fun _ f => f.data

end Pieces

variable {v : View} {o : UnboxingOptions} {r : UnboxingResult}

/-- An enum that becomes a number has a class initializer that was understood. -/
theorem exists_of_fixAll {classes : List ClassDef} {read : FieldSet} {r r' : Rejections} {fixed : Fixed}
    (h : fixAll classes read r = .ok (fixed, r')) {t : Descriptor} {f : FixedEnum} (hf : fixed[t]? = some f) :
    ∃ c ∈ classes, c.type = t ∧ FixedEnum.ofClass c read = .ok (.ok f) := by
  refine foldlM_preserves (P := fun x : Fixed × Rejections => ∀ (t : Descriptor) (f : FixedEnum), x.1[t]? = some f →
    ∃ c ∈ classes, c.type = t ∧ FixedEnum.ofClass c read = .ok (.ok f)) ?_ (by simp) h t f hf
  intro x c hc x' hx hstep t f hf
  obtain ⟨answer, hanswer, hstep⟩ := bind_eq_ok.1 hstep
  cases answer with
  | ok g =>
    cases hstep
    rw [TreeMap.getElem?_insert] at hf
    split at hf
    · next heq =>
      cases hf
      exact ⟨c, hc, LawfulEqOrd.eq_of_compare heq, hanswer⟩
    · exact hx t f hf
  | error reasons =>
    cases hstep
    exact hx t f hf

theorem exists_of_analyze {fixed : Fixed} {rejected : Rejections} (h : analyze v o = .ok (fixed, rejected))
    {t : Descriptor} {f : FixedEnum} (hf : fixed[t]? = some f) : ∃ c ∈ v.program.programClasses, c.type = t ∧
      v.program.hasSubtypes t = false ∧ ∃ read, FixedEnum.ofClass c read = .ok (.ok f) := by
  have hmem : t ∈ fixed := by
    rw [TreeMap.mem_iff_isSome_getElem?, hf]
    rfl
  obtain ⟨hsubtypes, c, hc, htype⟩ := hasSubtypes_of_analyze h hmem
  refine ⟨c, hc, htype, hsubtypes, ?_⟩
  unfold analyze at h
  obtain ⟨found, -, h⟩ := bind_eq_ok.1 h
  obtain ⟨c', hc', htype', hfixed⟩ := exists_of_fixAll h hf
  obtain ⟨t', -, hclass⟩ := List.mem_filterMap.1 hc'
  obtain rfl := Program.type_of_class? hclass
  rw [htype', ← htype] at hclass
  cases hclass.symm.trans (Program.mem_programClasses.1 hc).1
  exact ⟨_, hfixed⟩

theorem exists_local {p : Program} {enums : List Descriptor} {locals : TypeMap LocalUtility} (h : localUtilities p enums = .ok locals)
    {t : Descriptor} (ht : t ∈ enums) : ∃ u, locals[t]? = some u := by
  have hloop (ts : List Descriptor) (out locals : TypeMap LocalUtility)
      (h : ts.foldlM (fun (out : TypeMap LocalUtility) t => return out.insert t (← LocalUtility.ofProgram p t)) out = Except.ok (ε := Fault) locals)
      (ht : t ∈ ts ∨ ∃ u, out[t]? = some u) : ∃ u, locals[t]? = some u := by
    induction ts generalizing out with
    | nil =>
      cases h
      exact ht.resolve_left (by simp)
    | cons t' ts ih =>
      rw [List.foldlM_cons] at h
      obtain ⟨out', hout', h⟩ := bind_eq_ok.1 h
      obtain ⟨u, -, hout'⟩ := bind_eq_ok.1 hout'
      cases hout'
      refine ih _ h ?_
      by_cases heq : t' = t
      · exact .inr ⟨u, by simp [heq]⟩
      · refine (ht.imp_left fun ht => ?_).imp_right fun ⟨u', hu'⟩ => ⟨u', ?_⟩
        · exact (List.mem_cons.1 ht).resolve_left (Ne.symm heq)
        · rw [TreeMap.getElem?_insert, if_neg fun hcompare => heq (LawfulEqOrd.eq_of_compare hcompare)]
          exact hu'
  exact hloop enums ∅ locals h (.inl ht)

theorem ofProgram_of_localUtilities {p : Program} {enums : List Descriptor} {locals : TypeMap LocalUtility} (h : localUtilities p enums = .ok locals)
    {t : Descriptor} {u : LocalUtility} (hu : locals[t]? = some u) : LocalUtility.ofProgram p t = .ok u := by
  refine foldlM_preserves (P := fun out : TypeMap LocalUtility =>
    ∀ (t : Descriptor) (u : LocalUtility), out[t]? = some u → LocalUtility.ofProgram p t = .ok u) ?_ (by simp) h t u hu
  intro out t _ out' hout hstep t' u' hu'
  obtain ⟨u, hu, hstep⟩ := bind_eq_ok.1 hstep
  cases hstep
  rw [TreeMap.getElem?_insert] at hu'
  split at hu'
  · next heq =>
    cases hu'
    rw [← LawfulEqOrd.eq_of_compare heq]
    exact hu
  · exact hout t' u' hu'

/-- **What unboxing gives.** -/
theorem exists_pieces (h : run v o = .ok r) :
    (r.lens = v.lens ∧ ∀ t, r.report.unboxed.contains t = false) ∨ ∃ x : Pieces, x.MakeUp v r := by
  unfold run at h
  obtain ⟨⟨fixed, rejected⟩, hanalyze, h⟩ := bind_eq_ok.1 h
  dsimp only at h
  split at h
  · next hkeys =>
    cases h
    exact .inl ⟨rfl, fun t => by simp [hkeys]⟩
  · right
    unfold unbox at h
    obtain ⟨shared, hshared, h⟩ := bind_eq_ok.1 h
    obtain ⟨locals, hlocals, h⟩ := bind_eq_ok.1 h
    obtain ⟨⟨localClasses, methods, recorder⟩, hdissolved, h⟩ := bind_eq_ok.1 h
    obtain ⟨sharedClass, hbuild, h⟩ := bind_eq_ok.1 h
    obtain ⟨lens, hlens, h⟩ := bind_eq_ok.1 h
    cases h
    have hfixed {t : Descriptor} {f : FixedEnum} (hf : fixed[t]? = some f) := exists_of_analyze hanalyze hf
    refine ⟨⟨fixed, shared, locals, localClasses, methods, recorder, sharedClass⟩, ?_⟩
    exact {
      isFixed := fun t f hf => hfixed hf
      shared := fresh_of_sharedUtility (Outcome.lift_eq_ok.1 hshared)
      locals := fun t u hu => fresh_of_localUtilities (Outcome.lift_eq_ok.1 hlocals) hu
      hasLocal := fun t ht => exists_local (Outcome.lift_eq_ok.1 hlocals) (TreeMap.mem_keys.2 ht)
      sharedOf := ⟨_, _, Outcome.lift_eq_ok.1 hshared⟩
      localOf := fun t u hu => ofProgram_of_localUtilities (Outcome.lift_eq_ok.1 hlocals) hu
      dissolve := hdissolved
      build := hbuild
      program := rfl
      lens := Outcome.ofExcept_eq_ok.1 hlens
      synthesized := rfl
      report := rfl
      unboxed := by
        refine ⟨_, rfl, fun t => ?_⟩
        rw [Bool.eq_iff_iff, UnboxedEnums.isUnboxed, Pieces.enums, contains_unboxed, TreeMap.contains_ofList, List.contains_iff_mem,
          List.mem_map]
        constructor
        · rintro ⟨y, hy, rfl⟩
          obtain ⟨t, ht, hy⟩ := List.mem_filterMap.1 hy
          obtain ⟨c, -, rfl⟩ := Option.map_eq_some_iff.1 hy
          exact TreeMap.mem_keys.1 ht
        · intro ht
          obtain ⟨f, hf⟩ := TreeMap.mem_iff_isSome_getElem?.1 ht |> Option.isSome_iff_exists.1
          obtain ⟨c, hc, rfl, -⟩ := hfixed hf
          refine ⟨(c.type, c), List.mem_filterMap.2 ⟨c.type, TreeMap.mem_keys.2 ht, ?_⟩, rfl⟩
          rw [(Program.mem_programClasses.1 hc).1]
          rfl
      data := rfl }

namespace Pieces.MakeUp

variable {x : Pieces}

/-! ### Types -/

theorem exists_class (h : x.MakeUp v r) {t : Descriptor} (ht : x.enums.contains t = true) :
    ∃ c ∈ v.program.programClasses, c.type = t ∧ v.program.hasSubtypes t = false := by
  obtain ⟨f, hf⟩ := Option.isSome_iff_exists.1 (TreeMap.mem_iff_isSome_getElem?.1 (contains_unboxed.1 ht))
  obtain ⟨c, hc, htype, hsubtypes, -⟩ := h.isFixed t f hf
  exact ⟨c, hc, htype, hsubtypes⟩

theorem not_contains_of_isClass (h : x.MakeUp v r) (hclass : ∀ c ∈ v.program.programClasses, c.type.isClass = true) {t : Descriptor}
    (ht : t.isClass = false) : x.enums.contains t = false := by
  refine Bool.eq_false_iff.2 fun hyes => ?_
  obtain ⟨c, hc, rfl, -⟩ := h.exists_class hyes
  rw [hclass c hc] at ht
  cases ht

/-! ### What is recorded -/

theorem dissolves (h : x.MakeUp v r) :
    Steps v.program x.enums x.shared.type (fun _ => False) (Recorder.start .enumUnboxing) x.dissolved :=
  steps_dissolveAll h.locals (fun t ht c hc => by
    obtain ⟨d, hd, rfl, -⟩ := h.exists_class (contains_unboxed.2 ht)
    cases hc.symm.trans (Program.mem_programClasses.1 hd).1
    exact ⟨hd, contains_unboxed.2 ht⟩) h.dissolve

/-- **Everything that is recorded.** -/
theorem steps (h : x.MakeUp v r) (hhoused : v.program.Housed) (hclass : ∀ c ∈ v.program.programClasses, c.type.isClass = true) :
    Steps v.program x.enums x.shared.type (·.isInstanceInitializer = true) (Recorder.start .enumUnboxing) (x.retyped v.program).2 :=
  (h.dissolves.mono fun _ hno => hno.elim).trans
    (Retyping.steps_retypeAll (h.not_contains_of_isClass hclass rfl) hhoused x.shared.type x.dissolved)

/-! ### Classes -/

theorem programClasses_cases (h : x.MakeUp v r) {d : ClassDef} (hd : d ∈ r.program.programClasses) :
    d ∈ x.localClasses ∨ d ∈ (x.retyped v.program).1 ∨ d = x.sharedClass := by
  obtain ⟨hd, hprogram⟩ := List.mem_filter.1 hd
  rw [h.program] at hd
  have hd := Program.mem_of_class?_ofList (Program.mem_classes.1 hd)
  simp only [List.mem_append, List.mem_singleton] at hd
  rcases hd with ((hd | hd) | hd) | hd
  · have hlib := (List.mem_filter.1 hd).2
    rw [Program.isLibrary_eq, hprogram] at hlib
    cases hlib
  · exact .inl hd
  · exact .inr (.inl hd)
  · exact .inr (.inr hd)

end Pieces.MakeUp

end Unboxing

end DexShrinker
