/-
  DexShrinker/Proofs/Unboxing/Enums.lean
  ======================================
  **What becomes of the enums themselves.**

  Only enums without subtypes become numbers (`Unboxing.hasSubtypes_of_analyze`). The
  classes that take their places have types that no class had
  (`LocalUtility.type_not_mem`, `SharedUtility.type_not_mem`), and all that is recorded
  when an enum is taken apart are moves of the enum and of its members
  (`Unboxing.dissolveAll_spec`).
-/
import DexShrinker.Proofs.Outcome
import DexShrinker.Proofs.Unboxing.Retyping

namespace DexShrinker

open Std (TreeMap TreeSet LawfulEqOrd)

/-! ### Candidates -/

/-- The reason that a finding gives, with the enum it is about. -/
def UseSites.Finding.reason? : Finding → Option (Descriptor × Reason)
  | .rejects e reason => some (e, reason)
  | .reads _ => none

namespace Rejections

theorem isRejected_add_self (r : Rejections) (t : Descriptor) (reason : Reason) : (r.add t reason).isRejected t = true := by
  unfold add
  dsimp only
  split
  · next h =>
    unfold isRejected
    cases hreasons : r.byEnum.getD t [] with
    | nil => simp [hreasons] at h
    | cons x xs => rfl
  · simp [isRejected]

/-- **A reason rejects its own enum and no other.** -/
theorem isRejected_add_iff {r : Rejections} {t t' : Descriptor} {reason : Reason} :
    (r.add t' reason).isRejected t = true ↔ r.isRejected t = true ∨ t' = t := by
  by_cases heq : t' = t
  · subst heq
    exact iff_of_true (r.isRejected_add_self t' reason) (.inr rfl)
  · rw [or_iff_left heq]
    unfold add
    dsimp only
    split
    · exact Iff.rfl
    · simp only [isRejected, TreeMap.getD_insert]
      rw [if_neg fun hcompare => heq (LawfulEqOrd.eq_of_compare hcompare)]

theorem isRejected_foldl_add_iff {reasons : List (Descriptor × Reason)} {r : Rejections} {t : Descriptor} :
    (reasons.foldl (fun r x => r.add x.1 x.2) r).isRejected t = true ↔ r.isRejected t = true ∨ ∃ reason, (t, reason) ∈ reasons := by
  induction reasons generalizing r with
  | nil => simp
  | cons x reasons ih =>
    rw [List.foldl_cons, ih, isRejected_add_iff, or_assoc]
    refine or_congr_right ?_
    constructor
    · rintro (rfl | ⟨reason, hmem⟩)
      · exact ⟨x.2, List.mem_cons_self⟩
      · exact ⟨reason, List.mem_cons_of_mem x hmem⟩
    · rintro ⟨reason, hmem⟩
      rcases List.mem_cons.1 hmem with rfl | hmem
      · exact .inl rfl
      · exact .inr ⟨reason, hmem⟩

theorem isRejected_reject_iff {found : List UseSites.Finding} {r : Rejections} {t : Descriptor} :
    (UseSites.reject r found).isRejected t = true ↔ r.isRejected t = true ∨ ∃ reason, .rejects t reason ∈ found := by
  have hreject : UseSites.reject r found = (found.filterMap UseSites.Finding.reason?).foldl (fun r x => r.add x.1 x.2) r := by
    rw [List.foldl_filterMap]
    refine List.foldl_ext _ _ r fun r f _ => ?_
    cases f <;> rfl
  rw [hreject, isRejected_foldl_add_iff]
  refine or_congr_right (exists_congr fun reason => ?_)
  rw [List.mem_filterMap]
  constructor
  · rintro ⟨f, hf, hreason⟩
    cases f with
    | rejects e reason' =>
      cases hreason
      exact hf
    | reads f => cases hreason
  · intro hmem
    exact ⟨_, hmem, rfl⟩

end Rejections

namespace Unboxing

/-- Enums with subtypes are rejected. -/
theorem isRejected_find {v : View} (o : UnboxingOptions) {c : ClassDef} (hc : c ∈ v.program.programClasses) (henum : c.isEnum = true)
    (hsub : v.program.hasSubtypes c.type = true) : (Candidates.find v o).2.isRejected c.type = true := by
  refine Rejections.isRejected_foldl_add_iff.2 (.inr ⟨.subtypesPresent, ?_⟩)
  apply List.mem_append_left
  apply List.mem_append_left
  apply List.mem_append_right
  refine List.mem_flatMap.2 ⟨c, List.mem_filter.2 ⟨hc, henum⟩, List.mem_map.2 ⟨.subtypesPresent, ?_, rfl⟩⟩
  simp [Candidates.declared, hsub]

theorem exists_of_mem_find {v : View} {o : UnboxingOptions} {t : Descriptor} (ht : t ∈ (Candidates.find v o).1) :
    ∃ c ∈ v.program.programClasses, c.isEnum = true ∧ c.type = t := by
  have hmem : t ∈ (TreeSet.ofList ((v.program.programClasses.filter (·.isEnum)).map ClassDef.type) : TypeSet) := by
    unfold Candidates.find at ht
    exact TreeSet.mem_of_mem_filter ht
  rw [TreeSet.mem_ofList, List.contains_iff_mem] at hmem
  obtain ⟨c, hc, rfl⟩ := List.mem_map.1 hmem
  obtain ⟨hc, henum⟩ := List.mem_filter.1 hc
  exact ⟨c, hc, henum, rfl⟩

theorem mem_of_fixAll {classes : List ClassDef} {read : FieldSet} {r r' : Rejections} {fixed : Fixed}
    (h : fixAll classes read r = .ok (fixed, r')) {t : Descriptor} (ht : t ∈ fixed) : ∃ c ∈ classes, c.type = t := by
  unfold fixAll at h
  refine foldlM_preserves (P := fun x : Fixed × Rejections => ∀ t ∈ x.1, ∃ c ∈ classes, c.type = t) ?_ ?_ h t ht
  · intro x c hc x' hx hstep t ht
    obtain ⟨answer, -, hstep⟩ := bind_eq_ok.1 hstep
    cases answer with
    | ok f =>
      cases hstep
      rcases TreeMap.mem_insert.1 ht with heq | ht
      · exact ⟨c, hc, LawfulEqOrd.eq_of_compare heq⟩
      · exact hx t ht
    | error reasons =>
      cases hstep
      exact hx t ht
  · intro t ht
    simp at ht

/-- **Only enums without subtypes become numbers.** -/
theorem hasSubtypes_of_analyze {v : View} {o : UnboxingOptions} {fixed : Fixed} {r : Rejections}
    (h : analyze v o = .ok (fixed, r)) {t : Descriptor} (ht : t ∈ fixed) :
    v.program.hasSubtypes t = false ∧ ∃ c ∈ v.program.programClasses, c.type = t := by
  unfold analyze at h
  cases hfind : Candidates.find v o with
  | mk tracked r₀ =>
    rw [hfind] at h
    obtain ⟨found, -, h⟩ := bind_eq_ok.1 h
    obtain ⟨c, hc, rfl⟩ := mem_of_fixAll h ht
    obtain ⟨t, ht, hclass⟩ := List.mem_filterMap.1 hc
    obtain rfl := Program.type_of_class? hclass
    obtain ⟨htracked, hrejected⟩ := List.mem_filter.1 ht
    obtain ⟨d, hd, henum, htype⟩ := exists_of_mem_find (o := o) (by rw [hfind]; exact TreeSet.mem_toList.1 htracked)
    refine ⟨?_, d, hd, htype⟩
    cases hsub : v.program.hasSubtypes c.type with
    | false => rfl
    | true =>
      have hd := isRejected_find o hd henum (htype ▸ hsub)
      rw [hfind, htype] at hd
      rw [Rejections.isRejected_reject_iff.2 (.inl hd)] at hrejected
      cases hrejected

end Unboxing

/-! ### Utility classes -/

theorem Utility.uniqueType_not_mem (p : Program) {candidate : String → Descriptor} (h : Function.Injective candidate) :
    uniqueType p candidate ∉ p.classes.map ClassDef.type := by
  have hnumbered : Function.Injective fun i : Nat => candidate (if i = 0 then "" else toString i) := by
    intro i j hij
    have hij := h hij
    by_cases hi : i = 0
    · by_cases hj : j = 0
      · rw [hi, hj]
      · simp only [hi, hj, if_true, if_false] at hij
        exact absurd hij.symm Nat.repr_ne_empty
    · by_cases hj : j = 0
      · simp only [hi, hj, if_true, if_false] at hij
        exact absurd hij Nat.repr_ne_empty
      · simp only [hi, hj, if_false] at hij
        exact Nat.repr_injective hij
  exact firstFree_not_mem hnumbered _

theorem SharedUtility.type_not_mem {p : Program} {first : Descriptor} {maxSize : Nat} {u : SharedUtility}
    (h : SharedUtility.ofProgram p first maxSize = .ok u) : u.type ∉ p.classes.map ClassDef.type := by
  unfold SharedUtility.ofProgram at h
  split at h
  · cases h
  · cases h
    dsimp only
    apply Utility.uniqueType_not_mem
    intro a b hab
    exact String.append_right_inj _ |>.1 (Descriptor.ofBinaryName_injective hab)

theorem LocalUtility.type_not_mem {p : Program} {t : Descriptor} {u : LocalUtility} (h : LocalUtility.ofProgram p t = .ok u) :
    u.type ∉ p.classes.map ClassDef.type := by
  unfold LocalUtility.ofProgram at h
  dsimp only at h
  split at h
  · cases h
  · next first hfirst =>
    cases h
    obtain ⟨name, hname, -⟩ := Option.map_eq_some_iff.1 hfirst
    dsimp only
    apply Utility.uniqueType_not_mem
    intro a b hab
    simp only [Descriptor.withSuffix?, hname, Option.map_some, Option.getD_some] at hab
    exact String.append_right_inj _ |>.1 (String.append_right_inj _ |>.1 (Descriptor.ofBinaryName_injective hab))

theorem SharedUtility.type_build {u : SharedUtility} {c : ClassDef} (h : u.build = .ok c) : c.type = u.type := by
  unfold SharedUtility.build at h
  obtain ⟨_, -, h⟩ := bind_eq_ok.1 h
  obtain ⟨_, -, h⟩ := bind_eq_ok.1 h
  obtain ⟨_, -, h⟩ := bind_eq_ok.1 h
  obtain ⟨_, -, h⟩ := bind_eq_ok.1 h
  obtain ⟨_, -, h⟩ := bind_eq_ok.1 h
  obtain ⟨_, -, h⟩ := bind_eq_ok.1 h
  obtain ⟨_, -, h⟩ := bind_eq_ok.1 h
  cases h
  rfl

/-! ### Enums that are taken apart -/

namespace LocalUtility

variable {T : Descriptor → Prop} {K : MethodRef → Prop} {u : LocalUtility} {enums : TypeSet} {enum : Descriptor} {s s' : Filling}

theorem confined_moveMethod (h : s.recorder.Confined T K) {m : MethodDef} (hm : K m.ref)
    (hmove : u.moveMethod enums enum s m = .ok s') : s'.recorder.Confined T K := by
  unfold moveMethod at hmove
  obtain ⟨code, -, hmove⟩ := bind_eq_ok.1 hmove
  cases hmove
  dsimp only
  split
  · exact h.moveMethod hm _
  · exact (h.moveMethod hm _).recordInvokeKind _ _

theorem confined_fill (h : s.recorder.Confined T K) {data : EnumData} {m : MethodDef} (hm : K m.ref)
    (hfill : u.fill enums enum data s m = .ok s') : s'.recorder.Confined T K := by
  unfold fill at hfill
  split at hfill
  · cases hfill
    exact h
  · split at hfill
    · obtain ⟨d, -, hfill⟩ := bind_eq_ok.1 hfill
      cases hfill
      exact h.moveMethod hm _
    · exact confined_moveMethod h hm hfill

theorem confined_addClassInitializer (h : s.recorder.Confined T K) {c : ClassDef} (hc : ∀ m ∈ c.methods, K m.ref)
    (body : Option Body) : (u.addClassInitializer c body s).recorder.Confined T K := by
  unfold addClassInitializer
  split
  · next old hold => exact h.moveMethod (hc old (List.mem_of_find?_eq_some hold)) _
  · exact h

/-- **One enum.** -/
theorem dissolve_spec {c d : ClassDef} {fixed : FixedEnum} {r r' : Recorder} {more : List MethodRef} (h : r.Confined T K)
    (htype : T c.type) (hc : ∀ m ∈ c.methods, K m.ref) (hdissolve : u.dissolve enums c fixed r = .ok (d, more, r')) :
    d.type = u.type ∧ r'.Confined T K := by
  unfold dissolve at hdissolve
  obtain ⟨name, -, hdissolve⟩ := bind_eq_ok.1 hdissolve
  obtain ⟨s₁, hgetters, hdissolve⟩ := bind_eq_ok.1 hdissolve
  obtain ⟨s₂, hfill, hdissolve⟩ := bind_eq_ok.1 hdissolve
  cases hdissolve
  refine ⟨rfl, ?_⟩
  have h₁ : s₁.recorder.Confined T K := by
    refine foldlM_preserves (P := fun s : Filling => s.recorder.Confined T K) ?_ (h.moveType htype .int) hgetters
    intro s x _ s' hs hstep
    obtain ⟨getter, -, hstep⟩ := bind_eq_ok.1 hstep
    cases hstep
    exact hs
  refine foldlM_preserves (P := fun s : Filling => s.recorder.Confined T K)
    (fun s m hm s' hs hstep => confined_fill hs (hc m hm) hstep) (confined_addClassInitializer ?_ hc _) hfill
  have hfields (fs : List (FieldDef × FieldDef)) {r : Recorder} (hr : r.Confined T K) :
      (fs.foldl (fun r x => r.moveField x.1.ref x.2.ref) r).Confined T K := by
    induction fs generalizing r with
    | nil => exact hr
    | cons f fs ih => exact ih (hr.moveField _ _)
  exact hfields _ h₁

end LocalUtility

namespace Unboxing

variable {T : Descriptor → Prop} {K : MethodRef → Prop}

theorem type_not_mem_of_localUtilities {p : Program} {enums : List Descriptor} {locals : TypeMap LocalUtility}
    (h : localUtilities p enums = .ok locals) {t : Descriptor} {u : LocalUtility} (hu : locals[t]? = some u) :
    u.type ∉ p.classes.map ClassDef.type := by
  unfold localUtilities at h
  refine foldlM_preserves (P := fun out : TypeMap LocalUtility =>
    ∀ (t : Descriptor) (u : LocalUtility), out[t]? = some u → u.type ∉ p.classes.map ClassDef.type) ?_ ?_ h t u hu
  · intro out t _ out' hout hstep t' u' hu'
    obtain ⟨u, hu, hstep⟩ := bind_eq_ok.1 hstep
    cases hstep
    rw [TreeMap.getElem?_insert] at hu'
    split at hu'
    · cases hu'
      exact LocalUtility.type_not_mem hu
    · exact hout t' u' hu'
  · intro t u hu
    simp at hu

theorem mem_of_getElem? {fixed : Fixed} {t : Descriptor} {f : FixedEnum} (h : fixed[t]? = some f) : t ∈ fixed := by
  rw [TreeMap.mem_iff_isSome_getElem?, h]
  rfl

/-- **One enum after the other.** What putting an enum into its local class preserves holds once all are in theirs. -/
theorem dissolveAll_preserves {P : List ClassDef → List MethodRef → Recorder → Prop} {p : Program} {enums : TypeSet} {fixed : Fixed}
    {locals : TypeMap LocalUtility} {r r' : Recorder} {classes : List ClassDef} {methods : List MethodRef}
    (hstep : ∀ (t : Descriptor) (f : FixedEnum) (c : ClassDef) (u : LocalUtility), fixed[t]? = some f → p.class? t = some c →
      locals[t]? = some u → ∀ classes methods r d more r', u.dissolve enums c f r = .ok (d, more, r') → P classes methods r →
      P (classes ++ [d]) (methods ++ more) r')
    (hstart : P [] [] r) (h : dissolveAll p enums fixed locals r = .ok (classes, methods, r')) : P classes methods r' := by
  refine foldlM_preserves (P := fun x : List ClassDef × List MethodRef × Recorder => P x.1 x.2.1 x.2.2) ?_ hstart h
  intro x y hy x' hx hrun
  dsimp only at hrun
  split at hrun
  · next c u hc hu =>
    obtain ⟨⟨d, more, r'⟩, hdissolve, hrun⟩ := bind_eq_ok.1 hrun
    cases hrun
    exact hstep y.1 y.2 c u (TreeMap.mem_toList_iff_getElem?_eq_some.1 hy) hc hu _ _ _ _ _ _ hdissolve hx
  · cases hrun
    exact hx

/-- **All enums.** -/
theorem dissolveAll_spec {p : Program} {enums : TypeSet} {fixed : Fixed} {locals : TypeMap LocalUtility} {r r' : Recorder}
    {classes : List ClassDef} {methods : List MethodRef} (h : r.Confined T K) (htype : ∀ t ∈ fixed, T t)
    (hK : ∀ t ∈ fixed, ∀ c, p.class? t = some c → c.type = t ∧ ∀ m ∈ c.methods, K m.ref)
    (hdissolve : dissolveAll p enums fixed locals r = .ok (classes, methods, r')) :
    (∀ d ∈ classes, ∃ (t : Descriptor) (u : LocalUtility), locals[t]? = some u ∧ d.type = u.type) ∧ r'.Confined T K := by
  refine dissolveAll_preserves (P := fun classes _ r =>
    (∀ d ∈ classes, ∃ (t : Descriptor) (u : LocalUtility), locals[t]? = some u ∧ d.type = u.type) ∧ r.Confined T K) ?_ ⟨by simp, h⟩ hdissolve
  intro t f c u hf hc hu classes methods r e more r' hrun hx
  obtain ⟨hctype, hcK⟩ := hK t (mem_of_getElem? hf) c hc
  obtain ⟨hdtype, hconfined⟩ := LocalUtility.dissolve_spec hx.2 (hctype ▸ htype t (mem_of_getElem? hf)) hcK hrun
  refine ⟨fun d hd => ?_, hconfined⟩
  rcases List.mem_append.1 hd with hd | hd
  · exact hx.1 d hd
  · rw [List.mem_singleton.1 hd]
    exact ⟨t, u, hu, hdtype⟩

end Unboxing

end DexShrinker
