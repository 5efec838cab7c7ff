/-
  DexShrinker/Proofs/Unboxing/EarlyExit.lean
  ==========================================
  **The first reason and all of them.**

  If only the first reason is wanted, enums that are rejected for their declaration are not
  tracked. Their initializers, `values` and `valueOf` are then scanned, and show what they do
  with other enums. If all reasons are wanted these bodies are skipped, as if unboxing replaced
  them. So the two runs need not unbox the same enums (`Unboxing.unboxed_depends_on_earlyExit`):
  the first unboxes those of the second that no such body speaks against
  (`Unboxing.unboxed_earlyExit_iff`).
-/
import DexShrinker.Proofs.Unboxing.Constants
import DexShrinker.Proofs.Unboxing.Pieces
import DexShrinker.Proofs.Unboxing.Tracking

namespace DexShrinker

open Std (TreeMap TreeSet LawfulEqOrd)

namespace Rejections

theorem earlyExit_foldl_add (reasons : List (Descriptor × Reason)) (r : Rejections) :
    (reasons.foldl (fun r x => r.add x.1 x.2) r).earlyExit = r.earlyExit := by
  induction reasons generalizing r with
  | nil => rfl
  | cons x reasons ih =>
    rw [List.foldl_cons, ih]
    unfold add
    dsimp only
    split <;> rfl

end Rejections

namespace Unboxing

variable {v : View} {o : UnboxingOptions} {r : UnboxingResult}

/-! ### What one run unboxes -/

theorem mem_fixAll_iff {classes : List ClassDef} {read : FieldSet} {fixed : Fixed} {r r' : Rejections}
    (h : fixAll classes read r = .ok (fixed, r')) {t : Descriptor} :
    t ∈ fixed ↔ ∃ c ∈ classes, c.type = t ∧ FixedEnum.Fixes c read := by
  constructor
  · intro ht
    obtain ⟨f, hf⟩ := Option.isSome_iff_exists.1 (TreeMap.mem_iff_isSome_getElem?.1 ht)
    obtain ⟨c, hc, htype, hfixes⟩ := exists_of_fixAll h hf
    exact ⟨c, hc, htype, f, hfixes⟩
  · rintro ⟨c, hc, rfl, f, hf⟩
    unfold fixAll at h
    refine foldlM_establishes (P := fun x : Fixed × Rejections => c.type ∈ x.1) hc ?_ ?_ h
    · intro x x' hstep
      obtain ⟨answer, hanswer, hstep⟩ := bind_eq_ok.1 hstep
      cases hf.symm.trans hanswer
      cases hstep
      exact TreeMap.mem_insert_self
    · intro x d _ x' hx hstep
      obtain ⟨answer, -, hstep⟩ := bind_eq_ok.1 hstep
      cases answer with
      | ok g =>
        cases hstep
        exact TreeMap.mem_insert.2 (.inr hx)
      | error reasons =>
        cases hstep
        exact hx

theorem mem_readFields {found : List UseSites.Finding} {f : FieldRef} : f ∈ UseSites.readFields found ↔ .reads f ∈ found := by
  unfold UseSites.readFields
  rw [TreeSet.mem_ofList, List.contains_iff_mem, List.mem_filterMap]
  constructor
  · rintro ⟨g, hg, hread⟩
    cases g with
    | rejects e reason => cases hread
    | reads f' =>
      cases hread
      exact hg
  · intro hf
    exact ⟨_, hf, rfl⟩

/-- **The enums that a run unboxes.** -/
theorem mem_unboxed_iff (h : run v o = .ok r) :
    ∃ found, UseSites.scan v.program (Candidates.find v o).1 = .ok found ∧ ∀ t, t ∈ r.report.unboxed ↔
      t ∈ (Candidates.find v o).1 ∧ (Candidates.find v o).2.isRejected t = false ∧ (∀ reason, .rejects t reason ∉ found) ∧
        ∃ c, v.program.class? t = some c ∧ FixedEnum.Fixes c (UseSites.readFields found) := by
  have hunboxed : ∃ fixed rejected, analyze v o = .ok (fixed, rejected) ∧ r.report.unboxed = .ofList fixed.keys := by
    unfold run at h
    obtain ⟨⟨fixed, rejected⟩, hanalyze, h⟩ := bind_eq_ok.1 h
    refine ⟨fixed, rejected, hanalyze, ?_⟩
    dsimp only at h
    split at h
    · cases h
      rfl
    · unfold unbox at h
      obtain ⟨_, -, h⟩ := bind_eq_ok.1 h
      obtain ⟨_, -, h⟩ := bind_eq_ok.1 h
      obtain ⟨_, -, h⟩ := bind_eq_ok.1 h
      obtain ⟨_, -, h⟩ := bind_eq_ok.1 h
      obtain ⟨_, -, h⟩ := bind_eq_ok.1 h
      cases h
      rfl
  obtain ⟨fixed, rejected, hanalyze, hreport⟩ := hunboxed
  unfold analyze at hanalyze
  cases hfind : Candidates.find v o with
  | mk tracked declared =>
    rw [hfind] at hanalyze
    obtain ⟨found, hscan, hfixed⟩ := bind_eq_ok.1 hanalyze
    refine ⟨found, hscan, fun t => ?_⟩
    have hrejected : (UseSites.reject declared found).isRejected t = false ↔
        declared.isRejected t = false ∧ ∀ reason, .rejects t reason ∉ found := by
      rw [← Bool.not_eq_true, Rejections.isRejected_reject_iff, not_or, Bool.not_eq_true, not_exists]
    rw [hreport, TreeSet.mem_iff_contains, contains_unboxed, mem_fixAll_iff hfixed]
    constructor
    · rintro ⟨c, hc, rfl, hfixes⟩
      obtain ⟨t, ht, hclass⟩ := List.mem_filterMap.1 hc
      obtain rfl := Program.type_of_class? hclass
      obtain ⟨ht, hnot⟩ := List.mem_filter.1 ht
      rw [Bool.not_eq_true'] at hnot
      obtain ⟨hdeclared, hfound⟩ := hrejected.1 hnot
      exact ⟨TreeSet.mem_toList.1 ht, hdeclared, hfound, c, hclass, hfixes⟩
    · rintro ⟨ht, hdeclared, hfound, c, hclass, hfixes⟩
      refine ⟨c, List.mem_filterMap.2 ⟨t, List.mem_filter.2 ⟨TreeSet.mem_toList.2 ht, ?_⟩, hclass⟩, (Program.type_of_class? hclass), hfixes⟩
      rw [hrejected.2 ⟨hdeclared, hfound⟩]
      rfl

/-! ### Two runs -/

/-- The enums of a program. -/
def enums (v : View) (o : UnboxingOptions) : TypeSet := (Candidates.find v { o with earlyExit := false }).1

/-- The enums that are not rejected for their declaration, nor for what is pinned. -/
def eligible (v : View) (o : UnboxingOptions) : TypeSet := (Candidates.find v { o with earlyExit := true }).1

theorem isRejected_find_congr (v : View) (o : UnboxingOptions) (t : Descriptor) :
    (Candidates.find v { o with earlyExit := true }).2.isRejected t = (Candidates.find v { o with earlyExit := false }).2.isRejected t := by
  rw [Bool.eq_iff_iff]
  unfold Candidates.find
  dsimp only
  rw [Rejections.isRejected_foldl_add_iff, Rejections.isRejected_foldl_add_iff]
  exact Iff.rfl

theorem mem_find_iff {t : Descriptor} : t ∈ (Candidates.find v o).1 ↔
    t ∈ (TreeSet.ofList ((v.program.programClasses.filter (·.isEnum)).map ClassDef.type) : TypeSet) ∧
      (o.earlyExit && (Candidates.find v o).2.isRejected t) = false := by
  have hexit : (Candidates.find v o).2.earlyExit = o.earlyExit := Rejections.earlyExit_foldl_add _ _
  unfold Candidates.find at hexit ⊢
  dsimp only at hexit ⊢
  rw [TreeSet.mem_filter]
  simp only [TreeSet.get_eq, exists_prop, Rejections.isSettled, hexit, Bool.not_eq_true']

theorem mem_eligible_iff {t : Descriptor} : t ∈ eligible v o ↔
    t ∈ enums v o ∧ (Candidates.find v { o with earlyExit := false }).2.isRejected t = false := by
  unfold eligible enums
  rw [mem_find_iff, mem_find_iff, isRejected_find_congr]
  simp

/-- What the bodies show that stay although they would be replaced if their enums became numbers. -/
def ShownByStaying (v : View) (o : UnboxingOptions) (f : UseSites.Finding) : Prop :=
  ∃ c m body fs, UseSites.HasBody v.program c m body ∧ UseSites.leavesOut (enums v o) c m = true ∧
    UseSites.leavesOut (eligible v o) c m = false ∧ UseSites.ofMethod v.program (eligible v o) m body = .ok fs ∧ f ∈ fs

/-- An enum can become a number in spite of the finding: a field is read that has a known value in
    all constants. -/
def Harmless (p : Program) : UseSites.Finding → Prop
  | .rejects .. => False
  | .reads f => ∃ c, p.class? f.holder = some c ∧ FixedEnum.Fixes c (.ofList [f])

/-- **What the first reason and all of them lead to.** If only the first reason is wanted, those
    enums become numbers that also do so if all are wanted, and about which the bodies that stay
    show nothing that speaks against it. -/
theorem unboxed_earlyExit_iff
    (hsep : ∀ c m body, UseSites.HasBody v.program c m body → UseSites.Separates v.program (enums v o) m body)
    {all early : UnboxingResult} (hall : run v { o with earlyExit := false } = .ok all)
    (hearly : run v { o with earlyExit := true } = .ok early) (t : Descriptor) :
    t ∈ early.report.unboxed ↔
      t ∈ all.report.unboxed ∧ ∀ f : UseSites.Finding, f.enum = t → ShownByStaying v o f → Harmless v.program f := by
  obtain ⟨found, hscan, hmem⟩ := mem_unboxed_iff hall
  obtain ⟨found', hscan', hmem'⟩ := mem_unboxed_iff hearly
  rw [hmem, hmem', isRejected_find_congr]
  change t ∈ eligible v o ∧ _ ↔ (t ∈ enums v o ∧ _) ∧ _
  have hshows (ht : t ∈ eligible v o) (f : UseSites.Finding) (hf : f.enum = t) : f ∈ found' ↔ f ∈ found ∨ ShownByStaying v o f :=
    UseSites.mem_scan_of_fewer (fun t ht => (mem_eligible_iff.1 ht).1) hsep hscan hscan' (hf.symm ▸ ht)
  constructor
  · rintro ⟨ht, hnot, hno, c, hclass, hfixes⟩
    obtain rfl := Program.type_of_class? hclass
    obtain ⟨hempty, hone⟩ := FixedEnum.fixes_iff.1 hfixes
    have hread (f : FieldRef) (hf : f.holder = c.type) (hshown : .reads f ∈ found ∨ ShownByStaying v o (.reads f)) :
        FixedEnum.Fixes c (.ofList [f]) := hone f (mem_readFields.2 ((hshows ht (.reads f) hf).2 hshown)) hf
    refine ⟨⟨(mem_eligible_iff.1 ht).1, hnot, fun reason hmem => ?_, c, hclass, ?_⟩, fun f hf hshown => ?_⟩
    · exact hno reason ((hshows ht (.rejects c.type reason) rfl).2 (.inl hmem))
    · exact FixedEnum.fixes_iff.2 ⟨hempty, fun f hf hholder => hread f hholder (.inl (mem_readFields.1 hf))⟩
    · cases f with
      | rejects e reason =>
        cases hf
        exact hno reason ((hshows ht (.rejects c.type reason) rfl).2 (.inr hshown))
      | reads f =>
        have hholder : f.holder = c.type := hf
        exact ⟨c, hholder ▸ hclass, hread f hholder (.inr hshown)⟩
  · rintro ⟨⟨ht, hnot, hno, c, hclass, hfixes⟩, hharmless⟩
    have ht := mem_eligible_iff.2 ⟨ht, hnot⟩
    obtain rfl := Program.type_of_class? hclass
    obtain ⟨hempty, hone⟩ := FixedEnum.fixes_iff.1 hfixes
    refine ⟨ht, hnot, fun reason hmem => ?_, c, hclass, FixedEnum.fixes_iff.2 ⟨hempty, fun f hf hholder => ?_⟩⟩
    · rcases (hshows ht (.rejects c.type reason) rfl).1 hmem with hmem | hshown
      · exact hno reason hmem
      · exact hharmless (.rejects c.type reason) rfl hshown
    · rcases (hshows ht (.reads f) hholder).1 (mem_readFields.1 hf) with hmem | hshown
      · exact hone f (mem_readFields.2 hmem) hholder
      · obtain ⟨d, hd, hfixes⟩ := hharmless (.reads f) hholder hshown
        rw [hholder, hclass] at hd
        cases hd
        exact hfixes

/-! ### A pinned enum whose `valueOf` names the class of another one -/

namespace Pinned

def type : Descriptor := Inherited.type "P"

/-- The class of `E` is asked for, and null is returned. -/
def valueOfBody : Body where
  method := ⟨type, "valueOf", type, [.string]⟩
  isStatic := true
  arguments := [0]
  values := [⟨.string, .argument 0⟩, ⟨.ofBinaryName "java/lang/Class", .instruction⟩, ⟨type, .instruction⟩]
  blocks := [{
    body := [⟨some 1, .constClass (Inherited.type "E"), 1⟩, ⟨some 2, .constNull, 1⟩]
    terminator := .ret (some 2) }]

def view : View where
  program := .ofList (Inherited.classes.take 3 ++
    [{ type := type
       access := .publicFlag ||| .finalFlag ||| .enumFlag
       superclass := some .enumBase
       methods := [{ ref := valueOfBody.method, access := .publicFlag ||| .staticFlag, code := some (.body valueOfBody) }] }])
  pins := { types := .ofList [type] }

/-- The types that become numbers. -/
def outcome (o : UnboxingOptions) : Option (List Descriptor) :=
  match run view o with
  | .ok r => some r.report.unboxed.toList
  | .error _ => none

theorem exists_of_outcome (o : UnboxingOptions) (types : List Descriptor) (h : outcome o = some types) :
    ∃ r, run view o = .ok r ∧ r.report.unboxed.toList = types := by
  unfold outcome at h
  split at h
  · next r hr =>
    cases h
    exact ⟨r, hr, rfl⟩
  · cases h

end Pinned

/-- `E`, which the `valueOf` of a pinned enum names. -/
theorem unboxed_earlyExit_iff_pinned :
    ∃ all early, run Pinned.view { earlyExit := false } = .ok all ∧ run Pinned.view { earlyExit := true } = .ok early ∧
      (Inherited.type "E" ∈ early.report.unboxed ↔ Inherited.type "E" ∈ all.report.unboxed ∧
        ∀ f : UseSites.Finding, f.enum = Inherited.type "E" → ShownByStaying Pinned.view {} f → Harmless Pinned.view.program f) := by
  obtain ⟨all, hall, -⟩ := Pinned.exists_of_outcome { earlyExit := false } [Inherited.type "E"] (by decide +kernel)
  obtain ⟨early, hearly, -⟩ := Pinned.exists_of_outcome { earlyExit := true } [] (by decide +kernel)
  refine ⟨all, early, hall, hearly, unboxed_earlyExit_iff (o := {}) (fun c m body hbody => ?_) hall hearly _⟩
  have hbodies : ∀ c ∈ Pinned.view.program.programClasses, ∀ m ∈ c.methods, ∀ body ∈ m.decoded.toOption.join,
      UseSites.Separates Pinned.view.program (enums Pinned.view {}) m body := by decide +kernel
  exact hbodies c hbody.isProgram m hbody.mem body (by rw [hbody.decoded]; rfl)

/-- **The runs do not unbox the same enums.** -/
theorem unboxed_depends_on_earlyExit :
    ∃ all early, run Pinned.view { earlyExit := false } = .ok all ∧ run Pinned.view { earlyExit := true } = .ok early ∧
      Inherited.type "E" ∈ all.report.unboxed ∧ Inherited.type "E" ∉ early.report.unboxed := by
  obtain ⟨all, hall, htypes⟩ := Pinned.exists_of_outcome { earlyExit := false } [Inherited.type "E"] (by decide +kernel)
  obtain ⟨early, hearly, htypes'⟩ := Pinned.exists_of_outcome { earlyExit := true } [] (by decide +kernel)
  refine ⟨all, early, hall, hearly, ?_, ?_⟩
  · rw [← TreeSet.mem_toList, htypes]
    exact List.mem_singleton_self _
  · rw [← TreeSet.mem_toList, htypes']
    exact List.not_mem_nil

end Unboxing

end DexShrinker
