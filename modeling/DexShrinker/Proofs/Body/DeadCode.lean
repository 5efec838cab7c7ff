/-
  DexShrinker/Proofs/Body/DeadCode.lean
  =====================================
  **What is left when dead code goes.**

  A round of removals keeps what the values that are read keep alive (`sweep_eq`). Fewer values
  are read after a round, so the next one may find more. But a value that nobody reads after a round
  is not read after later ones either, and so all rounds together come to one removal, by the values
  that are read in the end (`exists_removeDead`). The rounds stop at a body that is its own remainder,
  and it is the largest one in the body they start from: phis that only read each other stay.

  Nothing that is left depends on what went, so a well-formed body stays well formed
  (`WellFormed.keeping`).
-/
import DexShrinker.Proofs.Body.Shape

namespace DexShrinker

/-- The instruction has an effect, or defines nothing, or defines a value that is in `alive`. -/
def Instr.isKept (alive : List ValueId) (i : Instr) : Bool := !i.op.isRemovable || i.dest.all (· ∈ alive)

/-- The block without phis and instructions without effect whose results are not in `alive`. -/
def Block.keeping (alive : List ValueId) (b : Block) : Block :=
  { b with phis := b.phis.filter (·.dest ∈ alive), body := b.body.filter (·.isKept alive) }

namespace Body

/-- The body without phis and instructions without effect whose results are not in `alive`. -/
def keeping (c : Body) (alive : List ValueId) : Body := { c with blocks := c.blocks.map (Block.keeping alive) }

section

variable {c : Body} {alive alive' : List ValueId} {v : ValueId}

/-! ### Keeping what is alive -/

theorem isKept_of_subset (h : alive ⊆ alive') {i : Instr} (hi : i.isKept alive = true) : i.isKept alive' = true := by
  simp only [Instr.isKept, Bool.or_eq_true, Option.all_eq_true, decide_eq_true_eq] at hi ⊢
  exact hi.imp_right fun hdest v hv => h (hdest v hv)

/-- Of two removals the one that leaves less is what counts. -/
theorem keeping_keeping (h : alive ⊆ alive') : (c.keeping alive').keeping alive = c.keeping alive := by
  simp only [keeping, List.map_map]
  refine congrArg (fun blocks => { c with blocks := blocks }) (List.map_congr_left fun b _ => ?_)
  simp only [Function.comp_apply, Block.keeping, List.filter_filter]
  have hphis : ∀ phi : Phi, (decide (phi.dest ∈ alive) && decide (phi.dest ∈ alive')) = decide (phi.dest ∈ alive) := by
    intro phi
    by_cases hmem : phi.dest ∈ alive <;> simp [hmem]
    exact h hmem
  have hbody : ∀ i : Instr, (i.isKept alive && i.isKept alive') = i.isKept alive := by
    intro i
    cases hi : i.isKept alive
    · rfl
    · exact isKept_of_subset h hi
  simp only [hphis, hbody]

/-- What is left reads nothing new. -/
theorem reads_keeping (c : Body) (alive : List ValueId) : (c.keeping alive).reads ⊆ c.reads := by
  intro v hv
  simp only [reads, keeping, List.mem_flatMap, List.mem_map, exists_exists_and_eq_and, Block.reads, Block.keeping,
    List.mem_append, List.mem_filter] at hv ⊢
  obtain ⟨b, hb, (⟨phi, ⟨hphi, -⟩, hv⟩ | ⟨i, ⟨hi, -⟩, hv⟩) | hv⟩ := hv
  · exact ⟨b, hb, .inl (.inl ⟨phi, hphi, hv⟩)⟩
  · exact ⟨b, hb, .inl (.inr ⟨i, hi, hv⟩)⟩
  · exact ⟨b, hb, .inr hv⟩

/-- **No definition of a value that is alive goes.** -/
theorem count_defs_keeping (c : Body) (h : v ∈ alive) : (c.keeping alive).defs.count v = c.defs.count v := by
  have hblock (b : Block) : (b.keeping alive).defs.count v = b.defs.count v := by
    simp only [Block.defs, Block.keeping, List.count, List.countP_append, List.countP_map, List.countP_filterMap,
      List.countP_filter]
    congr 1
    · refine List.countP_congr fun phi _ => ?_
      simp only [Function.comp_apply, Bool.and_eq_true, beq_iff_eq, decide_eq_true_eq, and_iff_left_iff_imp]
      rintro rfl
      exact h
    · refine List.countP_congr fun i _ => ?_
      cases hdest : i.dest <;> simp [Instr.isKept, hdest]
      rintro rfl
      exact .inr h
  simp only [defs, keeping, List.count_append, List.count_flatMap, List.map_map]
  congr 2
  exact List.map_congr_left fun b _ => hblock b

theorem mem_defs_keeping (h : v ∈ alive) : v ∈ (c.keeping alive).defs ↔ v ∈ c.defs := by
  rw [← List.count_pos_iff, ← List.count_pos_iff, count_defs_keeping c h]

theorem defs_keeping (c : Body) (alive : List ValueId) : (c.keeping alive).defs ⊆ c.defs := by
  intro v hv
  simp only [defs, keeping, List.mem_append, List.mem_flatMap, List.mem_map, exists_exists_and_eq_and, Block.defs,
    Block.keeping, List.mem_filterMap, List.mem_filter] at hv ⊢
  obtain hv | ⟨b, hb, ⟨phi, ⟨hphi, -⟩, hv⟩ | ⟨i, ⟨hi, -⟩, hv⟩⟩ := hv
  · exact .inl hv
  · exact .inr ⟨b, hb, .inl ⟨phi, hphi, hv⟩⟩
  · exact .inr ⟨b, hb, .inr ⟨i, hi, hv⟩⟩

theorem predecessorsOf_keeping (c : Body) (alive : List ValueId) (b : BlockId) :
    (c.keeping alive).predecessorsOf b = c.predecessorsOf b :=
  predecessorsOf_of_targets (List.forall₂_map_right_iff.2 (List.forall₂_same.2 fun _ _ _ => rfl)) b

/-- **A well-formed body stays well formed** if what is left reads values that are alive only. -/
theorem WellFormed.keeping (hc : c.WellFormed) (halive : (c.keeping alive).reads ⊆ alive) : (c.keeping alive).WellFormed := by
  have hblock {b : BlockId} {block' : Block} (hb : (c.keeping alive).blocks[b]? = some block') :
      ∃ block, c.blocks[b]? = some block ∧ block' = block.keeping alive := by
    rw [Body.keeping, List.getElem?_map, Option.map_eq_some_iff] at hb
    obtain ⟨block, hget, rfl⟩ := hb
    exact ⟨block, hget, rfl⟩
  have hreads := reads_keeping c alive
  refine ⟨?_, ?_, ?_, ?_, ?_, ?_, ?_⟩
  · intro b block' hb t ht
    obtain ⟨block, hget, rfl⟩ := hblock hb
    rw [Body.keeping, List.length_map]
    exact hc.targets b block hget t ht
  · rw [predecessorsOf_keeping, hc.entry]
  · intro b block' hb phi hphi
    obtain ⟨block, hget, rfl⟩ := hblock hb
    rw [predecessorsOf_keeping]
    exact hc.arity b block hget phi (List.mem_filter.1 hphi).1
  · exact fun v hv => hc.defsInRange v (defs_keeping c alive hv)
  · exact fun v hv => hc.readsInRange v (hreads hv)
  · exact fun v hv => (mem_defs_keeping (halive hv)).2 (hc.defined v (hreads hv))
  · exact fun v hv => hc.resolved v (hreads hv)

/-! ### Counting -/

theorem flatMap_phis_keeping (c : Body) (alive : List ValueId) :
    (c.keeping alive).blocks.flatMap Block.phis = (c.blocks.flatMap Block.phis).filter (·.dest ∈ alive) := by
  simp only [Body.keeping, List.flatMap_map, Block.keeping, List.filter_flatMap]

theorem flatMap_body_keeping (c : Body) (alive : List ValueId) :
    (c.keeping alive).blocks.flatMap Block.body = (c.blocks.flatMap Block.body).filter (·.isKept alive) := by
  simp only [Body.keeping, List.flatMap_map, Block.keeping, List.filter_flatMap]

/-- A removal that leaves as much as there was leaves everything. -/
theorem keeping_eq_self (h : c.itemCount ≤ (c.keeping alive).itemCount) : c.keeping alive = c := by
  rw [itemCount, itemCount, flatMap_phis_keeping, flatMap_body_keeping] at h
  have hphis := List.length_filter_le (fun phi : Phi => decide (phi.dest ∈ alive)) (c.blocks.flatMap Block.phis)
  have hbody := List.length_filter_le (·.isKept alive) (c.blocks.flatMap Block.body)
  have hallPhis := List.length_filter_eq_length_iff.1 (Nat.le_antisymm hphis (by omega))
  have hallBody := List.length_filter_eq_length_iff.1 (Nat.le_antisymm hbody (by omega))
  have hblock : ∀ b ∈ c.blocks, b.keeping alive = b := by
    intro b hb
    have hphis := List.filter_eq_self.2 fun phi hphi => hallPhis phi (List.mem_flatMap.2 ⟨b, hb, hphi⟩)
    have hbody := List.filter_eq_self.2 fun i hi => hallBody i (List.mem_flatMap.2 ⟨b, hb, hi⟩)
    rw [Block.keeping, hphis, hbody]
  rw [Body.keeping, List.map_congr_left hblock, List.map_id']

/-! ### Rounds -/

/-- Counting succeeds if all readings have a place, and counts readings. -/
theorem exists_useCounts (h : ∀ v ∈ c.reads, v < c.values.length) :
    ∃ counts, c.useCounts = .ok counts ∧ ∀ v, counts.getD v 0 = c.reads.count v := by
  have hnone : c.reads.find? (c.values.length ≤ ·) = none := by
    simpa [List.find?_eq_none] using h
  refine ⟨_, by rw [useCounts, hnone], fun v => ?_⟩
  rw [List.getD_eq_getElem?_getD, List.getElem?_map]
  by_cases hv : v < c.values.length
  · rw [List.getElem?_range hv]
    rfl
  · rw [List.getElem?_eq_none (by simpa using hv)]
    exact (List.count_eq_zero.2 fun hmem => hv (h v hmem)).symm

/-- **A round keeps what the values that are read keep alive.** -/
theorem sweep_eq {counts : List Nat} (h : ∀ v, counts.getD v 0 = c.reads.count v) : c.sweep counts = c.keeping c.reads := by
  have hphi (phi : Phi) : keepsPhi counts phi = decide (phi.dest ∈ c.reads) := by
    rw [keepsPhi, h, Bool.eq_iff_iff]
    simp [← List.count_pos_iff, Nat.pos_iff_ne_zero]
  have hinstr (i : Instr) : keepsInstr counts i = i.isKept c.reads := by
    rw [keepsInstr, Instr.isKept]
    cases i.dest with
    | none => simp
    | some v =>
      have hcount : (counts.getD v 0 == 0) = !decide (v ∈ c.reads) := by
        rw [h, Bool.eq_iff_iff]
        simp [List.count_eq_zero]
      rw [Option.all_some, Bool.or_comm]
      simp only [hcount, Bool.not_and, Bool.not_not]
  have hsweep : sweepBlock counts = Block.keeping c.reads := by
    funext b
    simp only [sweepBlock, Block.keeping, ← hphi, ← hinstr]
  rw [sweep, Body.keeping, hsweep]

/-- A round, and the rounds after it if it has found something. -/
theorem WellFormed.removeDead_eq (hc : c.WellFormed) : c.removeDead =
    if (c.keeping c.reads).itemCount < c.itemCount then
      (c.keeping c.reads).removeDead.map fun (n, c') => (n + (c.itemCount - (c.keeping c.reads).itemCount), c')
    else .ok (0, c) := by
  obtain ⟨counts, hcounts, hcount⟩ := exists_useCounts hc.readsInRange
  have hrange : c.definesInRange = .ok () := by
    have hnone : (c.blocks.flatMap Block.defs).find? (c.values.length ≤ ·) = none := by
      rw [List.find?_eq_none]
      intro v hv
      simpa using hc.defsInRange v (List.mem_append_right _ hv)
    rw [definesInRange, hnone]
  rw [removeDead, hcounts, hrange, ← sweep_eq hcount]
  rfl

/-- **All rounds together** keep what the values that are read in the end keep alive. They count what
    goes, and they stop at the largest remainder of the body that is its own remainder. -/
theorem exists_removeDead (hc : c.WellFormed) : ∃ n c', c.removeDead = .ok (n, c') ∧ c' = c.keeping c'.reads ∧
    n + c'.itemCount = c.itemCount ∧ ∀ d : Body, d = c.keeping d.reads → d.reads ⊆ c'.reads := by
  induction hn : c.itemCount using Nat.strongRecOn generalizing c with
  | _ n ih =>
    rw [hc.removeDead_eq]
    by_cases hlt : (c.keeping c.reads).itemCount < c.itemCount
    · have hround := hc.keeping (reads_keeping c c.reads)
      obtain ⟨m, c', hrest, heq, hcount, hlargest⟩ := ih _ (hn ▸ hlt) hround rfl
      have hreads : c'.reads ⊆ c.reads := by
        rw [heq]
        exact List.Subset.trans (reads_keeping _ _) (reads_keeping _ _)
      refine ⟨m + (c.itemCount - (c.keeping c.reads).itemCount), c', ?_, ?_, by omega, fun d hd => hlargest d ?_⟩
      · rw [if_pos hlt, hrest]
        rfl
      · rw [keeping_keeping hreads] at heq
        exact heq
      · have hreads : d.reads ⊆ c.reads := by
          rw [hd]
          exact reads_keeping _ _
        rw [keeping_keeping hreads]
        exact hd
    · have hself := keeping_eq_self (Nat.le_of_not_lt hlt)
      refine ⟨0, c, if_neg hlt, hself.symm, by omega, fun d hd => ?_⟩
      rw [hd]
      exact reads_keeping _ _

/-- **Dead code goes, and nothing else.** Removal comes to an end on every body that passes
    verification, and what it leaves passes, too. The blocks that are left differ from those before in
    phis and instructions without effect only, and only in those whose results are not read any more:
    whatever defines a value that is still read is still there, and no phi and no instruction without
    effect is left whose result is not read. No more goes than has to. The number that is given back is
    the number of phis and instructions that are gone, and a second removal finds nothing. -/
theorem removeDead_exact (hc : c.verify = .ok ()) : ∃ n c', c.removeDead = .ok (n, c') ∧ c'.verify = .ok () ∧
    c' = c.keeping c'.reads ∧ (∀ v ∈ c'.reads, c'.defs.count v = c.defs.count v) ∧
    (∀ b ∈ c'.blocks, (∀ phi ∈ b.phis, phi.dest ∈ c'.reads) ∧
      ∀ i ∈ b.body, i.op.isRemovable = true → ∀ v ∈ i.dest, v ∈ c'.reads) ∧
    (∀ d : Body, d = c.keeping d.reads → d.reads ⊆ c'.reads) ∧
    n + c'.itemCount = c.itemCount ∧ c'.removeDead = .ok (0, c') := by
  rw [verify_eq_ok_iff] at hc
  obtain ⟨n, c', hremove, heq, hcount, hlargest⟩ := exists_removeDead hc
  have hwell : c'.WellFormed := by
    rw [heq]
    exact hc.keeping (heq ▸ List.Subset.refl _)
  have hself : c'.keeping c'.reads = c' := by
    nth_rewrite 1 [heq]
    rw [keeping_keeping (List.Subset.refl _)]
    exact heq.symm
  refine ⟨n, c', hremove, verify_eq_ok_iff.2 hwell, heq, fun v hv => ?_, fun b hb => ?_, hlargest, hcount, ?_⟩
  · rw [← count_defs_keeping c hv, ← heq]
  · have hb' : b ∈ (c.keeping c'.reads).blocks := heq ▸ hb
    obtain ⟨block, -, rfl⟩ := List.mem_map.1 hb'
    refine ⟨fun phi hphi => by simpa using (List.mem_filter.1 hphi).2, fun i hi hremovable v hv => ?_⟩
    have hkept := (List.mem_filter.1 hi).2
    rw [Instr.isKept, hremovable, Option.mem_def.1 hv] at hkept
    simpa using hkept
  · rw [hwell.removeDead_eq, hself, if_neg (Nat.lt_irrefl _)]

end

/-- Nobody reads `5`, which alone reads `4`, which alone reads `2`: three rounds find something. The phi
    `3` reads itself and stays, and so does the call, whose result nobody reads. -/
def roundsSample : Body where
  method := ⟨⟨"Lp/A;"⟩, "run", ⟨.int, [.int]⟩⟩
  isStatic := true
  arguments := [0]
  values := [⟨.int, .argument 0⟩, ⟨.int, .instruction⟩, ⟨.int, .instruction⟩, ⟨.int, .phi⟩, ⟨.int, .phi⟩, ⟨.int, .phi⟩,
    ⟨.int, .instruction⟩]
  blocks :=
    [{ body := [⟨some 1, .constInt 1, 1⟩], terminator := .branch .eq .int 0 none 2 },
     { body := [⟨some 2, .constInt 2, 2⟩], terminator := .goto 2 },
     { phis := [⟨3, [1, 1, 3]⟩, ⟨4, [0, 2, 0]⟩], terminator := .branch .lt .int 0 none 2 },
     { phis := [⟨5, [4]⟩], body := [⟨some 6, .invoke .static ⟨⟨"Lp/A;"⟩, "next", ⟨.int, []⟩⟩ [] false, 3⟩],
       terminator := .ret (some 0) }]

theorem removeDead_exact_roundsSample : roundsSample.verify = .ok () ∧
    ∃ n c', roundsSample.removeDead = .ok (n, c') ∧ c'.verify = .ok () ∧ c' = roundsSample.keeping c'.reads ∧
      (∀ v ∈ c'.reads, c'.defs.count v = roundsSample.defs.count v) ∧
      (∀ b ∈ c'.blocks, (∀ phi ∈ b.phis, phi.dest ∈ c'.reads) ∧
        ∀ i ∈ b.body, i.op.isRemovable = true → ∀ v ∈ i.dest, v ∈ c'.reads) ∧
      (∀ d : Body, d = roundsSample.keeping d.reads → d.reads ⊆ c'.reads) ∧
      n + c'.itemCount = roundsSample.itemCount ∧ c'.removeDead = .ok (0, c') := by
  have hverify : roundsSample.verify = .ok () := by decide
  exact ⟨hverify, removeDead_exact hverify⟩

end Body

end DexShrinker
