/-
  DexShrinker/Proofs/Body/Dominance.lean
  ======================================
  **Bodies in which every reading comes after a definition.**

  A block dominates another one if every way from the entry to the second leads through the first.
  In a strict body (`Strict`) every value that is read is an argument or is defined in a block that
  dominates the reading, where the operands of a phi are read at the end of the predecessor they
  belong to.

  This is what makes dropping handlers safe. Handlers that repeat a guard go, and with them edges,
  phi operands and blocks. What is left is reached by ways that were there before, so every
  definition that dominated a reading that is left is still on them (`exists_pruneGuards`). Without
  strictness a value could be read in a block that stays and be defined in one that goes.
-/
import DexShrinker.Proofs.Body.Shape

namespace DexShrinker

/-- The values that instructions and the terminator of a block read. -/
def Block.straightReads (b : Block) : List ValueId := b.body.flatMap (·.op.reads) ++ b.terminator.reads

namespace Body

/-! ### Dominance -/

/-- The blocks on a way from the entry to a block, the last one first. -/
inductive Walk (c : Body) : List BlockId → BlockId → Prop
  | entry : Walk c [0] 0
  | step {l : List BlockId} {p b : BlockId} (h : Walk c l p) (hb : b ∈ c.successors p) : Walk c (b :: l) b

/-- Every way to `b` leads through `d`. -/
def Dominates (c : Body) (d b : BlockId) : Prop := ∀ l, c.Walk l b → d ∈ l

/-- A value that can be read at the end of block `b`. -/
def AvailableAt (c : Body) (v : ValueId) (b : BlockId) : Prop :=
  v ∈ c.arguments ∨ ∃ d block, c.blocks[d]? = some block ∧ v ∈ block.defs ∧ c.Dominates d b

/-- The phi of block `b` has the operand `v` for the predecessor `p`. -/
def Incoming (c : Body) (b : BlockId) (phi : Phi) (p : BlockId) (v : ValueId) : Prop :=
  (p, v) ∈ (c.predecessorsOf b).zip phi.operands

/-- Definitions dominate readings. -/
structure Strict (c : Body) : Prop where
  straight : ∀ b block, c.blocks[b]? = some block → ∀ v ∈ block.straightReads, c.AvailableAt v b
  phis : ∀ b block, c.blocks[b]? = some block → ∀ phi ∈ block.phis, ∀ p v, c.Incoming b phi p v → c.AvailableAt v p

variable {c c' c'' : Body} {d b p : BlockId} {l : List BlockId} {v : ValueId}

theorem Walk.last_mem (h : c.Walk l b) : b ∈ l := by
  cases h with
  | entry => exact List.mem_cons_self
  | step => exact List.mem_cons_self

theorem Walk.entry_mem (h : c.Walk l b) : 0 ∈ l := by
  induction h with
  | entry => exact List.mem_cons_self
  | step _ _ ih => exact List.mem_cons_of_mem _ ih

/-- Ways depend on where blocks go only. -/
theorem Walk.congr (h : c.Walk l b) (hsuccessors : ∀ p, c'.successors p = c.successors p) : c'.Walk l b := by
  induction h with
  | entry => exact .entry
  | step _ hb ih => exact .step ih (hsuccessors _ ▸ hb)

theorem dominates_self (c : Body) (b : BlockId) : c.Dominates b b := fun _ h => h.last_mem

theorem dominates_entry (c : Body) (b : BlockId) : c.Dominates 0 b := fun _ h => h.entry_mem

theorem Incoming.mem_predecessorsOf {phi : Phi} (h : c.Incoming b phi p v) : p ∈ c.predecessorsOf b := (List.of_mem_zip h).1

theorem Incoming.mem_operands {phi : Phi} (h : c.Incoming b phi p v) : v ∈ phi.operands := (List.of_mem_zip h).2

/-- Every operand of a phi comes in from some predecessor. -/
theorem Shaped.exists_incoming (h : c.Shaped) {block : Block} (hb : c.blocks[b]? = some block) {phi : Phi} (hphi : phi ∈ block.phis)
    (hv : v ∈ phi.operands) : ∃ p, c.Incoming b phi p v := by
  obtain ⟨k, hk, rfl⟩ := List.mem_iff_getElem.1 hv
  have hlength := h.arity b block hb phi hphi
  have hk' : k < (c.predecessorsOf b).length := hlength ▸ hk
  refine ⟨(c.predecessorsOf b)[k], List.mem_iff_getElem.2 ⟨k, by simp only [List.length_zip]; omega, ?_⟩⟩
  simp

theorem mem_reads_iff : v ∈ c.reads ↔ ∃ (b : BlockId) (block : Block), c.blocks[b]? = some block ∧
    ((∃ phi ∈ block.phis, v ∈ phi.operands) ∨ v ∈ block.straightReads) := by
  simp only [reads, List.mem_flatMap, Block.reads, List.append_assoc, ← Block.straightReads.eq_1, List.mem_append (t := Block.straightReads _)]
  constructor
  · rintro ⟨block, hblock, hv⟩
    obtain ⟨b, hb⟩ := List.getElem?_of_mem hblock
    exact ⟨b, block, hb, hv⟩
  · rintro ⟨b, block, hb, hv⟩
    exact ⟨block, List.mem_of_getElem? hb, hv⟩

/-- A body that reads arguments only is strict. -/
theorem strict_of_arguments (h : ∀ v ∈ c.reads, v ∈ c.arguments) : c.Strict where
  straight b block hb v hv := .inl (h v (mem_reads_iff.2 ⟨b, block, hb, .inr hv⟩))
  phis b block hb phi hphi _ v hv := .inl (h v (mem_reads_iff.2 ⟨b, block, hb, .inl ⟨phi, hphi, hv.mem_operands⟩⟩))

/-! ### Blocks that stay -/

/-- The blocks of `c'` stand at the given places in `c`, in the same order, edges come from edges, and the
    operand of a phi for a predecessor is the one for the place of the predecessor. -/
structure Aligned (c c' : Body) (place : BlockId → BlockId) : Prop where
  entry : place 0 = 0
  order : ∀ i j, i < j → j < c'.blocks.length → place i < place j
  edges : ∀ p b, b ∈ c'.successors p → place b ∈ c.successors (place p)
  phis : ∀ b block', c'.blocks[b]? = some block' → ∃ block, c.blocks[place b]? = some block ∧
    List.Forall₂ (fun phi phi' => phi'.dest = phi.dest ∧
      ∀ p v, c'.Incoming b phi' p v → c.Incoming (place b) phi (place p) v) block.phis block'.phis

/-- What `c'` has is what `c` has, in blocks that can all be reached. -/
structure Prunes (c c' : Body) (place : BlockId → BlockId) : Prop extends Aligned c c' place where
  arguments : c'.arguments = c.arguments
  values : c'.values = c.values
  code : ∀ (b : BlockId) (block block' : Block), c.blocks[place b]? = some block → c'.blocks[b]? = some block' →
    block'.body = block.body ∧ block'.terminator.reads = block.terminator.reads

theorem Aligned.refl (c : Body) : c.Aligned c id where
  entry := rfl
  order _ _ h _ := h
  edges _ _ h := h
  phis _ block' h := ⟨block', h, List.forall₂_same.2 fun _ _ => ⟨rfl, fun _ _ h => h⟩⟩

theorem forall₂_trans {α β γ : Type} {R : α → β → Prop} {S : β → γ → Prop} {T : α → γ → Prop} (hT : ∀ a b c, R a b → S b c → T a c)
    {as : List α} {bs : List β} {cs : List γ} (h : List.Forall₂ R as bs) (h' : List.Forall₂ S bs cs) : List.Forall₂ T as cs := by
  induction h generalizing cs with
  | nil =>
    cases h'
    exact .nil
  | cons hr _ ih =>
    cases h' with
    | cons hs hrest => exact .cons (hT _ _ _ hr hs) (ih hrest)

theorem Aligned.place_lt {place : BlockId → BlockId} (h : c.Aligned c' place) (hb : b < c'.blocks.length) : place b < c.blocks.length := by
  obtain ⟨block, hblock, -⟩ := h.phis b _ (List.getElem?_eq_getElem hb)
  exact (List.getElem?_eq_some_iff.1 hblock).1

theorem Aligned.trans {place place' : BlockId → BlockId} (h : c.Aligned c' place) (h' : c'.Aligned c'' place') :
    c.Aligned c'' (place ∘ place') where
  entry := by rw [Function.comp_apply, h'.entry, h.entry]
  order i j hij hj := h.order _ _ (h'.order i j hij hj) (h'.place_lt hj)
  edges p b hb := h.edges _ _ (h'.edges p b hb)
  phis b block'' hb := by
    obtain ⟨block', hblock', hphis'⟩ := h'.phis b block'' hb
    obtain ⟨block, hblock, hphis⟩ := h.phis _ block' hblock'
    refine ⟨block, hblock, forall₂_trans ?_ hphis hphis'⟩
    rintro phi phi' phi'' ⟨hdest, hincoming⟩ ⟨hdest', hincoming'⟩
    exact ⟨hdest'.trans hdest, fun p v hv => hincoming _ v (hincoming' p v hv)⟩

theorem Prunes.refl (c : Body) : c.Prunes c id where
  toAligned := .refl c
  arguments := rfl
  values := rfl
  code b block block' hblock hblock' := by
    cases hblock.symm.trans hblock'
    exact ⟨rfl, rfl⟩

theorem Prunes.trans {place place' : BlockId → BlockId} (h : c.Prunes c' place) (h' : c'.Prunes c'' place') :
    c.Prunes c'' (place ∘ place') where
  toAligned := h.toAligned.trans h'.toAligned
  arguments := h'.arguments.trans h.arguments
  values := h'.values.trans h.values
  code b block block'' hblock hblock'' := by
    obtain ⟨block', hblock', -⟩ := h'.phis b block'' hblock''
    obtain ⟨hbody', hreads'⟩ := h'.code b block' block'' hblock' hblock''
    obtain ⟨hbody, hreads⟩ := h.code _ block block' hblock hblock'
    exact ⟨hbody'.trans hbody, hreads'.trans hreads⟩

/-- Ways in what is left are ways that were there before. -/
theorem Aligned.walk {place : BlockId → BlockId} (h : c.Aligned c' place) (hwalk : c'.Walk l b) : c.Walk (l.map place) (place b) := by
  induction hwalk with
  | entry =>
    rw [List.map_singleton, h.entry]
    exact .entry
  | step _ hb ih => exact .step ih (h.edges _ _ hb)

theorem Walk.lt_length (hwalk : c.Walk l b) (hshaped : c.Shaped) : ∀ x ∈ l, x < c.blocks.length := by
  induction hwalk with
  | entry =>
    intro x hx
    rw [List.mem_singleton.1 hx]
    exact List.length_pos_iff.2 hshaped.nonempty
  | @step l p b hl hb ih =>
    have hp := ih p hl.last_mem
    have hb' := hshaped.targets p _ (List.getElem?_eq_getElem hp) b ((mem_successors (List.getElem?_eq_getElem hp)).1 hb)
    exact List.forall_mem_cons.2 ⟨hb', ih⟩

section

variable {place : BlockId → BlockId}

theorem Prunes.defs (h : c.Prunes c' place) {block block' : Block} (hb : c.blocks[place b]? = some block)
    (hb' : c'.blocks[b]? = some block') : block'.defs = block.defs := by
  obtain ⟨found, hfound, hphis⟩ := h.phis b block' hb'
  obtain rfl : found = block := Option.some_inj.1 (hfound.symm.trans hb)
  have hdests : block'.phis.map Phi.dest = found.phis.map Phi.dest := by
    rw [← List.forall₂_eq_eq_eq, List.forall₂_map_left_iff, List.forall₂_map_right_iff]
    exact (hphis.imp fun _ _ hphi => hphi.1).flip
  rw [Block.defs, Block.defs, hdests, (h.code b found block' hb hb').1]

/-- A definition that dominates a block that can still be reached is still there. -/
theorem Prunes.mem_defs (h : c.Prunes c' place) (hshaped : c'.Shaped) (hwalk : c'.Walk l b) (hv : c.AvailableAt v (place b)) : v ∈ c'.defs := by
  rw [Body.defs, List.mem_append]
  rcases hv with hargument | ⟨d, block, hd, hdef, hdominates⟩
  · exact .inl (h.arguments ▸ hargument)
  · right
    obtain ⟨x, hx, rfl⟩ := List.mem_map.1 (hdominates _ (h.walk hwalk))
    have hget := List.getElem?_eq_getElem (hwalk.lt_length hshaped x hx)
    refine List.mem_flatMap.2 ⟨_, List.mem_of_getElem? hget, ?_⟩
    rw [h.defs hd hget]
    exact hdef

theorem Prunes.mem_reads (h : c.Prunes c' place) (hshaped : c'.Shaped) (hv : v ∈ c'.reads) : v ∈ c.reads := by
  obtain ⟨b, block', hb, hv⟩ := mem_reads_iff.1 hv
  obtain ⟨block, hblock, hphis⟩ := h.phis b block' hb
  refine mem_reads_iff.2 ⟨place b, block, hblock, ?_⟩
  rcases hv with ⟨phi', hphi', hv⟩ | hv
  · obtain ⟨p, hp⟩ := hshaped.exists_incoming hb hphi' hv
    obtain ⟨phi, hphi, -, hincoming⟩ := exists_of_mem_left hphis.flip hphi'
    exact .inl ⟨phi, hphi, (hincoming p v hp).mem_operands⟩
  · obtain ⟨hbody, hreads⟩ := h.code b block block' hblock hb
    rw [Block.straightReads, hbody, hreads] at hv
    exact .inr hv

/-- **Dropping edges and blocks** of a strict body leaves a well-formed one, if all blocks that are left
    can be reached. -/
theorem Prunes.wellFormed (h : c.Prunes c' place) (hc : c.WellFormed) (hstrict : c.Strict) (hshaped : c'.Shaped)
    (hwalks : ∀ b < c'.blocks.length, ∃ l, c'.Walk l b) : c'.WellFormed where
  targets := hshaped.targets
  entry := hshaped.entry
  arity := hshaped.arity
  defsInRange v hv := by
    rw [h.values]
    apply hc.defsInRange
    rw [Body.defs, List.mem_append] at hv ⊢
    rcases hv with hargument | hdef
    · exact .inl (h.arguments ▸ hargument)
    · obtain ⟨block', hblock', hdef⟩ := List.mem_flatMap.1 hdef
      obtain ⟨b, hb⟩ := List.getElem?_of_mem hblock'
      obtain ⟨block, hblock, -⟩ := h.phis b block' hb
      rw [h.defs hblock hb] at hdef
      exact .inr (List.mem_flatMap.2 ⟨block, List.mem_of_getElem? hblock, hdef⟩)
  readsInRange v hv := by
    rw [h.values]
    exact hc.readsInRange v (h.mem_reads hshaped hv)
  defined v hv := by
    obtain ⟨b, block', hb, hv⟩ := mem_reads_iff.1 hv
    obtain ⟨block, hblock, hphis⟩ := h.phis b block' hb
    rcases hv with ⟨phi', hphi', hv⟩ | hv
    · obtain ⟨p, hp⟩ := hshaped.exists_incoming hb hphi' hv
      obtain ⟨phi, hphi, -, hincoming⟩ := exists_of_mem_left hphis.flip hphi'
      obtain ⟨l, hwalk⟩ := hwalks p (mem_predecessorsOf.1 hp.mem_predecessorsOf).1
      exact h.mem_defs hshaped hwalk (hstrict.phis _ block hblock phi hphi _ v (hincoming p v hp))
    · obtain ⟨hbody, hreads⟩ := h.code b block block' hblock hb
      rw [Block.straightReads, hbody, hreads] at hv
      obtain ⟨l, hwalk⟩ := hwalks b (List.getElem?_eq_some_iff.1 hb).1
      exact h.mem_defs hshaped hwalk (hstrict.straight _ block hblock v hv)
  resolved v hv := by
    rw [h.values]
    exact hc.resolved v (h.mem_reads hshaped hv)

end

/-! ### Unreachable blocks -/

/-- Marking does not fail if all blocks are where they should be. -/
theorem exists_markReachable {marks : List Bool} {stack : List BlockId} (hstack : ∀ b ∈ stack, b < marks.length)
    (hsuccessors : ∀ b, ∀ s ∈ c.successors b, s < marks.length) : ∃ marks', c.markReachable marks stack = .ok marks' := by
  induction marks, stack using markReachable.induct c with
  | case1 marks =>
    rw [markReachable]
    exact ⟨marks, rfl⟩
  | case2 marks b stack hnone =>
    have hlt := hstack b List.mem_cons_self
    rw [List.getElem?_eq_getElem hlt] at hnone
    cases hnone
  | case3 marks b stack htrue ih =>
    obtain ⟨marks', h⟩ := ih (List.forall_mem_cons.1 hstack).2 hsuccessors
    refine ⟨marks', ?_⟩
    rw [markReachable]
    split
    · next hnone => cases htrue.symm.trans hnone
    · exact h
    · next hfalse => cases htrue.symm.trans hfalse
  | case4 marks b stack hfalse ih =>
    have hstack' : ∀ s ∈ c.successors b ++ stack, s < (marks.set b true).length := by
      intro s hs
      rw [List.length_set]
      rcases List.mem_append.1 hs with hs | hs
      · exact hsuccessors b s hs
      · exact hstack s (List.mem_cons_of_mem _ hs)
    obtain ⟨marks', h⟩ := ih hstack' (by simpa using hsuccessors)
    refine ⟨marks', ?_⟩
    rw [markReachable]
    split
    · next hnone => cases hfalse.symm.trans hnone
    · next htrue => cases hfalse.symm.trans htrue
    · exact h

/-- Only what can be reached is marked. -/
theorem exists_walk_of_markReachable {marks marks' : List Bool} {stack : List BlockId} (h : c.markReachable marks stack = .ok marks')
    (hmarks : ∀ b, Marked marks b → ∃ l, c.Walk l b) (hstack : ∀ b ∈ stack, ∃ l, c.Walk l b) :
    ∀ b, Marked marks' b → ∃ l, c.Walk l b := by
  induction marks, stack using markReachable.induct c with
  | case1 marks =>
    rw [markReachable] at h
    cases h
    exact hmarks
  | case2 marks b stack hnone =>
    rw [markReachable] at h
    split at h
    · cases h
    · next hsome => cases hnone.symm.trans hsome
    · next hsome => cases hnone.symm.trans hsome
  | case3 marks b stack htrue ih =>
    rw [markReachable] at h
    split at h
    · cases h
    · exact ih h hmarks (List.forall_mem_cons.1 hstack).2
    · next hfalse => cases htrue.symm.trans hfalse
  | case4 marks b stack hfalse ih =>
    rw [markReachable] at h
    split at h
    · cases h
    · next htrue => cases hfalse.symm.trans htrue
    · obtain ⟨⟨l, hwalk⟩, hrest⟩ := List.forall_mem_cons.1 hstack
      apply ih h
      · intro b' hb'
        by_cases heq : b' = b
        · exact ⟨l, heq ▸ hwalk⟩
        · rw [Marked, List.getElem?_set_ne (fun h => heq h.symm)] at hb'
          exact hmarks b' hb'
      · intro s hs
        rcases List.mem_append.1 hs with hs | hs
        · exact ⟨_, .step hwalk hs⟩
        · exact hrest s hs

theorem exists_walk_of_reachable {marks : List Bool} (h : c.reachable = .ok marks) (hb : Marked marks b) : ∃ l, c.Walk l b := by
  refine exists_walk_of_markReachable h ?_ ?_ b hb
  · intro b' hb'
    rw [Marked, List.getElem?_replicate] at hb'
    split at hb' <;> cases hb'
  · intro b' hb'
    rw [List.mem_singleton.1 hb']
    exact ⟨_, .entry⟩

theorem Shaped.successors_lt (h : c.Shaped) (b : BlockId) : ∀ s ∈ c.successors b, s < c.blocks.length := by
  intro s hs
  cases hget : c.blocks[b]? with
  | none =>
    rw [successors, hget] at hs
    cases hs
  | some block => exact h.targets b block hget s ((mem_successors hget).1 hs)

theorem Shaped.exists_reachable (h : c.Shaped) : ∃ marks, c.reachable = .ok marks := by
  apply exists_markReachable
  · intro b hb
    rw [List.mem_singleton.1 hb, List.length_replicate]
    exact List.length_pos_iff.2 h.nonempty
  · intro b s hs
    rw [List.length_replicate]
    exact h.successors_lt b s hs

/-- The place of a block before the unmarked blocks went. -/
def former (marks : List Bool) (i : BlockId) : BlockId := (keepFlagged marks (List.range marks.length)).getD i 0

theorem former_renumbered {marks : List Bool} (h : Marked marks b) : former marks (renumbered marks b) = b := by
  rw [former, List.getD_eq_getElem?_getD, getElem?_keepFlagged (by simp) h, List.getElem?_range h.lt_length, Option.getD_some]

theorem keepFlagged_map {α : Type} (f : α → Bool) (xs : List α) : keepFlagged (xs.map f) xs = xs.filter f := by
  induction xs with
  | nil => rfl
  | cons x xs ih => cases hx : f x <;> simp [keepFlagged, hx, ih]

theorem zip_keepFlagged {α β : Type} (ks : List Bool) (xs : List α) (ys : List β) :
    (keepFlagged ks xs).zip (keepFlagged ks ys) = keepFlagged ks (xs.zip ys) := by
  induction ks generalizing xs ys with
  | nil => cases xs <;> cases ys <;> rfl
  | cons k ks ih =>
    cases xs with
    | nil => simp [keepFlagged]
    | cons x xs =>
      cases ys with
      | nil => simp [keepFlagged]
      | cons y ys => cases k <;> simp [keepFlagged, ih]

theorem keepFlagged_map_zip {α β : Type} (f : α → Bool) (xs : List α) (ys : List β) :
    keepFlagged (xs.map f) (xs.zip ys) = (xs.zip ys).filter fun x => f x.1 := by
  induction xs generalizing ys with
  | nil => rfl
  | cons x xs ih =>
    cases ys with
    | nil => rfl
    | cons y ys => cases hx : f x <;> simp [keepFlagged, hx, ih]

namespace Closed

variable {marks : List Bool}

/-- **Operands stay beside their predecessors.** -/
theorem zip_trimmed (h : c.Closed marks) (hb : Marked marks b) (operands : List ValueId) :
    ((c.trimmed marks).predecessorsOf (renumbered marks b)).zip
        (keepFlagged ((c.predecessorsOf b).map fun p => marks.getD p false) operands) =
      (((c.predecessorsOf b).zip operands).filter fun x => marks.getD x.1 false).map
        (Prod.map (renumbered marks) id) := by
  rw [h.predecessorsOf_trimmed hb, List.zip_map_left, ← keepFlagged_map, zip_keepFlagged, keepFlagged_map_zip]

/-- The operands that are left come in from where they came in. -/
theorem incoming (h : c.Closed marks) (hb : Marked marks b) {phi : Phi} {i : BlockId}
    (hi : (c.trimmed marks).Incoming (renumbered marks b)
      { phi with operands := keepFlagged ((c.predecessorsOf b).map fun p => marks.getD p false) phi.operands } i v) :
    c.Incoming b phi (former marks i) v := by
  rw [Incoming, h.zip_trimmed hb, List.mem_map] at hi
  obtain ⟨⟨p, w⟩, hmem, heq⟩ := hi
  obtain ⟨hmem, hp⟩ := List.mem_filter.1 hmem
  cases heq
  show (former marks (renumbered marks p), w) ∈ _
  rwa [former_renumbered (getD_eq_true_iff.1 hp)]

/-- **Blocks that go** when they cannot be reached. -/
theorem prunes (h : c.Closed marks) : c.Prunes (c.trimmed marks) (former marks) where
  entry := by
    have hzero : renumbered marks 0 = 0 := by simp [renumbered]
    have hformer := former_renumbered h.entry
    rwa [hzero] at hformer
  order i j hij hj := by
    obtain ⟨b, -, hb, -, rfl, -⟩ := h.exists_trimBlock (List.getElem?_eq_getElem (Nat.lt_trans hij hj))
    obtain ⟨b', -, hb', -, rfl, -⟩ := h.exists_trimBlock (List.getElem?_eq_getElem hj)
    rw [former_renumbered hb, former_renumbered hb']
    by_contra hge
    have hmono : renumbered marks b' ≤ renumbered marks b := renumbered_mono (Nat.le_of_not_lt hge)
    exact absurd hmono (Nat.not_le.2 hij)
  edges p s hs := by
    have hlt := (mem_predecessorsOf.1 (mem_predecessorsOf_of_mem_successors hs)).1
    obtain ⟨q, block, hq, hblock, rfl, -⟩ := h.exists_trimBlock (List.getElem?_eq_getElem hlt)
    rw [mem_successors (h.getElem?_trimmed hq hblock), h.targets_trimBlock hq hblock] at hs
    obtain ⟨t, ht, rfl⟩ := List.mem_map.1 hs
    rw [former_renumbered hq, former_renumbered (h.targets q block hblock hq t ht)]
    exact (mem_successors hblock).2 ht
  phis i block' hi := by
    obtain ⟨b, block, hb, hblock, rfl, rfl⟩ := h.exists_trimBlock hi
    refine ⟨block, by rw [former_renumbered hb, hblock], ?_⟩
    rw [former_renumbered hb]
    apply List.forall₂_map_right_iff.2
    exact List.forall₂_same.2 fun phi _ => ⟨rfl, fun p v hv => h.incoming hb hv⟩
  arguments := rfl
  values := rfl
  code i block block' hblock hi := by
    obtain ⟨b, found, hb, hfound, rfl, rfl⟩ := h.exists_trimBlock hi
    rw [former_renumbered hb, hfound] at hblock
    cases hblock
    refine ⟨rfl, ?_⟩
    rw [trimBlock]
    cases block.terminator <;> rfl

theorem walk (h : c.Closed marks) (hwalk : c.Walk l b) : Marked marks b ∧ (c.trimmed marks).Walk (l.map (renumbered marks)) (renumbered marks b) := by
  induction hwalk with
  | entry =>
    refine ⟨h.entry, ?_⟩
    have hzero : renumbered marks 0 = 0 := by simp [renumbered]
    rw [List.map_singleton, hzero]
    exact .entry
  | @step l p b _ hb ih =>
    obtain ⟨hp, hwalk⟩ := ih
    have hget := List.getElem?_eq_getElem (h.length ▸ hp.lt_length : p < c.blocks.length)
    have hmarked := h.targets p _ hget hp b ((mem_successors hget).1 hb)
    exact ⟨hmarked, .step hwalk ((h.mem_successors_trimmed hmarked hp).2 hb)⟩

end Closed

/-- What is left when blocks go that the entry does not reach: all that it does reach. -/
theorem prunes_of_removeUnreachable {isSmaller : Bool} (h : c.removeUnreachable = .ok (isSmaller, c')) :
    ∃ place, c.Prunes c' place ∧ ∀ l b, c.Walk l b → ∃ i < c'.blocks.length, place i = b := by
  obtain ⟨marks, hmarks, h⟩ := bind_eq_ok.1 h
  have hclosed := closed_of_reachable hmarks
  split at h
  · cases h
    exact ⟨id, .refl c, fun l b hwalk => ⟨b, hclosed.length ▸ (hclosed.walk hwalk).1.lt_length, rfl⟩⟩
  · cases h
    refine ⟨former marks, hclosed.prunes, fun l b hwalk => ?_⟩
    have hb := (hclosed.walk hwalk).1
    have hblock := List.getElem?_eq_getElem (hclosed.length ▸ hb.lt_length : b < c.blocks.length)
    exact ⟨renumbered marks b, (List.getElem?_eq_some_iff.1 (hclosed.getElem?_trimmed hb hblock)).1, former_renumbered hb⟩

/-- Blocks that the entry does not reach can be dropped, and then it reaches all blocks. -/
theorem Shaped.exists_removeUnreachable (h : c.Shaped) : ∃ isSmaller c', c.removeUnreachable = .ok (isSmaller, c') ∧ c'.Shaped ∧
    ∀ b < c'.blocks.length, ∃ l, c'.Walk l b := by
  obtain ⟨marks, hmarks⟩ := h.exists_reachable
  have hclosed := closed_of_reachable hmarks
  rw [Body.removeUnreachable, hmarks, ok_bind]
  by_cases hall : marks.all id = true
  · rw [if_pos hall]
    refine ⟨false, c, rfl, h, ?_⟩
    intro b hb
    apply exists_walk_of_reachable hmarks
    have hlt : b < marks.length := hclosed.length ▸ hb
    rw [Marked, List.getElem?_eq_getElem hlt]
    exact congrArg some (List.all_eq_true.1 hall _ (List.getElem_mem hlt))
  · rw [if_neg hall]
    refine ⟨true, c.trimmed marks, rfl, h.trimmed hclosed, ?_⟩
    intro i hi
    obtain ⟨b, -, hb, -, rfl, -⟩ := hclosed.exists_trimBlock (List.getElem?_eq_getElem hi)
    obtain ⟨l, hwalk⟩ := exists_walk_of_reachable hmarks hb
    exact ⟨_, (hclosed.walk hwalk).2⟩

/-! ### Equal guards -/

/-- An operand that is chosen belongs to the predecessor that it is chosen for. -/
theorem exists_selectOperands {before after : List BlockId} {phi : Phi} (hsubset : ∀ b ∈ after, b ∈ before)
    (harity : phi.operands.length = before.length) : ∃ phi', selectOperands before after phi = .ok phi' ∧ phi'.dest = phi.dest ∧
      ∀ b v, (b, v) ∈ after.zip phi'.operands → (b, v) ∈ before.zip phi.operands := by
  have hchosen : ∀ xs : List BlockId, (∀ b ∈ xs, b ∈ before) → ∃ operands : List ValueId,
      (xs.filterMap fun b => before.idxOf? b).mapM (fun k => entryOr phi.operands k (.indexOutOfRange k)) = .ok operands ∧
        List.Forall₂ (fun b v => (b, v) ∈ before.zip phi.operands) xs operands := by
    intro xs hxs
    induction xs with
    | nil => exact ⟨[], rfl, .nil⟩
    | cons x xs ih =>
      obtain ⟨hx, hxs⟩ := List.forall_mem_cons.1 hxs
      obtain ⟨operands, hoperands, hrest⟩ := ih hxs
      obtain ⟨k, hk⟩ := Option.isSome_iff_exists.1 (List.isSome_idxOf?.2 hx)
      obtain ⟨hlt, rfl, -⟩ := List.idxOf?_eq_some_iff.1 hk
      have hlt' : k < phi.operands.length := harity ▸ hlt
      have hentry : entryOr phi.operands k (.indexOutOfRange k) = .ok phi.operands[k] := by
        rw [entryOr, List.getElem?_eq_getElem hlt']
      refine ⟨phi.operands[k] :: operands, ?_, .cons ?_ hrest⟩
      · rw [List.filterMap_cons, hk, List.mapM_cons, hentry, ok_bind, hoperands]
        rfl
      · exact List.mem_iff_getElem.2 ⟨k, by simp only [List.length_zip]; omega, by simp⟩
  obtain ⟨operands, hoperands, hzip⟩ := hchosen after hsubset
  refine ⟨{ phi with operands := operands }, ?_, rfl, fun b v hv => List.forall₂_zip hzip hv⟩
  rw [selectOperands]
  simp only [hoperands]
  rfl

theorem exists_pruneBlock {i : BlockId} {block : Block}
    (harity : ∀ phi ∈ block.phis, phi.operands.length = (c.predecessorsOf i).length) :
    ∃ block', c.pruneBlock i block = .ok block' ∧ block'.body = block.body ∧ block'.terminator = block.terminator ∧
      List.Forall₂ (fun phi phi' => phi'.dest = phi.dest ∧
        ∀ p v, (p, v) ∈ (c.dropGuards.predecessorsOf i).zip phi'.operands → c.Incoming i phi p v) block.phis block'.phis := by
  rw [pruneBlock]
  by_cases heq : c.predecessorsOf i = c.dropGuards.predecessorsOf i
  · refine ⟨block, if_pos heq, rfl, rfl, List.forall₂_same.2 fun phi _ => ⟨rfl, fun p v hv => ?_⟩⟩
    rwa [Incoming, heq]
  · obtain ⟨phis, hphis, hchosen⟩ := exists_mapM_eq_ok fun phi hphi =>
      exists_selectOperands (fun p hp => mem_predecessorsOf_of_dropEqualGuards hp) (harity phi hphi)
    refine ⟨{ block with phis := phis }, (if_neg heq).trans ?_, rfl, rfl, hchosen⟩
    rw [hphis]
    rfl

theorem Pruned.mem_successors {blocks : List Block} (h : c.Pruned blocks)
    (hb : b ∈ ({ c with blocks := blocks } : Body).successors p) : b ∈ c.successors p := by
  have hmem := mem_predecessorsOf_of_mem_successors hb
  rw [h.predecessorsOf] at hmem
  exact (mem_predecessorsOf.1 (mem_predecessorsOf_of_dropEqualGuards hmem)).2

/-- **Handlers that go** because their guard is repeated. -/
theorem Shaped.exists_pruned (h : c.Shaped) : ∃ blocks, c.Pruned blocks ∧ c.Prunes { c with blocks := blocks } id := by
  have hblock : ∀ x ∈ (c.blocks.map dropEqualGuards).mapIdx fun i b => (i, b), ∃ block', c.pruneBlock x.1 x.2 = .ok block' ∧
      (c.pruneBlock x.1 x.2 = .ok block' ∧ block'.body = x.2.body ∧ block'.terminator = x.2.terminator ∧
        List.Forall₂ (fun phi phi' => phi'.dest = phi.dest ∧
          ∀ p v, (p, v) ∈ (c.dropGuards.predecessorsOf x.1).zip phi'.operands → c.Incoming x.1 phi p v) x.2.phis block'.phis) := by
    intro x hx
    obtain ⟨i, hi, rfl⟩ := List.mem_mapIdx.1 hx
    rw [List.length_map] at hi
    have harity : ∀ phi ∈ (dropEqualGuards c.blocks[i]).phis, phi.operands.length = (c.predecessorsOf i).length :=
      h.arity i c.blocks[i] (List.getElem?_eq_getElem hi)
    obtain ⟨block', hblock', hrest⟩ := exists_pruneBlock harity
    simp only [List.getElem_map]
    exact ⟨block', hblock', hblock', hrest⟩
  obtain ⟨blocks, -, hblocks⟩ := exists_mapM_eq_ok (f := fun x : BlockId × Block => c.pruneBlock x.1 x.2) hblock
  have hpruned : c.Pruned blocks := hblocks.imp fun _ _ hx => hx.1
  have hget : ∀ (i : BlockId) (block' : Block), blocks[i]? = some block' → ∃ block, c.blocks[i]? = some block ∧
      block'.body = block.body ∧ block'.terminator = block.terminator ∧
      List.Forall₂ (fun phi phi' => phi'.dest = phi.dest ∧
        ∀ p v, (p, v) ∈ (c.dropGuards.predecessorsOf i).zip phi'.operands → c.Incoming i phi p v) block.phis block'.phis := by
    intro i block' hi
    obtain ⟨x, hx, hrel⟩ := exists_of_getElem?_right hblocks hi
    rw [List.getElem?_mapIdx, List.getElem?_map, Option.map_map] at hx
    obtain ⟨block, hblock, rfl⟩ := Option.map_eq_some_iff.1 hx
    exact ⟨block, hblock, hrel.2⟩
  refine ⟨blocks, hpruned, ⟨rfl, fun _ _ h _ => h, fun p b hb => hpruned.mem_successors hb, ?_⟩, rfl, rfl, ?_⟩
  · intro b block' hb
    obtain ⟨block, hblock, -, -, hphis⟩ := hget b block' hb
    refine ⟨block, hblock, hphis.imp fun phi phi' hphi => ⟨hphi.1, fun p v hv => hphi.2 p v ?_⟩⟩
    rwa [Incoming, hpruned.predecessorsOf] at hv
  · intro b block block' hblock hblock'
    obtain ⟨found, hfound, hbody, hterm, -⟩ := hget b block' hblock'
    cases hfound.symm.trans hblock
    exact ⟨hbody, by rw [hterm]⟩

/-- The blocks that are left when handlers that repeat a guard go: they stand in their order and have their instructions,
    and those that are gone could not be reached any more. -/
theorem exists_place_of_pruneGuards (h : c.pruneGuards = .ok c') : ∃ place : BlockId → BlockId,
    (∀ i j, i < j → j < c'.blocks.length → place i < place j) ∧
    (∀ i block', c'.blocks[i]? = some block' → ∃ block, c.blocks[place i]? = some block ∧ block'.body = block.body) ∧
    ∀ b < c.blocks.length, (∃ i < c'.blocks.length, place i = b) ∨ ¬ ∃ l, c.dropGuards.Walk l b := by
  rcases pruneGuards_cases h with rfl | ⟨blocks, isSmaller, hblocks, hreduced⟩
  · exact ⟨id, fun _ _ h _ => h, fun i block' hi => ⟨block', hi, rfl⟩, fun b hb => .inl ⟨b, hb, rfl⟩⟩
  obtain ⟨place, hprunes, hreached⟩ := prunes_of_removeUnreachable hreduced
  refine ⟨place, hprunes.order, fun i block' hi => ?_, fun b hb => ?_⟩
  · obtain ⟨kept, hkept, -⟩ := hprunes.phis i block' hi
    obtain ⟨block, hblock, hprune⟩ := hblocks.exists_block hkept
    obtain ⟨phis, rfl, -⟩ := pruneBlock_eq_ok hprune
    exact ⟨block, hblock, (hprunes.code i _ block' hkept hi).1⟩
  · by_cases hwalk : ∃ l, c.dropGuards.Walk l b
    · obtain ⟨l, hwalk⟩ := hwalk
      exact .inl (hreached l b (hwalk.congr (successors_of_targets hblocks.targets)))
    · exact .inr hwalk

/-- **Equal guards may go from a strict body.** Nothing fails, what is left is well formed, and the operands of its
    phis are for the predecessors that they were for. -/
theorem exists_pruneGuards (hc : c.WellFormed) (hstrict : c.Strict) :
    ∃ c' place, c.pruneGuards = .ok c' ∧ c'.WellFormed ∧ c.Aligned c' place := by
  rw [pruneGuards]
  by_cases hall : (c.blocks.all fun b => (distinctGuards b.handlers).length == b.handlers.length) = true
  · exact ⟨c, id, if_pos hall, hc, Aligned.refl c⟩
  · have hne : c.blocks ≠ [] := by
      intro hnil
      rw [hnil] at hall
      exact hall rfl
    have hshaped := hc.shaped hne
    obtain ⟨blocks, hblocks, hprunes⟩ := hshaped.exists_pruned
    obtain ⟨isSmaller, c', hreduced, hshaped', hwalks⟩ := (hshaped.pruned hblocks).exists_removeUnreachable
    obtain ⟨place, hprunes', -⟩ := prunes_of_removeUnreachable hreduced
    refine ⟨c', place, ?_, (hprunes.trans hprunes').wellFormed hc hstrict hshaped' hwalks, hprunes.toAligned.trans hprunes'.toAligned⟩
    rw [if_neg hall]
    exact bind_eq_ok.2 ⟨blocks, mapM_eq_ok_iff.2 hblocks, bind_eq_ok.2 ⟨(isSmaller, c'), hreduced, rfl⟩⟩

end Body

end DexShrinker
