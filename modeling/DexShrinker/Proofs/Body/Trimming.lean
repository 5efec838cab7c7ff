/-
  DexShrinker/Proofs/Body/Trimming.lean
  =====================================
  **What is left when unreachable blocks go.**

  The blocks that the entry leads to are marked, and marked blocks lead to marked blocks only. So
  counting the marks gives every block that stays a new place, jumps and handlers can be sent
  through, and the block after one that branches is still the block after it. The operands of a phi
  stand in the order of the predecessors, and dropping the same positions from both keeps every
  operand beside its predecessor (`Closed.zip_trimmed`).

  `Trims` says this of the two bodies and the places where the blocks of the second one stood in the
  first. Nothing in it depends on how the blocks were found.
-/
import DexShrinker.Proofs.Body.Dominance

namespace DexShrinker.Body

/-- The block `i` of `c'` is the block of `c` that stood at `place i`, with the same instructions. It
    goes to the blocks that it went to, and its phis have one operand for each predecessor that is
    left, the one that they had for it. -/
structure Remains (c c' : Body) (place : BlockId → BlockId) (i : BlockId) (block block' : Block) : Prop where
  body : block'.body = block.body
  terminatorLine : block'.terminatorLine = block.terminatorLine
  terminator : block'.terminator.mapTargets place = block.terminator
  fallthrough : block.terminator.isBranch = true → place (i + 1) = place i + 1
  handlers : block'.handlers.map (fun h => { h with target := place h.target }) = block.handlers
  phis : List.Forall₂ (fun phi phi' => phi'.dest = phi.dest ∧ phi'.operands.length = (c'.predecessorsOf i).length ∧
    ∀ p < c'.blocks.length, ∀ v, c'.Incoming i phi' p v ↔ c.Incoming (place i) phi (place p) v) block.phis block'.phis

/-- The blocks of `c'` are those of `c` that the entry leads to, in their order. -/
structure Trims (c c' : Body) (place : BlockId → BlockId) : Prop where
  method : c'.method = c.method
  isStatic : c'.isStatic = c.isStatic
  arguments : c'.arguments = c.arguments
  values : c'.values = c.values
  order : ∀ i j, i < j → j < c'.blocks.length → place i < place j
  reached : ∀ b, (∃ i < c'.blocks.length, place i = b) ↔ ∃ l, c.Walk l b
  blocks : ∀ i block', c'.blocks[i]? = some block' →
    ∃ block, c.blocks[place i]? = some block ∧ c.Remains c' place i block block'

section

variable {c c' : Body} {marks : List Bool} {b p : BlockId} {v : ValueId} {l : List BlockId}

namespace Closed

theorem incoming_iff (h : c.Closed marks) (hb : Marked marks b) (hp : Marked marks p) (phi : Phi) :
    (c.trimmed marks).Incoming (renumbered marks b)
        { phi with operands := keepFlagged ((c.predecessorsOf b).map fun p => marks.getD p false) phi.operands }
        (renumbered marks p) v ↔ c.Incoming b phi p v := by
  rw [Incoming, Incoming, h.zip_trimmed hb, List.mem_map]
  constructor
  · rintro ⟨⟨q, w⟩, hmem, heq⟩
    obtain ⟨hmem, hq⟩ := List.mem_filter.1 hmem
    obtain ⟨hqp, rfl⟩ := Prod.mk.inj heq
    rwa [← renumbered_inj (getD_eq_true_iff.1 hq) hp hqp]
  · intro hmem
    exact ⟨(p, v), List.mem_filter.2 ⟨hmem, getD_eq_true_iff.2 hp⟩, rfl⟩

/-- The blocks that stay have places below the number of marks. -/
theorem exists_renumbered (h : c.Closed marks) {i : BlockId} (hi : i < (c.trimmed marks).blocks.length) :
    ∃ b, Marked marks b ∧ i = renumbered marks b := by
  obtain ⟨b, -, hb, -, heq, -⟩ := h.exists_trimBlock (List.getElem?_eq_getElem hi)
  exact ⟨b, hb, heq⟩

theorem renumbered_lt_length (h : c.Closed marks) (hb : Marked marks b) :
    renumbered marks b < (c.trimmed marks).blocks.length := by
  rw [h.length_trimmed]
  exact renumbered_lt_count hb

theorem remains (h : c.Closed marks) (hc : c.Shaped) {block : Block} (hb : Marked marks b) (hblock : c.blocks[b]? = some block) :
    c.Remains (c.trimmed marks) (former marks) (renumbered marks b) block (c.trimBlock marks b block) where
  body := rfl
  terminatorLine := rfl
  terminator := by
    have htargets : ∀ t ∈ block.terminator.successors b, former marks (renumbered marks t) = t := fun t ht =>
      former_renumbered (h.targets b block hblock hb t (List.mem_append_left _ ht))
    rw [trimBlock]
    cases hterm : block.terminator with
    | goto target =>
      rw [hterm] at htargets
      simp [Terminator.mapTargets, htargets target (by simp [Terminator.successors])]
    | branch kind type lhs rhs target =>
      rw [hterm] at htargets
      have hmem : target ∈ (Terminator.branch kind type lhs rhs target).successors b := by
        rw [Terminator.successors]
        split <;> simp
      simp [Terminator.mapTargets, htargets target hmem]
    | ret value => rfl
    | throw value => rfl
  fallthrough hbranch := by
    have hnext : b + 1 ∈ block.terminator.successors b := by
      cases hterm : block.terminator with
      | branch kind type lhs rhs target =>
        rw [Terminator.successors]
        split <;> simp_all
      | _ => simp [hterm, Terminator.isBranch] at hbranch
    have hmarked := h.targets b block hblock hb (b + 1) (List.mem_append_left _ hnext)
    rw [← renumbered_succ hb, former_renumbered hmarked, former_renumbered hb]
  handlers := by
    rw [trimBlock, List.map_map]
    refine (List.map_congr_left fun x hx => ?_).trans (List.map_id _)
    have hmarked := h.targets b block hblock hb x.target (List.mem_append_right _ (List.mem_map_of_mem hx))
    simp [former_renumbered hmarked]
  phis := by
    rw [former_renumbered hb]
    refine List.forall₂_map_right_iff.2 (List.forall₂_same.2 fun phi hphi => ⟨rfl, ?_, fun i hi v => ?_⟩)
    · exact (hc.trimmed h).arity _ _ (h.getElem?_trimmed hb hblock) _ (List.mem_map_of_mem hphi)
    · obtain ⟨p, hp, rfl⟩ := h.exists_renumbered hi
      rw [former_renumbered hp]
      exact h.incoming_iff hb hp phi

/-- **The body that is left** when the unmarked blocks go, if the entry leads to all that are marked. -/
theorem trims (h : c.Closed marks) (hc : c.Shaped) (hwalks : ∀ b, Marked marks b → ∃ l, c.Walk l b) :
    c.Trims (c.trimmed marks) (former marks) where
  method := rfl
  isStatic := rfl
  arguments := rfl
  values := rfl
  order := h.prunes.order
  reached b := by
    constructor
    · rintro ⟨i, hi, rfl⟩
      obtain ⟨b, hb, rfl⟩ := h.exists_renumbered hi
      rw [former_renumbered hb]
      exact hwalks b hb
    · rintro ⟨l, hwalk⟩
      have hb := (h.walk hwalk).1
      exact ⟨renumbered marks b, h.renumbered_lt_length hb, former_renumbered hb⟩
  blocks i block' hi := by
    obtain ⟨b, block, hb, hblock, rfl, rfl⟩ := h.exists_trimBlock hi
    exact ⟨block, by rw [former_renumbered hb, hblock], h.remains hc hb hblock⟩

end Closed

/-! ### Bodies without unreachable blocks -/

/-- A body all of whose blocks can be reached is all that is left of it. -/
theorem Shaped.trims_self (hc : c.Shaped) (hwalks : ∀ b < c.blocks.length, ∃ l, c.Walk l b) : c.Trims c id where
  method := rfl
  isStatic := rfl
  arguments := rfl
  values := rfl
  order _ _ h _ := h
  reached b := by
    constructor
    · rintro ⟨i, hi, rfl⟩
      exact hwalks i hi
    · rintro ⟨l, hwalk⟩
      exact ⟨b, hwalk.lt_length hc b hwalk.last_mem, rfl⟩
  blocks i block hi := by
    refine ⟨block, hi, rfl, rfl, ?_, fun _ => rfl, List.map_id _, List.forall₂_same.2 fun phi hphi => ?_⟩
    · cases block.terminator <;> rfl
    · exact ⟨rfl, hc.arity i block hi phi hphi, fun _ _ _ => Iff.rfl⟩

/-- **Nothing is dropped** if the entry leads to all blocks. -/
theorem Shaped.removeUnreachable_eq_self (hc : c.Shaped) (hwalks : ∀ b < c.blocks.length, ∃ l, c.Walk l b) :
    c.removeUnreachable = .ok (false, c) := by
  obtain ⟨marks, hmarks⟩ := hc.exists_reachable
  have hclosed := closed_of_reachable hmarks
  have hall : marks.all id = true := by
    refine List.all_eq_true.2 fun k hk => ?_
    obtain ⟨b, hb, rfl⟩ := List.mem_iff_getElem.1 hk
    obtain ⟨l, hwalk⟩ := hwalks b (hclosed.length ▸ hb)
    exact (List.getElem?_eq_some_iff.1 (hclosed.walk hwalk).1).2
  rw [Body.removeUnreachable, hmarks, ok_bind, if_pos hall]
  rfl

/-- **Dropping unreachable blocks.** On a body with blocks that passes verification nothing goes wrong.
    What is left are the blocks that the entry leads to, over jumps and handlers, in their order; they
    go where they went, and their phis have the operands that they had for the predecessors that are
    left. The answer tells whether there were other blocks, and a second call finds none. -/
theorem removeUnreachable_trims (hc : c.verify = .ok ()) (hne : c.blocks ≠ []) :
    ∃ isSmaller c' place, c.removeUnreachable = .ok (isSmaller, c') ∧ c.Trims c' place ∧
      (isSmaller = true ↔ ∃ b < c.blocks.length, ¬ ∃ l, c.Walk l b) ∧ c'.removeUnreachable = .ok (false, c') := by
  have hshaped := (verify_eq_ok_iff.1 hc).shaped hne
  obtain ⟨marks, hmarks⟩ := hshaped.exists_reachable
  have hclosed := closed_of_reachable hmarks
  have hwalks : ∀ b, Marked marks b → ∃ l, c.Walk l b := fun b hb => exists_walk_of_reachable hmarks hb
  rw [Body.removeUnreachable, hmarks, ok_bind]
  by_cases hall : marks.all id = true
  · have hreached : ∀ b < c.blocks.length, ∃ l, c.Walk l b := by
      intro b hb
      rw [← hclosed.length] at hb
      exact hwalks b (List.getElem?_eq_some_iff.2 ⟨hb, List.all_eq_true.1 hall _ (List.getElem_mem hb)⟩)
    refine ⟨false, c, id, by rw [if_pos hall]; rfl, hshaped.trims_self hreached, ?_, hshaped.removeUnreachable_eq_self hreached⟩
    simp only [Bool.false_eq_true, false_iff, not_exists, not_and, not_forall_not]
    exact hreached
  · have hreached : ∀ i < (c.trimmed marks).blocks.length, ∃ l, (c.trimmed marks).Walk l i := by
      intro i hi
      obtain ⟨b, hb, rfl⟩ := hclosed.exists_renumbered hi
      obtain ⟨l, hwalk⟩ := hwalks b hb
      exact ⟨_, (hclosed.walk hwalk).2⟩
    refine ⟨true, c.trimmed marks, former marks, by rw [if_neg hall]; rfl, hclosed.trims hshaped hwalks, ?_,
      (hshaped.trimmed hclosed).removeUnreachable_eq_self hreached⟩
    -- Some block has no mark, and every block on a way from the entry has one.
    simp only [true_iff]
    simp only [List.all_eq_true, id_eq, not_forall] at hall
    obtain ⟨k, hk, hfalse⟩ := hall
    obtain ⟨b, hb, rfl⟩ := List.mem_iff_getElem.1 hk
    refine ⟨b, hclosed.length ▸ hb, ?_⟩
    rintro ⟨l, hwalk⟩
    exact hfalse (List.getElem?_eq_some_iff.1 (hclosed.walk hwalk).1).2

end

/-- A loop with a guarded block. Nothing leads to the block `1`, which leads to both blocks with phis, so each of
    these loses an operand when it goes. -/
def skippedSample : Body where
  method := ⟨⟨"Lp/A;"⟩, "run", ⟨.void, [.int]⟩⟩
  isStatic := true
  arguments := [0]
  values := [⟨.int, .argument 0⟩, ⟨.int, .phi⟩, ⟨.int, .phi⟩, ⟨.int, .instruction⟩]
  blocks :=
    [{ terminator := .goto 2 },
     { terminator := .branch .eq .int 0 none 4 },
     { phis := [⟨1, [0, 0, 3]⟩], terminator := .branch .ge .int 1 (some 0) 4 },
     { body := [⟨some 3, .binary .add .int 1 0, 1⟩], terminator := .goto 2, handlers := [⟨.throwable, 4⟩] },
     { phis := [⟨2, [0, 1, 1]⟩], terminator := .ret none }]

theorem removeUnreachable_trims_skippedSample : skippedSample.verify = .ok () ∧ skippedSample.blocks ≠ [] ∧
    ∃ isSmaller c' place, skippedSample.removeUnreachable = .ok (isSmaller, c') ∧ skippedSample.Trims c' place ∧
      (isSmaller = true ↔ ∃ b < skippedSample.blocks.length, ¬ ∃ l, skippedSample.Walk l b) ∧
      c'.removeUnreachable = .ok (false, c') := by
  have hverify : skippedSample.verify = .ok () := by decide
  have hne : skippedSample.blocks ≠ [] := by decide
  exact ⟨hverify, hne, removeUnreachable_trims hverify hne⟩

end DexShrinker.Body
