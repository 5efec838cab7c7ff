/-
  DexShrinker/Proofs/Body/Shape.lean
  ==================================
  **The control flow of a body.**

  A body is *shaped* if it has an entry that nothing jumps to, all targets exist and every phi
  has one operand for each predecessor. This is what verification asks of control flow; it
  says nothing about values. Rewriting blocks one by one keeps the shape as long as blocks go
  where they went (`Shaped.follows`). Dropping blocks that the entry does not reach keeps it
  too (`Shaped.removeUnreachable`), because what is left is closed under jumps and is
  renumbered without gaps, and so does dropping handlers together with the phi operands that
  came from them (`Shaped.pruneGuards`).
-/
import DexShrinker.Proofs.Body.Verify
import DexShrinker.Proofs.Outcome
import DexShrinker.Updating.Body
import Mathlib.Data.List.Induction

namespace DexShrinker

namespace Body

/-- The control flow of the body is well formed. -/
structure Shaped (c : Body) : Prop where
  nonempty : c.blocks ≠ []
  targets : ∀ (b : BlockId) (block : Block), c.blocks[b]? = some block → ∀ t ∈ block.targets b, t < c.blocks.length
  entry : c.predecessorsOf 0 = []
  arity : ∀ (b : BlockId) (block : Block), c.blocks[b]? = some block →
    ∀ phi ∈ block.phis, phi.operands.length = (c.predecessorsOf b).length

theorem WellFormed.shaped {c : Body} (h : c.WellFormed) (hne : c.blocks ≠ []) : c.Shaped :=
  ⟨hne, h.targets, h.entry, h.arity⟩

/-- Every instruction of the body satisfies `P`. -/
def Each (P : Instr → Prop) (c : Body) : Prop := ∀ b ∈ c.blocks, ∀ i ∈ b.body, P i

section

variable {c c' : Body} {b p : BlockId} {block : Block}

theorem mem_successors (hb : c.blocks[p]? = some block) {t : BlockId} : t ∈ c.successors p ↔ t ∈ block.targets p := by
  rw [successors, hb]
  exact List.mem_eraseDups

theorem mem_predecessorsOf : p ∈ c.predecessorsOf b ↔ p < c.blocks.length ∧ b ∈ c.successors p := by
  simp [predecessorsOf]

theorem mem_predecessorsOf_of_mem_successors {t : BlockId} (ht : t ∈ c.successors p) : p ∈ c.predecessorsOf t := by
  refine mem_predecessorsOf.2 ⟨?_, ht⟩
  by_contra hge
  rw [successors, List.getElem?_eq_none (Nat.le_of_not_lt hge)] at ht
  cases ht

end

end Body

/-- The block `b'` goes where `b` goes, and its phis have as many operands as phis of `b`. -/
structure Block.Follows (b b' : Block) : Prop where
  targets : ∀ here, b'.targets here = b.targets here
  phis : ∀ p' ∈ b'.phis, ∃ p ∈ b.phis, p'.operands.length = p.operands.length

theorem Block.Follows.refl (b : Block) : b.Follows b := ⟨fun _ => rfl, fun p hp => ⟨p, hp, rfl⟩⟩

theorem Block.Follows.trans {a b c : Block} (h : a.Follows b) (h' : b.Follows c) : a.Follows c := by
  refine ⟨fun here => (h'.targets here).trans (h.targets here), fun p hp => ?_⟩
  obtain ⟨q, hq, hlength⟩ := h'.phis p hp
  obtain ⟨r, hr, hlength'⟩ := h.phis q hq
  exact ⟨r, hr, hlength.trans hlength'⟩

/-- A block with the same phis, terminator and handler targets. -/
theorem Block.Follows.of_eq {b b' : Block} (hphis : b'.phis = b.phis) (hterm : b'.terminator = b.terminator)
    (hhandlers : b'.handlers.map Handler.target = b.handlers.map Handler.target) : b.Follows b' :=
  ⟨fun here => by rw [Block.targets, Block.targets, hterm, hhandlers], fun p hp => ⟨p, hphis ▸ hp, rfl⟩⟩

namespace Body

theorem successors_of_targets {c c' : Body}
    (h : List.Forall₂ (fun b b' => ∀ here, Block.targets here b' = Block.targets here b) c.blocks c'.blocks) (p : BlockId) :
    c'.successors p = c.successors p := by
  cases hp : c.blocks[p]? with
  | none =>
    have hp' : c'.blocks[p]? = none := by
      rw [List.getElem?_eq_none_iff] at hp ⊢
      rwa [← h.length_eq]
    rw [successors, successors, hp, hp']
  | some block =>
    obtain ⟨block', hp', htargets⟩ := exists_of_getElem?_left h hp
    rw [successors, successors, hp, hp']
    simp only [Block.successors, htargets p]

/-- Predecessors depend on where blocks go only. -/
theorem predecessorsOf_of_targets {c c' : Body}
    (h : List.Forall₂ (fun b b' => ∀ here, Block.targets here b' = Block.targets here b) c.blocks c'.blocks) (b : BlockId) :
    c'.predecessorsOf b = c.predecessorsOf b := by
  simp [predecessorsOf, h.length_eq, successors_of_targets h]

/-- **Blocks that go where they went** keep the shape of the body. -/
theorem Shaped.follows {c c' : Body} (h : c.Shaped) (hblocks : List.Forall₂ Block.Follows c.blocks c'.blocks) : c'.Shaped := by
  have hpredecessors := predecessorsOf_of_targets (hblocks.imp fun _ _ hb => hb.targets)
  refine ⟨fun hnil => ?_, fun b block' hb t ht => ?_, ?_, fun b block' hb phi' hphi => ?_⟩
  · rw [hnil, List.forall₂_nil_right_iff] at hblocks
    exact h.nonempty hblocks
  · obtain ⟨block, hblock, hfollows⟩ := exists_of_getElem?_right hblocks hb
    rw [← hblocks.length_eq]
    exact h.targets b block hblock t (hfollows.targets b ▸ ht)
  · rw [hpredecessors, h.entry]
  · obtain ⟨block, hblock, hfollows⟩ := exists_of_getElem?_right hblocks hb
    obtain ⟨phi, hmem, hlength⟩ := hfollows.phis phi' hphi
    rw [hpredecessors, hlength, h.arity b block hblock phi hmem]

/-! ### Marks -/

/-- The block is marked. -/
def Marked (marks : List Bool) (b : BlockId) : Prop := marks[b]? = some true

theorem getD_eq_true_iff {marks : List Bool} {b : BlockId} : marks.getD b false = true ↔ Marked marks b := by
  rw [List.getD_eq_getElem?_getD, Marked]
  cases marks[b]? <;> simp

/-- **What marking marks**: everything on the stack, and with a block that was not marked before all
    its successors. -/
theorem markReachable_spec {c : Body} {marks marks' : List Bool} {stack : List BlockId}
    (h : c.markReachable marks stack = .ok marks') :
    marks'.length = marks.length ∧ (∀ b, Marked marks b → Marked marks' b) ∧ (∀ b ∈ stack, Marked marks' b) ∧
      ∀ b, Marked marks' b → Marked marks b ∨ ∀ s ∈ c.successors b, Marked marks' s := by
  induction marks, stack using markReachable.induct c with
  | case1 marks =>
    rw [markReachable] at h
    cases h
    exact ⟨rfl, fun _ hb => hb, by simp, fun _ hb => .inl hb⟩
  | case2 marks b stack hnone =>
    rw [markReachable] at h
    split at h
    · cases h
    · next hsome => cases hnone.symm.trans hsome
    · next hsome => cases hnone.symm.trans hsome
  | case3 marks b stack htrue ih =>
    rw [markReachable] at h
    split at h
    · cases h
    · obtain ⟨hlength, hkeep, hstack, hclosed⟩ := ih h
      exact ⟨hlength, hkeep, List.forall_mem_cons.2 ⟨hkeep b htrue, hstack⟩, hclosed⟩
    · next hfalse => cases htrue.symm.trans hfalse
  | case4 marks b stack hfalse ih =>
    rw [markReachable] at h
    split at h
    · cases h
    · next htrue => cases hfalse.symm.trans htrue
    · obtain ⟨hlength, hkeep, hstack, hclosed⟩ := ih h
      obtain ⟨hlt, -⟩ := List.getElem?_eq_some_iff.1 hfalse
      have hset (b' : BlockId) : Marked (marks.set b true) b' ↔ b' = b ∨ Marked marks b' := by
        rw [Marked, Marked, List.getElem?_set]
        split
        · next heq => simp [← heq, hlt]
        · next hne => simp [Ne.symm hne]
      refine ⟨by rw [hlength, List.length_set], fun b' hb' => hkeep b' ((hset b').2 (.inr hb')), ?_, fun b' hb' => ?_⟩
      · refine List.forall_mem_cons.2 ⟨hkeep b ((hset b).2 (.inl rfl)), fun b' hb' => ?_⟩
        exact hstack b' (List.mem_append_right _ hb')
      · rcases hclosed b' hb' with hmarked | hsuccessors
        · rcases (hset b').1 hmarked with rfl | hmarked
          · exact .inr fun s hs => hstack s (List.mem_append_left _ hs)
          · exact .inl hmarked
        · exact .inr hsuccessors

/-- The entry is marked, and marked blocks lead to marked blocks only. -/
structure Closed (c : Body) (marks : List Bool) : Prop where
  length : marks.length = c.blocks.length
  entry : Marked marks 0
  targets : ∀ (b : BlockId) (block : Block), c.blocks[b]? = some block → Marked marks b → ∀ t ∈ block.targets b, Marked marks t

theorem closed_of_reachable {c : Body} {marks : List Bool} (h : c.reachable = .ok marks) : c.Closed marks := by
  obtain ⟨hlength, -, hstack, hclosed⟩ := markReachable_spec h
  refine ⟨by simpa using hlength, hstack 0 List.mem_cons_self, fun b block hb hmarked t ht => ?_⟩
  rcases hclosed b hmarked with hbefore | hsuccessors
  · rw [Marked, List.getElem?_replicate] at hbefore
    split at hbefore <;> cases hbefore
  · exact hsuccessors t ((mem_successors hb).2 ht)

/-! ### New positions -/

section

variable {marks : List Bool} {b b' : BlockId}

theorem Marked.lt_length (h : Marked marks b) : b < marks.length := (List.getElem?_eq_some_iff.1 h).1

theorem renumbered_succ (h : Marked marks b) : renumbered marks (b + 1) = renumbered marks b + 1 := by
  rw [renumbered, List.take_add_one, h, List.count_append]
  rfl

theorem renumbered_mono (h : b ≤ b') : renumbered marks b ≤ renumbered marks b' :=
  (List.take_sublist_take_left h).count_le true

theorem renumbered_lt (h : Marked marks b) (hlt : b < b') : renumbered marks b < renumbered marks b' := by
  have hle : renumbered marks (b + 1) ≤ renumbered marks b' := renumbered_mono (Nat.succ_le_of_lt hlt)
  rw [renumbered_succ h] at hle
  exact Nat.lt_of_succ_le hle

theorem renumbered_lt_count (h : Marked marks b) : renumbered marks b < marks.count true := by
  have hlt := renumbered_lt h h.lt_length
  rwa [renumbered.eq_1 marks marks.length, List.take_length] at hlt

theorem renumbered_inj (h : Marked marks b) (h' : Marked marks b') (heq : renumbered marks b = renumbered marks b') : b = b' := by
  rcases Nat.lt_trichotomy b b' with hlt | hsame | hgt
  · exact absurd heq (Nat.ne_of_lt (renumbered_lt h hlt))
  · exact hsame
  · exact absurd heq.symm (Nat.ne_of_lt (renumbered_lt h' hgt))

/-- The new positions of the marked blocks are counted without gaps. -/
theorem map_renumbered (marks : List Bool) :
    ((List.range marks.length).filter (marks.getD · false)).map (renumbered marks) = List.range (marks.count true) := by
  induction marks using List.reverseRecOn with
  | nil => rfl
  | append_singleton marks k ih =>
    have hfilter : (List.range marks.length).filter ((marks ++ [k]).getD · false) =
        (List.range marks.length).filter (marks.getD · false) := by
      refine List.filter_congr fun b hb => ?_
      rw [List.getD_eq_getElem?_getD, List.getElem?_append_left (List.mem_range.1 hb), ← List.getD_eq_getElem?_getD]
    have hmap : ((List.range marks.length).filter (marks.getD · false)).map (renumbered (marks ++ [k])) =
        ((List.range marks.length).filter (marks.getD · false)).map (renumbered marks) := by
      refine List.map_congr_left fun b hb => ?_
      have hlt := List.mem_range.1 (List.mem_filter.1 hb).1
      rw [renumbered, renumbered, List.take_append_of_le_length (Nat.le_of_lt hlt)]
    have hlast : (marks ++ [k]).getD marks.length false = k := by simp
    rw [List.length_append, List.length_singleton, List.range_succ, List.filter_append, hfilter, List.map_append, hmap, ih,
      List.filter_singleton, hlast, List.count_append]
    cases k with
    | false => simp
    | true =>
      have hnew : renumbered (marks ++ [true]) marks.length = marks.count true := by simp [renumbered]
      simp [hnew, List.range_succ]

end

section

variable {α : Type} {ks : List Bool} {xs : List α}

theorem length_keepFlagged (h : ks.length = xs.length) : (keepFlagged ks xs).length = ks.count true := by
  induction ks generalizing xs with
  | nil =>
    rw [List.length_eq_zero_iff.1 h.symm]
    rfl
  | cons k ks ih =>
    cases xs with
    | nil => cases h
    | cons x xs => cases k <;> simp [keepFlagged, ih (Nat.succ.inj h)]

theorem getElem?_keepFlagged (h : ks.length = xs.length) {b : Nat} (hb : ks[b]? = some true) :
    (keepFlagged ks xs)[renumbered ks b]? = xs[b]? := by
  induction ks generalizing xs b with
  | nil => cases hb
  | cons k ks ih =>
    cases xs with
    | nil => cases h
    | cons x xs =>
      cases b with
      | zero =>
        obtain rfl : k = true := by simpa using hb
        rfl
      | succ b =>
        have hrest := ih (Nat.succ.inj h) (b := b) (by simpa using hb)
        cases k with
        | false => simpa [keepFlagged, renumbered] using hrest
        | true => simpa [keepFlagged, renumbered] using hrest

/-- Everything that is kept was there, under a flag that is set. -/
theorem exists_of_getElem?_keepFlagged (h : ks.length = xs.length) {i : Nat} {x : α} (hi : (keepFlagged ks xs)[i]? = some x) :
    ∃ b : Nat, Marked ks b ∧ xs[b]? = some x ∧ i = renumbered ks b := by
  have hlt : i < ks.count true := by
    rw [← length_keepFlagged h]
    exact (List.getElem?_eq_some_iff.1 hi).1
  have hmem : i ∈ ((List.range ks.length).filter (ks.getD · false)).map (renumbered ks) := by
    rw [map_renumbered]
    exact List.mem_range.2 hlt
  obtain ⟨b, hb, rfl⟩ := List.mem_map.1 hmem
  have hmarked := getD_eq_true_iff.1 (List.mem_filter.1 hb).2
  exact ⟨b, hmarked, getElem?_keepFlagged h hmarked ▸ hi, rfl⟩

end

/-! ### Dropping unreachable blocks -/

section

variable {c : Body} {marks : List Bool}

/-- The body that is left when the unmarked blocks go. -/
def trimmed (c : Body) (marks : List Bool) : Body := { c with blocks := keepFlagged marks (c.blocks.mapIdx (c.trimBlock marks)) }

namespace Closed

theorem lengths (h : c.Closed marks) : marks.length = (c.blocks.mapIdx (c.trimBlock marks)).length := by
  rw [h.length, List.length_mapIdx]

theorem length_trimmed (h : c.Closed marks) : (c.trimmed marks).blocks.length = marks.count true :=
  length_keepFlagged h.lengths

/-- The blocks that are left. -/
theorem exists_trimBlock (h : c.Closed marks) {i : BlockId} {block' : Block} (hi : (c.trimmed marks).blocks[i]? = some block') :
    ∃ b block, Marked marks b ∧ c.blocks[b]? = some block ∧ i = renumbered marks b ∧ block' = c.trimBlock marks b block := by
  obtain ⟨b, hmarked, hb, rfl⟩ := exists_of_getElem?_keepFlagged h.lengths hi
  rw [List.getElem?_mapIdx, Option.map_eq_some_iff] at hb
  obtain ⟨block, hblock, rfl⟩ := hb
  exact ⟨b, block, hmarked, hblock, rfl, rfl⟩

theorem getElem?_trimmed (h : c.Closed marks) {b : BlockId} {block : Block} (hmarked : Marked marks b)
    (hb : c.blocks[b]? = some block) : (c.trimmed marks).blocks[renumbered marks b]? = some (c.trimBlock marks b block) := by
  have hget := getElem?_keepFlagged h.lengths hmarked
  rw [List.getElem?_mapIdx, hb] at hget
  exact hget

/-- A block that is left goes to the new positions of where it went. -/
theorem targets_trimBlock (h : c.Closed marks) {b : BlockId} {block : Block} (hmarked : Marked marks b)
    (hb : c.blocks[b]? = some block) :
    (c.trimBlock marks b block).targets (renumbered marks b) = (block.targets b).map (renumbered marks) := by
  have hsuccessors : (block.terminator.mapTargets (renumbered marks)).successors (renumbered marks b) =
      (block.terminator.successors b).map (renumbered marks) := by
    have htargets : ∀ t ∈ block.terminator.successors b, Marked marks t :=
      fun t ht => h.targets b block hb hmarked t (List.mem_append_left _ ht)
    cases hterm : block.terminator with
    | branch kind type lhs rhs target =>
      rw [hterm] at htargets
      simp only [Terminator.mapTargets, Terminator.successors] at htargets ⊢
      rw [← renumbered_succ hmarked]
      by_cases hnext : target = b + 1
      · simp [hnext]
      · rw [if_neg hnext] at htargets
        have hne : renumbered marks target ≠ renumbered marks (b + 1) := fun heq =>
          hnext (renumbered_inj (htargets target (by simp)) (htargets (b + 1) (by simp)) heq)
        rw [if_neg hne, if_neg hnext]
        rfl
    | _ => rfl
  rw [Block.targets, Block.targets, List.map_append, ← hsuccessors, trimBlock, List.map_map, List.map_map]
  rfl

theorem mem_successors_trimmed (h : c.Closed marks) {b p : BlockId} (hb : Marked marks b) (hp : Marked marks p) :
    renumbered marks b ∈ (c.trimmed marks).successors (renumbered marks p) ↔ b ∈ c.successors p := by
  have hlt : p < c.blocks.length := h.length ▸ hp.lt_length
  have hblock := List.getElem?_eq_getElem hlt
  rw [mem_successors (h.getElem?_trimmed hp hblock), mem_successors hblock, h.targets_trimBlock hp hblock, List.mem_map]
  constructor
  · rintro ⟨t, ht, heq⟩
    rwa [← renumbered_inj (h.targets p _ hblock hp t ht) hb heq]
  · intro hmem
    exact ⟨b, hmem, rfl⟩

/-- The predecessors of a block that is left are those of its predecessors that are left. -/
theorem predecessorsOf_trimmed (h : c.Closed marks) {b : BlockId} (hb : Marked marks b) :
    (c.trimmed marks).predecessorsOf (renumbered marks b) =
      ((c.predecessorsOf b).filter (marks.getD · false)).map (renumbered marks) := by
  rw [predecessorsOf, h.length_trimmed, ← map_renumbered, List.filter_map, predecessorsOf, ← h.length, List.filter_filter,
    List.filter_filter]
  refine congrArg _ (List.filter_congr fun p hp => ?_)
  cases hflag : marks.getD p false with
  | false => simp
  | true => simp [h.mem_successors_trimmed hb (getD_eq_true_iff.1 hflag)]

end Closed

/-- **Blocks that the entry does not reach** may go. -/
theorem Shaped.trimmed (h : c.Shaped) (hclosed : c.Closed marks) : (c.trimmed marks).Shaped := by
  refine ⟨fun hnil => ?_, fun i block' hi t ht => ?_, ?_, fun i block' hi phi' hphi => ?_⟩
  · have hlt := renumbered_lt_count hclosed.entry
    rw [← hclosed.length_trimmed, hnil] at hlt
    cases hlt
  · obtain ⟨b, block, hmarked, hb, rfl, rfl⟩ := hclosed.exists_trimBlock hi
    rw [hclosed.targets_trimBlock hmarked hb] at ht
    obtain ⟨s, hs, rfl⟩ := List.mem_map.1 ht
    rw [hclosed.length_trimmed]
    exact renumbered_lt_count (hclosed.targets b block hb hmarked s hs)
  · have hzero : renumbered marks 0 = 0 := by simp [renumbered]
    rw [← hzero, hclosed.predecessorsOf_trimmed hclosed.entry, h.entry]
    rfl
  · obtain ⟨b, block, hmarked, hb, rfl, rfl⟩ := hclosed.exists_trimBlock hi
    obtain ⟨phi, hmem, rfl⟩ := List.mem_map.1 hphi
    have hlength : ((c.predecessorsOf b).map fun p => marks.getD p false).length = phi.operands.length := by
      rw [List.length_map, h.arity b block hb phi hmem]
    rw [hclosed.predecessorsOf_trimmed hmarked, List.length_map, length_keepFlagged hlength, List.count, List.countP_map,
      ← List.countP_eq_length_filter]
    refine List.countP_congr fun p _ => ?_
    simp

theorem Shaped.removeUnreachable (h : c.Shaped) {isSmaller : Bool} {c' : Body} (heq : c.removeUnreachable = .ok (isSmaller, c')) :
    c'.Shaped := by
  obtain ⟨marks, hmarks, heq⟩ := bind_eq_ok.1 heq
  split at heq
  · cases heq
    exact h
  · cases heq
    exact h.trimmed (closed_of_reachable hmarks)

theorem mem_of_mem_keepFlagged {α : Type} {ks : List Bool} {xs : List α} {x : α} (h : x ∈ keepFlagged ks xs) : x ∈ xs := by
  induction ks generalizing xs with
  | nil => cases xs <;> exact h
  | cons k ks ih =>
    cases xs with
    | nil => cases h
    | cons y ys =>
      rw [keepFlagged] at h
      split at h
      · rcases List.mem_cons.1 h with rfl | h
        · exact List.mem_cons_self
        · exact List.mem_cons_of_mem _ (ih h)
      · exact List.mem_cons_of_mem _ (ih h)

/-- Blocks that stay keep their instructions. -/
theorem exists_of_removeUnreachable {isSmaller : Bool} {c' : Body} (heq : c.removeUnreachable = .ok (isSmaller, c')) :
    c'.arguments = c.arguments ∧ ∀ b' ∈ c'.blocks, ∃ b ∈ c.blocks, b'.body = b.body ∧
      b'.handlers.map Handler.guard = b.handlers.map Handler.guard := by
  obtain ⟨marks, -, heq⟩ := bind_eq_ok.1 heq
  split at heq
  · cases heq
    exact ⟨rfl, fun b hb => ⟨b, hb, rfl, rfl⟩⟩
  · cases heq
    refine ⟨rfl, fun b' hb' => ?_⟩
    obtain ⟨i, hi, rfl⟩ := List.mem_mapIdx.1 (mem_of_mem_keepFlagged hb')
    exact ⟨c.blocks[i], List.getElem_mem hi, rfl, by simp [trimBlock, Function.comp_def]⟩

theorem values_removeUnreachable {isSmaller : Bool} {c' : Body} (heq : c.removeUnreachable = .ok (isSmaller, c')) : c'.values = c.values := by
  obtain ⟨marks, -, heq⟩ := bind_eq_ok.1 heq
  split at heq <;> (cases heq; rfl)

end

/-! ### Dropping equal guards -/

theorem mem_of_mem_distinctGuards {hs : List Handler} {h : Handler} (hmem : h ∈ distinctGuards hs) : h ∈ hs := by
  refine List.foldlRecOn (motive := fun kept : List Handler => ∀ h ∈ kept, h ∈ hs) hs _ (by simp) ?_ h hmem
  intro kept hkept h hh h' hmem
  split at hmem
  · exact hkept h' hmem
  · rcases List.mem_append.1 hmem with hmem | hmem
    · exact hkept h' hmem
    · rwa [List.mem_singleton.1 hmem]

theorem targets_dropEqualGuards (b : Block) (here t : BlockId) (h : t ∈ (dropEqualGuards b).targets here) : t ∈ b.targets here := by
  rcases List.mem_append.1 h with h | h
  · exact List.mem_append_left _ h
  · obtain ⟨x, hx, rfl⟩ := List.mem_map.1 h
    exact List.mem_append_right _ (List.mem_map_of_mem (mem_of_mem_distinctGuards hx))

theorem length_selectOperands {before after : List BlockId} {p p' : Phi} (hsubset : ∀ b ∈ after, b ∈ before)
    (h : selectOperands before after p = .ok p') : p'.operands.length = after.length := by
  obtain ⟨operands, hoperands, h⟩ := bind_eq_ok.1 h
  cases h
  have hlength : ∀ xs : List BlockId, (∀ b ∈ xs, b ∈ before) → (xs.filterMap fun b => before.idxOf? b).length = xs.length := by
    intro xs hxs
    induction xs with
    | nil => rfl
    | cons x xs ih =>
      obtain ⟨hx, hxs⟩ := List.forall_mem_cons.1 hxs
      obtain ⟨i, hi⟩ := Option.isSome_iff_exists.1 (List.isSome_idxOf?.2 hx)
      rw [List.filterMap_cons, hi, List.length_cons, ih hxs, List.length_cons]
  rw [← hlength after hsubset, (mapM_eq_ok_iff.1 hoperands).length_eq]

/-- The block that takes the place of block `i` when equal guards are dropped. -/
def pruneBlock (c : Body) (i : BlockId) (b : Block) : Guarded Block := do
  let before := c.predecessorsOf i
  let after := ({ c with blocks := c.blocks.map dropEqualGuards } : Body).predecessorsOf i
  if before = after then return b
  else return { b with phis := ← b.phis.mapM (selectOperands before after) }

/-- The body without handlers that repeat a guard, whose phis are as they were. -/
abbrev dropGuards (c : Body) : Body := { c with blocks := c.blocks.map dropEqualGuards }

/-- What the blocks of the body become when handlers that repeat a guard go. -/
def Pruned (c : Body) (blocks : List Block) : Prop :=
  List.Forall₂ (fun (x : BlockId × Block) b' => c.pruneBlock x.1 x.2 = .ok b')
    ((c.blocks.map dropEqualGuards).mapIdx fun i b => (i, b)) blocks

theorem pruneGuards_cases {c c' : Body} (h : c.pruneGuards = .ok c') : c' = c ∨ ∃ blocks isSmaller,
    c.Pruned blocks ∧ ({ c with blocks := blocks } : Body).removeUnreachable = .ok (isSmaller, c') := by
  unfold pruneGuards at h
  split at h
  · cases h
    exact .inl rfl
  · obtain ⟨blocks, hblocks, h⟩ := bind_eq_ok.1 h
    obtain ⟨⟨isSmaller, reduced⟩, hreduced, h⟩ := bind_eq_ok.1 h
    cases h
    exact .inr ⟨blocks, isSmaller, mapM_eq_ok_iff.1 hblocks, hreduced⟩

theorem pruneBlock_eq_ok {c : Body} {i : BlockId} {b b' : Block} (h : c.pruneBlock i b = .ok b') :
    ∃ phis, b' = { b with phis := phis } ∧ ((∀ p ∈ b.phis, p.operands.length = (c.predecessorsOf i).length) →
      (∀ p ∈ c.dropGuards.predecessorsOf i, p ∈ c.predecessorsOf i) →
      ∀ p ∈ phis, p.operands.length = (c.dropGuards.predecessorsOf i).length) := by
  simp only [pruneBlock] at h
  split at h
  · next heq =>
    cases h
    exact ⟨b.phis, rfl, fun hphis _ p hp => heq ▸ hphis p hp⟩
  · obtain ⟨phis, hphis, h⟩ := bind_eq_ok.1 h
    cases h
    refine ⟨phis, rfl, fun _ hsubset p hp => ?_⟩
    obtain ⟨q, -, hq⟩ := exists_of_mem_left (mapM_eq_ok_iff.1 hphis).flip hp
    exact length_selectOperands hsubset hq

/-- Where the blocks come from whose handlers have no equal guards. -/
theorem Pruned.exists_block {c : Body} {blocks : List Block} (h : c.Pruned blocks) {i : BlockId} {block' : Block} (hi : blocks[i]? = some block') :
    ∃ block, c.blocks[i]? = some block ∧ c.pruneBlock i (dropEqualGuards block) = .ok block' := by
  obtain ⟨x, hx, hprune⟩ := exists_of_getElem?_right h hi
  rw [List.getElem?_mapIdx, List.getElem?_map, Option.map_map] at hx
  obtain ⟨block, hblock, rfl⟩ := Option.map_eq_some_iff.1 hx
  exact ⟨block, hblock, hprune⟩

theorem Pruned.length_eq {c : Body} {blocks : List Block} (h : c.Pruned blocks) : blocks.length = c.blocks.length := by
  simpa using (List.Forall₂.length_eq h).symm

/-- The phis do not matter to where blocks go. -/
theorem Pruned.targets {c : Body} {blocks : List Block} (h : c.Pruned blocks) :
    List.Forall₂ (fun b b' => ∀ here, Block.targets here b' = Block.targets here b) c.dropGuards.blocks blocks := by
  refine List.forall₂_iff_get.2 ⟨by simp [h.length_eq], fun i hi hi' here => ?_⟩
  obtain ⟨block, hblock, hprune⟩ := h.exists_block (List.getElem?_eq_getElem hi')
  obtain ⟨phis, heq, -⟩ := pruneBlock_eq_ok hprune
  obtain ⟨hlt, rfl⟩ := List.getElem?_eq_some_iff.1 hblock
  simp only [List.get_eq_getElem]
  rw [heq]
  simp [Block.targets]

theorem Pruned.predecessorsOf {c : Body} {blocks : List Block} (h : c.Pruned blocks) (b : BlockId) :
    ({ c with blocks := blocks } : Body).predecessorsOf b = c.dropGuards.predecessorsOf b :=
  predecessorsOf_of_targets h.targets b

theorem mem_predecessorsOf_of_dropEqualGuards {c : Body} {b p : BlockId}
    (h : p ∈ c.dropGuards.predecessorsOf b) : p ∈ c.predecessorsOf b := by
  rw [mem_predecessorsOf] at h ⊢
  have hlt : p < c.blocks.length := by simpa using h.1
  have hget : c.dropGuards.blocks[p]? = some (dropEqualGuards c.blocks[p]) := by
    simp [hlt]
  refine ⟨hlt, ?_⟩
  rw [mem_successors (List.getElem?_eq_getElem hlt)]
  rw [mem_successors hget] at h
  exact targets_dropEqualGuards _ _ _ h.2

theorem Shaped.pruned {c : Body} (h : c.Shaped) {blocks : List Block} (hblocks : c.Pruned blocks) :
    ({ c with blocks := blocks } : Body).Shaped := by
  have hlength := hblocks.length_eq
  refine ⟨fun hnil => ?_, fun i block' hi t ht => ?_, ?_, fun i block' hi phi hphi => ?_⟩
  · refine h.nonempty (List.length_eq_zero_iff.1 ?_)
    rw [← hlength]
    exact congrArg List.length hnil
  · obtain ⟨block, hblock, hprune⟩ := hblocks.exists_block hi
    obtain ⟨phis, rfl, -⟩ := pruneBlock_eq_ok hprune
    rw [hlength]
    exact h.targets i block hblock t (targets_dropEqualGuards block i t ht)
  · rw [hblocks.predecessorsOf, List.eq_nil_iff_forall_not_mem]
    intro p hp
    have hmem := mem_predecessorsOf_of_dropEqualGuards hp
    rw [h.entry] at hmem
    cases hmem
  · obtain ⟨block, hblock, hprune⟩ := hblocks.exists_block hi
    obtain ⟨phis, rfl, harity⟩ := pruneBlock_eq_ok hprune
    rw [hblocks.predecessorsOf]
    exact harity (h.arity i block hblock) (fun p hp => mem_predecessorsOf_of_dropEqualGuards hp) phi hphi

theorem Shaped.pruneGuards {c c' : Body} (h : c.Shaped) (heq : c.pruneGuards = .ok c') : c'.Shaped := by
  rcases pruneGuards_cases heq with rfl | ⟨blocks, isSmaller, hblocks, hreduced⟩
  · exact h
  · exact (h.pruned hblocks).removeUnreachable hreduced

/-- Blocks that stay keep their instructions, and have no guard that they did not have. -/
theorem exists_of_pruneGuards {c c' : Body} (heq : c.pruneGuards = .ok c') : c'.arguments = c.arguments ∧
    ∀ b' ∈ c'.blocks, ∃ b ∈ c.blocks, b'.body = b.body ∧ ∀ h ∈ b'.handlers, ∃ h' ∈ b.handlers, h.guard = h'.guard := by
  rcases pruneGuards_cases heq with rfl | ⟨blocks, isSmaller, hblocks, hreduced⟩
  · exact ⟨rfl, fun b hb => ⟨b, hb, rfl, fun h hh => ⟨h, hh, rfl⟩⟩⟩
  obtain ⟨harguments, hkept⟩ := exists_of_removeUnreachable hreduced
  refine ⟨harguments, fun b' hb' => ?_⟩
  obtain ⟨b, hb, hbody, hguards⟩ := hkept b' hb'
  obtain ⟨⟨i, d⟩, hd, hprune⟩ := exists_of_mem_left (List.Forall₂.flip hblocks) hb
  obtain ⟨phis, rfl, -⟩ := pruneBlock_eq_ok hprune
  obtain ⟨j, hj, heq⟩ := List.mem_mapIdx.1 hd
  have hmem : d ∈ c.blocks.map dropEqualGuards := by
    cases heq
    exact List.getElem_mem hj
  obtain ⟨block, hblock, rfl⟩ := List.mem_map.1 hmem
  refine ⟨block, hblock, hbody, fun h hh => ?_⟩
  obtain ⟨h', hh', hguard⟩ := List.mem_map.1 (hguards ▸ List.mem_map_of_mem hh : h.guard ∈ _)
  exact ⟨h', mem_of_mem_distinctGuards hh', hguard.symm⟩

theorem values_pruneGuards {c c' : Body} (heq : c.pruneGuards = .ok c') : c'.values = c.values := by
  rcases pruneGuards_cases heq with rfl | ⟨blocks, isSmaller, -, hreduced⟩
  · rfl
  · exact (values_removeUnreachable hreduced :)

end Body

end DexShrinker
