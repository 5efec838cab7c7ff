/-
  DexShrinker/Proofs/Packed/Layout.lean
  =====================================
  **Where the parts of a body stand in the packed stream.**

  Every instruction of the stream belongs to one block and has an offset in it
  (`exists_position`), what is listed block by block is found under start plus offset
  (`getElem?_flatten_start`), and in a body that defines no value twice each value has
  one index (`valueIndex_eq_ok`).
-/
import DexShrinker.Packed.Pack
import DexShrinker.Proofs.Body.Verify

namespace DexShrinker.Body

/-! ### Starts of blocks -/

/-- The instruction index at which block `b` starts. -/
def start (c : Body) (b : Nat) : Nat := blocksSize (c.blocks.take b)

variable {c : Body} {block : Block} {b b' j k : Nat}

theorem blocksSize_append (xs ys : List Block) : blocksSize (xs ++ ys) = blocksSize xs + blocksSize ys := by
  induction xs with
  | nil => simp [blocksSize]
  | cons x xs ih => simp [blocksSize, ih, Nat.add_assoc]

@[simp] theorem start_zero : c.start 0 = 0 := by
  simp [start, blocksSize]

theorem start_length : c.start c.blocks.length = blocksSize c.blocks := by
  simp [start]

theorem start_succ (hb : c.blocks[b]? = some block) : c.start (b + 1) = c.start b + blockSize block := by
  rw [start, List.take_add_one, hb, blocksSize_append]
  simp [blocksSize, start]

theorem blockSize_pos (block : Block) : 0 < blockSize block := by
  simp [blockSize]

theorem start_lt (hlt : b < b') (hb' : b' ≤ c.blocks.length) : c.start b < c.start b' := by
  induction b' with
  | zero => omega
  | succ n ih =>
    have hn : c.blocks[n]? = some c.blocks[n] := List.getElem?_eq_getElem (by omega)
    rw [start_succ hn]
    have hpos := blockSize_pos c.blocks[n]
    rcases Nat.lt_or_ge b n with h | h
    · have hbn := ih h (by omega)
      omega
    · obtain rfl : b = n := by omega
      omega

theorem start_le (hle : b ≤ b') (hb' : b' ≤ c.blocks.length) : c.start b ≤ c.start b' := by
  rcases Nat.lt_or_ge b b' with hlt | hge
  · exact Nat.le_of_lt (start_lt hlt hb')
  · obtain rfl : b = b' := by omega
    exact Nat.le_refl _

theorem start_inj (hb : b < c.blocks.length) (hb' : b' < c.blocks.length) (h : c.start b = c.start b') : b = b' := by
  rcases Nat.lt_trichotomy b b' with hlt | heq | hgt
  · have hstart := start_lt hlt (Nat.le_of_lt hb')
    omega
  · exact heq
  · have hstart := start_lt hgt (Nat.le_of_lt hb)
    omega

/-- No block starts inside another one. -/
theorem start_ne_inside (hb : c.blocks[b]? = some block) (hj : 0 < j) (hlt : j < blockSize block)
    (hb' : b' < c.blocks.length) : c.start b' ≠ c.start b + j := by
  have hblen : b < c.blocks.length := (List.getElem?_eq_some_iff.1 hb).1
  have hsucc := start_succ hb
  rcases Nat.lt_trichotomy b' b with h | rfl | h
  · have hstart := start_lt h (Nat.le_of_lt hblen)
    omega
  · omega
  · have hstart := start_le (b := b + 1) h (Nat.le_of_lt hb')
    omega

/-- An instruction stands in one block only. -/
theorem position_unique {block' : Block} {j' : Nat} (hb : c.blocks[b]? = some block) (hj : j < blockSize block)
    (hb' : c.blocks[b']? = some block') (hj' : j' < blockSize block') (h : c.start b + j = c.start b' + j') : b = b' := by
  have hblen : b < c.blocks.length := (List.getElem?_eq_some_iff.1 hb).1
  have hblen' : b' < c.blocks.length := (List.getElem?_eq_some_iff.1 hb').1
  have hsucc := start_succ hb
  have hsucc' := start_succ hb'
  rcases Nat.lt_trichotomy b b' with hlt | heq | hgt
  · have hstart := start_le (b := b + 1) hlt (Nat.le_of_lt hblen')
    omega
  · exact heq
  · have hstart := start_le (b := b' + 1) hgt (Nat.le_of_lt hblen)
    omega

/-- **Every instruction stands in a block.** -/
theorem exists_position (hk : k < blocksSize c.blocks) :
    ∃ b block j, c.blocks[b]? = some block ∧ j < blockSize block ∧ k = c.start b + j := by
  have hupto (n : Nat) (hn : n ≤ c.blocks.length) (hkn : k < c.start n) :
      ∃ b block j, c.blocks[b]? = some block ∧ j < blockSize block ∧ k = c.start b + j := by
    induction n with
    | zero => simp at hkn
    | succ n ih =>
      have hget : c.blocks[n]? = some c.blocks[n] := List.getElem?_eq_getElem (by omega)
      rw [start_succ hget] at hkn
      rcases Nat.lt_or_ge k (c.start n) with hlt | hge
      · exact ih (by omega) hlt
      · exact ⟨n, c.blocks[n], k - c.start n, hget, by omega, by omega⟩
  exact hupto c.blocks.length (Nat.le_refl _) (by rwa [start_length])

theorem start_add_lt (hb : c.blocks[b]? = some block) (hj : j < blockSize block) :
    c.start b + j < blocksSize c.blocks := by
  have hblen : b < c.blocks.length := (List.getElem?_eq_some_iff.1 hb).1
  have hsucc := start_succ hb
  have hstart := start_le (c := c) (b := b + 1) hblen (Nat.le_refl _)
  rw [← start_length]
  omega

theorem length_flatten_mapIdx {α : Type} {g : BlockId → Block → List α} {blocks : List Block}
    (hlen : ∀ b block, (g b block).length = blockSize block) : (blocks.mapIdx g).flatten.length = blocksSize blocks := by
  induction blocks generalizing g with
  | nil => rfl
  | cons x xs ih => simp [blocksSize, hlen, ih fun i => hlen (i + 1)]

/-- What is listed block by block, one entry for each instruction, is found under the
    start of the block and the offset in it. -/
theorem getElem?_flatten_start {α : Type} {g : BlockId → Block → List α} (hlen : ∀ b block, (g b block).length = blockSize block)
    (hb : c.blocks[b]? = some block) (hj : j < blockSize block) :
    (c.blocks.mapIdx g).flatten[c.start b + j]? = (g b block)[j]? := by
  obtain ⟨tail, hsplit⟩ : ∃ tail, c.blocks.mapIdx g = (c.blocks.take b).mapIdx g ++ g b block :: tail := by
    obtain ⟨hblen, rfl⟩ := List.getElem?_eq_some_iff.1 hb
    conv in c.blocks.mapIdx g => rw [← List.take_append_drop b c.blocks, List.drop_eq_getElem_cons hblen]
    rw [List.mapIdx_append, List.mapIdx_cons, List.length_take, Nat.min_eq_left (Nat.le_of_lt hblen), Nat.zero_add]
    exact ⟨_, rfl⟩
  rw [hsplit, List.flatten_append, start, ← length_flatten_mapIdx hlen, List.getElem?_append_right (by omega), List.flatten_cons,
    List.getElem?_append_left (by rw [hlen]; omega)]
  congr 1
  omega

theorem blockStart_eq_ok (hb : b < c.blocks.length) : c.blockStart b = .ok (c.start b) := by
  rw [blockStart, if_pos hb]
  rfl

/-! ### Indices of values -/

theorem length_slotsOf (block : Block) : (slotsOf block).length = blockSize block := by
  simp [slotsOf, blockSize, Nat.add_assoc]

theorem slots_eq (c : Body) : c.slots = c.arguments.map some ++ (c.blocks.mapIdx fun _ => slotsOf).flatten := by
  have hmap : (c.blocks.mapIdx fun _ => slotsOf) = c.blocks.map slotsOf := List.ext_getElem? fun i => by simp
  rw [slots, hmap, List.flatMap]

theorem length_slots (c : Body) : c.slots.length = c.arguments.length + blocksSize c.blocks := by
  rw [slots_eq, List.length_append, List.length_map, length_flatten_mapIdx fun _ => length_slotsOf]

/-- The slot of an instruction is the value it defines. -/
theorem getElem?_slots (hb : c.blocks[b]? = some block) (hj : j < blockSize block) :
    c.slots[c.arguments.length + (c.start b + j)]? = (slotsOf block)[j]? := by
  rw [slots_eq, List.getElem?_append_right (by simp), List.length_map, Nat.add_sub_cancel_left]
  exact getElem?_flatten_start (fun _ => length_slotsOf) hb hj

/-- The values that have a slot are those that are defined, in the same order. -/
theorem filterMap_slots (c : Body) : c.slots.filterMap id = c.defs := by
  have hblock (block : Block) : (slotsOf block).filterMap id = block.defs := by
    simp [slotsOf, Block.defs, List.filterMap_map]
  rw [slots, defs, List.filterMap_append, List.filterMap_flatMap, List.filterMap_map, funext hblock]
  exact congrArg (· ++ c.blocks.flatMap Block.defs) (List.filterMap_some)

theorem mem_slots_iff {v : ValueId} : some v ∈ c.slots ↔ v ∈ c.defs := by
  rw [← filterMap_slots]
  simp

/-- The value index of a value. -/
def indexOf (c : Body) (v : ValueId) : Nat := c.slots.idxOf (some v)

theorem getElem?_indexOf {v : ValueId} (hv : v ∈ c.defs) : c.slots[c.indexOf v]? = some (some v) :=
  List.getElem?_idxOf (mem_slots_iff.2 hv)

theorem indexOf_lt {v : ValueId} (hv : v ∈ c.defs) : c.indexOf v < c.slots.length :=
  List.idxOf_lt_length_of_mem (mem_slots_iff.2 hv)

/-- In single-assignment form a value has one slot. -/
theorem slot_unique (hnodup : c.defs.Nodup) {v : ValueId} {i i' : Nat} (hi : c.slots[i]? = some (some v))
    (hi' : c.slots[i']? = some (some v)) : i = i' := by
  rw [← filterMap_slots, List.Nodup, List.pairwise_filterMap, List.pairwise_iff_getElem] at hnodup
  obtain ⟨hlt, hget⟩ := List.getElem?_eq_some_iff.1 hi
  obtain ⟨hlt', hget'⟩ := List.getElem?_eq_some_iff.1 hi'
  rcases Nat.lt_trichotomy i i' with h | h | h
  · exact absurd rfl (hnodup i i' hlt hlt' h v hget v hget')
  · exact h
  · exact absurd rfl (hnodup i' i hlt' hlt h v hget' v hget)

theorem indexOf_eq (hnodup : c.defs.Nodup) {v : ValueId} {i : Nat} (hi : c.slots[i]? = some (some v)) :
    c.indexOf v = i :=
  slot_unique hnodup (getElem?_indexOf (mem_slots_iff.1 (List.mem_of_getElem? hi))) hi

/-- **The index that packing gives a value is the place of its definition.** -/
theorem valueIndex_eq_ok (hnodup : c.defs.Nodup) {v : ValueId} (hv : v ∈ c.defs) :
    valueIndex c.slots v = .ok (c.indexOf v) := by
  unfold valueIndex
  split
  · next i s hfind =>
    rw [List.findRev?_eq_find?_reverse] at hfind
    have hmem := List.mem_reverse.1 (List.mem_of_find?_eq_some hfind)
    have heq := List.find?_some hfind
    obtain ⟨n, hn, hpair⟩ := List.mem_mapIdx.1 hmem
    cases hpair
    rw [indexOf_eq hnodup (i := i) (by simpa [List.getElem?_eq_getElem hn] using heq)]
  · next hfind =>
    rw [List.findRev?_eq_find?_reverse, List.find?_eq_none] at hfind
    obtain ⟨hlt, hget⟩ := List.getElem?_eq_some_iff.1 (getElem?_indexOf hv)
    have hno := hfind (c.indexOf v, some v) (by
      rw [List.mem_reverse, List.mem_mapIdx]
      exact ⟨c.indexOf v, hlt, by rw [hget]⟩)
    simp at hno

end DexShrinker.Body
