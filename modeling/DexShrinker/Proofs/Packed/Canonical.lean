/-
  DexShrinker/Proofs/Packed/Canonical.lean
  ========================================
  **Bodies that pack unpack.**

  A body that defines a value more than once is packed like any other: what reads the value
  reads its last definition. So packing cannot tell a body from its *canonical* form, in which
  every value is the number of its slot (`pack_canonical`). The canonical form defines nothing
  twice, whatever the body did, and the theory of packing applies to it. Hence a packed body
  unpacks as soon as the body had a well-formed control flow and gave results only to
  operations that have one (`unpack_of_pack`).
-/
import DexShrinker.Proofs.Body.Shape
import DexShrinker.Proofs.Packed.RoundTrip

namespace DexShrinker

/-- The instruction names a result only if its operation has one. -/
def Instr.IsSound (i : Instr) : Prop := i.dest.isSome = true → i.op.hasResult = true

theorem Op.exists_of_traverseReads {ε : Type} {f : ValueId → Except ε ValueId} {op op' : Op} (h : op.traverseReads f = .ok op') :
    ∀ v ∈ op.reads, ∃ w, f v = .ok w := by
  have hargs (args ws : List ValueId) (hws : args.mapM f = .ok ws) : ∀ v ∈ args, ∃ w, f v = .ok w := by
    intro v hv
    obtain ⟨w, -, hw⟩ := exists_of_mem_left (mapM_eq_ok_iff.1 hws) hv
    exact ⟨w, hw⟩
  cases op with
  | invoke kind m args itf =>
    obtain ⟨ws, hws, -⟩ := bind_eq_ok.1 h
    exact hargs args ws hws
  | invokeCustom site args =>
    obtain ⟨ws, hws, -⟩ := bind_eq_ok.1 h
    exact hargs args ws hws
  | _ => grind [traverseReads, reads, bind_eq_ok]

/-- A step that ends well has gone well with every item. -/
theorem exists_of_foldlM {ε α β : Type} {f : β → α → Except ε β} {xs : List α} {b b' : β} (h : xs.foldlM f b = .ok b') :
    ∀ x ∈ xs, ∃ b₁ b₂, f b₁ x = .ok b₂ := by
  induction xs generalizing b with
  | nil => simp
  | cons x xs ih =>
    rw [List.foldlM_cons] at h
    obtain ⟨b₁, hx, h⟩ := bind_eq_ok.1 h
    exact List.forall_mem_cons.2 ⟨⟨b, b₁, hx⟩, ih h⟩

theorem PackedInstr.encode_ne_nil {current : Nat} {i : PackedInstr} {bytes : List UInt8} (h : i.encode current = .ok bytes) :
    bytes ≠ [] := by
  obtain ⟨op, -, h⟩ := bind_eq_ok.1 h
  simp only at h
  split at h
  · cases h
    simp
  · obtain ⟨head, hhead, h⟩ := bind_eq_ok.1 h
    cases h
    unfold headBytes at hhead
    split at hhead
    · cases hhead
      simp
    · cases hhead

theorem Streamed.ne_nil {argumentCount : Nat} {insns : List PackedInstr} {bytes : List UInt8}
    (h : Streamed argumentCount insns bytes) (hne : insns ≠ []) : bytes ≠ [] := by
  cases h with
  | nil => exact absurd rfl hne
  | snoc _ hencode => exact List.append_ne_nil_of_right_ne_nil _ (PackedInstr.encode_ne_nil hencode)

namespace Body

variable {c : Body} {b : BlockId} {block : Block}

/-! ### What packing looks up -/

/-- The value index that packing writes for a value: the slot of its last definition. -/
def place (c : Body) (v : ValueId) : Nat := (valueIndex c.slots v).toOption.getD 0

theorem slots_of_valueIndex {slots : List (Option ValueId)} {v i : Nat} (h : valueIndex slots v = .ok i) :
    slots[i]? = some (some v) := by
  unfold valueIndex at h
  split at h
  · next j s hfind =>
    cases h
    rw [List.findRev?_eq_find?_reverse] at hfind
    have hmem := List.mem_reverse.1 (List.mem_of_find?_eq_some hfind)
    have heq := List.find?_some hfind
    obtain ⟨n, hn, hpair⟩ := List.mem_mapIdx.1 hmem
    cases hpair
    simpa [List.getElem?_eq_getElem hn] using heq
  · cases h

/-- The index of the value is found. -/
def IsPlaced (c : Body) (v : ValueId) : Prop := valueIndex c.slots v = .ok (c.place v)

theorem isPlaced_of_eq_ok {v i : Nat} (h : valueIndex c.slots v = .ok i) : c.IsPlaced v := by
  rw [IsPlaced, place, h]
  rfl

theorem isPlaced_of_packTerminator {p q : Packer} {t : Terminator}
    (h : c.packTerminator (valueIndex c.slots) p b t = .ok q) : ∀ v ∈ t.reads, c.IsPlaced v := by
  cases t with
  | goto target => simp [Terminator.reads]
  | branch kind type lhs rhs target =>
    obtain ⟨r, hr, h⟩ := bind_eq_ok.1 h
    obtain ⟨start, -, h⟩ := bind_eq_ok.1 h
    obtain ⟨l, hl, -⟩ := bind_eq_ok.1 h
    refine List.forall_mem_cons.2 ⟨isPlaced_of_eq_ok hl, fun v hv => ?_⟩
    rw [Option.mem_toList] at hv
    subst hv
    obtain ⟨i, hi, -⟩ := bind_eq_ok.1 hr
    exact isPlaced_of_eq_ok hi
  | ret value =>
    intro v hv
    obtain rfl : value = some v := Option.mem_toList.1 hv
    obtain ⟨r, hr, -⟩ := bind_eq_ok.1 h
    obtain ⟨i, hi, -⟩ := bind_eq_ok.1 hr
    exact isPlaced_of_eq_ok hi
  | throw value =>
    obtain ⟨i, hi, -⟩ := bind_eq_ok.1 h
    simpa [Terminator.reads] using isPlaced_of_eq_ok hi

theorem isPlaced_of_packBlock {p q : Packer} (h : c.packBlock (valueIndex c.slots) p b block = .ok q) :
    ∀ v ∈ block.reads, c.IsPlaced v := by
  obtain ⟨start, -, h⟩ := bind_eq_ok.1 h
  obtain ⟨handlers, -, h⟩ := bind_eq_ok.1 h
  obtain ⟨p₁, hphis, h⟩ := bind_eq_ok.1 h
  obtain ⟨p₂, hbody, h⟩ := bind_eq_ok.1 h
  intro v hv
  simp only [Block.reads, List.mem_append, List.mem_flatMap] at hv
  rcases hv with (⟨phi, hphi, hv⟩ | ⟨i, hi, hv⟩) | hv
  · obtain ⟨_, _, hstep⟩ := exists_of_foldlM hphis phi hphi
    obtain ⟨operands, hoperands, -⟩ := bind_eq_ok.1 hstep
    obtain ⟨w, -, hw⟩ := exists_of_mem_left (mapM_eq_ok_iff.1 hoperands) hv
    exact isPlaced_of_eq_ok hw
  · obtain ⟨_, _, hstep⟩ := exists_of_foldlM hbody i hi
    obtain ⟨op, hop, -⟩ := bind_eq_ok.1 hstep
    obtain ⟨w, hw⟩ := Op.exists_of_traverseReads hop v hv
    exact isPlaced_of_eq_ok hw
  · exact isPlaced_of_packTerminator h v hv

/-- **What a body that packs reads has an index**, and what it defines is among its values. -/
theorem isPlaced_of_pack {p : PackedBody} (h : c.pack = .ok p) :
    (∀ v ∈ c.reads, c.IsPlaced v) ∧ ∀ v ∈ c.defs, v < c.values.length := by
  unfold pack at h
  cases hrange : (c.arguments ++ c.blocks.flatMap Block.defs).find? (c.values.length ≤ ·) with
  | some v =>
    rw [hrange] at h
    cases h
  | none =>
    rw [hrange] at h
    obtain ⟨packer, hpacker, -⟩ := bind_eq_ok.1 h
    refine ⟨fun v hv => ?_, fun v hv => ?_⟩
    · obtain ⟨block, hblock, hv⟩ := List.mem_flatMap.1 hv
      obtain ⟨i, hi, rfl⟩ := List.getElem_of_mem hblock
      obtain ⟨_, _, hstep⟩ := exists_of_foldlM hpacker (i, c.blocks[i]) (List.mem_mapIdx.2 ⟨i, hi, rfl⟩)
      exact isPlaced_of_packBlock hstep v hv
    · rw [List.find?_eq_none] at hrange
      simpa using hrange v hv

/-! ### The canonical form -/

/-- Block `b` with its values named by their slots. -/
def canonicalBlock (c : Body) (b : BlockId) (block : Block) : Block :=
  { block with
    phis := block.phis.mapIdx fun j phi => ⟨c.arguments.length + (c.start b + j), phi.operands.map c.place⟩
    body := block.body.mapIdx fun j i =>
      ⟨if i.op.hasResult then some (c.arguments.length + (c.start b + (block.phis.length + j))) else none,
        i.op.mapReads c.place, i.line⟩
    terminator := block.terminator.mapReads c.place }

/-- The type of what stands in a slot. -/
def slotType (c : Body) (slot : Option ValueId) : Descriptor := ((slot.bind (c.values[·]?)).map Value.type).getD .void

/-- The body with its values named by their slots. -/
def canonical (c : Body) : Body where
  method := c.method
  isStatic := c.isStatic
  arguments := List.range c.arguments.length
  values := c.slots.map fun slot => ⟨c.slotType slot, .instruction⟩
  blocks := c.blocks.mapIdx c.canonicalBlock

theorem blocksSize_eq_sum (blocks : List Block) : blocksSize blocks = (blocks.map blockSize).sum := by
  induction blocks with
  | nil => rfl
  | cons b bs ih => rw [blocksSize, ih, List.map_cons, List.sum_cons]

theorem blockSize_canonicalBlock (c : Body) (b : BlockId) (block : Block) : blockSize (c.canonicalBlock b block) = blockSize block := by
  simp [blockSize, canonicalBlock]

theorem start_canonical (c : Body) (b : BlockId) : c.canonical.start b = c.start b := by
  rw [start, start, blocksSize_eq_sum, blocksSize_eq_sum]
  congr 1
  refine List.ext_getElem? fun i => ?_
  simp only [List.getElem?_map, List.getElem?_take, canonical, List.getElem?_mapIdx]
  split
  · cases c.blocks[i]? <;> simp [blockSize_canonicalBlock]
  · rfl

theorem blocksSize_canonical (c : Body) : blocksSize c.canonical.blocks = blocksSize c.blocks := by
  rw [← start_length, ← start_length, start_canonical]
  simp [canonical]

theorem length_slots_canonical (c : Body) : c.canonical.slots.length = c.slots.length := by
  rw [length_slots, length_slots, blocksSize_canonical]
  simp [canonical]

theorem getElem?_canonical (hb : c.blocks[b]? = some block) : c.canonical.blocks[b]? = some (c.canonicalBlock b block) := by
  simp [canonical, hb]

/-- A slot of the canonical form is empty or holds its own number, and it is not empty if the
    slot of the body is not. -/
theorem slots_canonical (hsound : c.Each Instr.IsSound) {i : Nat} (hi : i < c.slots.length) :
    (c.canonical.slots[i]? = some none ∧ c.slots[i]? = some none) ∨ c.canonical.slots[i]? = some (some i) := by
  rcases Nat.lt_or_ge i c.arguments.length with hargument | hinstruction
  · right
    have hlt : i < (c.canonical.arguments.map some).length := by simpa [canonical] using hargument
    rw [slots, List.getElem?_append_left hlt]
    simp [canonical, hargument]
  · rw [length_slots] at hi
    obtain ⟨b, block, j, hb, hj, heq⟩ := exists_position (c := c) (k := i - c.arguments.length) (by omega)
    obtain rfl : i = c.arguments.length + (c.start b + j) := by omega
    have hcanonical := getElem?_slots (getElem?_canonical hb) (j := j) (by rwa [blockSize_canonicalBlock])
    rw [start_canonical] at hcanonical
    have hlength : c.canonical.arguments.length = c.arguments.length := by simp [canonical]
    rw [hlength] at hcanonical
    rw [hcanonical, getElem?_slots hb hj]
    rcases Unpacker.offset_cases hj with ⟨phi, hphi⟩ | ⟨n, instr, rfl, hinstr⟩ | rfl
    · right
      have hlt := (List.getElem?_eq_some_iff.1 hphi).1
      rw [slotsOf, List.append_assoc, List.getElem?_append_left (by simpa [canonicalBlock] using hlt)]
      simp [canonicalBlock, hphi]
    · have hlt := (List.getElem?_eq_some_iff.1 hinstr).1
      have hslot (bl : Block) (hbl : bl.phis.length = block.phis.length) (hbody : bl.body.length = block.body.length) :
          (slotsOf bl)[block.phis.length + n]? = (bl.body[n]?).map Instr.dest := by
        rw [slotsOf, List.append_assoc, List.getElem?_append_right (by simp [hbl]), List.length_map, hbl, Nat.add_sub_cancel_left,
          List.getElem?_append_left (by simpa [hbody] using hlt), List.getElem?_map]
      rw [hslot _ (by simp [canonicalBlock]) (by simp [canonicalBlock]), hslot block rfl rfl, hinstr]
      simp only [canonicalBlock, List.getElem?_mapIdx, hinstr, Option.map_some]
      cases hresult : instr.op.hasResult with
      | true => simp
      | false =>
        have hdest : instr.dest = none := by
          have hnot := hsound block (List.mem_of_getElem? hb) instr (List.mem_of_getElem? hinstr)
          rw [Instr.IsSound, hresult] at hnot
          simpa using hnot
        simp [hdest]
    · left
      have hslot (bl : Block) (hbl : bl.phis.length = block.phis.length) (hbody : bl.body.length = block.body.length) :
          (slotsOf bl)[block.phis.length + block.body.length]? = some none := by
        rw [slotsOf, List.getElem?_append_right (by simp [hbl, hbody])]
        simp [hbl, hbody]
      exact ⟨hslot _ (by simp [canonicalBlock]) (by simp [canonicalBlock]), hslot block rfl rfl⟩

theorem eq_of_slots_canonical (hsound : c.Each Instr.IsSound) {i v : Nat} (h : c.canonical.slots[i]? = some (some v)) : v = i := by
  have hlt := (List.getElem?_eq_some_iff.1 h).1
  rw [length_slots_canonical] at hlt
  rcases slots_canonical hsound hlt with ⟨hnone, -⟩ | hself
  · cases hnone.symm.trans h
  · exact Option.some.inj (Option.some.inj (h.symm.trans hself))

theorem nodup_defs_canonical (hsound : c.Each Instr.IsSound) : c.canonical.defs.Nodup := by
  rw [← filterMap_slots, List.Nodup, List.pairwise_filterMap, List.pairwise_iff_getElem]
  intro i j hi hj hij v hv w hw heq
  have hv' := eq_of_slots_canonical hsound (i := i) (v := v) (by rw [List.getElem?_eq_getElem hi]; exact congrArg some hv)
  have hw' := eq_of_slots_canonical hsound (i := j) (v := w) (by rw [List.getElem?_eq_getElem hj]; exact congrArg some hw)
  exact absurd (hv'.symm.trans (heq.trans hw')) (Nat.ne_of_lt hij)

/-- What is read of the canonical form is the number of a slot that holds it. -/
theorem slots_place (hsound : c.Each Instr.IsSound) {v : ValueId} (hv : c.IsPlaced v) :
    c.canonical.slots[c.place v]? = some (some (c.place v)) := by
  have hslot := slots_of_valueIndex hv
  rcases slots_canonical hsound (List.getElem?_eq_some_iff.1 hslot).1 with ⟨-, hnone⟩ | hself
  · cases hnone.symm.trans hslot
  · exact hself

theorem valueIndex_canonical (hsound : c.Each Instr.IsSound) {v : ValueId} (hv : c.IsPlaced v) :
    valueIndex c.canonical.slots (c.place v) = .ok (c.place v) := by
  have hslot := slots_place hsound hv
  have hnodup := nodup_defs_canonical hsound
  rw [valueIndex_eq_ok hnodup (mem_slots_iff.1 (List.mem_of_getElem? hslot)), indexOf_eq hnodup hslot]

theorem follows_canonicalBlock (c : Body) (b : BlockId) (block : Block) : block.Follows (c.canonicalBlock b block) := by
  refine ⟨fun here => ?_, fun p hp => ?_⟩
  · cases h : block.terminator <;> simp [Block.targets, canonicalBlock, h, Terminator.mapReads, Terminator.successors]
  · obtain ⟨j, hj, rfl⟩ := List.mem_mapIdx.1 hp
    exact ⟨block.phis[j], List.getElem_mem hj, by simp⟩

theorem flatMap_mapIdx {α β γ : Type} {f : Nat → α → β} {g : β → List γ} {g' : α → List γ} (h : ∀ j x, g (f j x) = g' x)
    (xs : List α) : (xs.mapIdx f).flatMap g = xs.flatMap g' := by
  induction xs generalizing f with
  | nil => rfl
  | cons x xs ih => rw [List.mapIdx_cons, List.flatMap_cons, List.flatMap_cons, h, ih fun j y => h (j + 1) y]

theorem reads_canonicalBlock (c : Body) (b : BlockId) (block : Block) :
    (c.canonicalBlock b block).reads = block.reads.map c.place := by
  rw [Block.reads, Block.reads, List.map_append, List.map_append, List.map_flatMap, List.map_flatMap]
  congr 1
  · congr 1
    · refine flatMap_mapIdx ?_ block.phis
      intro j phi
      rfl
    · exact flatMap_mapIdx (fun _ i => Op.reads_mapReads c.place i.op) block.body
  · exact Terminator.reads_mapReads c.place block.terminator

theorem reads_canonical (c : Body) : c.canonical.reads = c.reads.map c.place := by
  rw [reads, reads, List.map_flatMap]
  exact flatMap_mapIdx (reads_canonicalBlock c) c.blocks

/-- The canonical form of a shaped body whose readings have indices is well formed. -/
theorem wellFormed_canonical (h : c.Shaped) (hsound : c.Each Instr.IsSound) (hplaced : ∀ v ∈ c.reads, c.IsPlaced v) :
    c.canonical.WellFormed := by
  have hshaped : c.canonical.Shaped := h.follows (by
    rw [canonical, List.forall₂_iff_get]
    refine ⟨by simp, fun i hi hi' => ?_⟩
    simpa using follows_canonicalBlock c i c.blocks[i])
  have hvalues : c.canonical.values.length = c.slots.length := by simp [canonical]
  have hdefs (v : ValueId) (hv : v ∈ c.canonical.defs) : v < c.canonical.values.length := by
    obtain ⟨i, hi⟩ := List.mem_iff_getElem?.1 (mem_slots_iff.2 hv)
    rw [hvalues, ← length_slots_canonical, eq_of_slots_canonical hsound hi]
    exact (List.getElem?_eq_some_iff.1 hi).1
  have hreads (v : ValueId) (hv : v ∈ c.canonical.reads) : v ∈ c.canonical.defs := by
    rw [reads_canonical] at hv
    obtain ⟨w, hw, rfl⟩ := List.mem_map.1 hv
    exact mem_slots_iff.1 (List.mem_of_getElem? (slots_place hsound (hplaced w hw)))
  refine ⟨hshaped.targets, hshaped.entry, hshaped.arity, hdefs, fun v hv => hdefs v (hreads v hv), hreads, fun v _ x hx => ?_⟩
  obtain ⟨slot, -, rfl⟩ := List.mem_map.1 (List.mem_of_getElem? hx)
  simp

theorem singleAssignment_canonical (hsound : c.Each Instr.IsSound) : c.canonical.SingleAssignment := by
  refine ⟨nodup_defs_canonical hsound, fun block' hblock' i hi => ?_⟩
  obtain ⟨b, hb, rfl⟩ := List.mem_mapIdx.1 hblock'
  obtain ⟨j, hj, rfl⟩ := List.mem_mapIdx.1 hi
  cases hresult : c.blocks[b].body[j].op.hasResult <;> simp [hresult]

/-! ### Packing does not see the difference -/

theorem packTerminator_canonical (hsound : c.Each Instr.IsSound) {t : Terminator} (hplaced : ∀ v ∈ t.reads, c.IsPlaced v)
    (p : Packer) : c.canonical.packTerminator (valueIndex c.canonical.slots) p b (t.mapReads c.place) =
      c.packTerminator (valueIndex c.slots) p b t := by
  have hstart (s : BlockId) : c.canonical.blockStart s = c.blockStart s := by
    have hsize : blocksSize (c.canonical.blocks.take s) = blocksSize (c.blocks.take s) := start_canonical c s
    rw [blockStart, blockStart, hsize]
    simp [canonical]
  have hindex (v : ValueId) (hv : v ∈ t.reads) : valueIndex c.canonical.slots (c.place v) = valueIndex c.slots v :=
    (valueIndex_canonical hsound (hplaced v hv)).trans (hplaced v hv).symm
  have hoption (value : Option ValueId) (hvalue : ∀ v ∈ value, v ∈ t.reads) :
      (value.map c.place).mapM (valueIndex c.canonical.slots) = value.mapM (valueIndex c.slots) := by
    cases value with
    | none => rfl
    | some v =>
      rw [Option.map_some, Option.mapM_some, Option.mapM_some, hindex v (hvalue v rfl)]
  cases t with
  | goto target => simp only [Terminator.mapReads, packTerminator, hstart]
  | branch kind type lhs rhs target =>
    simp only [Terminator.mapReads, packTerminator, hstart, hindex lhs (by simp [Terminator.reads]),
      hoption rhs fun v hv => by simp [Terminator.reads, Option.mem_def.1 hv]]
  | ret value => simp only [Terminator.mapReads, packTerminator, hoption value fun v hv => by simp [Terminator.reads, Option.mem_def.1 hv]]
  | throw value => simp only [Terminator.mapReads, packTerminator, hindex value (by simp [Terminator.reads])]

theorem foldlM_congr {ε α α' β : Type} {f : β → α → Except ε β} {f' : β → α' → Except ε β} {xs : List α} {xs' : List α'}
    (h : List.Forall₂ (fun x x' => ∀ b, f' b x' = f b x) xs xs') (b : β) : xs'.foldlM f' b = xs.foldlM f b := by
  induction h generalizing b with
  | nil => rfl
  | cons hx _ ih =>
    rw [List.foldlM_cons, List.foldlM_cons, hx]
    exact congrArg _ (funext ih)

theorem forall₂_mapIdx {α β : Type} {R : α → β → Prop} {f : Nat → α → β} {xs : List α}
    (h : ∀ (j : Nat) (x : α), xs[j]? = some x → R x (f j x)) : List.Forall₂ R xs (xs.mapIdx f) := by
  refine List.forall₂_iff_get.2 ⟨by simp, fun j hj hj' => ?_⟩
  simpa using h j xs[j] (List.getElem?_eq_getElem hj)

theorem packBlock_canonical (hsound : c.Each Instr.IsSound) (hplaced : ∀ v ∈ c.reads, c.IsPlaced v)
    (hdefs : ∀ v ∈ c.defs, v < c.values.length) (hb : c.blocks[b]? = some block) (p : Packer) :
    c.canonical.packBlock (valueIndex c.canonical.slots) p b (c.canonicalBlock b block) =
      c.packBlock (valueIndex c.slots) p b block := by
  have hmem := List.mem_of_getElem? hb
  have hread (v : ValueId) (hv : v ∈ block.reads) : c.IsPlaced v := hplaced v (mem_reads_of_block hmem hv)
  have hstart (s : BlockId) : c.canonical.blockStart s = c.blockStart s := by
    have hsize : blocksSize (c.canonical.blocks.take s) = blocksSize (c.blocks.take s) := start_canonical c s
    rw [blockStart, blockStart, hsize]
    simp [canonical]
  have hphis : List.Forall₂ (fun (phi phi' : Phi) => ∀ p : Packer,
      (do
        let operands ← phi'.operands.mapM (valueIndex c.canonical.slots)
        let v ← entryOr c.canonical.values phi'.dest (.valueOutOfRange phi'.dest)
        return p.addPhi v.type operands : Outcome PackedError Packer) =
      (do
        let operands ← phi.operands.mapM (valueIndex c.slots)
        let v ← entryOr c.values phi.dest (.valueOutOfRange phi.dest)
        return p.addPhi v.type operands))
      block.phis (c.canonicalBlock b block).phis := by
    refine forall₂_mapIdx fun j phi hphi p => ?_
    have hphi' : phi ∈ block.phis := List.mem_of_getElem? hphi
    have hoperand (v : ValueId) (hv : v ∈ phi.operands) : c.IsPlaced v := hread v (by
      simp only [Block.reads, List.mem_append, List.mem_flatMap]
      exact .inl (.inl ⟨phi, hphi', hv⟩))
    have hslot : c.slots[c.arguments.length + (c.start b + j)]? = some (some phi.dest) := by
      have hlt := (List.getElem?_eq_some_iff.1 hphi).1
      rw [getElem?_slots hb (by rw [blockSize]; omega), slotsOf, List.append_assoc, List.getElem?_append_left (by simpa using hlt),
        List.getElem?_map, hphi]
      rfl
    have hdest : phi.dest < c.values.length := hdefs phi.dest (mem_slots_iff.1 (List.mem_of_getElem? hslot))
    have hvalue : c.canonical.values[c.arguments.length + (c.start b + j)]? = some ⟨c.values[phi.dest].type, .instruction⟩ := by
      simp [canonical, hslot, slotType, List.getElem?_eq_getElem hdest]
    simp only [entryOr, hvalue, List.getElem?_eq_getElem hdest]
    have hcanonical : (phi.operands.map c.place).mapM (valueIndex c.canonical.slots) = .ok (phi.operands.map c.place) := by
      rw [List.mapM_map]
      exact mapM_eq_ok phi.operands fun v hv => valueIndex_canonical hsound (hoperand v hv)
    rw [mapM_eq_ok phi.operands hoperand, hcanonical]
    rfl
  have hbody : List.Forall₂ (fun (i i' : Instr) => ∀ p : Packer,
      (do return (p.setLine i'.line).addOp (← i'.op.traverseReads (valueIndex c.canonical.slots)) : Outcome PackedError Packer) =
      (do return (p.setLine i.line).addOp (← i.op.traverseReads (valueIndex c.slots))))
      block.body (c.canonicalBlock b block).body := by
    refine forall₂_mapIdx fun j i hi p => ?_
    have hop (v : ValueId) (hv : v ∈ i.op.reads) : c.IsPlaced v := hread v (by
      simp only [Block.reads, List.mem_append, List.mem_flatMap]
      exact .inl (.inr ⟨i, List.mem_of_getElem? hi, hv⟩))
    have hcanonical : (i.op.mapReads c.place).traverseReads (valueIndex c.canonical.slots) =
        .ok ((i.op.mapReads c.place).mapReads id) := by
      refine Op.traverseReads_eq_ok fun v hv => ?_
      rw [Op.reads_mapReads] at hv
      obtain ⟨w, hw, rfl⟩ := List.mem_map.1 hv
      exact valueIndex_canonical hsound (hop w hw)
    have hid : (i.op.mapReads c.place).mapReads id = i.op.mapReads c.place := by
      cases i.op <;> simp [Op.mapReads]
    simp only [hcanonical, hid, Op.traverseReads_eq_ok hop]
  have hterminator (q : Packer) := packTerminator_canonical (b := b) hsound (t := block.terminator)
    (fun v hv => hread v (by simp [Block.reads, hv])) q
  simp only [packBlock, hstart, foldlM_congr hphis, foldlM_congr hbody]
  refine congrArg _ (funext fun _ => congrArg _ (funext fun _ => congrArg _ (funext fun _ => congrArg _ (funext fun q => ?_))))
  exact hterminator _

/-- **Packing a body is packing its canonical form.** -/
theorem pack_canonical (hshaped : c.Shaped) (hsound : c.Each Instr.IsSound) (hplaced : ∀ v ∈ c.reads, c.IsPlaced v)
    (hdefs : ∀ v ∈ c.defs, v < c.values.length) : c.canonical.pack = c.pack := by
  have hrange (d : Body) (hd : ∀ v ∈ d.defs, v < d.values.length) :
      (d.arguments ++ d.blocks.flatMap Block.defs).find? (d.values.length ≤ ·) = none := by
    rw [List.find?_eq_none]
    intro v hv
    simpa using hd v hv
  have hlength : c.canonical.arguments.length = c.arguments.length := by simp [canonical]
  unfold pack
  rw [hrange c hdefs, hrange c.canonical (wellFormed_canonical hshaped hsound hplaced).defsInRange, hlength]
  simp only
  rw [@foldlM_congr _ _ _ _ (fun p x => c.packBlock (valueIndex c.slots) p x.1 x.2) _ (c.blocks.mapIdx fun b block => (b, block))]
  refine List.forall₂_iff_get.2 ⟨by simp [canonical], fun b hb hb' p => ?_⟩
  have hlt : b < c.blocks.length := by simpa using hb
  simpa [canonical] using packBlock_canonical hsound hplaced hdefs (List.getElem?_eq_getElem hlt) p

/-- **What was packed unpacks**, against any signature with as many arguments, if its value indices fit
    into thirty-two bits. -/
theorem unpack_of_pack (hshaped : c.Shaped) (hsound : c.Each Instr.IsSound) {p : PackedBody} (h : c.pack = .ok p) :
    p.argumentCount = c.arguments.length ∧ p.bytes ≠ [] ∧
      (p.argumentCount + p.instructionCount ≤ UInt32.size → ∀ (method : MethodRef) (isStatic : Bool) (types : List Descriptor),
        types.length = p.argumentCount → ∃ d, p.unpack method isStatic types = .ok d) := by
  obtain ⟨hplaced, hdefs⟩ := isPlaced_of_pack h
  -- The method that a body was built for does not matter to packing.
  have hanyone (method : MethodRef) (isStatic : Bool) :
      let d : Body := { c with method := method, isStatic := isStatic }
      d.canonical.WellFormed ∧ d.canonical.SingleAssignment ∧ d.canonical.PackedAs p := by
    intro d
    have hd : d.Shaped := ⟨hshaped.nonempty, hshaped.targets, hshaped.entry, hshaped.arity⟩
    have hwellFormed : d.canonical.WellFormed := wellFormed_canonical hd hsound hplaced
    have hsingle : d.canonical.SingleAssignment := singleAssignment_canonical hsound
    exact ⟨hwellFormed, hsingle, packedAs_of_pack hwellFormed hsingle ((pack_canonical hd hsound hplaced hdefs).trans h)⟩
  have hblocks : c.canonical.blocks ≠ [] := fun hnil => hshaped.nonempty (by simpa [canonical] using hnil)
  obtain ⟨-, -, hpacked⟩ := hanyone c.method c.isStatic
  refine ⟨hpacked.argumentCount.trans (by simp [canonical]), ?_, fun hsize method isStatic types htypes => ?_⟩
  · obtain ⟨insns, hinsns, hstream⟩ := hpacked.stream
    refine hstream.ne_nil fun hnil => ?_
    have hzero : c.canonical.entries.length = 0 := by
      rw [hinsns.length_eq, hnil]
      rfl
    have hpos := start_lt (c := c.canonical) (List.length_pos_iff.2 hblocks) (Nat.le_refl _)
    rw [start_length, ← length_entries, hzero] at hpos
    cases hpos
  · obtain ⟨hwellFormed, hsingle, hpacked⟩ := hanyone method isStatic
    obtain ⟨d', f, hunpack, -⟩ := hpacked.unpack hwellFormed hsingle hblocks
      (by rwa [length_slots, ← hpacked.argumentCount, ← hpacked.instructionCount]) (htypes.trans hpacked.argumentCount)
    exact ⟨d', hunpack⟩

end Body

end DexShrinker
