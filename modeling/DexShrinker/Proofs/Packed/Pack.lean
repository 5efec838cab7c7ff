/-
  DexShrinker/Proofs/Packed/Pack.lean
  ===================================
  **Packing a well-formed body in single-assignment form.**

  Packing numbers values by the place of their definition, and unpacking names them in
  the order of first mention. `Body.RenamedBy` says what survives both: the same
  blocks with the same phis, operations, lines, targets and handlers, under one
  renaming of the values that the body defines. A renamed body has the shape of the
  first one (`Body.forall₂_mirrors_renamed`), so it is well formed if that one is.

  A body in single-assignment form reads only values with an index and jumps only to blocks
  with a start, so packing it comes down to writing a list of entries (`pack_eq`). It never
  stops with a fault, and the errors it can raise are the two limits of the format
  (`pack_error_isLimit`). `PackedAs` says what the packed body is: the written stream of
  the entries, their lines, and the handlers under the starts of their blocks.
-/
import DexShrinker.Proofs.Body.Verify
import DexShrinker.Proofs.Outcome
import DexShrinker.Proofs.Packed.Instr
import DexShrinker.Proofs.Packed.Layout
import DexShrinker.Proofs.Packed.Packer
import Mathlib.Data.Set.Function

namespace DexShrinker

/-! ### Operations -/

namespace Op

/-- The operation produces a value: stores and positions do not, nor do calls of
    methods that return nothing. -/
def hasResult : Op → Bool
  | arrayPut .. | staticPut .. | instancePut .. | debugPosition => false
  | invoke _ m _ _ => !m.proto.returnType.isVoid
  | invokeCustom site _ => !site.proto.returnType.isVoid
  | _ => true

/-- The operation with the flag of a virtual or interface call settled by its kind. -/
def settled : Op → Op
  | invoke kind m args itf => invoke kind m args (Opcode.settledFlag kind itf)
  | op => op

/-- The operation with other values to read, given in operand order. -/
def refill : Op → List ValueId → Op
  | newArray t _, [size] => newArray t size
  | arrayGet t _ _, [array, index] => arrayGet t array index
  | arrayPut _ _ _, [array, index, value] => arrayPut array index value
  | arrayLength _, [array] => arrayLength array
  | staticPut f _, [value] => staticPut f value
  | instanceGet f _, [object] => instanceGet f object
  | instancePut f _ _, [object, value] => instancePut f object value
  | invoke kind m _ itf, args => invoke kind m args itf
  | invokeCustom site _, args => invokeCustom site args
  | checkCast t _, [value] => checkCast t value
  | instanceOf t _, [value] => instanceOf t value
  | binary op t _ _, [lhs, rhs] => binary op t lhs rhs
  | op, _ => op

@[simp] theorem reads_mapReads (f : ValueId → ValueId) (op : Op) : (op.mapReads f).reads = op.reads.map f := by
  cases op <;> rfl

@[simp] theorem reads_settled (op : Op) : op.settled.reads = op.reads := by
  cases op <;> rfl

@[simp] theorem hasResult_mapReads (f : ValueId → ValueId) (op : Op) : (op.mapReads f).hasResult = op.hasResult := by
  cases op <;> rfl

/-- Sending the readings through a function that never fails on them. -/
theorem traverseReads_eq_ok {ε : Type} {f : ValueId → Except ε ValueId} {g : ValueId → ValueId} {op : Op}
    (h : ∀ v ∈ op.reads, f v = .ok (g v)) : op.traverseReads f = .ok (op.mapReads g) := by
  cases op with
  | invoke kind m args itf =>
    rw [traverseReads, mapM_eq_ok args h]
    rfl
  | invokeCustom site args =>
    rw [traverseReads, mapM_eq_ok args h]
    rfl
  | _ =>
    simp only [reads, List.mem_cons, List.not_mem_nil, or_false, forall_eq_or_imp, forall_eq] at h
    simp [traverseReads, mapReads, h, bind, Except.bind, pure, Except.pure]

end Op

/-! ### Renaming -/

/-- The phi under new names. -/
def Phi.renamed (f : ValueId → ValueId) (phi : Phi) : Phi := ⟨f phi.dest, phi.operands.map f⟩

/-- The instruction under new names, its flag settled. -/
def Instr.renamed (f : ValueId → ValueId) (i : Instr) : Instr := ⟨i.dest.map f, (i.op.mapReads f).settled, i.line⟩

/-- The block under new names. -/
def Block.renamed (f : ValueId → ValueId) (b : Block) : Block :=
  { b with
    phis := b.phis.map (Phi.renamed f)
    body := b.body.map (Instr.renamed f)
    terminator := b.terminator.mapReads f }

/-- `c'` is `c` with every value that `c` defines renamed by `f`, no two to the same
    name, and with the flags of its calls settled. -/
structure Body.RenamedBy (f : ValueId → ValueId) (c c' : Body) : Prop where
  method : c'.method = c.method
  isStatic : c'.isStatic = c.isStatic
  arguments : c'.arguments = c.arguments.map f
  blocks : c'.blocks = c.blocks.map (Block.renamed f)
  bijective : Set.BijOn f {v | v ∈ c.defs} {v | v ∈ c'.defs}

@[simp] theorem Terminator.reads_mapReads (f : ValueId → ValueId) (t : Terminator) :
    (t.mapReads f).reads = t.reads.map f := by
  cases t with
  | branch kind type lhs rhs target => cases rhs <;> rfl
  | ret value => cases value <;> rfl
  | _ => rfl

/-- A block under new names goes where it went. -/
theorem Block.mirrors_renamed (f : ValueId → ValueId) (b : Block) : Body.Mirrors f b (b.renamed f) := by
  refine ⟨?_, ?_, fun here => ?_, ?_⟩
  · simp [reads, renamed, Phi.renamed, Instr.renamed, List.flatMap_map, List.map_flatMap]
  · simp [defs, renamed, Phi.renamed, Instr.renamed, List.filterMap_map, List.map_filterMap, Function.comp_def]
  · cases h : b.terminator <;> simp [targets, renamed, h, Terminator.mapReads, Terminator.successors]
  · simp [renamed, Phi.renamed, Function.comp_def]

/-- A body under new names has the shape that it had. -/
theorem Body.forall₂_mirrors_renamed (f : ValueId → ValueId) (blocks : List Block) :
    List.Forall₂ (Body.Mirrors f) blocks (blocks.map (Block.renamed f)) := by
  rw [List.forall₂_map_right_iff, List.forall₂_same]
  intro b _
  exact b.mirrors_renamed f

namespace Body

open Std

/-- No value is defined twice, and an instruction has a destination exactly when its
    operation produces a value. -/
structure SingleAssignment (c : Body) : Prop where
  nodup : c.defs.Nodup
  results : ∀ block ∈ c.blocks, ∀ i ∈ block.body, i.dest.isSome = i.op.hasResult

/-! ### The entries of a body -/

section Entries

variable (c : Body)

/-- The type under which a phi is written. -/
def phiType (phi : Phi) : Descriptor := (c.values[phi.dest]?.map Value.type).getD .void

def phiEntry (phi : Phi) : Entry :=
  ⟨none, some (.type (c.phiType phi)), (.phi · (phi.operands.map c.indexOf))⟩

def instrEntry (i : Instr) : Entry := (i.op.mapReads c.indexOf).entry i.line

/-- The instruction that ends block `b`. -/
def exitCode (b : BlockId) : Terminator → PackedInstr
  | .goto target => if target = b + 1 then .fallthrough else .goto (c.start target)
  | .branch kind type lhs rhs target => .branch kind type (c.start target) (c.indexOf lhs) (rhs.map c.indexOf)
  | .ret value => .ret (value.map c.indexOf)
  | .throw value => .throw (c.indexOf value)

def exitEntry (b : BlockId) (block : Block) : Entry :=
  ⟨some block.terminatorLine, none, fun _ => c.exitCode b block.terminator⟩

/-- The entries of block `b`. -/
def blockEntries (b : BlockId) (block : Block) : List Entry :=
  block.phis.map c.phiEntry ++ block.body.map c.instrEntry ++ [c.exitEntry b block]

/-- The entries of all blocks. -/
def entries : List Entry := (c.blocks.mapIdx c.blockEntries).flatten

/-- The handlers of a block, their targets as starts. -/
def packedHandlers (block : Block) : List Handler :=
  block.handlers.map fun h => { h with target := c.start h.target }

/-- The packer after one more block. -/
def writeBlock (p : Packer) (b : BlockId) (block : Block) : Packer :=
  (c.blockEntries b block).foldl Packer.write (p.addHandlers (c.start b) (c.packedHandlers block))

/-- The packer after all blocks. -/
def packer : Packer :=
  (c.blocks.mapIdx fun b block => (b, block)).foldl (fun p x => c.writeBlock p x.1 x.2)
    { argumentCount := c.arguments.length }

end Entries

theorem length_blockEntries (c : Body) (b : BlockId) (block : Block) :
    (c.blockEntries b block).length = blockSize block := by
  simp [blockEntries, blockSize, Nat.add_assoc]

theorem length_entries (c : Body) : c.entries.length = blocksSize c.blocks :=
  length_flatten_mapIdx c.length_blockEntries

/-! ### Packing is writing the entries -/

section

variable {c : Body} {b : Nat} {block : Block}

theorem mem_reads_of_block {v : ValueId} (hb : block ∈ c.blocks) (hv : v ∈ block.reads) : v ∈ c.reads :=
  List.mem_flatMap.2 ⟨block, hb, hv⟩

theorem packTerminator_eq_ok (hc : c.WellFormed) (hs : c.SingleAssignment) (hb : c.blocks[b]? = some block) (p : Packer) :
    c.packTerminator (valueIndex c.slots) p b block.terminator = .ok (p.push (c.exitCode b block.terminator)) := by
  have hindex (v : ValueId) (hv : v ∈ block.terminator.reads) : valueIndex c.slots v = .ok (c.indexOf v) := by
    have hread : v ∈ block.reads := by simp [Block.reads, hv]
    exact valueIndex_eq_ok hs.nodup (hc.defined v (mem_reads_of_block (List.mem_of_getElem? hb) hread))
  have htarget (t : BlockId) (ht : t ∈ block.terminator.successors b) : c.blockStart t = .ok (c.start t) :=
    blockStart_eq_ok (hc.targets b block hb t (by simp [Block.targets, ht]))
  cases hterm : block.terminator with
  | goto target =>
    simp only [packTerminator, exitCode]
    split
    · rfl
    · rw [htarget target (by simp [hterm, Terminator.successors])]
      rfl
  | branch kind type lhs rhs target =>
    have hrhs : rhs.mapM (valueIndex c.slots) = .ok (rhs.map c.indexOf) := by
      cases rhs with
      | none => rfl
      | some v =>
        rw [Option.mapM_some, hindex v (by simp [hterm, Terminator.reads])]
        rfl
    have hstart := htarget target (by
      rw [hterm, Terminator.successors]
      split <;> simp)
    rw [packTerminator, hrhs, hstart, hindex lhs (by simp [hterm, Terminator.reads])]
    rfl
  | ret value =>
    cases value with
    | none => rfl
    | some v =>
      rw [packTerminator, Option.mapM_some, hindex v (by simp [hterm, Terminator.reads])]
      rfl
  | throw value =>
    rw [packTerminator, hindex value (by simp [hterm, Terminator.reads])]
    rfl

theorem packBlock_eq_ok (hc : c.WellFormed) (hs : c.SingleAssignment) (hb : c.blocks[b]? = some block) (p : Packer) :
    c.packBlock (valueIndex c.slots) p b block = .ok (c.writeBlock p b block) := by
  have hmem := List.mem_of_getElem? hb
  have hindex (v : ValueId) (hv : v ∈ block.reads) : valueIndex c.slots v = .ok (c.indexOf v) :=
    valueIndex_eq_ok hs.nodup (hc.defined v (mem_reads_of_block hmem hv))
  have hhandlers : (block.handlers.mapM fun h => do
      return { h with target := (← c.blockStart h.target) } : Except (Failure PackedError) (List Handler)) =
      .ok (c.packedHandlers block) := by
    refine mapM_eq_ok block.handlers fun h hh => ?_
    rw [blockStart_eq_ok (hc.targets b block hb h.target (by simp [Block.targets]; exact .inr ⟨h, hh, rfl⟩))]
    rfl
  have hphis (q : Packer) : (block.phis.foldlM (fun p phi => do
      let operands ← phi.operands.mapM (valueIndex c.slots)
      let v ← entryOr c.values phi.dest (.valueOutOfRange phi.dest)
      return p.addPhi v.type operands) q : Except (Failure PackedError) Packer) =
      .ok ((block.phis.map c.phiEntry).foldl Packer.write q) := by
    rw [List.foldl_map]
    refine foldlM_eq_ok block.phis (fun phi hphi q => ?_) q
    have hdest : phi.dest < c.values.length := hc.defsInRange phi.dest (by
      simp only [defs, List.mem_append, List.mem_flatMap]
      exact .inr ⟨block, hmem, by simp only [Block.defs, List.mem_append]; exact .inl (List.mem_map_of_mem hphi)⟩)
    rw [mapM_eq_ok phi.operands fun v hv => hindex v (by
      simp only [Block.reads, List.mem_append, List.mem_flatMap]
      exact .inl (.inl ⟨phi, hphi, hv⟩))]
    simp only [phiEntry, phiType, entryOr, List.getElem?_eq_getElem hdest, Option.map_some, Option.getD_some]
    rfl
  have hbody (q : Packer) : (block.body.foldlM (fun p insn => do
      return (p.setLine insn.line).addOp (← insn.op.traverseReads (valueIndex c.slots))) q :
      Except (Failure PackedError) Packer) = .ok ((block.body.map c.instrEntry).foldl Packer.write q) := by
    rw [List.foldl_map]
    refine foldlM_eq_ok block.body (fun i hi q => ?_) q
    rw [Op.traverseReads_eq_ok fun v hv => hindex v (by
      simp only [Block.reads, List.mem_append, List.mem_flatMap]
      exact .inl (.inr ⟨i, hi, hv⟩))]
    exact congrArg Except.ok (Packer.addOp_eq_write q _ i.line)
  rw [packBlock, blockStart_eq_ok (List.getElem?_eq_some_iff.1 hb).1, hhandlers, ok_bind, ok_bind, hphis, ok_bind, hbody,
    ok_bind, packTerminator_eq_ok hc hs hb, writeBlock, blockEntries, List.foldl_append, List.foldl_append]
  rfl

/-- **Packing writes the entries of the body**, and fails only where the packer does. -/
theorem pack_eq (hc : c.WellFormed) (hs : c.SingleAssignment) : c.pack = Outcome.ofExcept id c.packer.finish := by
  have hrange : (c.arguments ++ c.blocks.flatMap Block.defs).find? (c.values.length ≤ ·) = none := by
    rw [List.find?_eq_none]
    intro v hv
    simpa using hc.defsInRange v hv
  have hblocks : (c.blocks.mapIdx fun b block => (b, block)).foldlM
      (fun p x => c.packBlock (valueIndex c.slots) p x.1 x.2) ({ argumentCount := c.arguments.length } : Packer) =
      .ok c.packer := by
    refine foldlM_eq_ok _ (fun x hx p => ?_) _
    obtain ⟨b, hlt, rfl⟩ := List.mem_mapIdx.1 hx
    exact packBlock_eq_ok hc hs (List.getElem?_eq_getElem hlt) p
  simp only [pack, hrange]
  exact congrArg (· >>= fun p : Packer => Outcome.ofExcept id p.finish) hblocks

/-! ### What the packed body is -/

/-- The handlers that a list of blocks leaves under their starts. -/
def HandlersOf (c : Body) (blocks : List (BlockId × Block)) (table : TreeMap Nat (List Handler)) : Prop :=
  ∀ k hs, table[k]? = some hs ↔
    ∃ x ∈ blocks, k = c.start x.1 ∧ hs = c.packedHandlers x.2 ∧ x.2.handlers ≠ []

theorem HandlersOf.addHandlers {blocks : List (BlockId × Block)} {p : Packer} {x : BlockId × Block}
    (h : c.HandlersOf blocks p.handlers) (hfresh : ∀ y ∈ blocks, c.start y.1 ≠ c.start x.1) :
    c.HandlersOf (blocks ++ [x]) (p.addHandlers (c.start x.1) (c.packedHandlers x.2)).handlers := by
  intro k hs
  simp only [List.mem_append, List.mem_singleton, or_and_right, exists_or, exists_eq_left]
  rw [← h k hs]
  unfold Packer.addHandlers
  split
  · next hempty =>
    have hnone : x.2.handlers = [] := by simpa [packedHandlers] using hempty
    simp [hnone]
  · next hsome =>
    have hne : x.2.handlers ≠ [] := by simpa [packedHandlers] using hsome
    simp only [TreeMap.getElem?_insert]
    split
    · next heq =>
      have hk : c.start x.1 = k := by simpa using heq
      subst hk
      have hold : p.handlers[c.start x.1]? ≠ some hs := by
        intro hget
        obtain ⟨y, hy, hstart, -⟩ := (h _ hs).1 hget
        exact hfresh y hy hstart.symm
      simp [hold, hne, eq_comm]
    · next hneq =>
      have hk : k ≠ c.start x.1 := by
        rintro rfl
        simp at hneq
      simp [hk]

/-- The packer has written a list of blocks. -/
structure HoldsBlocks (c : Body) (blocks : List (BlockId × Block)) (p : Packer) : Prop where
  holds : p.Holds (blocks.flatMap fun x => c.blockEntries x.1 x.2)
  argumentCount : p.argumentCount = c.arguments.length
  pool : p.constants.length ≤ p.instructionCount
  handlers : c.HandlersOf blocks p.handlers

theorem HoldsBlocks.writeBlock {blocks : List (BlockId × Block)} {p : Packer} {x : BlockId × Block}
    (h : c.HoldsBlocks blocks p) (hfresh : ∀ y ∈ blocks, c.start y.1 ≠ c.start x.1) :
    c.HoldsBlocks (blocks ++ [x]) (c.writeBlock p x.1 x.2) := by
  have hkeep : (p.addHandlers (c.start x.1) (c.packedHandlers x.2)).argumentCount = p.argumentCount ∧
      (p.addHandlers (c.start x.1) (c.packedHandlers x.2)).constants = p.constants := by
    unfold Packer.addHandlers
    split <;> exact ⟨rfl, rfl⟩
  have hholds : (c.writeBlock p x.1 x.2).Holds ((blocks ++ [x]).flatMap fun x => c.blockEntries x.1 x.2) := by
    rw [List.flatMap_append, List.flatMap_singleton]
    exact (h.holds.addHandlers _ _).writeAll _
  refine ⟨hholds, ?_, ?_, ?_⟩
  · rw [Body.writeBlock, Packer.writeAll_argumentCount, hkeep.1, h.argumentCount]
  · have hgrow : (c.writeBlock p x.1 x.2).constants.length ≤ p.constants.length + (c.blockEntries x.1 x.2).length := by
      rw [← hkeep.2]
      exact Packer.length_constants_writeAll _ _
    have hpool := h.pool
    rw [h.holds.count] at hpool
    rw [hholds.count, List.flatMap_append, List.flatMap_singleton, List.length_append]
    omega
  · rw [Body.writeBlock, Packer.writeAll_handlers]
    exact h.handlers.addHandlers hfresh

theorem holdsBlocks_foldl (blocks : List (BlockId × Block)) (hstarts : blocks.Pairwise fun x y => c.start x.1 ≠ c.start y.1) :
    c.HoldsBlocks blocks (blocks.foldl (fun p x => c.writeBlock p x.1 x.2) { argumentCount := c.arguments.length }) := by
  induction blocks using List.reverseRecOn with
  | nil => exact ⟨Packer.holds_start _, rfl, Nat.le_refl _, by simp [HandlersOf]⟩
  | append_singleton blocks x ih =>
    rw [List.pairwise_append] at hstarts
    rw [List.foldl_append]
    exact (ih hstarts.1).writeBlock fun y hy => hstarts.2.2 y hy x (by simp)

theorem holdsBlocks_packer (c : Body) : c.HoldsBlocks (c.blocks.mapIdx fun b block => (b, block)) c.packer := by
  refine holdsBlocks_foldl _ ?_
  rw [List.pairwise_iff_getElem]
  intro i j hi hj hij
  simp only [List.getElem_mapIdx]
  exact Nat.ne_of_lt (start_lt hij (by simpa using Nat.le_of_lt hj))

/-- `p` is `c` written entry by entry. -/
structure PackedAs (c : Body) (p : PackedBody) : Prop where
  argumentCount : p.argumentCount = c.arguments.length
  instructionCount : p.instructionCount = blocksSize c.blocks
  stream : ∃ insns, List.Forall₂ (Entry.Written p.constants) c.entries insns ∧ Streamed p.argumentCount insns p.bytes
  lines : ∀ k e line, c.entries[k]? = some e → e.line = some line → lineIn p.lines k = line
  pool : p.constants.length ≤ blocksSize c.blocks
  handlers : ∀ k hs, p.handlers[k]? = some hs ↔
    ∃ b block, c.blocks[b]? = some block ∧ k = c.start b ∧ hs = c.packedHandlers block ∧ block.handlers ≠ []

theorem packedAs_of_finish {p : PackedBody} (h : c.packer.finish = .ok p) : c.PackedAs p := by
  have hpacker := c.holdsBlocks_packer
  have hentries : ((c.blocks.mapIdx fun b block => (b, block)).flatMap fun x => c.blockEntries x.1 x.2) = c.entries := by
    rw [entries, List.flatMap]
    congr 1
    exact List.ext_getElem? fun i => by cases hi : c.blocks[i]? <;> simp [hi]
  have hholds := hpacker.holds
  rw [hentries] at hholds
  obtain ⟨herror, rfl⟩ := Packer.finish_eq_ok h
  have hcount : c.packer.instructionCount = blocksSize c.blocks := hholds.count.trans c.length_entries
  refine ⟨hpacker.argumentCount, hcount, hholds.stream herror, hholds.lines, hcount ▸ hpacker.pool, ?_⟩
  intro k hs
  rw [hpacker.handlers k hs]
  constructor
  · rintro ⟨x, hx, hk, hhs, hne⟩
    obtain ⟨b, hlt, rfl⟩ := List.mem_mapIdx.1 hx
    exact ⟨b, c.blocks[b], List.getElem?_eq_getElem hlt, hk, hhs, hne⟩
  · rintro ⟨b, block, hb, hk, hhs, hne⟩
    obtain ⟨hlt, rfl⟩ := List.getElem?_eq_some_iff.1 hb
    exact ⟨(b, c.blocks[b]), List.mem_mapIdx.2 ⟨b, hlt, rfl⟩, hk, hhs, hne⟩

theorem packedAs_of_pack (hc : c.WellFormed) (hs : c.SingleAssignment) {p : PackedBody} (h : c.pack = .ok p) :
    c.PackedAs p := by
  rw [pack_eq hc hs] at h
  cases hfinish : c.packer.finish with
  | error e =>
    rw [hfinish] at h
    cases h
  | ok q =>
    rw [hfinish] at h
    cases h
    exact packedAs_of_finish hfinish

/-- **Packing fails only at the limits of the format**: it never stops with a fault. -/
theorem pack_error_isLimit (hc : c.WellFormed) (hs : c.SingleAssignment) {e : Failure PackedError}
    (h : c.pack = .error e) : ∃ cause, e = .error cause ∧ cause.IsLimit := by
  rw [pack_eq hc hs] at h
  unfold Packer.finish at h
  split at h
  · next cause herror =>
    cases h
    exact ⟨cause, rfl, c.holdsBlocks_packer.holds.errors cause herror⟩
  · cases h

end

end Body

end DexShrinker
