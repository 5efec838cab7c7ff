/-
  DexShrinker/Proofs/Packed/Reporting.lean
  ========================================
  **A packed body makes the references of the body.**

  An entry reports the reference of the instruction that it stands for, wherever the pool has its
  constant (`Entry.Reports`). Packing writes entries that report the references of the body in
  order, and lists the guards in the order of the blocks (`Packer.Tells`). Since everything that
  packing writes can be read back, so can the references (`Body.same_uses_of_pack`).
-/
import DexShrinker.Proofs.Packed.Canonical
import DexShrinker.Proofs.Packed.Writing

namespace DexShrinker

open Std

/-! ### References of bodies -/

/-- The reference is to the guard of a handler. -/
def Use.isGuard : Use → Bool
  | .type _ .catchGuard => true
  | _ => false

/-- Guards and other references can be told apart again. -/
theorem Use.filter_append {guards others : List Use} (hguards : ∀ use ∈ guards, use.isGuard = true)
    (hothers : ∀ use ∈ others, use.isGuard = false) :
    (guards ++ others).filter isGuard = guards ∧ (guards ++ others).filter (!isGuard ·) = others := by
  constructor
  · have hnone : others.filter isGuard = [] := List.filter_eq_nil_iff.2 fun use huse => by simp [hothers use huse]
    rw [List.filter_append, List.filter_eq_self.2 hguards, hnone, List.append_nil]
  · have hnone : guards.filter (!isGuard ·) = [] := List.filter_eq_nil_iff.2 fun use huse => by simp [hguards use huse]
    have hall : others.filter (!isGuard ·) = others := List.filter_eq_self.2 fun use huse => by simp [hothers use huse]
    rw [List.filter_append, hnone, hall, List.nil_append]

namespace Op

/-- The flag of a call says what kind of call it is, where that settles the flag. -/
def FlagCanonical : Op → Prop
  | .invoke .virtual _ _ isInterface => isInterface = false
  | .invoke .interface _ _ isInterface => isInterface = true
  | _ => True

theorem isGuard_of_use? {op : Op} {use : Use} (h : op.use? = some use) : use.isGuard = false := by
  cases op <;> cases h <;> rfl

theorem settled_code {op : Op} (h : op.FlagCanonical) (k : Nat) : (op.code k).settled = op.code k := by
  cases op with
  | invoke kind m args isInterface => cases kind <;> first | rfl | (cases h; rfl)
  | _ => rfl

theorem use?_mapReads (f : ValueId → ValueId) (op : Op) : (op.mapReads f).use? = op.use? := by
  cases op <;> rfl

theorem FlagCanonical.mapReads {op : Op} (h : op.FlagCanonical) (f : ValueId → ValueId) : (op.mapReads f).FlagCanonical := by
  cases op with
  | invoke kind m args isInterface => cases kind <;> exact h
  | _ => trivial

end Op

/-- What the instructions of a packed block report, one after the other. -/
def Block.reported (b : Block) : List (Option Use) :=
  b.phis.map (fun _ => none) ++ b.body.map (·.op.use?) ++ [none]

theorem Block.length_reported (b : Block) : b.reported.length = Body.blockSize b := by
  simp [reported, Body.blockSize, Nat.add_assoc]

namespace Block

variable (blocks : List Block) (b : Block)

theorem length_flatMap_reported : (blocks.flatMap reported).length = Body.blocksSize blocks := by
  induction blocks with
  | nil => rfl
  | cons block blocks ih => rw [List.flatMap_cons, List.length_append, length_reported, ih, Body.blocksSize]

theorem filterMap_flatMap_reported :
    (blocks.flatMap reported).filterMap id = blocks.flatMap fun b => b.body.filterMap (·.op.use?) := by
  simp [reported, List.filterMap_flatMap, List.filterMap_map]

theorem not_isGuard {use : Use} (h : use ∈ b.body.filterMap (·.op.use?)) : use.isGuard = false := by
  obtain ⟨i, -, huse⟩ := List.mem_filterMap.1 h
  exact Op.isGuard_of_use? huse

/-- The references to guards of a block, and all others. -/
theorem filter_uses : b.uses.filter Use.isGuard = b.handlers.map (.type ·.guard .catchGuard) ∧
    b.uses.filter (!Use.isGuard ·) = b.body.filterMap (·.op.use?) :=
  Use.filter_append (by simp [Use.isGuard]) fun _ => b.not_isGuard

end Block

/-! ### What entries report -/

namespace Entry

/-- Wherever the pool has the constant, the instruction can be read back and makes the reference. -/
structure Reports (e : Entry) (use : Option Use) : Prop where
  fits : ∀ k < UInt32.size, (e.code k).Fits
  useOf : ∀ (p : PackedBody) (k : Nat), (∀ c, e.constant = some c → p.constants[k]? = some c) →
    p.useOf (e.code k).settled = .ok use

theorem reports_op {op : Op} {line : Line} (hreads : ∀ v ∈ op.reads, v < UInt32.size) (hflag : op.FlagCanonical) :
    (op.entry line).Reports op.use? where
  fits := by
    intro k hk n hn
    rcases Op.mem_numbers_code hn with rfl | hn
    · exact hk
    · exact hreads n hn
  useOf := by
    intro p k hk
    change p.useOf (op.code k).settled = _
    rw [Op.settled_code hflag]
    cases hconst : op.constant? with
    | none => cases op <;> cases hconst <;> rfl
    | some c =>
      have hat : p.constant k = .ok c := by rw [PackedBody.constant, hk c hconst]
      cases op <;> cases hconst <;>
        simp [Op.code, PackedBody.useOf, PackedBody.typeAt, PackedBody.fieldAt, PackedBody.methodAt, hat, Op.use?, ok_bind]

theorem reports_phi {t : Descriptor} {operands : List Nat} (h : ∀ v ∈ operands, v < UInt32.size) :
    Reports ⟨none, some (.type t), (.phi · operands)⟩ none where
  fits := by
    intro k hk n hn
    rcases List.mem_cons.1 hn with rfl | hn
    · exact hk
    · exact h n hn
  useOf _ _ _ := rfl

theorem reports_exit {line : Line} {i : PackedInstr} (hi : i.isTerminator = true) (hfit : i.Fits) :
    Reports ⟨some line, none, fun _ => i⟩ none where
  fits _ _ := hfit
  useOf _ _ _ := by cases i <;> cases hi <;> rfl

end Entry

/-! ### What packing writes -/

/-- A walk every step of which writes an entry writes a list of entries. -/
theorem Packer.writes_of_foldlM {ε α : Type} {f : Packer → α → Except ε Packer} {R : Entry → α → Prop} {xs : List α}
    (hstep : ∀ p, ∀ x ∈ xs, ∀ p', f p x = .ok p' → ∃ e, R e x ∧ p' = p.write e) {p p' : Packer} (h : xs.foldlM f p = .ok p') :
    ∃ es, List.Forall₂ R es xs ∧ p' = es.foldl Packer.write p := by
  induction xs generalizing p with
  | nil =>
    cases h
    exact ⟨[], .nil, rfl⟩
  | cons x xs ih =>
    rw [List.foldlM_cons] at h
    obtain ⟨p₁, hx, h⟩ := bind_eq_ok.1 h
    obtain ⟨e, he, rfl⟩ := hstep p x List.mem_cons_self p₁ hx
    obtain ⟨es, hes, rfl⟩ := ih (fun p y hy => hstep p y (List.mem_cons_of_mem x hy)) h
    exact ⟨e :: es, .cons he hes, rfl⟩

namespace Body

variable {c : Body} {p p' : Packer} {b : BlockId} {block : Block} (hsize : c.slots.length ≤ UInt32.size)

include hsize

theorem valueIndex_lt {v i : Nat} (h : valueIndex c.slots v = .ok i) : i < UInt32.size :=
  Nat.lt_of_lt_of_le (List.getElem?_eq_some_iff.1 (slots_of_valueIndex h)).1 hsize

theorem blockStart_lt {start : Nat} (h : c.blockStart b = .ok start) : start < UInt32.size := by
  unfold blockStart at h
  split at h
  · next hb =>
    cases h
    have hlt := start_lt hb (Nat.le_refl _)
    rw [start_length] at hlt
    rw [length_slots] at hsize
    exact Nat.lt_of_lt_of_le hlt (by omega)
  · cases h

theorem mapM_valueIndex_lt {vs is : List Nat} (h : vs.mapM (valueIndex c.slots) = .ok is) : ∀ i ∈ is, i < UInt32.size := by
  intro i hi
  obtain ⟨v, -, hv⟩ := exists_of_mem_left (mapM_eq_ok_iff.1 h).flip hi
  exact valueIndex_lt hsize hv

theorem mapM_valueIndex_lt? {v? i? : Option Nat} (h : v?.mapM (valueIndex c.slots) = .ok i?) : ∀ i, i? = some i → i < UInt32.size := by
  rintro i rfl
  cases v? with
  | none => cases h
  | some v =>
    obtain ⟨j, hj, h⟩ := bind_eq_ok.1 h
    cases h
    exact valueIndex_lt hsize hj

theorem reports_of_traverseReads {op op' : Op} {line : Line} (hflag : op.FlagCanonical) (h : op.traverseReads (valueIndex c.slots) = .ok op') :
    (op'.entry line).Reports op.use? := by
  have hplaced : ∀ v ∈ op.reads, c.IsPlaced v := by
    intro v hv
    obtain ⟨w, hw⟩ := Op.exists_of_traverseReads h v hv
    exact isPlaced_of_eq_ok hw
  rw [Op.traverseReads_eq_ok hplaced] at h
  cases h
  rw [← Op.use?_mapReads c.place op]
  refine Entry.reports_op (fun v hv => ?_) (hflag.mapReads c.place)
  rw [Op.reads_mapReads] at hv
  obtain ⟨u, hu, rfl⟩ := List.mem_map.1 hv
  exact valueIndex_lt hsize (hplaced u hu)

theorem writes_of_packTerminator {line : Line} {t : Terminator} (h : c.packTerminator (valueIndex c.slots) (p.setLine line) b t = .ok p') :
    ∃ i : PackedInstr, i.isTerminator = true ∧ i.Fits ∧ p' = p.write ⟨some line, none, fun _ => i⟩ := by
  cases t with
  | goto target =>
    rw [packTerminator] at h
    split at h
    · cases h
      exact ⟨.fallthrough, rfl, by simp [PackedInstr.Fits, PackedInstr.numbers], rfl⟩
    · obtain ⟨start, hstart, h⟩ := bind_eq_ok.1 h
      cases h
      exact ⟨.goto start, rfl, by simpa [PackedInstr.Fits, PackedInstr.numbers] using blockStart_lt hsize hstart, rfl⟩
  | branch kind type lhs rhs target =>
    obtain ⟨rhs', hrhs, h⟩ := bind_eq_ok.1 h
    obtain ⟨start, hstart, h⟩ := bind_eq_ok.1 h
    obtain ⟨lhs', hlhs, h⟩ := bind_eq_ok.1 h
    cases h
    refine ⟨.branch kind type start lhs' rhs', rfl, ?_, rfl⟩
    simp only [PackedInstr.Fits, PackedInstr.numbers, List.mem_cons, Option.mem_toList, forall_eq_or_imp]
    exact ⟨blockStart_lt hsize hstart, valueIndex_lt hsize hlhs, mapM_valueIndex_lt? hsize hrhs⟩
  | ret value =>
    obtain ⟨value', hvalue, h⟩ := bind_eq_ok.1 h
    cases h
    refine ⟨.ret value', rfl, ?_, rfl⟩
    simpa [PackedInstr.Fits, PackedInstr.numbers] using mapM_valueIndex_lt? hsize hvalue
  | throw value =>
    obtain ⟨value', hvalue, h⟩ := bind_eq_ok.1 h
    cases h
    exact ⟨.throw value', rfl, by simpa [PackedInstr.Fits, PackedInstr.numbers] using valueIndex_lt hsize hvalue, rfl⟩

/-- **Packing a block** notes its handlers and writes entries that report its references. -/
theorem writes_of_packBlock (hflags : ∀ i ∈ block.body, i.op.FlagCanonical) (h : c.packBlock (valueIndex c.slots) p b block = .ok p') :
    ∃ start handlers es, c.blockStart b = .ok start ∧ handlers.map Handler.guard = block.handlers.map Handler.guard ∧
      List.Forall₂ Entry.Reports es block.reported ∧ p' = es.foldl Packer.write (p.addHandlers start handlers) := by
  obtain ⟨start, hstart, h⟩ := bind_eq_ok.1 h
  obtain ⟨handlers, hhandlers, h⟩ := bind_eq_ok.1 h
  obtain ⟨p₁, hphis, h⟩ := bind_eq_ok.1 h
  obtain ⟨p₂, hbody, h⟩ := bind_eq_ok.1 h
  have hguards : handlers.map Handler.guard = block.handlers.map Handler.guard := by
    rw [← List.forall₂_eq_eq_eq, List.forall₂_map_left_iff, List.forall₂_map_right_iff]
    refine (mapM_eq_ok_iff.1 hhandlers).flip.imp fun handler' handler hstep => ?_
    obtain ⟨target, -, hstep⟩ := bind_eq_ok.1 hstep
    cases hstep
    rfl
  obtain ⟨phiEntries, hphiEntries, rfl⟩ := Packer.writes_of_foldlM (R := fun e _ => e.Reports none) (fun q phi _ q' hstep => by
    obtain ⟨operands, hoperands, hstep⟩ := bind_eq_ok.1 hstep
    obtain ⟨v, -, hstep⟩ := bind_eq_ok.1 hstep
    cases hstep
    exact ⟨_, Entry.reports_phi (mapM_valueIndex_lt hsize hoperands), rfl⟩) hphis
  obtain ⟨bodyEntries, hbodyEntries, rfl⟩ := Packer.writes_of_foldlM (R := fun e i => e.Reports i.op.use?) (fun q i hi q' hstep => by
    obtain ⟨op, hop, hstep⟩ := bind_eq_ok.1 hstep
    cases hstep
    exact ⟨_, reports_of_traverseReads hsize (hflags i hi) hop, Packer.addOp_eq_write q op i.line⟩) hbody
  obtain ⟨exit, hexit, hfit, rfl⟩ := writes_of_packTerminator hsize h
  refine ⟨start, handlers, phiEntries ++ bodyEntries ++ [⟨some block.terminatorLine, none, fun _ => exit⟩], hstart, hguards, ?_, ?_⟩
  · refine List.rel_append (List.rel_append ?_ ?_) (.cons (Entry.reports_exit hexit hfit) .nil)
    · exact List.forall₂_map_right_iff.2 hphiEntries
    · exact List.forall₂_map_right_iff.2 hbodyEntries
  · simp

end Body

/-! ### Guards in the order of blocks -/

/-- What is put behind all keys is listed last. -/
theorem TreeMap.toList_insert_of_lt {α : Type} {m : TreeMap Nat α} {k : Nat} (h : ∀ j ∈ m, j < k) (v : α) :
    (m.insert k v).toList = m.toList ++ [(k, v)] := by
  have hsorted : m.toList.Pairwise fun x y => x.1 < y.1 :=
    TreeMap.ordered_keys_toList.imp fun h => Nat.compare_eq_lt.1 h
  refine TreeMap.toList_eq (List.pairwise_append.2 ⟨hsorted, by simp, fun x hx y hy => ?_⟩) fun j w => ?_
  · obtain rfl := List.mem_singleton.1 hy
    exact h x.1 (TreeMap.mem_iff_isSome_getElem?.2 (by simp [TreeMap.mem_toList_iff_getElem?_eq_some.1 hx]))
  · rw [TreeMap.getElem?_insert, List.mem_append, TreeMap.mem_toList_iff_getElem?_eq_some, List.mem_singleton, Prod.mk.injEq]
    by_cases hj : k = j
    · subst hj
      have hfree : m[k]? = none := TreeMap.getElem?_eq_none fun hmem => Nat.lt_irrefl k (h k hmem)
      simp [hfree, eq_comm]
    · simp [hj, Ne.symm hj]

namespace Packer

/-- The packer has written blocks: entries that report their references, and their guards. -/
structure Tells (q : Packer) (blocks : List Block) : Prop where
  written : ∃ es, q.Holds es ∧ List.Forall₂ Entry.Reports es (blocks.flatMap Block.reported)
  pool : q.constants.length ≤ q.instructionCount
  guards : (q.handlers.toList.flatMap fun x => x.2.map Handler.guard) = blocks.flatMap fun b => b.handlers.map Handler.guard
  keys : ∀ k ∈ q.handlers, k < q.instructionCount

theorem tells_start (argc : Nat) : Tells { argumentCount := argc } [] where
  written := ⟨[], holds_start argc, .nil⟩
  pool := Nat.le_refl 0
  guards := rfl
  keys k hk := by simp at hk

variable {q : Packer} {blocks : List Block} {block : Block}

theorem Tells.count (h : q.Tells blocks) : q.instructionCount = Body.blocksSize blocks := by
  obtain ⟨es, hholds, hreports⟩ := h.written
  rw [hholds.count, hreports.length_eq, Block.length_flatMap_reported]

theorem Tells.write (h : q.Tells blocks) {handlers : List Handler} (hguards : handlers.map Handler.guard = block.handlers.map Handler.guard)
    {more : List Entry} (hmore : List.Forall₂ Entry.Reports more block.reported) :
    (more.foldl Packer.write (q.addHandlers q.instructionCount handlers)).Tells (blocks ++ [block]) := by
  obtain ⟨es, hholds, hreports⟩ := h.written
  have hholds' := (hholds.addHandlers q.instructionCount handlers).writeAll more
  have hlength : 0 < more.length := by
    rw [hmore.length_eq, Block.length_reported]
    exact Body.blockSize_pos block
  have hconstants : (q.addHandlers q.instructionCount handlers).constants = q.constants := by
    unfold Packer.addHandlers
    split <;> rfl
  refine ⟨⟨es ++ more, hholds', ?_⟩, ?_, ?_, ?_⟩
  · rw [List.flatMap_append, List.flatMap_singleton]
    exact List.rel_append hreports hmore
  · have hgrow := length_constants_writeAll (q.addHandlers q.instructionCount handlers) more
    have hpool := h.pool
    rw [hconstants] at hgrow
    rw [hholds.count] at hpool
    rw [hholds'.count, List.length_append]
    omega
  · rw [writeAll_handlers, List.flatMap_append, List.flatMap_singleton, ← hguards, ← h.guards]
    unfold Packer.addHandlers
    split
    · next hempty => simp [List.isEmpty_iff.1 hempty]
    · rw [TreeMap.toList_insert_of_lt h.keys, List.flatMap_append, List.flatMap_singleton]
  · intro k hk
    rw [writeAll_handlers] at hk
    have hle : k ≤ q.instructionCount := by
      unfold Packer.addHandlers at hk
      split at hk
      · exact Nat.le_of_lt (h.keys k hk)
      · rcases TreeMap.mem_insert.1 hk with heq | hk
        · exact Nat.le_of_eq (Nat.compare_eq_eq.1 heq).symm
        · exact Nat.le_of_lt (h.keys k hk)
    rw [hholds'.count, List.length_append, ← hholds.count]
    omega

end Packer

namespace Body

variable {c : Body}

/-- **Packing tells the references** of all blocks that it has come to. -/
theorem tells_of_foldlM (hsize : c.slots.length ≤ UInt32.size) (hflags : ∀ block ∈ c.blocks, ∀ i ∈ block.body, i.op.FlagCanonical)
    {blocks : List Block} (hblocks : blocks <+: c.blocks) {q : Packer}
    (h : (blocks.mapIdx fun b block => (b, block)).foldlM (fun p x => c.packBlock (valueIndex c.slots) p x.1 x.2)
      ({ argumentCount := c.arguments.length } : Packer) = .ok q) : q.Tells blocks := by
  induction blocks using List.reverseRecOn generalizing q with
  | nil =>
    cases h
    exact Packer.tells_start _
  | append_singleton blocks block ih =>
    rw [List.mapIdx_concat, List.foldlM_append] at h
    obtain ⟨q₁, hq₁, h⟩ := bind_eq_ok.1 h
    rw [List.foldlM_cons] at h
    obtain ⟨q₂, hblock, h⟩ := bind_eq_ok.1 h
    cases h
    have htells := ih ((List.prefix_append blocks [block]).trans hblocks) hq₁
    obtain ⟨start, handlers, es, hstart, hguards, hes, rfl⟩ :=
      writes_of_packBlock hsize (hflags block (hblocks.subset (by simp))) hblock
    obtain rfl : start = q₁.instructionCount := by
      obtain ⟨rest, hrest⟩ := hblocks
      unfold blockStart at hstart
      split at hstart
      · cases hstart
        rw [htells.count, ← hrest, List.append_assoc, List.take_left]
      · cases hstart
    exact htells.write hguards hes

theorem tells_of_pack (hsize : c.slots.length ≤ UInt32.size) (hflags : ∀ block ∈ c.blocks, ∀ i ∈ block.body, i.op.FlagCanonical)
    {p : PackedBody} (h : c.pack = .ok p) : ∃ q : Packer, q.Tells c.blocks ∧ q.finish = .ok p := by
  unfold pack at h
  split at h
  · cases h
  obtain ⟨q, hq, h⟩ := bind_eq_ok.1 h
  exact ⟨q, tells_of_foldlM hsize hflags (List.prefix_refl _) hq, Outcome.ofExcept_eq_ok.1 h⟩

end Body

/-! ### Reading the references -/

/-- The references of a stream are what its entries report. -/
theorem PackedBody.usesOfViews_eq {p : PackedBody} (hpool : p.constants.length ≤ UInt32.size) {es : List Entry} {vs : List InstrView}
    (hshown : List.Forall₂ (Entry.Shown p) es vs) {reported : List (Option Use)} (hreports : List.Forall₂ Entry.Reports es reported) :
    p.usesOfViews (vs.map .ok) = (reported.filterMap id, none) := by
  induction hshown generalizing reported with
  | nil =>
    cases hreports
    rfl
  | @cons e v es vs hfirst _ ih =>
    obtain _ | @⟨_, use, _, reported, hreport, hreports⟩ := hreports
    obtain ⟨k, hdecode, hconst⟩ := hfirst.decode hpool hreport.fits
    have hitem : (Except.ok v >>= InstrView.decode >>= p.useOf) = .ok use := by
      rw [ok_bind, hdecode, ok_bind, hreport.useOf p k hconst]
    rw [List.map_cons, usesOfViews, hitem, ih hreports]
    cases use <;> rfl

/-- **A packed body makes the references of the body**: those to guards in the same order, and all others
    in the same order. -/
theorem Body.same_uses_of_pack {c : Body} {p : PackedBody} (hflags : ∀ block ∈ c.blocks, ∀ i ∈ block.body, i.op.FlagCanonical)
    (hsize : c.arguments.length + blocksSize c.blocks ≤ UInt32.size) (h : c.pack = .ok p) :
    ∃ us, p.uses = .ok us ∧ us.filter Use.isGuard = c.uses.filter Use.isGuard ∧
      us.filter (!Use.isGuard ·) = c.uses.filter (!Use.isGuard ·) := by
  obtain ⟨q, htells, hfinish⟩ := tells_of_pack (by rwa [length_slots]) hflags h
  obtain ⟨es, hholds, hreports⟩ := htells.written
  obtain ⟨vs, hviews, hshown⟩ := hholds.shown hfinish
  have hpool : p.constants.length ≤ UInt32.size := by
    have hcount := htells.count
    have hpool := htells.pool
    rw [(Packer.finish_eq_ok hfinish).2]
    exact hpool.trans (by omega)
  have hguards : p.guards = c.blocks.flatMap fun b => b.handlers.map Handler.guard := by
    rw [← htells.guards, (Packer.finish_eq_ok hfinish).2]
    rfl
  have hothers : ∀ use ∈ c.blocks.flatMap fun b => b.body.filterMap (·.op.use?), use.isGuard = false := by
    intro use huse
    obtain ⟨b, -, huse⟩ := List.mem_flatMap.1 huse
    exact b.not_isGuard huse
  have hfirst : ∀ use ∈ p.guards.map (Use.type · .catchGuard), use.isGuard = true := by simp [Use.isGuard]
  obtain ⟨hisGuard, hnotGuard⟩ := Use.filter_append hfirst hothers
  refine ⟨p.guards.map (.type · .catchGuard) ++ c.blocks.flatMap fun b => b.body.filterMap (·.op.use?), ?_, ?_, ?_⟩
  · rw [PackedBody.uses, PackedBody.usesSoFar, hviews, PackedBody.usesOfViews_eq hpool hshown hreports,
      Block.filterMap_flatMap_reported]
  · rw [hisGuard, hguards, uses, List.filter_flatMap, List.map_flatMap]
    simp [Block.filter_uses, Function.comp_def]
  · rw [hnotGuard, uses, List.filter_flatMap]
    simp [Block.filter_uses]

/-- Two guarded blocks, a class that is named twice, and calls of both kinds that are dispatched. -/
def Body.guardedSample : Body where
  method := ⟨⟨"Lp/A;"⟩, "run", ⟨.void, []⟩⟩
  isStatic := true
  arguments := []
  values := [⟨⟨"Lp/B;"⟩, .instruction⟩, ⟨⟨"Lp/B;"⟩, .instruction⟩]
  blocks :=
    [{ body := [⟨some 0, .newInstance ⟨"Lp/B;"⟩, 1⟩, ⟨none, .invoke .virtual ⟨⟨"Lp/B;"⟩, "go", ⟨.void, []⟩⟩ [0] false, 2⟩]
       terminator := .goto 1, terminatorLine := 2, handlers := [⟨⟨"Lp/E;"⟩, 2⟩, ⟨.object, 2⟩] },
     { body := [⟨some 1, .checkCast ⟨"Lp/B;"⟩ 0, 3⟩, ⟨none, .invoke .interface ⟨⟨"Lp/I;"⟩, "go", ⟨.void, []⟩⟩ [1] true, 4⟩]
       terminator := .ret none, terminatorLine := 4, handlers := [⟨⟨"Lp/E;"⟩, 2⟩] },
     { body := [], terminator := .ret none, terminatorLine := 5 }]

theorem Body.same_uses_of_pack_guardedSample :
    (∀ block ∈ guardedSample.blocks, ∀ i ∈ block.body, i.op.FlagCanonical) ∧
      guardedSample.arguments.length + blocksSize guardedSample.blocks ≤ UInt32.size ∧ ∃ p, guardedSample.pack = .ok p ∧
        ∃ us, p.uses = .ok us ∧ us.filter Use.isGuard = guardedSample.uses.filter Use.isGuard ∧
          us.filter (!Use.isGuard ·) = guardedSample.uses.filter (!Use.isGuard ·) := by
  have hflags : ∀ block ∈ guardedSample.blocks, ∀ i ∈ block.body, i.op.FlagCanonical := by simp [guardedSample, Op.FlagCanonical]
  have hsize : guardedSample.arguments.length + blocksSize guardedSample.blocks ≤ UInt32.size := by decide
  have hpacks : guardedSample.pack.isOk = true := by decide +kernel
  cases hpack : guardedSample.pack with
  | error e =>
    rw [hpack] at hpacks
    cases hpacks
  | ok p => exact ⟨hflags, hsize, p, rfl, same_uses_of_pack hflags hsize hpack⟩

end DexShrinker
