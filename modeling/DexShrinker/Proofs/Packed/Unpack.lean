/-
  DexShrinker/Proofs/Packed/Unpack.lean
  =====================================
  **Reading a packed body instruction by instruction.**

  `At c p k s` is the state of the unpacker after the first `k` instructions of the
  packed form `p` of `c`. Block by block it says how far the draft has come: the draft
  of a block is `draftAt` of the number of its instructions that have been read, which
  is nothing for blocks ahead and everything for blocks behind. Every instruction takes
  `At k` to `At (k + 1)` (`runs_step`), and so the whole stream takes the initial state
  to the one where every draft is complete (`runs_views`).
-/
import DexShrinker.Proofs.Packed.Naming
import DexShrinker.Proofs.Packed.Pack

namespace DexShrinker

open Std Unpacking

/-! ### Operations -/

@[simp] theorem Unpacking.liftM_ok_bind {α β : Type} (a : α) (f : α → Unpacking β) :
    (liftM (Except.ok a : Except PackedError α) >>= f) = f a := rfl

@[simp] theorem Unpacking.map_liftM_ok {α β : Type} (a : α) (f : α → β) :
    f <$> (liftM (Except.ok a : Except PackedError α) : Unpacking α) = pure (f a) := rfl

/-- Reading an operation mentions its operands in order and looks up its constant. -/
theorem operation_code {p : PackedBody} {op : Op} {k : Nat}
    (hconst : ∀ c, op.constant? = some c → p.constants[k]? = some c) :
    ∃ type : Option Descriptor, type.isSome = op.hasResult ∧
      operation p (op.code k).settled = (do
        let vs ← op.reads.mapM value
        return (op.settled.refill vs, type)) := by
  have htype (t : Descriptor) (h : op.constant? = some (.type t)) : p.typeAt k = .ok t := by
    rw [PackedBody.typeAt, PackedBody.constant, hconst _ h]
    rfl
  have hfield (f : FieldRef) (h : op.constant? = some (.field f)) : p.fieldAt k = .ok f := by
    rw [PackedBody.fieldAt, PackedBody.constant, hconst _ h]
    rfl
  have hmethod (m : MethodRef) (h : op.constant? = some (.method m)) : p.methodAt k = .ok m := by
    rw [PackedBody.methodAt, PackedBody.constant, hconst _ h]
    rfl
  have hany (c : Constant) (h : op.constant? = some c) : p.constant k = .ok c := by
    rw [PackedBody.constant, hconst _ h]
  have hresult (proto : Prototype) : (operation.resultType proto).isSome = !proto.returnType.isVoid := by
    unfold operation.resultType
    split <;> simp_all
  cases op with
  | constNull => exact ⟨_, rfl, rfl⟩
  | constInt v => exact ⟨_, rfl, rfl⟩
  | constLong v => exact ⟨_, rfl, rfl⟩
  | debugPosition => exact ⟨_, rfl, rfl⟩
  | constString s =>
    refine ⟨some .string, rfl, ?_⟩
    simp [Op.code, PackedInstr.settled, operation, hany _ rfl, Op.reads, Op.settled, Op.refill]
  | constClass t =>
    refine ⟨some .classObject, rfl, ?_⟩
    simp [Op.code, PackedInstr.settled, operation, hany _ rfl, Op.reads, Op.settled, Op.refill]
  | constHandle h =>
    refine ⟨some .methodHandle, rfl, ?_⟩
    simp [Op.code, PackedInstr.settled, operation, hany _ rfl, Op.reads, Op.settled, Op.refill]
  | constMethodType q =>
    refine ⟨some .methodType, rfl, ?_⟩
    simp [Op.code, PackedInstr.settled, operation, hany _ rfl, Op.reads, Op.settled, Op.refill]
  | newInstance t | newArray t size | newUnboxedEnum t ordinal | arrayGet t array index | checkCast t value =>
    refine ⟨some t, rfl, ?_⟩
    simp [Op.code, PackedInstr.settled, operation, htype _ rfl, Op.reads, Op.settled, Op.refill]
  | instanceOf t value =>
    refine ⟨some .boolean, rfl, ?_⟩
    simp [Op.code, PackedInstr.settled, operation, htype _ rfl, Op.reads, Op.settled, Op.refill]
  | arrayPut array index value =>
    refine ⟨none, rfl, ?_⟩
    simp [Op.code, PackedInstr.settled, operation, Op.reads, Op.settled, Op.refill]
  | arrayLength array =>
    refine ⟨some .int, rfl, ?_⟩
    simp [Op.code, PackedInstr.settled, operation, Op.reads, Op.settled, Op.refill]
  | staticGet f | instanceGet f object =>
    refine ⟨some f.type, rfl, ?_⟩
    simp [Op.code, PackedInstr.settled, operation, hfield _ rfl, Op.reads, Op.settled, Op.refill]
  | staticPut f value | instancePut f object value =>
    refine ⟨none, rfl, ?_⟩
    simp [Op.code, PackedInstr.settled, operation, hfield _ rfl, Op.reads, Op.settled, Op.refill]
  | invoke kind m args itf =>
    refine ⟨operation.resultType m.proto, hresult m.proto, ?_⟩
    simp [Op.code, PackedInstr.settled, operation, hmethod _ rfl, Op.reads, Op.settled, Op.refill]
  | invokeCustom site args =>
    refine ⟨operation.resultType site.proto, hresult site.proto, ?_⟩
    simp [Op.code, PackedInstr.settled, operation, hany _ rfl, Op.reads, Op.settled, Op.refill]
  | binary op type lhs rhs =>
    cases type with
    | int =>
      refine ⟨some .int, rfl, ?_⟩
      simp [Op.code, PackedInstr.settled, operation, Op.reads, Op.settled, Op.refill]
    | long =>
      refine ⟨some .long, rfl, ?_⟩
      simp [Op.code, PackedInstr.settled, operation, Op.reads, Op.settled, Op.refill]

theorem Op.refill_settled (f g : ValueId → ValueId) (op : Op) :
    (op.mapReads f).settled.refill (op.reads.map g) = (op.mapReads g).settled := by
  cases op <;> rfl

/-! ### Drafts -/

namespace Body

/-- The draft of a block after `n` of its instructions: targets are starts. -/
def draftAt (c : Body) (f : ValueId → ValueId) (block : Block) (n : Nat) : DraftBlock where
  phis := (block.phis.take n).map (Phi.renamed f)
  body := (block.body.take (n - block.phis.length)).map (Instr.renamed f)
  terminator :=
    if blockSize block ≤ n then some ((block.terminator.mapReads f).mapTargets c.start, block.terminatorLine) else none
  handlers := []

variable {c : Body} {f : ValueId → ValueId} {block : Block} {n : Nat}

@[simp] theorem draftAt_zero : c.draftAt f block 0 = {} := by
  have hpos := blockSize_pos block
  simp [draftAt, Nat.ne_of_gt hpos]

/-- Nothing is added to a block that has been read. -/
theorem draftAt_of_le (h : blockSize block ≤ n) : c.draftAt f block n = c.draftAt f block (blockSize block) := by
  unfold blockSize at h
  simp only [draftAt, blockSize, h, Nat.le_refl, if_true]
  rw [List.take_of_length_le (by omega), List.take_of_length_le (by omega), List.take_of_length_le (by omega),
    List.take_of_length_le (by omega)]

theorem draftAt_phi {phi : Phi} (h : block.phis[n]? = some phi) :
    c.draftAt f block (n + 1) =
      { c.draftAt f block n with phis := (c.draftAt f block n).phis ++ [phi.renamed f] } := by
  have hlt := (List.getElem?_eq_some_iff.1 h).1
  have hsize : ¬ blockSize block ≤ n + 1 := by simp [blockSize]; omega
  have hsize' : ¬ blockSize block ≤ n := by omega
  simp [draftAt, hsize, hsize', List.take_add_one, h, Nat.sub_eq_zero_of_le hlt, Nat.sub_eq_zero_of_le (Nat.le_of_lt hlt)]

theorem draftAt_instr {i : Instr} (h : block.body[n]? = some i) :
    c.draftAt f block (block.phis.length + n + 1) =
      { c.draftAt f block (block.phis.length + n) with
        body := (c.draftAt f block (block.phis.length + n)).body ++ [i.renamed f] } := by
  have hlt := (List.getElem?_eq_some_iff.1 h).1
  have hsize : ¬ blockSize block ≤ block.phis.length + (n + 1) := by simp [blockSize]; omega
  have hsize' : ¬ blockSize block ≤ block.phis.length + n := by omega
  have hphis (m : Nat) : block.phis.take (block.phis.length + m) = block.phis := List.take_of_length_le (by omega)
  rw [Nat.add_assoc]
  simp only [draftAt, hsize, hsize', if_false, Nat.add_sub_cancel_left, hphis]
  simp [List.take_add_one, h]

theorem draftAt_exit :
    c.draftAt f block (block.phis.length + block.body.length + 1) =
      { c.draftAt f block (block.phis.length + block.body.length) with
        terminator := some ((block.terminator.mapReads f).mapTargets c.start, block.terminatorLine) } := by
  have hsub : block.phis.length + block.body.length + 1 - block.phis.length = block.body.length + 1 := by omega
  simp only [draftAt, blockSize, Nat.le_refl, if_true, hsub, Nat.add_sub_cancel_left]
  rw [List.take_of_length_le (by omega), List.take_of_length_le (by omega), List.take_of_length_le (by omega),
    List.take_of_length_le (by omega)]

end Body

/-! ### The invariant -/

/-- The lines read so far are those that start below `k`. -/
structure Unpacker.LinesAt (lines : List LineEntry) (k : Nat) (s : Unpacker) : Prop where
  ahead : s.linesAhead = lines.dropWhile (·.start < k)
  line : s.line = ((lines.takeWhile (·.start < k)).getLast?.map LineEntry.line).getD 0

/-- The arguments have their names, and every draft has come as far as the first `k`
    instructions take it. -/
structure Unpacker.DraftsAt (c : Body) (k : Nat) (s : Unpacker) : Prop where
  arguments : ∀ f, s.Calls c.slots f → c.arguments.map f = List.range c.arguments.length
  drafts : ∀ n d, s.blocks[n]? = some d → ∃ b block, c.blocks[b]? = some block ∧ n = c.start b ∧
    ∀ f, s.Calls c.slots f → d = c.draftAt f block (k - c.start b)
  present : ∀ b block, c.blocks[b]? = some block → c.start b < k → (s.blocks[c.start b]?).isSome

/-- The state of the unpacker after the first `k` instructions. -/
structure Unpacker.At (c : Body) (p : PackedBody) (k : Nat) (s : Unpacker) : Prop where
  names : s.Names c.slots (c.arguments.length + k)
  lines : s.LinesAt p.lines k
  drafts : s.DraftsAt c k
  inside : ∀ b block j, c.blocks[b]? = some block → 0 < j → j < Body.blockSize block → k = c.start b + j →
    s.current = some (c.start b)
  between : ∀ b, b ≤ c.blocks.length → k = c.start b → s.current = none

/-! ### Lines -/

theorem takeWhile_of_imp {α : Type} {p q : α → Bool} (h : ∀ a, p a = true → q a = true) (l : List α) :
    l.takeWhile q = l.takeWhile p ++ (l.dropWhile p).takeWhile q ∧ l.dropWhile q = (l.dropWhile p).dropWhile q := by
  induction l with
  | nil => simp
  | cons a l ih =>
    by_cases hp : p a = true
    · simp [hp, h a hp, ih]
    · simp [hp]

namespace Unpacker

variable {c : Body} {p : PackedBody} {lines : List LineEntry} {b j k : Nat} {block : Block} {s s' : Unpacker}

/-- Moving on to an instruction passes the lines that start at or before it. -/
theorem runs_passLines (h : s.LinesAt lines k) :
    Runs (passLines k) s fun _ s' => s'.LinesAt lines (k + 1) ∧ s'.slots = s.slots ∧ s'.values = s.values ∧
      s'.blocks = s.blocks ∧ s'.current = s.current := by
  have hle : (fun l : LineEntry => decide (l.start < k + 1)) = fun l => decide (l.start ≤ k) :=
    funext fun l => by simp [Nat.lt_succ_iff]
  obtain ⟨htake, hdrop⟩ := takeWhile_of_imp (p := fun l : LineEntry => decide (l.start < k))
    (q := fun l => decide (l.start ≤ k)) (fun l hl => by simp at hl ⊢; omega) lines
  refine ⟨(), _, rfl, ⟨?_, ?_⟩, rfl, rfl, rfl, rfl⟩
  · rw [hle, hdrop, ← h.ahead]
    have hsplit := List.takeWhile_append_dropWhile (p := fun l : LineEntry => decide (l.start ≤ k)) (l := s.linesAhead)
    exact (congrArg (List.drop _) hsplit.symm).trans List.drop_left
  · rw [hle, htake, ← h.ahead, List.getLast?_append]
    simp only [h.line]
    cases (s.linesAhead.takeWhile fun l => decide (l.start ≤ k)).getLast? <;> simp

/-- The line in effect once the lines up to instruction `k` have been passed. -/
theorem LinesAt.line_eq (h : s.LinesAt lines (k + 1)) : s.line = lineIn lines k := by
  have hle : (fun l : LineEntry => decide (l.start < k + 1)) = fun l => decide (l.start ≤ k) :=
    funext fun l => by simp [Nat.lt_succ_iff]
  rw [h.line, hle]
  rfl

/-! ### Entering an instruction -/

/-- The unpacker is about to read the instruction at offset `j` of block `b`. -/
structure Reading (c : Body) (p : PackedBody) (b j : Nat) (s : Unpacker) : Prop where
  lines : s.LinesAt p.lines (c.start b + j + 1)
  drafts : s.DraftsAt c (c.start b + j)
  present : (s.blocks[c.start b]?).isSome
  current : s.current = some (c.start b)

theorem Reading.grow (h : s.Reading c p b j) (hgrows : Grows s s') : s'.Reading c p b j where
  lines := ⟨hgrows.linesAhead.trans h.lines.ahead, hgrows.line.trans h.lines.line⟩
  drafts := by
    refine ⟨fun f hf => h.drafts.arguments f (hgrows.calls hf), fun n d hd => ?_, fun b block hb hlt => ?_⟩
    · obtain ⟨b, block, hb, hn, hdraft⟩ := h.drafts.drafts n d (by rw [← hgrows.blocks]; exact hd)
      exact ⟨b, block, hb, hn, fun f hf => hdraft f (hgrows.calls hf)⟩
    · rw [hgrows.blocks]
      exact h.drafts.present b block hb hlt
  present := by rw [hgrows.blocks]; exact h.present
  current := hgrows.current.trans h.current

/-- Names do not depend on blocks, lines and position. -/
theorem Names.congr {table : List (Option ValueId)} {n : Nat} (h : Names table n s) (hslots : s'.slots = s.slots)
    (hvalues : s'.values = s.values) : Names table n s' := by
  refine ⟨?_, ?_, ?_, ?_, ?_, ?_⟩ <;> simp only [hslots, hvalues]
  exacts [h.length, h.known, h.bounded, h.unique, h.onto, h.done]

/-- A known start stays as it is and a new one, which lies ahead, gets an empty draft. -/
theorem DraftsAt.openBlock (h : s.DraftsAt c k) (hb : c.blocks[b]? = some block)
    (hk : k ≤ c.start b ∨ (s.blocks[c.start b]?).isSome) :
    Runs (Unpacking.openBlock (c.start b)) s fun _ s' => ∃ blocks, s' = { s with blocks := blocks } ∧ s'.DraftsAt c k ∧
      (blocks[c.start b]?).isSome ∧ ∀ n : Nat, (s.blocks[n]?).isSome → (blocks[n]?).isSome := by
  refine Runs.modify ?_
  split
  · next hin =>
    rw [TreeMap.contains_eq_isSome_getElem?] at hin
    exact ⟨s.blocks, rfl, h, hin, fun _ hn => hn⟩
  · next hout =>
    rw [TreeMap.contains_eq_isSome_getElem?] at hout
    have hle : k ≤ c.start b := hk.resolve_right hout
    have hkeep (n : Nat) (hn : (s.blocks[n]?).isSome) : ((s.blocks.insert (c.start b) {})[n]?).isSome := by
      rw [TreeMap.getElem?_insert]
      split
      · rfl
      · exact hn
    refine ⟨_, rfl, ⟨h.arguments, fun n d hd => ?_, fun b' block' hb' hlt => hkeep _ (h.present b' block' hb' hlt)⟩, by simp,
      hkeep⟩
    rw [TreeMap.getElem?_insert] at hd
    split at hd
    · next heq =>
      cases hd
      have hn : c.start b = n := by simpa using heq
      refine ⟨b, block, hb, hn.symm, fun f _ => ?_⟩
      rw [Nat.sub_eq_zero_of_le hle, Body.draftAt_zero]
    · exact h.drafts n d hd

/-- **Entering an instruction**: its lines are passed and its block is the current one. -/
theorem At.runs_enter (h : s.At c p k) (hb : c.blocks[b]? = some block) (hj : j < Body.blockSize block)
    (hk : k = c.start b + j) :
    Runs (do passLines k; enterBlock k) s fun _ s' =>
      s'.Names c.slots (c.arguments.length + k) ∧ s'.Reading c p b j := by
  have hblen : b < c.blocks.length := (List.getElem?_eq_some_iff.1 hb).1
  refine (runs_passLines h.lines).bind fun _ s' ⟨hlines, hslots, hvalues, hblocks, hcurrent⟩ => ?_
  have hnames : s'.Names c.slots (c.arguments.length + k) := h.names.congr hslots hvalues
  have hcalls (f : ValueId → ValueId) (hf : s'.Calls c.slots f) : s.Calls c.slots f := fun i v j hv hi =>
    hf i v j hv (by rw [hslots]; exact hi)
  have hdrafts : s'.DraftsAt c k := by
    refine ⟨fun f hf => h.drafts.arguments f (hcalls f hf), ?_, by rw [hblocks]; exact h.drafts.present⟩
    rw [hblocks]
    intro n d hd
    obtain ⟨b, block, hb, hn, hdraft⟩ := h.drafts.drafts n d hd
    exact ⟨b, block, hb, hn, fun f hf => hdraft f (hcalls f hf)⟩
  unfold enterBlock
  refine Runs.get_bind ?_
  rcases Nat.eq_zero_or_pos j with rfl | hpos
  · have hstart : k = c.start b := by simpa using hk
    have hnone : s'.current = none := hcurrent.trans (h.between b (Nat.le_of_lt hblen) hstart)
    simp only [hnone]
    have hset : Runs (Unpacking.openBlock k) { s' with current := some k } fun _ s'' =>
        ∃ blocks, s'' = { s' with current := some k, blocks := blocks } ∧ s''.DraftsAt c k ∧ (blocks[c.start b]?).isSome := by
      rw [hstart] at hdrafts ⊢
      refine (DraftsAt.openBlock (s := { s' with current := some (c.start b) }) ⟨hdrafts.arguments, hdrafts.drafts, hdrafts.present⟩ hb
        (.inl (Nat.le_refl _))).mono ?_
      rintro _ s'' ⟨blocks, rfl, hd, hpresent, -⟩
      exact ⟨blocks, rfl, hd, hpresent⟩
    obtain ⟨_, s'', hrun, blocks, rfl, hdrafts', hpresent⟩ := hset
    refine ⟨(), _, hrun, hnames.congr rfl rfl, ?_⟩
    refine ⟨⟨?_, ?_⟩, ?_, hpresent, ?_⟩
    · rw [← hk]; exact hlines.ahead
    · rw [← hk]; exact hlines.line
    · rw [← hk]; exact hdrafts'
    · rw [hstart]
  · have hcur : s'.current = some (c.start b) := hcurrent.trans (h.inside b block j hb hpos hj hk)
    have habsent : s'.blocks.contains k = false := by
      rw [TreeMap.contains_eq_isSome_getElem?, Bool.eq_false_iff]
      intro hsome
      obtain ⟨d, hd⟩ := Option.isSome_iff_exists.1 hsome
      obtain ⟨b', block', hb', hstart, -⟩ := hdrafts.drafts k d hd
      have hblen' : b' < c.blocks.length := (List.getElem?_eq_some_iff.1 hb').1
      exact Body.start_ne_inside hb hpos hj hblen' (hstart.symm.trans hk)
    simp only [hcur, habsent, Bool.false_eq_true, and_false, if_false]
    refine Runs.pure ⟨hnames, hk ▸ hlines, hk ▸ hdrafts, ?_, hcur⟩
    exact hdrafts.present b block hb (by omega)

/-! ### Adding to the current draft -/

/-- Changing the current draft as its next instruction demands brings the drafts forward. -/
theorem Reading.write (h : s.Reading c p b j) (hb : c.blocks[b]? = some block) (hj : j < Body.blockSize block)
    {g : DraftBlock → DraftBlock}
    (hg : ∀ f, s.Calls c.slots f → g (c.draftAt f block j) = c.draftAt f block (j + 1)) :
    DraftsAt c (c.start b + j + 1) { s with blocks := s.blocks.insert (c.start b) (g (s.blocks.getD (c.start b) {})) } := by
  have hblen : b < c.blocks.length := (List.getElem?_eq_some_iff.1 hb).1
  obtain ⟨d, hd⟩ := Option.isSome_iff_exists.1 h.present
  have hgetD : s.blocks.getD (c.start b) {} = d := by rw [TreeMap.getD_eq_getD_getElem?, hd, Option.getD_some]
  have hdraft (f : ValueId → ValueId) (hf : s.Calls c.slots f) : d = c.draftAt f block j := by
    obtain ⟨b', block', hb', hstart, hdraft'⟩ := h.drafts.drafts _ d hd
    obtain rfl : b = b' := Body.start_inj hblen (List.getElem?_eq_some_iff.1 hb').1 hstart
    obtain rfl : block = block' := Option.some.inj (hb.symm.trans hb')
    rw [hdraft' f hf, Nat.add_sub_cancel_left]
  rw [hgetD]
  refine ⟨h.drafts.arguments, fun n d' hd' => ?_, fun b' block' hb' hlt => ?_⟩
  · rw [TreeMap.getElem?_insert] at hd'
    split at hd'
    · next heq =>
      cases hd'
      have hn : c.start b = n := by simpa using heq
      refine ⟨b, block, hb, hn.symm, fun f hf => ?_⟩
      rw [hdraft f hf, hg f hf, Nat.add_assoc, Nat.add_sub_cancel_left]
    · next hne =>
      obtain ⟨b', block', hb', rfl, hdraft'⟩ := h.drafts.drafts n d' hd'
      refine ⟨b', block', hb', rfl, fun f hf => ?_⟩
      rw [hdraft' f hf]
      have hblen' : b' < c.blocks.length := (List.getElem?_eq_some_iff.1 hb').1
      have hsucc := Body.start_succ hb
      have hsucc' := Body.start_succ hb'
      -- Blocks behind the current one are complete, blocks ahead of it are empty.
      rcases Nat.lt_trichotomy b' b with hlt | rfl | hgt
      · have hbefore : c.start (b' + 1) ≤ c.start b := Body.start_le hlt (Nat.le_of_lt hblen)
        rw [Body.draftAt_of_le (by omega), Body.draftAt_of_le (n := c.start b + j + 1 - c.start b') (by omega)]
      · simp at hne
      · have hafter : c.start (b + 1) ≤ c.start b' := Body.start_le hgt (Nat.le_of_lt hblen')
        rw [Nat.sub_eq_zero_of_le (by omega), Nat.sub_eq_zero_of_le (by omega)]
  · rw [TreeMap.getElem?_insert]
    split
    · rfl
    · next hne =>
      refine h.drafts.present b' block' hb' ?_
      have hblen' : b' < c.blocks.length := (List.getElem?_eq_some_iff.1 hb').1
      rcases Nat.eq_zero_or_pos j with rfl | hpos
      · have hstart : c.start b' ≠ c.start b := by
          rintro heq
          simp [heq] at hne
        omega
      · have hstart := Body.start_ne_inside hb hpos hj hblen'
        omega

/-- Adding a phi or an instruction to the current block. -/
theorem Reading.runs_onCurrent (h : s.Reading c p b j) (hb : c.blocks[b]? = some block) (hj : j + 1 < Body.blockSize block)
    (hnames : s.Names c.slots (c.arguments.length + (c.start b + j + 1))) {g : DraftBlock → DraftBlock}
    (hg : ∀ f, s.Calls c.slots f → g (c.draftAt f block j) = c.draftAt f block (j + 1)) :
    Runs (onCurrent g) s fun _ s' => s'.At c p (c.start b + j + 1) := by
  have hdrafts := h.write hb (by omega) hg
  refine Runs.modify ?_
  simp only [h.current, Option.getD_some]
  refine ⟨hnames.congr rfl rfl, ⟨h.lines.ahead, h.lines.line⟩, ⟨hdrafts.arguments, hdrafts.drafts, hdrafts.present⟩, ?_, ?_⟩
  · intro b' block' j' hb' _ hj' hk
    rw [Body.position_unique hb hj hb' hj' hk]
  · intro b' hb' hk
    exfalso
    rcases Nat.lt_or_ge b' c.blocks.length with hlt | hge
    · exact Body.start_ne_inside hb (Nat.succ_pos j) hj hlt hk.symm
    · obtain rfl : b' = c.blocks.length := by omega
      have hlast := Body.start_add_lt hb hj
      rw [← Body.start_length, ← hk] at hlast
      exact Nat.lt_irrefl _ hlast

/-- Ending the current block. -/
theorem Reading.runs_terminate (h : s.Reading c p b j) (hb : c.blocks[b]? = some block)
    (hj : j = block.phis.length + block.body.length) (hnames : s.Names c.slots (c.arguments.length + (c.start b + j + 1)))
    (hline : s.line = block.terminatorLine) {t : Terminator}
    (ht : ∀ f, s.Calls c.slots f → t = (block.terminator.mapReads f).mapTargets c.start) :
    Runs (terminate t) s fun _ s' => s'.At c p (c.start b + j + 1) := by
  have hsize : j + 1 = Body.blockSize block := by rw [hj, Body.blockSize]
  have hsucc := Body.start_succ hb
  have hdrafts := h.write hb (by omega) (g := fun d => { d with terminator := some (t, s.line) }) fun f hf => by
    subst hj
    rw [Body.draftAt_exit, ht f hf, hline]
  unfold terminate
  refine Runs.get_bind ?_
  refine ⟨(), _, rfl, hnames.congr rfl rfl, ⟨h.lines.ahead, h.lines.line⟩, ?_, ?_, ?_⟩
  · simp only [h.current, Option.getD_some]
    exact ⟨hdrafts.arguments, hdrafts.drafts, hdrafts.present⟩
  · intro b' block' j' hb' hpos hj' hk
    exfalso
    have hnext : c.start (b + 1) = c.start b' + j' := by omega
    have hblen : b + 1 ≤ c.blocks.length := (List.getElem?_eq_some_iff.1 hb).1
    rcases Nat.lt_or_ge (b + 1) c.blocks.length with hlt | hge
    · exact Body.start_ne_inside hb' hpos hj' hlt hnext
    · have hlast := Body.start_add_lt hb' hj'
      rw [← hnext, Nat.le_antisymm hblen hge, Body.start_length] at hlast
      exact Nat.lt_irrefl _ hlast
  · intro _ _ _
    rfl

/-- Making a target of the current block known. -/
theorem Reading.runs_openTarget (h : s.Reading c p b j) (hc : c.WellFormed) (hb : c.blocks[b]? = some block)
    (hcount : p.instructionCount = Body.blocksSize c.blocks) {t : BlockId} (ht : t ∈ block.targets b) :
    Runs (openTarget p.instructionCount (c.start t)) s fun _ s' =>
      s'.Reading c p b j ∧ s'.slots = s.slots ∧ s'.values = s.values ∧ s'.line = s.line := by
  have htlen : t < c.blocks.length := hc.targets b block hb t ht
  have htpos : 0 < t := Nat.pos_of_ne_zero fun h0 => hc.zero_not_mem_targets hb (h0 ▸ ht)
  have hpos : 0 < c.start t := by simpa using Body.start_lt (c := c) htpos (Nat.le_of_lt htlen)
  have hlt : c.start t < p.instructionCount := by
    rw [hcount, ← Body.start_length]
    exact Body.start_lt htlen (Nat.le_refl _)
  unfold openTarget
  rw [if_neg (by omega)]
  have htget : c.blocks[t]? = some c.blocks[t] := List.getElem?_eq_getElem htlen
  refine (h.drafts.openBlock htget ?_).mono ?_
  · rcases Nat.lt_or_ge (c.start t) (c.start b + j) with hlt | hge
    · exact .inr (h.drafts.present t _ htget hlt)
    · exact .inl hge
  · rintro _ s' ⟨blocks, rfl, hdrafts, -, hkeep⟩
    exact ⟨⟨⟨h.lines.ahead, h.lines.line⟩, hdrafts, hkeep _ h.present, h.current⟩, rfl, rfl, rfl⟩

/-! ### Instructions -/

theorem slotsOf_phi {phi : Phi} (h : block.phis[j]? = some phi) : (Body.slotsOf block)[j]? = some (some phi.dest) := by
  have hlt := (List.getElem?_eq_some_iff.1 h).1
  rw [Body.slotsOf, List.getElem?_append_left (by simp; omega), List.getElem?_append_left (by simpa using hlt),
    List.getElem?_map, h]
  rfl

theorem slotsOf_instr {n : Nat} {i : Instr} (h : block.body[n]? = some i) :
    (Body.slotsOf block)[block.phis.length + n]? = some i.dest := by
  have hlt := (List.getElem?_eq_some_iff.1 h).1
  rw [Body.slotsOf, List.getElem?_append_left (by simpa using hlt), List.getElem?_append_right (by simp), List.length_map,
    Nat.add_sub_cancel_left, List.getElem?_map, h]
  rfl

theorem slotsOf_exit : (Body.slotsOf block)[block.phis.length + block.body.length]? = some none := by
  rw [Body.slotsOf, List.getElem?_append_right (by simp)]
  simp

/-- Values that a block reads have a slot. -/
theorem slot_of_read (hc : c.WellFormed) (hb : c.blocks[b]? = some block) {v : ValueId} (hv : v ∈ block.reads) :
    c.slots[c.indexOf v]? = some (some v) :=
  Body.getElem?_indexOf (hc.defined v (Body.mem_reads_of_block (List.mem_of_getElem? hb) hv))

theorem Reading.runs_phi (h : s.Reading c p b j) (hnames : s.Names c.slots (c.arguments.length + (c.start b + j)))
    (hc : c.WellFormed) (hb : c.blocks[b]? = some block) {phi : Phi} (hphi : block.phis[j]? = some phi)
    {view : InstrView} (hview : view.valueIndex = c.arguments.length + (c.start b + j)) {k : Nat} {t : Descriptor}
    (hconst : p.constants[k]? = some (.type t)) :
    Runs (instruction p view (.phi k (phi.operands.map c.indexOf))) s fun _ s' => s'.At c p (c.start b + j + 1) := by
  have hlt := (List.getElem?_eq_some_iff.1 hphi).1
  have hj : j + 1 < Body.blockSize block := by
    rw [Body.blockSize]
    omega
  have hslot : c.slots[c.arguments.length + (c.start b + j)]? = some (some phi.dest) := by
    rw [Body.getElem?_slots hb (by omega), slotsOf_phi hphi]
  have htype : p.typeAt k = .ok t := by
    rw [PackedBody.typeAt, PackedBody.constant, hconst]
    rfl
  simp only [instruction, hview]
  refine Runs.lift_bind htype ?_
  refine (runs_define hnames hslot t (by decide)).bind fun dest s₁ hafter => ?_
  obtain ⟨hnames₁, hgrows₁, hdest⟩ := hafter
  refine (runs_values phi.operands (fun v hv => slot_of_read hc hb ?_) hnames₁).bind fun ops s₂ hafter => ?_
  · simp only [Block.reads, List.mem_append, List.mem_flatMap]
    exact .inl (.inl ⟨phi, List.mem_of_getElem? hphi, hv⟩)
  obtain ⟨hnames₂, hgrows₂, hops⟩ := hafter
  refine (h.grow (hgrows₁.trans hgrows₂)).runs_onCurrent hb hj hnames₂ fun f hf => ?_
  rw [Body.draftAt_phi hphi, Phi.renamed, ← hops f hf, hf _ _ _ hslot (hgrows₂.slots _ _ hdest)]

/-- Operations are read as such, not as phis or terminators. -/
theorem instruction_code (p : PackedBody) (view : InstrView) (op : Op) (k : Nat) :
    instruction p view (op.code k).settled = (do
      let (op, result) ← operation p (op.code k).settled
      let dest ← result.mapM fun t => define view.valueIndex t .instruction
      let line := (← get).line
      onCurrent fun b => { b with body := b.body ++ [⟨dest, op, line⟩] }) := by
  cases op <;> rfl

theorem Reading.runs_instr {n : Nat} (h : s.Reading c p b (block.phis.length + n))
    (hnames : s.Names c.slots (c.arguments.length + (c.start b + (block.phis.length + n)))) (hc : c.WellFormed)
    (hs : c.SingleAssignment) (hb : c.blocks[b]? = some block) {i : Instr} (hi : block.body[n]? = some i)
    (hline : s.line = i.line) {view : InstrView}
    (hview : view.valueIndex = c.arguments.length + (c.start b + (block.phis.length + n))) {k : Nat}
    (hconst : ∀ x, (i.op.mapReads c.indexOf).constant? = some x → p.constants[k]? = some x) :
    Runs (instruction p view ((i.op.mapReads c.indexOf).code k).settled) s fun _ s' =>
      s'.At c p (c.start b + (block.phis.length + n) + 1) := by
  have hlt := (List.getElem?_eq_some_iff.1 hi).1
  have hmem := List.mem_of_getElem? hi
  have hj : block.phis.length + n + 1 < Body.blockSize block := by
    rw [Body.blockSize]
    omega
  have hslot : c.slots[c.arguments.length + (c.start b + (block.phis.length + n))]? = some i.dest := by
    rw [Body.getElem?_slots hb (by omega), slotsOf_instr hi]
  obtain ⟨type, htype, hop⟩ := operation_code hconst
  rw [Op.hasResult_mapReads, ← hs.results block (List.mem_of_getElem? hb) i hmem] at htype
  rw [instruction_code, hop, hview, Op.reads_mapReads, bind_assoc]
  refine (runs_values i.op.reads (fun v hv => slot_of_read hc hb ?_) hnames).bind fun ops s₁ hafter => ?_
  · simp only [Block.reads, List.mem_append, List.mem_flatMap]
    exact .inl (.inr ⟨i, hmem, hv⟩)
  obtain ⟨hnames₁, hgrows₁, hops⟩ := hafter
  rw [pure_bind]
  have hdest : Runs (type.mapM fun t => define (c.arguments.length + (c.start b + (block.phis.length + n))) t .instruction) s₁
      fun dest s₂ => s₂.Names c.slots (c.arguments.length + (c.start b + (block.phis.length + n)) + 1) ∧ Grows s₁ s₂ ∧
        ∀ f, s₂.Calls c.slots f → dest = i.dest.map f := by
    cases hd : i.dest with
    | none =>
      obtain rfl : type = none := by simpa [hd] using htype
      exact Runs.pure ⟨hnames₁.skip (hslot.trans (congrArg some hd)), Grows.refl s₁, fun _ _ => rfl⟩
    | some v =>
      obtain ⟨t, rfl⟩ := Option.isSome_iff_exists.1 (htype.trans (by rw [hd]; rfl))
      have hv := hslot.trans (congrArg some hd)
      rw [Option.mapM_some, map_eq_pure_bind]
      refine (runs_define hnames₁ hv t (show Origin.instruction ≠ .unresolved by decide)).bind fun j s₂ hafter => ?_
      obtain ⟨hnames₂, hgrows₂, hj⟩ := hafter
      exact Runs.pure ⟨hnames₂, hgrows₂, fun f hf => congrArg some (hf _ v j hv hj).symm⟩
  refine hdest.bind fun dest s₂ hafter => ?_
  obtain ⟨hnames₂, hgrows₂, hdest⟩ := hafter
  refine Runs.get_bind ?_
  refine (h.grow (hgrows₁.trans hgrows₂)).runs_onCurrent hb hj hnames₂ fun f hf => ?_
  have hline₂ : s₂.line = i.line := (hgrows₁.trans hgrows₂).line.trans hline
  rw [Body.draftAt_instr hi, Instr.renamed, ← hdest f hf, hops f (hgrows₂.calls hf), Op.refill_settled, hline₂]

/-- Mentioning a value that may be missing. -/
theorem runs_value? {table : List (Option ValueId)} {n : Nat} {index : ValueId → Nat} (v? : Option ValueId)
    (hv : ∀ v ∈ v?, table[index v]? = some (some v)) (h : s.Names table n) :
    Runs ((v?.map index).mapM value) s fun j? s' =>
      s'.Names table n ∧ Grows s s' ∧ ∀ f, s'.Calls table f → j? = v?.map f := by
  cases v? with
  | none => exact Runs.pure ⟨h, Grows.refl s, fun _ _ => rfl⟩
  | some v =>
    have hslot := hv v rfl
    rw [Option.map_some, Option.mapM_some, map_eq_pure_bind]
    refine (runs_value h hslot).bind fun j s' hafter => ?_
    obtain ⟨hnames, hgrows, hj⟩ := hafter
    exact Runs.pure ⟨hnames, hgrows, fun f hf => congrArg some (hf _ v j hslot hj).symm⟩

theorem Reading.runs_exit (h : s.Reading c p b (block.phis.length + block.body.length))
    (hnames : s.Names c.slots (c.arguments.length + (c.start b + (block.phis.length + block.body.length))))
    (hc : c.WellFormed) (hb : c.blocks[b]? = some block) (hcount : p.instructionCount = Body.blocksSize c.blocks)
    (hline : s.line = block.terminatorLine) {view : InstrView}
    (hview : view.index = c.start b + (block.phis.length + block.body.length)) :
    Runs (instruction p view (c.exitCode b block.terminator)) s fun _ s' =>
      s'.At c p (c.start b + (block.phis.length + block.body.length) + 1) := by
  have hslot : c.slots[c.arguments.length + (c.start b + (block.phis.length + block.body.length))]? = some none := by
    rw [Body.getElem?_slots hb (by rw [Body.blockSize]; omega), slotsOf_exit]
  have hnames := hnames.skip hslot
  have hnext : view.index + 1 = c.start (b + 1) := by
    rw [hview, Body.start_succ hb, Body.blockSize]
    omega
  have hread (v : ValueId) (hv : v ∈ block.terminator.reads) : c.slots[c.indexOf v]? = some (some v) :=
    slot_of_read hc hb (by simp [Block.reads, hv])
  have htarget (t : BlockId) (ht : t ∈ block.terminator.successors b) : t ∈ block.targets b := by
    simp [Block.targets, ht]
  cases hterm : block.terminator with
  | goto target =>
    have hopen := h.runs_openTarget hc hb hcount (htarget target (by simp [hterm, Terminator.successors]))
    have hgoto : Runs (do openTarget p.instructionCount (c.start target); terminate (.goto (c.start target))) s fun _ s' =>
        s'.At c p (c.start b + (block.phis.length + block.body.length) + 1) := by
      refine hopen.bind fun _ s₁ hafter => ?_
      obtain ⟨hreading, hslots, hvalues, hline₁⟩ := hafter
      refine hreading.runs_terminate hb rfl (hnames.congr hslots hvalues) (hline₁.trans hline) fun f _ => ?_
      rw [hterm]
      rfl
    rw [Body.exitCode]
    split
    · next heq =>
      rw [heq, ← hnext] at hgoto
      exact hgoto
    · exact hgoto
  | branch kind type lhs rhs target =>
    have hsucc : target ∈ block.targets b ∧ b + 1 ∈ block.targets b := by
      constructor <;> refine htarget _ ?_ <;> rw [hterm, Terminator.successors] <;> split <;> simp_all
    simp only [Body.exitCode, instruction, hnext]
    refine (h.runs_openTarget hc hb hcount hsucc.1).bind fun _ s₁ hafter => ?_
    obtain ⟨hreading₁, hslots₁, hvalues₁, hline₁⟩ := hafter
    refine (hreading₁.runs_openTarget hc hb hcount hsucc.2).bind fun _ s₂ hafter => ?_
    obtain ⟨hreading₂, hslots₂, hvalues₂, hline₂⟩ := hafter
    have hnames₂ := (hnames.congr hslots₁ hvalues₁).congr hslots₂ hvalues₂
    have hlhs := hread lhs (by simp [hterm, Terminator.reads])
    refine (runs_value hnames₂ hlhs).bind fun l s₃ hafter => ?_
    obtain ⟨hnames₃, hgrows₃, hl⟩ := hafter
    refine (runs_value? rhs (fun v hv => hread v ?_) hnames₃).bind fun r s₄ hafter => ?_
    · rw [hterm, Terminator.reads, Option.mem_def.1 hv]
      simp
    obtain ⟨hnames₄, hgrows₄, hr⟩ := hafter
    have hline₄ := (hgrows₃.trans hgrows₄).line.trans (hline₂.trans (hline₁.trans hline))
    refine (hreading₂.grow (hgrows₃.trans hgrows₄)).runs_terminate hb rfl hnames₄ hline₄ fun f hf => ?_
    rw [hterm, Terminator.mapReads, Terminator.mapTargets, ← hr f hf, hf _ lhs l hlhs (hgrows₄.slots _ _ hl)]
  | ret value =>
    simp only [Body.exitCode, instruction]
    refine (runs_value? value (fun v hv => hread v ?_) hnames).bind fun r s₁ hafter => ?_
    · rw [hterm, Terminator.reads, Option.mem_def.1 hv]
      simp
    obtain ⟨hnames₁, hgrows₁, hr⟩ := hafter
    refine (h.grow hgrows₁).runs_terminate hb rfl hnames₁ (hgrows₁.line.trans hline) fun f hf => ?_
    rw [hterm, Terminator.mapReads, Terminator.mapTargets, ← hr f hf]
  | throw value =>
    simp only [Body.exitCode, instruction]
    have hvalue := hread value (by simp [hterm, Terminator.reads])
    refine (runs_value hnames hvalue).bind fun j s₁ hafter => ?_
    obtain ⟨hnames₁, hgrows₁, hj⟩ := hafter
    refine (h.grow hgrows₁).runs_terminate hb rfl hnames₁ (hgrows₁.line.trans hline) fun f hf => ?_
    rw [hterm, Terminator.mapReads, Terminator.mapTargets, hf _ value j hvalue hj]

/-! ### One instruction of the stream -/

theorem blockEntries_phi {phi : Phi} (h : block.phis[j]? = some phi) :
    (c.blockEntries b block)[j]? = some (c.phiEntry phi) := by
  have hlt := (List.getElem?_eq_some_iff.1 h).1
  rw [Body.blockEntries, List.getElem?_append_left (by simp; omega), List.getElem?_append_left (by simpa using hlt),
    List.getElem?_map, h]
  rfl

theorem blockEntries_instr {n : Nat} {i : Instr} (h : block.body[n]? = some i) :
    (c.blockEntries b block)[block.phis.length + n]? = some (c.instrEntry i) := by
  have hlt := (List.getElem?_eq_some_iff.1 h).1
  rw [Body.blockEntries, List.getElem?_append_left (by simpa using hlt), List.getElem?_append_right (by simp),
    List.length_map, Nat.add_sub_cancel_left, List.getElem?_map, h]
  rfl

theorem blockEntries_exit :
    (c.blockEntries b block)[block.phis.length + block.body.length]? = some (c.exitEntry b block) := by
  rw [Body.blockEntries, List.getElem?_append_right (by simp)]
  simp

/-- An offset in a block is that of a phi, of an instruction or of the terminator. -/
theorem offset_cases (hj : j < Body.blockSize block) :
    (∃ phi, block.phis[j]? = some phi) ∨ (∃ n i, j = block.phis.length + n ∧ block.body[n]? = some i) ∨
      j = block.phis.length + block.body.length := by
  rw [Body.blockSize] at hj
  rcases Nat.lt_or_ge j block.phis.length with hphi | hphi
  · exact .inl ⟨_, List.getElem?_eq_getElem hphi⟩
  · rcases Nat.lt_or_ge (j - block.phis.length) block.body.length with hinstr | hinstr
    · exact .inr (.inl ⟨j - block.phis.length, _, by omega, List.getElem?_eq_getElem hinstr⟩)
    · exact .inr (.inr (by omega))

theorem getElem?_entries (hb : c.blocks[b]? = some block) (hj : j < Body.blockSize block) :
    c.entries[c.start b + j]? = (c.blockEntries b block)[j]? :=
  Body.getElem?_flatten_start c.length_blockEntries hb hj

/-- **Every instruction brings the unpacker one instruction further.** -/
theorem At.runs_step (h : s.At c p k) (hc : c.WellFormed) (hs : c.SingleAssignment) (hp : c.PackedAs p)
    (hsize : c.slots.length ≤ UInt32.size) {e : Entry} (he : c.entries[k]? = some e) {i : PackedInstr}
    (hi : e.Written p.constants i) {view : InstrView} (hview : view.Shows p.argumentCount k i) :
    Runs (step p (.ok view)) s fun _ s' => s'.At c p (k + 1) := by
  have hk : k < Body.blocksSize c.blocks := by
    rw [← c.length_entries]
    exact (List.getElem?_eq_some_iff.1 he).1
  obtain ⟨b, block, j, hb, hj, rfl⟩ := Body.exists_position hk
  rw [getElem?_entries hb hj] at he
  have hentry (line : Line) (hline : e.line = some line) : lineIn p.lines (c.start b + j) = line :=
    hp.lines _ e line (by rw [getElem?_entries hb hj]; exact he) hline
  have hvalue : view.valueIndex = c.arguments.length + (c.start b + j) := by
    rw [hview.valueIndex, valueIndexOf, hp.argumentCount, Nat.mod_eq_of_lt]
    rw [c.length_slots] at hsize
    omega
  obtain ⟨n, rfl, -, hconst⟩ := hi
  unfold Unpacking.step
  refine Runs.lift_bind rfl ?_
  rw [hview.index, ← bind_assoc]
  refine (h.runs_enter hb hj rfl).bind fun _ s₁ ⟨hnames, hreading⟩ => ?_
  refine Runs.lift_bind hview.decode ?_
  have hline := hreading.lines.line_eq
  rcases offset_cases hj with ⟨phi, hphi⟩ | ⟨m, i, rfl, hinstr⟩ | rfl
  · rw [blockEntries_phi hphi] at he
    cases he
    exact hreading.runs_phi hnames hc hb hphi hvalue (hconst _ rfl)
  · rw [blockEntries_instr hinstr] at he
    cases he
    exact hreading.runs_instr hnames hc hs hb hinstr (hline.trans (hentry _ rfl)) hvalue hconst
  · rw [blockEntries_exit] at he
    cases he
    have hcode : (c.exitCode b block.terminator).settled = c.exitCode b block.terminator := by
      cases block.terminator with
      | goto target =>
        rw [Body.exitCode]
        split <;> rfl
      | _ => rfl
    simp only [Body.exitEntry, hcode]
    exact hreading.runs_exit hnames hc hb hp.instructionCount (hline.trans (hentry _ rfl)) hview.index

end Unpacker

end DexShrinker
