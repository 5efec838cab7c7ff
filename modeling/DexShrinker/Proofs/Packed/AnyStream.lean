/-
  DexShrinker/Proofs/Packed/AnyStream.lean
  ========================================
  **Reading streams of any bytes.**

  A body in which some block has not ended is refused. So the blocks of an unpacked body are those
  that tile the stream (`PackedBody.CutInto`), a branch that is not taken goes on with the
  instruction after it, and nothing that is mentioned is out of range, so that there is no fault
  (`PackedBody.unpack_any`). Only the index of a value can leave the range of the numbers that it
  is computed with. Where arithmetic wraps around it is refused like any other wrong index, and
  where it is checked this is the one fault that there is.
-/
import DexShrinker.Proofs.Packed.Layout
import DexShrinker.Proofs.Packed.Tiling

namespace DexShrinker

open Std

/-! ### Laying out -/

/-- The blocks of `c` are cut from the stream, in layout order and without a gap: only the last instruction of a
    block is a terminator, and its targets are the starts that it names. -/
structure PackedBody.CutInto (p : PackedBody) (c : Body) : Prop where
  whole : Body.blocksSize c.blocks = p.views.length
  inner : ∀ (b : BlockId) (block : Block), c.blocks[b]? = some block →
    p.RunsOn (c.start b) (c.start b + block.phis.length + block.body.length)
  last : ∀ (b : BlockId) (block : Block), c.blocks[b]? = some block → ∃ i,
    p.HasAt (c.start b + block.phis.length + block.body.length) i ∧
      i.Ends (c.start b + block.phis.length + block.body.length) (block.terminator.mapTargets c.start)

namespace PackedBody

variable {p : PackedBody} {xs : List (Nat × DraftBlock)} {blocks : List Block}

/-- A block as it is laid out from its draft. -/
structure LaidOut (starts : List Nat) (x : Nat × DraftBlock) (block : Block) : Prop where
  phis : block.phis = x.2.phis
  body : block.body = x.2.body
  terminator : ∃ t line, x.2.terminator = some (t, line) ∧ layoutTerminator starts t = .ok block.terminator

theorem laidOut_of_layoutBlocks (h : p.layoutBlocks xs = .ok blocks) : List.Forall₂ (LaidOut (xs.map Prod.fst)) xs blocks := by
  refine (mapM_eq_ok_iff.1 h).imp ?_
  rintro ⟨start, d⟩ block hblock
  simp only at hblock
  split at hblock
  · cases hblock
  · next t line hterm =>
    obtain ⟨t', ht', hblock⟩ := bind_eq_ok.1 hblock
    obtain ⟨hs, -, hblock⟩ := bind_eq_ok.1 hblock
    cases hblock
    exact ⟨rfl, rfl, t, line, hterm, ht'⟩

theorem getElem?_of_layoutIndex {starts : List Nat} {start b : Nat} (h : layoutIndex starts start = .ok b) :
    starts[b]? = some start := by
  unfold layoutIndex at h
  split at h
  · next i hi =>
    cases h
    obtain ⟨hlt, heq, -⟩ := List.idxOf?_eq_some_iff.1 hi
    exact List.getElem?_eq_some_iff.2 ⟨hlt, heq⟩
  · cases h

theorem targets_of_layoutTerminator {starts : List Nat} {t t' : Terminator} (h : layoutTerminator starts t = .ok t') {start : BlockId → Nat}
    (hstart : ∀ n b, layoutIndex starts n = .ok b → start b = n) : t'.mapTargets start = t ∧ t'.reads = t.reads := by
  cases t with
  | goto n | branch kind type lhs rhs n =>
    obtain ⟨b, hb, heq⟩ := bind_eq_ok.1 h
    cases heq
    rw [Terminator.mapTargets, hstart n b hb]
    exact ⟨rfl, rfl⟩
  | ret value | throw value =>
    cases h
    exact ⟨rfl, rfl⟩

/-- Drafts that tile the stream start where the blocks laid out from them do. -/
theorem start_of_tiling {R : Nat × DraftBlock → Block → Prop} (hR : ∀ x block, R x block → Body.blockSize block = x.2.length + 1)
    (hlaid : List.Forall₂ R xs blocks) {a e : Nat} (htiling : Tiling a xs e) :
    (∀ (b : Nat) (x : Nat × DraftBlock), xs[b]? = some x → a + Body.blocksSize (blocks.take b) = x.1) ∧
      a + Body.blocksSize blocks = e := by
  induction hlaid generalizing a with
  | nil => exact ⟨by simp, htiling⟩
  | cons hx hrest ih =>
    obtain ⟨rfl, htiling⟩ := htiling
    obtain ⟨hstarts, hend⟩ := ih htiling
    have hsize := hR _ _ hx
    refine ⟨fun b y hy => ?_, ?_⟩
    · cases b with
      | zero =>
        cases hy
        rfl
      | succ b =>
        have hstart := hstarts b y (by simpa using hy)
        simp only [List.take_succ_cons, Body.blocksSize]
        omega
    · simp only [Body.blocksSize]
      omega

end PackedBody

namespace Unpacker

variable {p : PackedBody} {types : List Descriptor} {done : List (Nat × DraftBlock)} {s : Unpacker} {k : Nat}

/-- If every block has ended, the blocks by start are those that were read, in this order. -/
theorem Tiles.toList_eq (h : s.Tiles p types done k) (hended : ∀ x ∈ s.blocks.toList, x.2.terminator.isSome) :
    s.blocks.toList = done := by
  have hsorted : s.blocks.toList.Pairwise (fun x y => x.1 < y.1) := by
    refine TreeMap.ordered_keys_toList.imp fun {x y} hxy => ?_
    exact Nat.compare_eq_lt.1 hxy
  have hmem (x : Nat × DraftBlock) : x ∈ s.blocks.toList ↔ x ∈ done := by
    rw [TreeMap.mem_toList_iff_getElem?_eq_some]
    constructor
    · intro hx
      exact (h.ended x.1 x.2 (hended x (TreeMap.mem_toList_iff_getElem?_eq_some.2 hx))).1 hx
    · intro hx
      obtain ⟨-, t, line, i, hterm, -⟩ := h.cut x hx
      exact (h.ended x.1 x.2 (by simp [hterm])).2 hx
  have hperm : s.blocks.toList.Perm done := by
    refine (List.perm_ext_iff_of_nodup (hsorted.imp fun hlt heq => ?_) (h.tiling.pairwise.imp fun hlt heq => ?_)).2 hmem
    all_goals exact absurd (heq ▸ hlt) (Nat.lt_irrefl _)
  exact hperm.eq_of_pairwise (fun x y _ _ hxy hyx => absurd (Nat.lt_trans hxy hyx) (Nat.lt_irrefl _)) hsorted h.tiling.pairwise

/-- **What is accepted lies in the stream block by block**, and nothing in it is out of range. -/
theorem Tiles.cutInto (h : s.Tiles p types done p.views.length) (hcurrent : s.current = none) {blocks : List Block}
    (hblocks : p.layoutBlocks s.blocks.toList = .ok blocks) {c : Body} (hc : c.blocks = blocks) :
    p.CutInto c ∧ ∀ block ∈ blocks, ∀ v ∈ block.defs ++ block.reads, v < s.values.length := by
  have hlaid := PackedBody.laidOut_of_layoutBlocks hblocks
  have hdone : s.blocks.toList = done := h.toList_eq fun x hx => by
    obtain ⟨block, -, hblock⟩ := exists_of_mem_left hlaid hx
    obtain ⟨t, line, hterm, -⟩ := hblock.terminator
    simp [hterm]
  have htiling := h.tiling
  rw [hcurrent, Option.getD_none] at htiling
  rw [hdone] at hlaid
  have hsize (x : Nat × DraftBlock) (block : Block) (hx : PackedBody.LaidOut (done.map Prod.fst) x block) :
      Body.blockSize block = x.2.length + 1 := by
    rw [Body.blockSize, DraftBlock.length, hx.phis, hx.body]
  obtain ⟨hstarts, hend⟩ := PackedBody.start_of_tiling hsize hlaid htiling
  have hstart (b : BlockId) (x : Nat × DraftBlock) (hx : done[b]? = some x) : c.start b = x.1 := by
    rw [Body.start, hc, ← hstarts b x hx, Nat.zero_add]
  have hindex (start : Nat) (b : BlockId) (hb : PackedBody.layoutIndex (done.map Prod.fst) start = .ok b) : c.start b = start := by
    have hget := PackedBody.getElem?_of_layoutIndex hb
    rw [List.getElem?_map, Option.map_eq_some_iff] at hget
    obtain ⟨x, hx, rfl⟩ := hget
    exact hstart b x hx
  have hblock (b : BlockId) (block : Block) (hb : c.blocks[b]? = some block) :
      ∃ x, done[b]? = some x ∧ PackedBody.LaidOut (done.map Prod.fst) x block := by
    rw [hc] at hb
    obtain ⟨hlt, rfl⟩ := List.getElem?_eq_some_iff.1 hb
    have hlt' : b < done.length := hlaid.length_eq ▸ hlt
    exact ⟨done[b], List.getElem?_eq_getElem hlt', hlaid.get hlt' hlt⟩
  have hlast (b : BlockId) (x : Nat × DraftBlock) (block : Block) (hx : done[b]? = some x)
      (hlaidOut : PackedBody.LaidOut (done.map Prod.fst) x block) :
      c.start b + block.phis.length + block.body.length = x.1 + x.2.length := by
    rw [hstart b x hx, hlaidOut.phis, hlaidOut.body, DraftBlock.length, Nat.add_assoc]
  refine ⟨⟨?_, fun b block hb => ?_, fun b block hb => ?_⟩, fun block hmem v hv => ?_⟩
  · rw [hc, ← hend, Nat.zero_add]
  · obtain ⟨x, hx, hlaidOut⟩ := hblock b block hb
    rw [hlast b x block hx hlaidOut, hstart b x hx]
    exact (h.cut x (List.mem_of_getElem? hx)).1
  · obtain ⟨x, hx, hlaidOut⟩ := hblock b block hb
    rw [hlast b x block hx hlaidOut]
    obtain ⟨-, t, line, i, hterm, hat, hends⟩ := h.cut x (List.mem_of_getElem? hx)
    obtain ⟨t', line', hterm', hlayout⟩ := hlaidOut.terminator
    obtain ⟨rfl, rfl⟩ : t = t' ∧ line = line' := by simpa using hterm.symm.trans hterm'
    refine ⟨i, hat, ?_⟩
    rw [(PackedBody.targets_of_layoutTerminator hlayout hindex).1]
    exact hends
  · obtain ⟨x, hx, hlaidOut⟩ := exists_of_mem_left hlaid.flip hmem
    obtain ⟨t, line, hterm, hlayout⟩ := hlaidOut.terminator
    have hreads := (PackedBody.targets_of_layoutTerminator hlayout hindex).2
    have hget : s.blocks[x.1]? = some x.2 := (h.ended x.1 x.2 (by simp [hterm])).2 hx
    refine h.mentions x.1 x.2 hget v ?_
    simp only [Block.defs, Block.reads, hlaidOut.phis, hlaidOut.body, hreads, List.mem_append, List.mem_map, List.mem_filterMap,
      List.mem_flatMap] at hv
    simp only [DraftBlock.mentions, hterm, Option.toList_some, List.flatMap_singleton, List.mem_append, List.mem_flatMap, List.mem_cons,
      Option.mem_toList]
    rcases hv with (⟨phi, hphi, rfl⟩ | ⟨i, hi, hv⟩) | (⟨phi, hphi, hv⟩ | ⟨i, hi, hv⟩) | hv
    · exact .inl (.inl ⟨phi, hphi, .inl rfl⟩)
    · exact .inl (.inr ⟨i, hi, .inl hv⟩)
    · exact .inl (.inl ⟨phi, hphi, .inr hv⟩)
    · exact .inl (.inr ⟨i, hi, .inr hv⟩)
    · exact .inr hv

end Unpacker

/-! ### Faults -/

namespace Outcome

variable {ε δ α β : Type}

theorem bind_eq_stop {x : Outcome ε α} {f : α → Outcome ε β} {c : Fault} (h : (x >>= f) = stop c) :
    x = stop c ∨ ∃ a, x = .ok a ∧ f a = stop c := by
  cases x with
  | error e => exact .inl (congrArg Except.error (Except.error.inj h))
  | ok a => exact .inr ⟨a, rfl, h⟩

theorem ofExcept_ne_stop {x : Except ε α} {f : ε → δ} {c : Fault} : ofExcept f x ≠ stop c := by
  cases x with
  | error e =>
    intro h
    cases h
  | ok a =>
    intro h
    cases h

theorem mapError_eq_stop {x : Outcome ε α} {f : ε → δ} {c : Fault} : mapError f x = stop c ↔ x = stop c := by
  rcases x with (e | e) | b <;> simp [mapError, raise, stop]

end Outcome

/-- Verification faults on values without a place only. -/
theorem Body.verify_ne_stop {c : Body} (h : ∀ v ∈ c.defs ++ c.reads, v < c.values.length) (f : Fault) :
    c.verify ≠ Outcome.stop f := by
  have hok : c.valuesInRange = .ok () := valuesInRange_eq_ok.2 h
  unfold verify
  rw [hok]
  cases c.firstError? c.targetError? with
  | some e => exact fun hstop => by cases hstop
  | none =>
    cases (c.predecessorsOf 0).isEmpty with
    | false => exact fun hstop => by cases hstop
    | true =>
      cases c.firstError? c.phiError? with
      | some e => exact fun hstop => by cases hstop
      | none => cases c.undefined? with
        | some e => exact fun hstop => by cases hstop
        | none => exact fun hstop => by cases hstop

namespace PackedBody

variable {p : PackedBody} {method : MethodRef} {isStatic : Bool} {types : List Descriptor}

theorem exists_of_unpack_eq_stop {f : Fault} (h : p.unpack method isStatic types = Outcome.stop f) :
    types.length = p.argumentCount ∧ ∃ s : Unpacker, (p.views.forM (Unpacking.step p)).run
        { values := (Body.withArguments method isStatic types).values
          slots := (List.range types.length).map some ++ List.replicate p.instructionCount none
          linesAhead := p.lines } = .ok ((), s) ∧
      p.close (Body.withArguments method isStatic types) s = Outcome.stop f := by
  unfold unpack at h
  by_cases hlength : types.length = p.argumentCount
  · rw [if_neg (not_not_intro hlength)] at h
    obtain h | ⟨⟨⟨⟩, s⟩, hrun, h⟩ := Outcome.bind_eq_stop h
    · exact absurd h Outcome.ofExcept_ne_stop
    · simp only at h
      by_cases hcount : p.instructionCount = 0
      · rw [if_pos hcount] at h
        cases h
      · rw [if_neg hcount] at h
        exact ⟨hlength, s, Outcome.ofExcept_eq_ok.1 hrun, h⟩
  · rw [if_pos hlength] at h
    cases h

theorem exists_of_close_eq_stop {code : Body} {s : Unpacker} {f : Fault} (h : p.close code s = Outcome.stop f) :
    s.current = none ∧ ∃ blocks, p.layoutBlocks s.blocks.toList = .ok blocks ∧
      Body.verify { code with values := s.values, blocks := blocks } = Outcome.stop f := by
  unfold close at h
  cases hcurrent : s.current with
  | some start =>
    rw [hcurrent] at h
    cases h
  | none =>
    rw [hcurrent] at h
    obtain h | ⟨_, -, h⟩ := Outcome.bind_eq_stop h
    · exact absurd h Outcome.ofExcept_ne_stop
    obtain h | ⟨blocks, hblocks, h⟩ := Outcome.bind_eq_stop h
    · exact absurd h Outcome.ofExcept_ne_stop
    refine ⟨rfl, blocks, Outcome.ofExcept_eq_ok.1 hblocks, ?_⟩
    simp only at h
    cases hfind : s.values.findIdx? (·.origin == .unresolved) with
    | some v =>
      rw [hfind] at h
      cases h
    | none =>
      rw [hfind] at h
      obtain h | ⟨_, -, h⟩ := Outcome.bind_eq_stop h
      · exact Outcome.mapError_eq_stop.1 h
      · cases h

theorem unpack_ne_stop (f : Fault) : p.unpack method isStatic types ≠ Outcome.stop f := by
  intro h
  obtain ⟨hlength, s, hrun, hclose⟩ := exists_of_unpack_eq_stop h
  obtain ⟨done, htiles⟩ := Unpacker.tiles_of_run hlength hrun
  obtain ⟨hcurrent, blocks, hblocks, hverify⟩ := exists_of_close_eq_stop hclose
  obtain ⟨-, hrange⟩ := htiles.cutInto hcurrent hblocks (c := ⟨method, isStatic, [], [], blocks⟩) rfl
  refine Body.verify_ne_stop (fun v hv => ?_) f hverify
  simp only [Body.defs, Body.reads, List.mem_append, List.mem_flatMap] at hv
  rcases hv with (harg | ⟨block, hblock, hv⟩) | ⟨block, hblock, hv⟩
  · exact Nat.lt_of_lt_of_le (List.mem_range.1 harg) htiles.length
  · exact hrange block hblock v (List.mem_append_left _ hv)
  · exact hrange block hblock v (List.mem_append_right _ hv)

theorem unpackChecked_eq_ok_iff {c : Body} :
    p.unpackChecked method isStatic types = .ok c ↔ p.unpack method isStatic types = .ok c := by
  unfold unpackChecked
  split
  · next e he =>
    rw [he]
    cases e.overflows <;> simp [Outcome.stop, Outcome.raise]
  · exact Iff.rfl

theorem unpackChecked_eq_stop_iff {f : Fault} : p.unpackChecked method isStatic types = Outcome.stop f ↔
    f = .overflow ∧ ∃ i : Int, Int64.maxValue.toInt < i ∧ p.unpack method isStatic types = Outcome.raise (.valueIndex i) := by
  unfold unpackChecked
  constructor
  · intro h
    split at h
    · next e he =>
      split at h
      · next hover =>
        cases h
        refine ⟨rfl, ?_⟩
        cases e with
        | valueIndex i => exact ⟨i, of_decide_eq_true hover, he⟩
        | _ => cases hover
      · cases h
    · exact absurd h (unpack_ne_stop f)
  · rintro ⟨rfl, i, hi, he⟩
    rw [he]
    exact if_pos (decide_eq_true hi)

/-- **Reading any stream is safe.** There is no fault where arithmetic wraps around. Where it is checked for overflow
    there is one for value operands that lead to an index beyond sixty-three bits, which are refused otherwise, and for
    nothing else. A body that is accepted verifies, every value of it has an origin, its first values are the arguments
    with the types that were given (as long as value indices fit in thirty-two bits), and its blocks lie in the stream
    one behind the other, so that a branch that is not taken goes on with the block that starts at the next
    instruction. -/
theorem unpack_any (p : PackedBody) (method : MethodRef) (isStatic : Bool) (types : List Descriptor) :
    (∀ f, p.unpack method isStatic types ≠ Outcome.stop f) ∧
      (∀ f, p.unpackChecked method isStatic types = Outcome.stop f ↔
        f = .overflow ∧ ∃ i : Int, Int64.maxValue.toInt < i ∧ p.unpack method isStatic types = Outcome.raise (.valueIndex i)) ∧
      (∀ c, p.unpackChecked method isStatic types = .ok c ↔ p.unpack method isStatic types = .ok c) ∧
      ∀ c, p.unpack method isStatic types = .ok c →
        c.verify = .ok () ∧ (∀ x ∈ c.values, x.origin ≠ .unresolved) ∧ c.arguments = List.range types.length ∧
        (p.argumentCount + p.views.length ≤ UInt32.size →
          ∀ (i : Nat) (t : Descriptor), types[i]? = some t → c.values[i]? = some ⟨t, .argument i⟩) ∧
        p.CutInto c ∧
        ∀ (b : BlockId) (block : Block) (kind : Comparison) (type : ComparedType) (lhs : ValueId) (rhs : Option ValueId) (target : BlockId),
          c.blocks[b]? = some block → block.terminator = .branch kind type lhs rhs target →
            b + 1 < c.blocks.length ∧ ∃ k start l r, p.HasAt k (.branch kind type start l r) ∧
              c.start (b + 1) = k + 1 ∧ c.start target = start := by
  refine ⟨unpack_ne_stop, fun f => unpackChecked_eq_stop_iff, fun c => unpackChecked_eq_ok_iff, fun c hc => ?_⟩
  obtain ⟨hlength, -, s, hrun, hclose⟩ := unpack_eq_ok_iff.1 hc
  obtain ⟨done, htiles⟩ := Unpacker.tiles_of_run hlength hrun
  obtain ⟨hcurrent, -, blocks, hblocks, hresolved, rfl, hwell⟩ := close_eq_ok_iff.1 hclose
  have hcut : p.CutInto { Body.withArguments method isStatic types with values := s.values, blocks := blocks } :=
    (htiles.cutInto hcurrent hblocks rfl).1
  refine ⟨Body.verify_eq_ok_iff.2 hwell, hresolved, rfl, fun hsize => (htiles.arguments hsize).values, hcut, ?_⟩
  intro b block kind type lhs rhs target hb hterm
  refine ⟨hwell.targets b block hb (b + 1) ?_, ?_⟩
  · simp only [Block.targets, hterm, Terminator.successors, List.mem_append]
    split <;> simp_all
  · obtain ⟨i, hat, hends⟩ := hcut.last b block hb
    rw [hterm] at hends
    cases i with
    | branch kind' type' start l r =>
      obtain ⟨rfl, rfl, -, rfl⟩ := hends
      refine ⟨_, _, l, r, hat, ?_, rfl⟩
      rw [Body.start_succ hb, Body.blockSize, Nat.add_assoc, Nat.add_assoc, Nat.add_assoc]
    | _ => exact hends.elim

/-- A branch over a return. -/
def branchSample : PackedBody where
  constants := []
  bytes := [0x51, 2, 2, 2, 0x08, 0x08]
  argumentCount := 1
  instructionCount := 3
  lines := []
  handlers := ∅

/-- What the sample is unpacked to. -/
def branchBody : Body where
  method := ⟨⟨"Lp/A;"⟩, "run", .void, [.int]⟩
  isStatic := true
  arguments := [0]
  values := [⟨.int, .argument 0⟩]
  blocks := [{ terminator := .branch .eq .int 0 none 2 }, { terminator := .ret none }, { terminator := .ret none }]

theorem unpack_any_branchSample :
    branchSample.unpack branchBody.method true [.int] = .ok branchBody ∧
      branchSample.unpackChecked branchBody.method true [.int] = .ok branchBody ∧
      branchSample.argumentCount + branchSample.views.length ≤ UInt32.size ∧ branchBody.values[0]? = some ⟨.int, .argument 0⟩ ∧
      ∃ k l r, branchSample.HasAt k (.branch .eq .int 2 l r) ∧ branchBody.start 1 = k + 1 := by
  have hunpack : branchSample.unpack branchBody.method true [.int] = .ok branchBody := by decide +kernel
  have hsize : branchSample.argumentCount + branchSample.views.length ≤ UInt32.size := by decide +kernel
  obtain ⟨-, -, hchecked, haccepted⟩ := unpack_any branchSample branchBody.method true [.int]
  obtain ⟨-, -, -, hvalues, -, hbranch⟩ := haccepted branchBody hunpack
  obtain ⟨-, k, start, l, r, hat, hnext, htarget⟩ := hbranch 0 _ .eq .int 0 none 2 rfl rfl
  obtain rfl : 2 = start := by rw [← htarget]; decide
  exact ⟨hunpack, (hchecked branchBody).2 hunpack, hsize, hvalues hsize 0 .int rfl, k, l, r, hat, hnext⟩

/-- The result is as far before the first instruction as a distance can be. -/
def farSample : PackedBody where
  constants := []
  bytes := [0x62, 10, 255, 255, 255, 255, 255, 255, 255, 255, 255, 1]
  argumentCount := 0
  instructionCount := 1
  lines := []
  handlers := ∅

example : farSample.unpack branchBody.method true [] = Outcome.raise (.valueIndex (2 ^ 63)) ∧
    farSample.unpackChecked branchBody.method true [] = Outcome.stop .overflow := by decide +kernel

end PackedBody

end DexShrinker
