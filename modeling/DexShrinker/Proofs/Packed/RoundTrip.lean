/-
  DexShrinker/Proofs/Packed/RoundTrip.lean
  ========================================
  **Unpacking undoes packing, up to the names of values.**

  A well-formed body in single-assignment form is packed without a fault, and the only
  errors are operands that are too large and branches without an opcode. What was
  packed unpacks to the same body under new names (`unpack_pack`): same blocks, phis,
  operations, lines, targets and handlers.

  The stream of the packed body is the one the entries were written as
  (`PackedAs.views_eq`), reading it leads to complete drafts (`runs_views`), and laying
  these out gives the blocks back (`close_eq_ok`).
-/
import DexShrinker.Proofs.Packed.Unpack

namespace DexShrinker

open Std Unpacking

/-! ### The stream of a packed body -/

theorem Op.mem_numbers_code {op : Op} {k n : Nat} (h : n ∈ (op.code k).numbers) : n = k ∨ n ∈ op.reads := by
  cases op <;> simp_all [Op.code, PackedInstr.numbers, Op.reads]

namespace Body

variable {c : Body} {p : PackedBody}

theorem exitCode_fits (hc : c.WellFormed) (hsize : c.slots.length ≤ UInt32.size) {b : BlockId} {block : Block}
    (hb : c.blocks[b]? = some block) : (c.exitCode b block.terminator).Fits := by
  have hread (v : ValueId) (hv : v ∈ block.terminator.reads) : c.indexOf v < UInt32.size := by
    have hdef := hc.defined v (mem_reads_of_block (List.mem_of_getElem? hb) (by simp [Block.reads, hv]))
    exact Nat.lt_of_lt_of_le (indexOf_lt hdef) hsize
  have hstart (t : BlockId) (ht : t ∈ block.terminator.successors b) : c.start t < UInt32.size := by
    have hlt := start_lt (hc.targets b block hb t (by simp [Block.targets, ht])) (Nat.le_refl _)
    rw [start_length] at hlt
    rw [length_slots] at hsize
    omega
  intro n hn
  cases hterm : block.terminator with
  | goto target =>
    rw [hterm, exitCode] at hn
    split at hn
    · simp [PackedInstr.numbers] at hn
    · simp only [PackedInstr.numbers, List.mem_singleton] at hn
      exact hn ▸ hstart target (by simp [hterm, Terminator.successors])
  | branch kind type lhs rhs target =>
    rw [hterm, exitCode] at hn
    simp only [PackedInstr.numbers, List.mem_cons, Option.mem_toList, Option.map_eq_some_iff] at hn
    rcases hn with rfl | rfl | ⟨v, hv, rfl⟩
    · refine hstart target ?_
      rw [hterm, Terminator.successors]
      split <;> simp
    · exact hread lhs (by simp [hterm, Terminator.reads])
    · exact hread v (by simp [hterm, Terminator.reads, hv])
  | ret value =>
    rw [hterm, exitCode] at hn
    simp only [PackedInstr.numbers, Option.mem_toList, Option.map_eq_some_iff] at hn
    obtain ⟨v, hv, rfl⟩ := hn
    exact hread v (by simp [hterm, Terminator.reads, hv])
  | throw value =>
    rw [hterm, exitCode] at hn
    simp only [PackedInstr.numbers, List.mem_singleton] at hn
    exact hn ▸ hread value (by simp [hterm, Terminator.reads])

/-- The numbers of a written entry have thirty-two bits if the values do. -/
theorem PackedAs.fits (hp : c.PackedAs p) (hc : c.WellFormed) (hsize : c.slots.length ≤ UInt32.size) {k : Nat} {e : Entry}
    (he : c.entries[k]? = some e) {i : PackedInstr} (hi : e.Written p.constants i) : i.Fits := by
  have hk : k < blocksSize c.blocks := by
    rw [← c.length_entries]
    exact (List.getElem?_eq_some_iff.1 he).1
  obtain ⟨b, block, j, hb, hj, rfl⟩ := exists_position hk
  rw [Unpacker.getElem?_entries hb hj] at he
  obtain ⟨n, rfl, hn, -⟩ := hi
  have hpool : n < UInt32.size := by
    have hle := hp.pool
    have hpos : 0 < UInt32.size := by decide
    rw [length_slots] at hsize
    omega
  have hread (v : ValueId) (hv : v ∈ block.reads) : c.indexOf v < UInt32.size :=
    Nat.lt_of_lt_of_le (indexOf_lt (hc.defined v (mem_reads_of_block (List.mem_of_getElem? hb) hv))) hsize
  rcases Unpacker.offset_cases hj with ⟨phi, hphi⟩ | ⟨m, i, rfl, hinstr⟩ | rfl
  · rw [Unpacker.blockEntries_phi hphi] at he
    cases he
    intro x hx
    simp only [phiEntry, PackedInstr.numbers, List.mem_cons, List.mem_map] at hx
    rcases hx with rfl | ⟨v, hv, rfl⟩
    · exact hpool
    · refine hread v ?_
      simp only [Block.reads, List.mem_append, List.mem_flatMap]
      exact .inl (.inl ⟨phi, List.mem_of_getElem? hphi, hv⟩)
  · rw [Unpacker.blockEntries_instr hinstr] at he
    cases he
    intro x hx
    rcases Op.mem_numbers_code hx with rfl | hx
    · exact hpool
    · rw [Op.reads_mapReads, List.mem_map] at hx
      obtain ⟨v, hv, rfl⟩ := hx
      refine hread v ?_
      simp only [Block.reads, List.mem_append, List.mem_flatMap]
      exact .inl (.inr ⟨i, List.mem_of_getElem? hinstr, hv⟩)
  · rw [Unpacker.blockEntries_exit] at he
    cases he
    exact exitCode_fits hc hsize hb

/-- Cutting the packed stream apart gives the entries in order. -/
theorem PackedAs.views_eq (hp : c.PackedAs p) (hc : c.WellFormed) (hsize : c.slots.length ≤ UInt32.size) :
    ∃ views : List InstrView, p.views = views.map .ok ∧ views.length = blocksSize c.blocks ∧
      ∀ (k : Nat) (view : InstrView), views[k]? = some view →
        ∃ (e : Entry) (i : PackedInstr), c.entries[k]? = some e ∧ e.Written p.constants i ∧ view.Shows p.argumentCount k i := by
  obtain ⟨insns, hwritten, hstream⟩ := hp.stream
  have hlen : c.entries.length = insns.length := hwritten.length_eq
  have hentry (k : Nat) (i : PackedInstr) (hi : insns[k]? = some i) :
      ∃ e, c.entries[k]? = some e ∧ e.Written p.constants i := by
    obtain ⟨hlt, rfl⟩ := List.getElem?_eq_some_iff.1 hi
    have hlt' : k < c.entries.length := hlen ▸ hlt
    exact ⟨c.entries[k], List.getElem?_eq_getElem hlt', hwritten.get hlt' hlt⟩
  obtain ⟨views, hvlen, hviews, hscan⟩ := hstream.scanBytes
  refine ⟨views, ?_, by rw [hvlen, ← hlen, c.length_entries], ?_⟩
  · have hall := hscan []
    rw [List.append_nil] at hall
    rw [PackedBody.views, hall]
    simp [scanBytes]
  · intro k view hk
    have hlt : k < insns.length := hvlen ▸ (List.getElem?_eq_some_iff.1 hk).1
    obtain ⟨view', hk', hbears⟩ := hviews k _ (List.getElem?_eq_getElem hlt)
    obtain rfl : view = view' := Option.some.inj (hk.symm.trans hk')
    obtain ⟨e, he, hw⟩ := hentry k _ (List.getElem?_eq_getElem hlt)
    exact ⟨e, _, he, hw, hbears.shows (hp.fits hc hsize he hw)⟩

end Body

namespace Unpacker

variable {c : Body} {p : PackedBody} {s : Unpacker}

/-! ### The run over the stream -/

/-- The state before the first instruction. -/
def start (p : PackedBody) (types : List Descriptor) : Unpacker where
  values := types.mapIdx fun i t => ⟨t, .argument i⟩
  slots := (List.range types.length).map some ++ List.replicate p.instructionCount none
  linesAhead := p.lines

theorem at_start (hp : c.PackedAs p) {types : List Descriptor} (htypes : types.length = c.arguments.length) :
    (start p types).At c p 0 := by
  have hslot (i j : Nat) : (start p types).slots[i]? = some (some j) ↔ i = j ∧ i < types.length := by
    simp only [start, List.getElem?_append, List.length_map, List.length_range, List.getElem?_map, List.getElem?_replicate]
    split
    · next hlt => simp [hlt]
    · next hge => simp [hge]
  have hargument (i : Nat) (hi : i < c.arguments.length) : c.slots[i]? = some (some c.arguments[i]) := by
    rw [Body.slots, List.getElem?_append_left (by simpa using hi), List.getElem?_map, List.getElem?_eq_getElem hi]
    rfl
  refine ⟨⟨?_, ?_, ?_, ?_, ?_, ?_⟩, ⟨?_, ?_⟩, ⟨?_, ?_, ?_⟩, ?_, ?_⟩
  · rw [c.length_slots, ← hp.instructionCount, ← htypes]
    simp [start]
  · intro i j hij
    exact ⟨_, hargument i (htypes ▸ ((hslot i j).1 hij).2)⟩
  · intro i j hij
    obtain ⟨rfl, hlt⟩ := (hslot i j).1 hij
    simpa [start] using hlt
  · intro i i' j hij hij'
    rw [((hslot i j).1 hij).1, ((hslot i' j).1 hij').1]
  · intro j hj
    exact ⟨j, (hslot j j).2 ⟨rfl, by simpa [start] using hj⟩⟩
  · intro i v hi _
    have hlt : i < types.length := by
      rw [htypes]
      exact hi
    exact ⟨i, ⟨types[i], .argument i⟩, (hslot i i).2 ⟨rfl, hlt⟩, by simp [start, List.getElem?_eq_getElem hlt], by simp⟩
  · cases hlines : p.lines <;> simp [start, hlines]
  · cases hlines : p.lines <;> simp [start, hlines]
  · intro f hf
    refine List.ext_getElem (by simp) fun i hi hi' => ?_
    have hlt : i < c.arguments.length := by simpa using hi'
    rw [List.getElem_map, List.getElem_range]
    exact hf i _ i (hargument i hlt) ((hslot i i).2 ⟨rfl, htypes ▸ hlt⟩)
  · simp [start]
  · simp
  · intro b block j _ hpos _ hk
    omega
  · intro b _ _
    rfl

/-- **The whole stream** takes the unpacker from the start to complete drafts. -/
theorem runs_views (hc : c.WellFormed) (hs : c.SingleAssignment) (hp : c.PackedAs p)
    (hsize : c.slots.length ≤ UInt32.size) (hstart : s.At c p 0) :
    Runs (p.views.forM (step p)) s fun _ s' => s'.At c p (Body.blocksSize c.blocks) := by
  obtain ⟨views, hviews, hlen, hshows⟩ := hp.views_eq hc hsize
  rw [hviews, ← hlen, ← List.length_map (f := Except.ok (ε := PackedError))]
  refine Runs.forM (fun k s => s.At c p k) (fun k item s hk hat => ?_) hstart
  rw [List.getElem?_map, Option.map_eq_some_iff] at hk
  obtain ⟨view, hview, rfl⟩ := hk
  obtain ⟨e, i, he, hi, hshow⟩ := hshows k view hview
  exact hat.runs_step hc hs hp hsize he hi hshow

end Unpacker

/-! ### Laying out the drafts -/

/-- A map with sorted entries is listed as they are. -/
theorem TreeMap.toList_eq {α : Type} {m : TreeMap Nat α} {l : List (Nat × α)} (hsorted : l.Pairwise fun x y => x.1 < y.1)
    (hmem : ∀ k v, m[k]? = some v ↔ (k, v) ∈ l) : m.toList = l := by
  have hlist : m.toList.Pairwise fun x y => x.1 < y.1 :=
    TreeMap.ordered_keys_toList.imp fun h => Nat.compare_eq_lt.1 h
  have hnodup (l : List (Nat × α)) (h : l.Pairwise fun x y => x.1 < y.1) : l.Nodup :=
    List.Pairwise.imp (fun {x y} (hlt : x.1 < y.1) (heq : x = y) => Nat.lt_irrefl y.1 (heq ▸ hlt)) h
  refine List.Perm.eq_of_pairwise (fun a b _ _ hab hba => absurd hba (Nat.lt_asymm hab)) hlist hsorted ?_
  refine (List.perm_ext_iff_of_nodup (hnodup _ hlist) (hnodup _ hsorted)).2 fun x => ?_
  rw [← hmem x.1 x.2]
  exact TreeMap.mem_toList_iff_getElem?_eq_some

namespace Body

variable {c : Body} {p : PackedBody} {s : Unpacker} {f : ValueId → ValueId} {b : Nat} {block : Block}

/-- The complete drafts under the starts of their blocks. -/
def finalDrafts (c : Body) (f : ValueId → ValueId) : List (Nat × DraftBlock) :=
  c.blocks.mapIdx fun b block => (c.start b, c.draftAt f block (blockSize block))

theorem toList_blocks (h : s.At c p (blocksSize c.blocks)) (hf : s.Calls c.slots f) :
    s.blocks.toList = c.finalDrafts f := by
  have hcomplete (b : Nat) (block : Block) (hb : c.blocks[b]? = some block) :
      c.draftAt f block (blocksSize c.blocks - c.start b) = c.draftAt f block (blockSize block) := by
    have hlt := start_add_lt hb (Nat.sub_lt (blockSize_pos block) Nat.one_pos)
    exact draftAt_of_le (by omega)
  refine TreeMap.toList_eq ?_ fun k d => ?_
  · rw [finalDrafts, List.pairwise_iff_getElem]
    intro i j _ hj hij
    simp only [List.getElem_mapIdx]
    exact start_lt hij (by simpa using Nat.le_of_lt hj)
  · rw [finalDrafts, List.mem_mapIdx]
    constructor
    · intro hd
      obtain ⟨b, block, hb, rfl, hdraft⟩ := h.drafts.drafts k d hd
      obtain ⟨hlt, rfl⟩ := List.getElem?_eq_some_iff.1 hb
      exact ⟨b, hlt, by rw [hdraft f hf, hcomplete b _ hb]⟩
    · rintro ⟨b, hlt, heq⟩
      cases heq
      have hb : c.blocks[b]? = some c.blocks[b] := List.getElem?_eq_getElem hlt
      have hstart : c.start b < blocksSize c.blocks := by
        rw [← start_length]
        exact start_lt hlt (Nat.le_refl _)
      obtain ⟨d, hd⟩ := Option.isSome_iff_exists.1 (h.drafts.present b _ hb hstart)
      obtain ⟨b', block', hb', heq, hdraft⟩ := h.drafts.drafts _ d hd
      obtain rfl : b = b' := start_inj hlt (List.getElem?_eq_some_iff.1 hb').1 heq
      obtain rfl := Option.some.inj (hb.symm.trans hb')
      rw [hd, hdraft f hf, hcomplete b _ hb]

/-- The starts of all blocks in order. -/
def starts (c : Body) : List Nat := (List.range c.blocks.length).map c.start

theorem map_fst_finalDrafts : (c.finalDrafts f).map Prod.fst = c.starts := by
  refine List.ext_getElem (by simp [finalDrafts, starts]) fun i hi hi' => ?_
  simp [finalDrafts, starts]

theorem layoutIndex_start (hb : b < c.blocks.length) : PackedBody.layoutIndex c.starts (c.start b) = .ok b := by
  have hfind : c.starts.idxOf? (c.start b) = some b := by
    rw [List.idxOf?_eq_some_iff]
    refine ⟨by simpa [starts] using hb, by simp [starts], fun j hj => ?_⟩
    simp only [starts, List.getElem_map, List.getElem_range]
    exact Nat.ne_of_lt (start_lt hj (Nat.le_of_lt hb))
  rw [PackedBody.layoutIndex, hfind]

theorem layoutHandlers_eq_ok (hp : c.PackedAs p) (hc : c.WellFormed) (hb : c.blocks[b]? = some block) :
    p.layoutHandlers c.starts (c.start b) = .ok block.handlers := by
  have hget : p.handlers.getD (c.start b) [] = c.packedHandlers block := by
    rw [TreeMap.getD_eq_getD_getElem?]
    by_cases hempty : block.handlers = []
    · have hnone : p.handlers[c.start b]? = none := by
        rw [Option.eq_none_iff_forall_ne_some]
        intro hs hget
        obtain ⟨b', block', hb', heq, -, hne⟩ := (hp.handlers _ hs).1 hget
        obtain rfl := start_inj (List.getElem?_eq_some_iff.1 hb).1 (List.getElem?_eq_some_iff.1 hb').1 heq
        obtain rfl := Option.some.inj (hb.symm.trans hb')
        exact hne hempty
      simp [hnone, packedHandlers, hempty]
    · rw [(hp.handlers _ _).2 ⟨b, block, hb, rfl, rfl, hempty⟩, Option.getD_some]
  rw [PackedBody.layoutHandlers, hget, packedHandlers, List.mapM_map]
  refine (mapM_eq_ok (g := id) block.handlers fun h hh => ?_).trans (by simp)
  have htarget := hc.targets b block hb h.target (by simp only [Block.targets, List.mem_append, List.mem_map]; exact .inr ⟨h, hh, rfl⟩)
  simp only [Function.comp_apply, layoutIndex_start htarget]
  rfl

theorem checkHandlers_eq_ok (hp : c.PackedAs p) (hc : c.WellFormed) : p.checkHandlers c.starts = .ok () := by
  refine forM_eq_ok_iff.2 fun x hx => ?_
  obtain ⟨b, block, hb, hk, hhs, -⟩ := (hp.handlers x.1 x.2).1 (TreeMap.mem_toList_iff_getElem?_eq_some.1 hx)
  simp only [hk, layoutIndex_start (List.getElem?_eq_some_iff.1 hb).1, hhs]
  refine forM_eq_ok_iff.2 fun h hh => ?_
  obtain ⟨h', hh', rfl⟩ := List.mem_map.1 hh
  have htarget := hc.targets b block hb h'.target (by simp only [Block.targets, List.mem_append, List.mem_map]; exact .inr ⟨h', hh', rfl⟩)
  simp only [layoutIndex_start htarget]
  rfl

theorem layoutTerminator_eq_ok (hc : c.WellFormed) (hb : c.blocks[b]? = some block) :
    PackedBody.layoutTerminator c.starts ((block.terminator.mapReads f).mapTargets c.start) =
      .ok (block.terminator.mapReads f) := by
  have htarget (t : BlockId) (ht : t ∈ block.terminator.successors b) : PackedBody.layoutIndex c.starts (c.start t) = .ok t :=
    layoutIndex_start (hc.targets b block hb t (by simp [Block.targets, ht]))
  cases hterm : block.terminator with
  | goto target =>
    simp only [Terminator.mapReads, Terminator.mapTargets, PackedBody.layoutTerminator,
      htarget target (by simp [hterm, Terminator.successors])]
    rfl
  | branch kind type lhs rhs target =>
    have hindex := htarget target (by
      rw [hterm, Terminator.successors]
      split <;> simp)
    simp only [Terminator.mapReads, Terminator.mapTargets, PackedBody.layoutTerminator, hindex]
    rfl
  | ret value => rfl
  | throw value => rfl

/-- **Laying out the complete drafts gives the blocks back**, renamed. -/
theorem layoutBlocks_eq_ok (hp : c.PackedAs p) (hc : c.WellFormed) :
    p.layoutBlocks (c.finalDrafts f) = .ok (c.blocks.map (Block.renamed f)) := by
  have hdrafts : c.finalDrafts f = (c.blocks.mapIdx fun b block => (b, block)).map fun x =>
      (c.start x.1, c.draftAt f x.2 (blockSize x.2)) := List.ext_getElem (by simp [finalDrafts]) fun i _ _ => by simp [finalDrafts]
  have hblocks : (c.blocks.mapIdx fun b block => (b, block)).map (fun x => x.2.renamed f) = c.blocks.map (Block.renamed f) :=
    List.ext_getElem (by simp) fun i _ _ => by simp
  simp only [PackedBody.layoutBlocks, map_fst_finalDrafts]
  rw [hdrafts, List.mapM_map, ← hblocks]
  refine mapM_eq_ok _ fun x hx => ?_
  obtain ⟨b, hlt, rfl⟩ := List.mem_mapIdx.1 hx
  have hb : c.blocks[b]? = some c.blocks[b] := List.getElem?_eq_getElem hlt
  have hdraft : c.draftAt f c.blocks[b] (blockSize c.blocks[b]) =
      ⟨c.blocks[b].phis.map (Phi.renamed f), c.blocks[b].body.map (Instr.renamed f),
        some ((c.blocks[b].terminator.mapReads f).mapTargets c.start, c.blocks[b].terminatorLine), []⟩ := by
    simp only [draftAt, Nat.le_refl, if_true, blockSize]
    rw [List.take_of_length_le (by omega), List.take_of_length_le (by omega)]
  simp only [Function.comp_apply, hdraft, layoutTerminator_eq_ok hc hb, layoutHandlers_eq_ok hp hc hb]
  rfl

/-! ### The round trip -/

/-- The name a state gives to a value. -/
def nameIn (c : Body) (s : Unpacker) (v : ValueId) : ValueId := ((s.slots[c.indexOf v]?).join).getD 0

theorem calls_nameIn (hs : c.SingleAssignment) : s.Calls c.slots (c.nameIn s) := by
  intro i v j hv hj
  rw [nameIn, indexOf_eq hs.nodup hv, hj]
  rfl

/-- Once every definition has been read, each has a name of its own and each name is that
    of a value with an origin. -/
theorem names_complete (hs : c.SingleAssignment) (h : s.Names c.slots c.slots.length) :
    (∀ v ∈ c.defs, c.nameIn s v < s.values.length) ∧
      (∀ v ∈ c.defs, ∀ w ∈ c.defs, c.nameIn s v = c.nameIn s w → v = w) ∧
      ∀ x ∈ s.values, x.origin ≠ .unresolved := by
  have hslot (v : ValueId) (hv : v ∈ c.defs) : s.slots[c.indexOf v]? = some (some (c.nameIn s v)) := by
    obtain ⟨j, x, hj, -⟩ := h.done _ v (indexOf_lt hv) (getElem?_indexOf hv)
    rw [hj, calls_nameIn hs _ v j (getElem?_indexOf hv) hj]
  refine ⟨fun v hv => h.bounded _ _ (hslot v hv), fun v hv w hw heq => ?_, fun x hx => ?_⟩
  · have hindex : c.indexOf v = c.indexOf w := h.unique _ _ _ (hslot v hv) (heq ▸ hslot w hw)
    have hget := getElem?_indexOf hv
    rw [hindex, getElem?_indexOf hw] at hget
    cases hget
    rfl
  · obtain ⟨j, hj⟩ := List.mem_iff_getElem?.1 hx
    obtain ⟨i, hi⟩ := h.onto j (List.getElem?_eq_some_iff.1 hj).1
    obtain ⟨v, hv⟩ := h.known i j hi
    obtain ⟨j', x', hi', hx', horigin⟩ := h.done i v (List.getElem?_eq_some_iff.1 hv).1 hv
    obtain rfl : j = j' := Option.some.inj (Option.some.inj (hi.symm.trans hi'))
    exact Option.some.inj (hj.symm.trans hx') ▸ horigin

/-- **Unpacking what was packed** gives the body back under other names for its values. -/
theorem PackedAs.unpack (hp : c.PackedAs p) (hc : c.WellFormed) (hs : c.SingleAssignment) (hne : c.blocks ≠ [])
    (hsize : c.slots.length ≤ UInt32.size) {types : List Descriptor} (htypes : types.length = c.arguments.length) :
    ∃ c' f, p.unpack c.method c.isStatic types = .ok c' ∧ c.RenamedBy f c' := by
  obtain ⟨_, s, hrun, hat⟩ := Unpacker.runs_views hc hs hp hsize (Unpacker.at_start hp htypes)
  have hcalls := calls_nameIn (s := s) hs
  have hnames : s.Names c.slots c.slots.length := c.length_slots ▸ hat.names
  obtain ⟨hrange, hinj, horigin⟩ := names_complete hs hnames
  have harguments : List.range types.length = c.arguments.map (c.nameIn s) := by
    rw [htypes, hat.drafts.arguments _ hcalls]
  let c' : Body := ⟨c.method, c.isStatic, List.range types.length, s.values, c.blocks.map (Block.renamed (c.nameIn s))⟩
  have hverify : c'.verify = .ok () := verify_eq_ok_iff.2 (hc.mirrored harguments (forall₂_mirrors_renamed _ _) hrange horigin)
  have hcurrent : s.current = none := hat.between c.blocks.length (Nat.le_refl _) start_length.symm
  have hunresolved : s.values.findIdx? (·.origin == .unresolved) = none := by
    simpa [List.findIdx?_eq_none_iff] using horigin
  have hclose : p.close (withArguments c.method c.isStatic types) s = .ok c' := by
    simp only [PackedBody.close, hcurrent, toList_blocks hat hcalls, map_fst_finalDrafts, checkHandlers_eq_ok hp hc,
      layoutBlocks_eq_ok hp hc, hunresolved]
    change (Outcome.mapError PackedError.body c'.verify >>= fun _ => pure c') = _
    rw [hverify]
    rfl
  have hcount : p.instructionCount ≠ 0 := by
    rw [hp.instructionCount, ← start_length]
    have hpos := start_lt (c := c) (List.length_pos_iff.2 hne) (Nat.le_refl _)
    omega
  refine ⟨c', c.nameIn s, ?_, rfl, rfl, harguments, rfl, ?_⟩
  · rw [PackedBody.unpack, if_neg (by simp [htypes, hp.argumentCount])]
    change (Outcome.ofExcept id ((p.views.forM (Unpacking.step p)).run (Unpacker.start p types)) >>= _) = _
    rw [hrun]
    change (if p.instructionCount = 0 then _ else _) = _
    rw [if_neg hcount]
    exact hclose
  · have hdefs : c'.defs = c.defs.map (c.nameIn s) := defs_of_mirrors harguments (forall₂_mirrors_renamed _ _)
    refine ⟨fun v hv => ?_, fun v hv w hw heq => hinj v hv w hw heq, fun w hw => ?_⟩
    · exact hdefs ▸ List.mem_map_of_mem hv
    · obtain ⟨v, hv, rfl⟩ := List.mem_map.1 (hdefs ▸ hw)
      exact ⟨v, hv, rfl⟩

/-- The types of the arguments. -/
def argumentTypes (c : Body) : List Descriptor := c.arguments.map fun v => (c.values[v]?.map Value.type).getD .void

/-- **Packing and unpacking.** A body with at least one block that passes verification and
    is in single-assignment form packs without a fault, failing only where operands are
    too large or a branch has no opcode. If it packs and its value indices fit into
    thirty-two bits, unpacking with the types of its arguments gives the same body under
    other names for its values. -/
theorem unpack_pack (c : Body) (hne : c.blocks ≠ []) (hverify : c.verify = .ok ()) (hs : c.SingleAssignment) :
    (∀ e, c.pack = .error e →
      (∃ n, e = .error (.operandsTooLarge n)) ∨ ∃ kind, e = .error (.unsupportedBranch kind)) ∧
    ∀ p, c.pack = .ok p → c.arguments.length + blocksSize c.blocks ≤ UInt32.size →
      ∃ c' f, p.unpack c.method c.isStatic c.argumentTypes = .ok c' ∧ c.RenamedBy f c' := by
  have hc := verify_eq_ok_iff.1 hverify
  refine ⟨fun e he => ?_, fun p hpack hsize => ?_⟩
  · obtain ⟨cause, rfl, hlimit⟩ := pack_error_isLimit hc hs he
    cases cause with
    | operandsTooLarge n => exact .inl ⟨n, rfl⟩
    | unsupportedBranch kind => exact .inr ⟨kind, rfl⟩
    | _ => exact hlimit.elim
  · have hp := packedAs_of_pack hc hs hpack
    exact hp.unpack hc hs hne (c.length_slots ▸ hsize) (by simp [argumentTypes])

/-- A loop whose phi reads a value that is defined after it, with a guarded block and a
    virtual call that is flagged as one of an interface. -/
def loopSample : Body where
  method := ⟨⟨"Lp/A;"⟩, "run", ⟨.void, [.int]⟩⟩
  isStatic := true
  arguments := [3]
  values := [⟨.int, .instruction⟩, ⟨.int, .phi⟩, ⟨.int, .instruction⟩, ⟨.int, .argument 0⟩]
  blocks :=
    [{ body := [⟨some 0, .constInt 7, 1⟩], terminator := .goto 1, terminatorLine := 1 },
     { phis := [⟨1, [0, 2]⟩], terminator := .branch .ge .int 1 (some 3) 3, terminatorLine := 2 },
     { body := [⟨some 2, .binary .add .int 1 0, 3⟩], terminator := .goto 1, terminatorLine := 3,
       handlers := [⟨.object, 3⟩] },
     { body := [⟨none, .invoke .virtual ⟨⟨"Lp/A;"⟩, "done", ⟨.void, []⟩⟩ [3] true, 4⟩], terminator := .ret none }]

theorem unpack_pack_loopSample :
    loopSample.blocks ≠ [] ∧ loopSample.verify = .ok () ∧ loopSample.SingleAssignment ∧
      ∃ p, loopSample.pack = .ok p ∧ loopSample.arguments.length + blocksSize loopSample.blocks ≤ UInt32.size ∧
        ∃ c' f, p.unpack loopSample.method loopSample.isStatic loopSample.argumentTypes = .ok c' ∧
          loopSample.RenamedBy f c' := by
  have hne : loopSample.blocks ≠ [] := by decide
  have hverify : loopSample.verify = .ok () := by decide
  have hs : loopSample.SingleAssignment := ⟨by decide, by decide⟩
  have hsize : loopSample.arguments.length + blocksSize loopSample.blocks ≤ UInt32.size := by decide
  have hpacks : loopSample.pack.isOk = true := by decide +kernel
  cases hpack : loopSample.pack with
  | error e =>
    rw [hpack] at hpacks
    cases hpacks
  | ok p => exact ⟨hne, hverify, hs, p, rfl, hsize, (unpack_pack loopSample hne hverify hs).2 p hpack hsize⟩

end Body

end DexShrinker
