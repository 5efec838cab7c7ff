/-
  DexShrinker/Proofs/Packed/Lines.lean
  ====================================
  **The source line of every instruction.**

  The table of lines has an entry only where the line changes, and nothing stands for the line before
  the first entry, which may come back later. A packer that follows commands keeps the table in the
  order of instructions (`Packer.Lined`), so looking a line up by halving gives what the packer was
  told last (`PackedBody.lineAt_eq_lineIn`). Unpacking looks nothing up: it has passed the entries that
  start below the next instruction (`PackedBody.linesAt_of_readTo`), and no other step changes its line
  (`Unpacking.keepsLines_instruction`). So both give every instruction the line that was set when it was added.
-/
import DexShrinker.Proofs.Packed.Building
import DexShrinker.Proofs.Packed.Defining
import DexShrinker.Proofs.Sorting

namespace DexShrinker

open Std

/-! ### Looking up -/

theorem getLast?_takeWhile {α : Type} {p : α → Bool} {xs : List α} {i : Nat} (h : (xs.takeWhile p).length = i + 1) :
    (xs.takeWhile p).getLast? = xs[i]? := by
  rw [List.getLast?_eq_getElem?, h, Nat.add_sub_cancel]
  obtain ⟨rest, hrest⟩ := List.takeWhile_prefix (l := xs) p
  conv_rhs => rw [← hrest]
  exact (List.getElem?_append_left (by omega)).symm

/-- Halving gives the line of the last entry that starts at or before an instruction. -/
theorem PackedBody.lineAt_eq_lineIn {p : PackedBody} (h : p.lines.Pairwise fun l l' => l.start < l'.start) (k : Nat) :
    p.lineAt k = lineIn p.lines k := by
  have hfirst : p.lines.Pairwise fun l l' => decide (l'.start ≤ k) = true → decide (l.start ≤ k) = true := by
    refine h.imp fun {l l'} hlt hle => ?_
    rw [decide_eq_true_iff] at hle ⊢
    omega
  rw [lineAt, partitionPoint_eq hfirst, lineIn]
  cases hlength : (p.lines.takeWhile fun l => decide (l.start ≤ k)).length with
  | zero => rw [List.length_eq_zero_iff.1 hlength, List.getLast?_nil, Option.map_none, Option.getD_none]
  | succ i => rw [getLast?_takeWhile hlength]

/-! ### What commands set -/

namespace Packer

/-- The line that the command sets. -/
def Command.line? : Command → Option Line
  | line l => some l
  | argument | handlers .. | op _ | phi .. | exit .. => none

/-- The line that is set after commands. -/
def lineOf (cs : List Command) : Line := cs.foldl (fun l c => c.line?.getD l) 0

/-- The lines of the instructions that commands add, in order, when `l` is set before the first. -/
def linesFrom (l : Line) : List Command → List Line
  | [] => []
  | c :: cs => (if c.entry?.isSome then [l] else []) ++ linesFrom (c.line?.getD l) cs

theorem lineOf_snoc (cs : List Command) (c : Command) : lineOf (cs ++ [c]) = c.line?.getD (lineOf cs) := by
  rw [lineOf, List.foldl_append, List.foldl_cons, List.foldl_nil, lineOf]

theorem linesFrom_snoc (l : Line) (cs : List Command) (c : Command) :
    linesFrom l (cs ++ [c]) =
      linesFrom l cs ++ if c.entry?.isSome then [cs.foldl (fun l c => c.line?.getD l) l] else [] := by
  induction cs generalizing l with
  | nil => simp [linesFrom]
  | cons c' cs ih => rw [List.cons_append, linesFrom, ih, linesFrom, List.append_assoc, List.foldl_cons]

theorem Command.line?_of_entry? {c : Command} {e : Entry} (he : c.entry? = some e) : c.line? = none ∧ e.line = none := by
  cases c <;> cases he <;> exact ⟨rfl, rfl⟩

/-- The packer has followed the commands, and its table of lines gives every instruction the line that was set when it
    was added. -/
structure Lined (q : Packer) (cs : List Command) : Prop where
  table : q.NotesLines
  line : q.line = lineOf cs
  lines : (List.range q.instructionCount).map (lineIn q.lines) = linesFrom 0 cs

variable {q : Packer} {cs : List Command} {c : Command}

/-- A command that adds an instruction gives it the line set last. -/
theorem Lined.write (h : q.Lined cs) {e : Entry} (he : c.entry? = some e) : (q.write e).Lined (cs ++ [c]) := by
  obtain ⟨hnone, hline⟩ := Command.line?_of_entry? he
  rw [write_eq_push, hline, Option.getD_none]
  have htable : NotesLines { q with constants := grow q.constants e.constant, line := q.line } :=
    ⟨h.table.ordered, h.table.starts, h.table.noted⟩
  refine ⟨htable.push _, ?_, ?_⟩
  · rw [push_line, h.line, lineOf_snoc, hnone, Option.getD_none]
  · rw [push_instructionCount, List.range_succ, List.map_append, linesFrom_snoc, he, Option.isSome_some, if_pos rfl, ← h.lines]
    congr 1
    · refine List.map_congr_left fun k hk => ?_
      have hlt := List.mem_range.1 hk
      rw [htable.lineIn_push _ (Nat.le_of_lt hlt), if_neg (Nat.ne_of_lt hlt)]
    · rw [List.map_singleton, htable.lineIn_push _ (Nat.le_refl _), if_pos rfl, h.line, lineOf]

theorem lines_of_none (he : c.entry? = none) (q : Packer) :
    (q.perform c).lines = q.lines ∧ (q.perform c).notedLine = q.notedLine ∧ (q.perform c).line = c.line?.getD q.line := by
  cases c with
  | argument | line => exact ⟨rfl, rfl, rfl⟩
  | handlers block hs =>
    rw [perform, addHandlers]
    split <;> exact ⟨rfl, rfl, rfl⟩
  | op | phi | exit => cases he

/-- Other commands leave the table of lines alone. -/
theorem Lined.skip (h : q.Lined cs) (he : c.entry? = none) : (q.perform c).Lined (cs ++ [c]) := by
  obtain ⟨-, hcount, -⟩ := perform_of_none he q
  obtain ⟨hlines, hnoted, hline⟩ := lines_of_none he q
  refine ⟨⟨?_, ?_, ?_⟩, ?_, ?_⟩
  · rw [hlines]
    exact h.table.ordered
  · rw [hlines, hcount]
    exact h.table.starts
  · rw [hlines, hnoted]
    exact h.table.noted
  · rw [hline, lineOf_snoc, h.line]
  · rw [hlines, hcount, h.lines, linesFrom_snoc, he]
    simp

/-- **Commands in any order** give every instruction the line set last before it. -/
theorem lined_build (cs : List Command) : (cs.foldl perform {}).Lined cs := by
  induction cs using List.reverseRecOn with
  | nil => exact ⟨⟨.nil, by simp, rfl⟩, rfl, rfl⟩
  | append_singleton cs c ih =>
    rw [List.foldl_append]
    cases he : c.entry? with
    | some e =>
      rw [List.foldl_cons, List.foldl_nil, perform_eq_write he]
      exact ih.write he
    | none => exact ih.skip he

/-! ### The instructions of the stream -/

/-- Without an error the stream has been cut into one item for each instruction, also if value indices have moved. -/
def Itemized (q : Packer) : Prop :=
  q.error = none → ∀ argc, ∃ vs : List InstrView, vs.length = q.instructionCount ∧
    ∀ rest, scanBytes argc 0 0 (q.bytes ++ rest) = vs.map .ok ++ scanBytes argc q.bytes.length q.instructionCount rest

theorem Itemized.push (h : q.Itemized) (i : PackedInstr) : (q.push i).Itemized := by
  rw [Packer.push]
  cases henc : i.encode q.nextValue with
  | error e =>
    intro herror
    simp only [Option.orElse_eq_orElse, Option.orElse_eq_or, Option.or_eq_none_iff, reduceCtorEq, and_false] at herror
  | ok bytes =>
    intro herror argc
    obtain ⟨vs, hlength, hscan⟩ := h herror argc
    obtain ⟨op, -, hcut⟩ := scanBytes_encode henc
    let view : InstrView :=
      ⟨q.instructionCount, valueIndexOf argc q.instructionCount, q.bytes.length, op, InstrView.operandsOf op q.nextValue i⟩
    refine ⟨vs ++ [view], ?_, fun rest => ?_⟩
    · rw [List.length_append, hlength, List.length_singleton]
      rfl
    · change scanBytes argc 0 0 (q.bytes ++ bytes ++ rest) =
        (vs ++ [view]).map .ok ++ scanBytes argc (q.bytes ++ bytes).length (q.instructionCount + 1) rest
      rw [List.append_assoc, hscan, hcut, List.map_append, List.map_singleton, List.append_assoc, List.singleton_append,
        List.length_append]

theorem itemized_build (cs : List Command) : (cs.foldl perform {}).Itemized := by
  induction cs using List.reverseRecOn with
  | nil => exact fun _ _ => ⟨[], rfl, fun _ => rfl⟩
  | append_singleton cs c ih =>
    rw [List.foldl_append, List.foldl_cons, List.foldl_nil]
    cases he : c.entry? with
    | some e =>
      rw [perform_eq_write he, write_eq_push]
      refine Itemized.push ?_ _
      exact ih
    | none =>
      cases c with
      | argument | line => exact ih
      | handlers block hs =>
        rw [perform, addHandlers]
        split <;> exact ih
      | op | phi | exit => cases he

theorem length_views_of_build {p : PackedBody} (h : build cs = .ok p) : p.views.length = p.instructionCount := by
  obtain ⟨herror, rfl⟩ := finish_eq_ok h
  obtain ⟨vs, hlength, hscan⟩ := itemized_build cs herror (cs.foldl perform {}).argumentCount
  have hall := hscan []
  rw [List.append_nil, scanBytes, List.append_nil] at hall
  rw [PackedBody.views, hall, List.length_map, hlength]

end Packer

/-! ### The line while unpacking -/

namespace Unpacking

variable {p : PackedBody}

/-- Nothing happens to lines from `s` to `t`. -/
def KeepsLines (s t : Unpacker) : Prop := t.linesAhead = s.linesAhead ∧ t.line = s.line

theorem KeepsLines.rfl {s : Unpacker} : KeepsLines s s := ⟨.refl _, .refl _⟩

theorem keepsLines_modify {f : Unpacker → Unpacker} (h : ∀ s, KeepsLines s (f s)) : Framed KeepsLines (modify f) :=
  fun s => Ensures.modify (h s)

theorem keepsLines_get_bind {α : Type} {f : Unpacker → Unpacking α} (h : ∀ s, Framed KeepsLines (f s)) :
    Framed KeepsLines (get >>= f) :=
  fun s => Ensures.get_bind (h s s)

/-- Mentioning values leaves lines alone. -/
theorem frame_lines : Frame KeepsLines where
  refl _ := .rfl
  trans h h' := ⟨h'.1.trans h.1, h'.2.trans h.2⟩
  value i := by
    unfold value
    intro s
    refine Ensures.get_bind ?_
    split
    · exact Ensures.throw _
    · exact Ensures.pure .rfl
    · intro v t hrun
      cases hrun
      exact .rfl

theorem keepsLines_define (i : Nat) (type : Descriptor) (origin : Origin) : Framed KeepsLines (define i type origin) :=
  frame_lines.bind (frame_lines.value i) fun v =>
    frame_lines.bind (keepsLines_modify fun _ => .rfl) fun _ => frame_lines.pure v

theorem keepsLines_openBlock (start : Nat) : Framed KeepsLines (openBlock start) :=
  keepsLines_modify fun s => by split <;> exact .rfl

theorem keepsLines_openTarget (count start : Nat) : Framed KeepsLines (openTarget count start) := by
  unfold openTarget
  split
  · exact .throw _
  · exact keepsLines_openBlock start

theorem keepsLines_onCurrent (f : DraftBlock → DraftBlock) : Framed KeepsLines (onCurrent f) :=
  keepsLines_modify fun _ => .rfl

theorem keepsLines_terminate (e : Terminator) : Framed KeepsLines (terminate e) :=
  keepsLines_get_bind fun _ => frame_lines.bind (keepsLines_onCurrent _) fun _ => keepsLines_modify fun _ => .rfl

theorem keepsLines_enterBlock (k : Nat) : Framed KeepsLines (enterBlock k) := by
  intro s
  refine Ensures.get_bind ?_
  split
  · exact keepsLines_openBlock k { s with current := some k }
  · split
    · exact Ensures.throw _
    · exact Ensures.pure .rfl

theorem keepsLines_instruction (v : InstrView) (i : PackedInstr) : Framed KeepsLines (instruction p v i) := by
  have one {β : Type} (i : Nat) {f : ValueId → Unpacking β} (hf : ∀ v, Framed KeepsLines (f v)) :
      Framed KeepsLines (value i >>= f) :=
    frame_lines.bind (frame_lines.value i) hf
  by_cases hplain : IsPlain i
  · rw [instruction_plain hplain]
    refine frame_lines.bind (frame_lines.operation p i) fun x => frame_lines.bind ?_ fun dest =>
      keepsLines_get_bind fun s => keepsLines_onCurrent _
    cases x.2 with
    | none => exact frame_lines.pure _
    | some type => exact frame_lines.bind (keepsLines_define v.valueIndex type .instruction) fun v => frame_lines.pure _
  · cases i with
    | phi type operands =>
      exact .lift_bind fun type => frame_lines.bind (keepsLines_define v.valueIndex type .phi) fun dest =>
        frame_lines.bind (frame_lines.values operands) fun vs => keepsLines_onCurrent _
    | goto target => exact frame_lines.bind (keepsLines_openTarget _ target) fun _ => keepsLines_terminate _
    | «fallthrough» => exact frame_lines.bind (keepsLines_openTarget _ (v.index + 1)) fun _ => keepsLines_terminate _
    | branch kind type target lhs rhs =>
      exact frame_lines.bind (keepsLines_openTarget _ target) fun _ =>
        frame_lines.bind (keepsLines_openTarget _ (v.index + 1)) fun _ =>
          one lhs fun lhs => frame_lines.bind (frame_lines.value? rhs) fun rhs => keepsLines_terminate _
    | ret value => exact frame_lines.bind (frame_lines.value? value) fun v => keepsLines_terminate _
    | throw value => exact one value fun v => keepsLines_terminate _
    | _ => exact absurd trivial hplain

end Unpacking

namespace Unpacker

open Unpacking (Ensures Runs KeepsLines)

variable {p : PackedBody} {k : Nat} {s : Unpacker}

theorem LinesAt.keep {t : Unpacker} (h : s.LinesAt p.lines k) (hkeeps : KeepsLines s t) : t.LinesAt p.lines k :=
  ⟨hkeeps.1.trans h.ahead, hkeeps.2.trans h.line⟩

/-- An instruction is read with the lines passed that start at or before it. -/
theorem LinesAt.step (h : s.LinesAt p.lines k) {item : Except PackedError InstrView} (hitem : p.views[k]? = some item) :
    Ensures (Unpacking.step p item) s fun _ t => t.LinesAt p.lines (k + 1) := by
  refine Ensures.lift_bind ?_
  rintro v rfl
  rw [(PackedBody.index_of_views hitem).1]
  obtain ⟨_, t, hpass, ht, -⟩ := runs_passLines h
  have hlines : Ensures (Unpacking.passLines k) s fun _ t => t.LinesAt p.lines (k + 1) := by
    intro _ t' hrun
    rw [hpass] at hrun
    cases hrun
    exact ht
  refine hlines.bind fun _ t₁ h₁ u₂ t₂ hrun => ?_
  have hkeeps : Unpacking.Framed KeepsLines (Unpacking.enterBlock k >>= fun _ => liftM v.decode >>= Unpacking.instruction p v) :=
    Unpacking.frame_lines.bind (Unpacking.keepsLines_enterBlock k) fun _ =>
      .lift_bind fun i => Unpacking.keepsLines_instruction v i
  exact h₁.keep (hkeeps t₁ u₂ t₂ hrun)

end Unpacker

/-- Read the first `k` instructions of a packed body. -/
def PackedBody.readTo (p : PackedBody) (method : MethodRef) (isStatic : Bool) (types : List Descriptor) (k : Nat) :
    Except PackedError Unpacker :=
  Prod.snd <$> ((p.views.take k).forM (Unpacking.step p)).run
    { values := (Body.withArguments method isStatic types).values
      slots := (List.range types.length).map some ++ List.replicate p.instructionCount none
      linesAhead := p.lines }

namespace PackedBody

variable {p : PackedBody} {method : MethodRef} {isStatic : Bool} {types : List Descriptor} {k : Nat} {s : Unpacker}

/-- **A run over the first instructions** passes the lines that start there. -/
theorem linesAt_of_readTo (hk : k ≤ p.views.length) (h : p.readTo method isStatic types k = .ok s) : s.LinesAt p.lines k := by
  obtain ⟨⟨_, t⟩, hrun, rfl⟩ := map_eq_ok.1 h
  rw [← List.length_take_of_le hk]
  refine Unpacking.Ensures.forM (fun k s => s.LinesAt p.lines k) (fun i item s hitem h => h.step ?_) ⟨?_, ?_⟩ () t hrun
  · rw [List.getElem?_take] at hitem
    split at hitem
    · exact hitem
    · cases hitem
  · cases hlines : p.lines <;> simp
  · cases hlines : p.lines <;> simp

/-- A body that is unpacked has been read to every instruction. -/
theorem readTo_of_unpack {c : Body} (h : p.unpack method isStatic types = .ok c) (k : Nat) :
    ∃ s, p.readTo method isStatic types k = .ok s := by
  obtain ⟨-, -, t, hrun, -⟩ := unpack_eq_ok_iff.1 h
  rw [← List.take_append_drop k p.views, List.forM_eq_forM, List.forM_append, StateT.run_bind] at hrun
  obtain ⟨⟨_, s⟩, htake, -⟩ := bind_eq_ok.1 hrun
  exact ⟨s, map_eq_ok.2 ⟨_, htake, rfl⟩⟩

end PackedBody

open Unpacking in
/-- **The lines of a body that was built.** There are as many items in the stream as instructions. Looking up the line of
    each by halving gives the line that the packer had been told last when the instruction was added. Unpacking has that
    line when it has moved on to the instruction, and keeps it while it reads the instruction. -/
theorem Packer.lines_of_build {cs : List Command} {p : PackedBody} (h : build cs = .ok p) :
    (List.range p.instructionCount).map p.lineAt = linesFrom 0 cs ∧ p.views.length = p.instructionCount ∧
      ∀ (method : MethodRef) (isStatic : Bool) (types : List Descriptor),
        (∀ c, p.unpack method isStatic types = .ok c → ∀ k, ∃ s, p.readTo method isStatic types k = .ok s) ∧
          ∀ k item s, p.views[k]? = some item → p.readTo method isStatic types k = .ok s →
            Runs (passLines k) s (fun _ t => t.line = p.lineAt k) ∧ Ensures (step p item) s fun _ t => t.line = p.lineAt k := by
  have hlined := lined_build cs
  have hlookup (k : Nat) : p.lineAt k = lineIn p.lines k := by
    refine PackedBody.lineAt_eq_lineIn ?_ k
    rw [(finish_eq_ok h).2]
    exact hlined.table.ordered
  refine ⟨?_, length_views_of_build h, fun method isStatic types =>
    ⟨fun c hc => PackedBody.readTo_of_unpack hc, fun k item s hitem hs => ?_⟩⟩
  · rw [← hlined.lines, List.map_congr_left fun k _ => hlookup k, (finish_eq_ok h).2]
  · have hat := PackedBody.linesAt_of_readTo (Nat.le_of_lt (List.getElem?_eq_some_iff.1 hitem).1) hs
    rw [hlookup]
    exact ⟨(Unpacker.runs_passLines hat).mono fun _ t ht => ht.1.line_eq, fun _ t hrun => (hat.step hitem _ t hrun).line_eq⟩

/-- The line before the first entry comes back, and one line is set that no instruction has. -/
def Packer.linesSample : List Packer.Command :=
  [.op (.constInt 1), .line 3, .op (.constInt 2), .op .debugPosition, .line 0, .op (.constInt 4), .line 3, .line 5,
    .exit (.ret (some 0)) rfl]

open Unpacking in
theorem Packer.lines_of_build_linesSample :
    ∃ p, build linesSample = .ok p ∧ (List.range p.instructionCount).map p.lineAt = [0, 3, 3, 0, 5] ∧
      ∃ c item s, p.unpack ⟨⟨"Lp/A;"⟩, "run", ⟨.void, []⟩⟩ true [] = .ok c ∧ p.views[3]? = some item ∧
        p.readTo ⟨⟨"Lp/A;"⟩, "run", ⟨.void, []⟩⟩ true [] 3 = .ok s ∧ Ensures (step p item) s fun _ t => t.line = p.lineAt 3 := by
  have hruns : ((build linesSample).toOption.any fun p =>
      (p.unpack ⟨⟨"Lp/A;"⟩, "run", ⟨.void, []⟩⟩ true []).isOk && (p.views[3]?).isSome) = true := by decide +kernel
  cases hbuild : build linesSample with
  | error e =>
    rw [hbuild] at hruns
    cases hruns
  | ok p =>
    rw [hbuild] at hruns
    obtain ⟨hunpack, hview⟩ := Bool.and_eq_true_iff.1 (show (_ && _) = true from hruns)
    obtain ⟨hlines, -, hread⟩ := lines_of_build hbuild
    obtain ⟨item, hitem⟩ := Option.isSome_iff_exists.1 hview
    obtain ⟨hreads, hcursor⟩ := hread ⟨⟨"Lp/A;"⟩, "run", ⟨.void, []⟩⟩ true []
    cases hc : p.unpack ⟨⟨"Lp/A;"⟩, "run", ⟨.void, []⟩⟩ true [] with
    | error e =>
      rw [hc] at hunpack
      cases hunpack
    | ok c =>
      obtain ⟨s, hs⟩ := hreads c hc 3
      exact ⟨p, rfl, hlines, c, item, s, hc, hitem, hs, (hcursor 3 item s hitem hs).2⟩

end DexShrinker
