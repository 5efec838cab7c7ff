/-
  DexShrinker/Proofs/Packed/Packer.lean
  =====================================
  **What the packer holds after a number of instructions.**

  An `Entry` is an instruction to be written: the line it sets, the constant it needs and
  its form once the constant has a place in the pool. Writing the entries of a list one
  after the other leaves a packer whose bytes are the stream of these instructions,
  whose pool has their constants, and whose table of lines gives every entry its line
  (`Holds.write`). The pool only grows at its end, so what was written stays true.
-/
import DexShrinker.Packed.Packer
import DexShrinker.Proofs.Packed.Instr
import Mathlib.Data.List.TakeWhile

namespace DexShrinker

/-- An instruction to be written. -/
structure Entry where
  /-- The source line it sets, if it sets one. -/
  line : Option Line
  constant : Option Constant
  /-- The instruction, given the place of its constant. -/
  code : Nat → PackedInstr

/-- Reasons for which a well-formed body cannot be packed. -/
def PackedError.IsLimit : PackedError → Prop
  | operandsTooLarge _ | unsupportedBranch _ => True
  | _ => False

namespace Entry

/-- The instruction is the entry's, over a constant of the pool. -/
def Written (pool : List Constant) (e : Entry) (i : PackedInstr) : Prop :=
  ∃ k, i = e.code k ∧ (k = 0 ∨ k < pool.length) ∧ ∀ c, e.constant = some c → pool[k]? = some c

theorem Written.extend {pool pool' : List Constant} {e : Entry} {i : PackedInstr} (hpool : pool <+: pool')
    (h : Written pool e i) : Written pool' e i := by
  obtain ⟨k, rfl, hk, hconst⟩ := h
  refine ⟨k, rfl, hk.imp_right fun h => Nat.lt_of_lt_of_le h hpool.length_le, fun c hc => ?_⟩
  obtain ⟨more, rfl⟩ := hpool
  rw [List.getElem?_append_left (List.getElem?_eq_some_iff.1 (hconst c hc)).1]
  exact hconst c hc

end Entry

/-! ### Operations -/

namespace Op

/-- The constant an operation needs. -/
def constant? : Op → Option Constant
  | constString s => some (.string s)
  | constClass t | newInstance t | newArray t _ | newUnboxedEnum t _ | arrayGet t _ _ | checkCast t _
  | instanceOf t _ => some (.type t)
  | constHandle h => some (.handle h)
  | constMethodType q => some (.proto q)
  | staticGet f | staticPut f _ | instanceGet f _ | instancePut f _ _ => some (.field f)
  | invoke _ m _ _ => some (.method m)
  | invokeCustom site _ => some (.callSite site)
  | constNull | constInt _ | constLong _ | arrayPut .. | arrayLength _ | binary .. | debugPosition => none

/-- The instruction of an operation over value indices, given the place of its constant. -/
def code : Op → Nat → PackedInstr
  | constNull, _ => .constNull
  | constInt v, _ => .constInt v
  | constLong v, _ => .constLong v
  | constString _, k | constClass _, k | constHandle _, k | constMethodType _, k => .loadConstant k
  | newInstance _, k => .newInstance k
  | newArray _ size, k => .newArray k size
  | newUnboxedEnum _ ordinal, k => .newUnboxedEnum k ordinal
  | arrayGet _ array index, k => .arrayGet k array index
  | arrayPut array index value, _ => .arrayPut array index value
  | arrayLength array, _ => .arrayLength array
  | staticGet _, k => .staticGet k
  | staticPut _ value, k => .staticPut k value
  | instanceGet _ object, k => .instanceGet k object
  | instancePut _ object value, k => .instancePut k object value
  | invoke kind _ args itf, k => .invoke kind itf k args
  | invokeCustom _ args, k => .invokeCustom k args
  | checkCast _ value, k => .checkCast k value
  | instanceOf _ value, k => .instanceOf k value
  | binary op t lhs rhs, _ => .binary op t lhs rhs
  | debugPosition, _ => .debugPosition

/-- An operation as an entry. -/
def entry (op : Op) (line : Line) : Entry := ⟨some line, op.constant?, op.code⟩

end Op

namespace Packer

/-- Write an entry. -/
def write (p : Packer) (e : Entry) : Packer :=
  let p := e.line.elim p p.setLine
  match e.constant with
  | none => p.push (e.code 0)
  | some c => p.pushWith c e.code

theorem addOp_eq_write (p : Packer) (op : Op) (line : Line) : (p.setLine line).addOp op = p.write (op.entry line) := by
  cases op <;> rfl

/-! ### Steps of the packer -/

section Push

variable (p : Packer) (i : PackedInstr)

@[simp] theorem push_constants : (p.push i).constants = p.constants := by
  unfold push
  split <;> rfl

@[simp] theorem push_argumentCount : (p.push i).argumentCount = p.argumentCount := by
  unfold push
  split <;> rfl

@[simp] theorem push_instructionCount : (p.push i).instructionCount = p.instructionCount + 1 := by
  unfold push
  split <;> rfl

@[simp] theorem push_lines : (p.push i).lines =
    if p.line = p.notedLine then p.lines else p.lines ++ [⟨p.instructionCount, p.line⟩] := by
  unfold push
  split <;> rfl

@[simp] theorem push_line : (p.push i).line = p.line := by
  unfold push
  split <;> rfl

@[simp] theorem push_notedLine : (p.push i).notedLine = p.line := by
  unfold push
  split <;> rfl

@[simp] theorem push_handlers : (p.push i).handlers = p.handlers := by
  unfold push
  split <;> rfl

end Push

/-- The constant gets a place in the pool, which grows at its end if at all. -/
theorem intern_eq (p : Packer) (c : Constant) :
    ∃ k pool, p.intern c = (k, { p with constants := pool }) ∧ p.constants <+: pool ∧ pool[k]? = some c ∧
      pool.length ≤ p.constants.length + 1 := by
  unfold intern
  split
  · next k hk =>
    obtain ⟨hlt, heq, -⟩ := List.idxOf?_eq_some_iff.1 hk
    exact ⟨k, p.constants, rfl, List.prefix_refl _, by simp [List.getElem?_eq_getElem hlt, heq], by omega⟩
  · exact ⟨_, _, rfl, List.prefix_append _ _, by simp, by simp⟩

/-- Writing an entry sets the line, finds the constant a place and writes the instruction. -/
theorem write_eq (p : Packer) (e : Entry) :
    ∃ k pool line, p.write e = ({ p with constants := pool, line := line } : Packer).push (e.code k) ∧
      p.constants <+: pool ∧ pool.length ≤ p.constants.length + 1 ∧ (k = 0 ∨ k < pool.length) ∧
      (∀ c, e.constant = some c → pool[k]? = some c) ∧ ∀ l, e.line = some l → line = l := by
  obtain ⟨line, hset, hline⟩ : ∃ line, e.line.elim p p.setLine = { p with line := line } ∧
      ∀ l, e.line = some l → line = l := by
    cases e.line with
    | none => exact ⟨p.line, rfl, by simp⟩
    | some l => exact ⟨l, rfl, by simp⟩
  cases hconst : e.constant with
  | none =>
    refine ⟨0, p.constants, line, ?_, List.prefix_refl _, by omega, .inl rfl, by simp, hline⟩
    simp only [write, hset, hconst]
  | some c =>
    obtain ⟨k, pool, hintern, hpool, hk, hlen⟩ := intern_eq { p with line := line } c
    have hle : k < pool.length := (List.getElem?_eq_some_iff.1 hk).1
    refine ⟨k, pool, line, ?_, hpool, hlen, .inr hle, by simp [hk], hline⟩
    simp only [write, hset, hconst, pushWith, hintern]

end Packer

/-! ### The table of lines -/

/-- The line that a table gives an instruction. -/
def lineIn (lines : List LineEntry) (k : Nat) : Line :=
  ((lines.takeWhile (·.start ≤ k)).getLast?.map LineEntry.line).getD 0

/-- An entry that starts later changes nothing before it. -/
theorem lineIn_append_of_lt {lines : List LineEntry} {k : Nat} {l : LineEntry} (h : k < l.start) :
    lineIn (lines ++ [l]) k = lineIn lines k := by
  have htake : (lines ++ [l]).takeWhile (·.start ≤ k) = lines.takeWhile (·.start ≤ k) := by
    rw [List.takeWhile_append]
    split
    · next hall =>
      have hstop : ¬ l.start ≤ k := by omega
      rw [List.takeWhile_cons_of_neg (by simpa using hstop), List.append_nil]
      exact ((List.takeWhile_prefix _).eq_of_length hall).symm
    · rfl
  rw [lineIn, htake, lineIn]

/-- Where all entries have started the last one is in effect. -/
theorem lineIn_of_forall_le {lines : List LineEntry} {k : Nat} (h : ∀ l ∈ lines, l.start ≤ k) :
    lineIn lines k = (lines.getLast?.map LineEntry.line).getD 0 := by
  rw [lineIn, List.takeWhile_eq_self_iff.2 (by simpa using h)]

/-- The table of lines is in the order of instructions, all of which have been written, and ends
    with the line that was noted. -/
structure Packer.NotesLines (p : Packer) : Prop where
  ordered : p.lines.Pairwise fun l l' => l.start < l'.start
  starts : ∀ l ∈ p.lines, l.start < p.instructionCount
  noted : (p.lines.getLast?.map LineEntry.line).getD 0 = p.notedLine

namespace Packer.NotesLines

variable {p : Packer}

/-- One more instruction gets an entry if its line is another one. -/
theorem push (h : p.NotesLines) (i : PackedInstr) : (p.push i).NotesLines := by
  refine ⟨?_, ?_, ?_⟩
  · rw [push_lines]
    split
    · exact h.ordered
    · exact List.pairwise_append.2 ⟨h.ordered, List.pairwise_singleton _ _, by simpa using h.starts⟩
  · intro l hl
    rw [push_lines] at hl
    rw [push_instructionCount]
    split at hl
    · exact Nat.lt_succ_of_lt (h.starts l hl)
    · rcases List.mem_append.1 hl with hold | hnew
      · exact Nat.lt_succ_of_lt (h.starts l hold)
      · simp only [List.mem_singleton] at hnew
        subst hnew
        exact Nat.lt_succ_self _
  · rw [push_lines, push_notedLine]
    split
    · next heq => rw [h.noted, heq]
    · simp

/-- The lines of earlier instructions stay and the new one has the current line. -/
theorem lineIn_push (h : p.NotesLines) (i : PackedInstr) {k : Nat} (hk : k ≤ p.instructionCount) :
    lineIn (p.push i).lines k = if k = p.instructionCount then p.line else lineIn p.lines k := by
  split
  · next heq =>
    subst heq
    have hnext := h.push i
    have hstarts : ∀ l ∈ (p.push i).lines, l.start ≤ p.instructionCount := by
      intro l hl
      have hlt := hnext.starts l hl
      rw [push_instructionCount] at hlt
      exact Nat.le_of_lt_succ hlt
    rw [lineIn_of_forall_le hstarts, hnext.noted, push_notedLine]
  · next hne =>
    rw [push_lines]
    split
    · rfl
    · exact lineIn_append_of_lt (Nat.lt_of_le_of_ne hk hne)

end Packer.NotesLines

/-- A packer that has met no error gives what it holds. -/
theorem Packer.finish_eq_ok {q : Packer} {p : PackedBody} (h : q.finish = .ok p) :
    q.error = none ∧ p = ⟨q.constants, q.bytes, q.argumentCount, q.instructionCount, q.lines, q.handlers⟩ := by
  unfold finish at h
  split at h
  · cases h
  · next herror =>
    cases h
    exact ⟨herror, rfl⟩

/-! ### The invariant -/

namespace PackedInstr

/-- An instruction that cannot be written has too many operands or no opcode. -/
theorem isLimit_of_encode {current : Nat} {i : PackedInstr} {e : PackedError} (h : i.encode current = .error e) :
    e.IsLimit := by
  unfold encode at h
  cases hop : i.opcode with
  | error e' =>
    rw [hop] at h
    cases h
    cases i with
    | branch kind type target lhs rhs =>
      simp only [opcode] at hop
      split at hop
      · cases hop
      · cases hop
        trivial
    | constInt value =>
      simp only [opcode] at hop
      split at hop <;> cases hop
    | ret value => cases value <;> cases hop
    | _ => cases hop
  | ok op =>
    rw [hop] at h
    change (if Opcode.isOneByte op = true then _ else _) = _ at h
    split at h
    · cases h
    · unfold headBytes at h
      split at h
      · cases h
      · cases h
        trivial

end PackedInstr

namespace Packer

/-- The packer has written the entries `es`. -/
structure Holds (p : Packer) (es : List Entry) : Prop where
  count : p.instructionCount = es.length
  table : p.NotesLines
  lines : ∀ k e line, es[k]? = some e → e.line = some line → lineIn p.lines k = line
  stream : p.error = none →
    ∃ insns, List.Forall₂ (Entry.Written p.constants) es insns ∧ Streamed p.argumentCount insns p.bytes
  errors : ∀ e, p.error = some e → e.IsLimit

theorem holds_start (argc : Nat) : Holds { argumentCount := argc } [] where
  count := rfl
  table := ⟨.nil, by simp, rfl⟩
  lines := by simp
  stream := fun _ => ⟨[], .nil, .nil⟩
  errors := by simp

variable {p : Packer} {es : List Entry} {e : Entry}

theorem Holds.addHandlers (h : p.Holds es) (start : Nat) (handlers : List Handler) :
    (p.addHandlers start handlers).Holds es := by
  unfold Packer.addHandlers
  split
  · exact h
  · exact ⟨h.count, ⟨h.table.ordered, h.table.starts, h.table.noted⟩, h.lines, h.stream, h.errors⟩

/-- A pool that has grown at its end serves what was written, and the line of the
    instructions to come does not matter to it. -/
theorem Holds.withPool (h : p.Holds es) {pool : List Constant} (hpool : p.constants <+: pool) (line : Line) :
    Holds { p with constants := pool, line := line } es := by
  refine ⟨h.count, ⟨h.table.ordered, h.table.starts, h.table.noted⟩, h.lines, fun herror => ?_, h.errors⟩
  obtain ⟨insns, hwritten, hstream⟩ := h.stream herror
  exact ⟨insns, hwritten.imp fun _ _ => Entry.Written.extend hpool, hstream⟩

/-- What writing an instruction does to the bytes and the error. -/
theorem push_cases (p : Packer) (i : PackedInstr) :
    (∃ bytes, i.encode p.nextValue = .ok bytes ∧ (p.push i).bytes = p.bytes ++ bytes ∧ (p.push i).error = p.error) ∨
    (∃ e, i.encode p.nextValue = .error e ∧ (p.push i).error = (p.error <|> some e)) := by
  unfold push
  split
  · next bytes henc => exact .inl ⟨bytes, henc, rfl, rfl⟩
  · next e henc => exact .inr ⟨e, henc, rfl⟩

theorem Holds.push (h : p.Holds es) {k : Nat} (hk : k = 0 ∨ k < p.constants.length)
    (hconst : ∀ c, e.constant = some c → p.constants[k]? = some c) (hline : ∀ line, e.line = some line → p.line = line) :
    (p.push (e.code k)).Holds (es ++ [e]) := by
  refine ⟨?_, h.table.push _, ?_, ?_, ?_⟩
  · simp [h.count]
  · intro n e' line he' hl
    have hn : n ≤ es.length := by
      have hlt := (List.getElem?_eq_some_iff.1 he').1
      simp at hlt
      omega
    rw [h.table.lineIn_push _ (h.count ▸ hn), h.count]
    split
    · next heq =>
      subst heq
      simp only [List.getElem?_concat_length, Option.some.injEq] at he'
      exact hline line (he' ▸ hl)
    · next hne =>
      rw [List.getElem?_append_left (by omega)] at he'
      exact h.lines n e' line he' hl
  · intro herror
    rcases push_cases p (e.code k) with ⟨bytes, henc, hbytes, herr⟩ | ⟨err, -, herr⟩
    · obtain ⟨insns, hwritten, hstream⟩ := h.stream (herr ▸ herror)
      have hlen : p.instructionCount = insns.length := h.count.trans hwritten.length_eq
      refine ⟨insns ++ [e.code k], ?_, ?_⟩
      · rw [push_constants]
        exact List.rel_append hwritten (.cons ⟨k, rfl, hk, hconst⟩ .nil)
      · rw [hbytes, push_argumentCount]
        exact hstream.snoc (by rw [← hlen]; exact henc)
    · rw [herr] at herror
      cases hp : p.error <;> simp [hp] at herror
  · intro err herror
    rcases push_cases p (e.code k) with ⟨bytes, -, -, herr⟩ | ⟨err', henc, herr⟩
    · exact h.errors err (herr ▸ herror)
    · rw [herr] at herror
      cases hp : p.error with
      | none =>
        simp only [hp, Option.none_or, Option.orElse_eq_orElse, Option.orElse_eq_or, Option.some.injEq] at herror
        exact herror ▸ PackedInstr.isLimit_of_encode henc
      | some first =>
        simp only [hp, Option.orElse_eq_orElse, Option.orElse_eq_or, Option.some_or, Option.some.injEq] at herror
        exact herror ▸ h.errors first hp

/-- **One more entry is written behind the others.** -/
theorem Holds.write (h : p.Holds es) (e : Entry) : (p.write e).Holds (es ++ [e]) := by
  obtain ⟨k, pool, line, hwrite, hpool, -, hk, hconst, hline⟩ := write_eq p e
  rw [hwrite]
  exact (h.withPool hpool line).push hk hconst hline

theorem Holds.writeAll (h : p.Holds es) (more : List Entry) : (more.foldl Packer.write p).Holds (es ++ more) := by
  induction more generalizing p es with
  | nil => simpa using h
  | cons e more ih => simpa using ih (h.write e)

/-! ### What entries leave alone -/

@[simp] theorem write_argumentCount (p : Packer) (e : Entry) : (p.write e).argumentCount = p.argumentCount := by
  obtain ⟨k, pool, line, hwrite, -⟩ := write_eq p e
  rw [hwrite, push_argumentCount]

@[simp] theorem write_handlers (p : Packer) (e : Entry) : (p.write e).handlers = p.handlers := by
  obtain ⟨k, pool, line, hwrite, -⟩ := write_eq p e
  rw [hwrite, push_handlers]

theorem length_constants_write (p : Packer) (e : Entry) : (p.write e).constants.length ≤ p.constants.length + 1 := by
  obtain ⟨k, pool, line, hwrite, -, hlen, -⟩ := write_eq p e
  rw [hwrite, push_constants]
  exact hlen

@[simp] theorem writeAll_argumentCount (p : Packer) (es : List Entry) :
    (es.foldl Packer.write p).argumentCount = p.argumentCount := by
  induction es generalizing p with
  | nil => rfl
  | cons e es ih => simp [ih]

@[simp] theorem writeAll_handlers (p : Packer) (es : List Entry) :
    (es.foldl Packer.write p).handlers = p.handlers := by
  induction es generalizing p with
  | nil => rfl
  | cons e es ih => simp [ih]

theorem length_constants_writeAll (p : Packer) (es : List Entry) :
    (es.foldl Packer.write p).constants.length ≤ p.constants.length + es.length := by
  induction es generalizing p with
  | nil => simp
  | cons e es ih =>
    have hfirst := length_constants_write p e
    have hrest := ih (p.write e)
    simp only [List.foldl_cons, List.length_cons]
    omega

end Packer

end DexShrinker
