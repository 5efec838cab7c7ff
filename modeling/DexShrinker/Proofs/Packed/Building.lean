/-
  DexShrinker/Proofs/Packed/Building.lean
  =======================================
  **Every instruction that the packer is told is read back.**

  A packer can be told anything in any order, by one command after the other. Its pool has the
  constants of the commands in the order of their first use, and its error is that of the first
  command that cannot be written: one that orders references, or whose operands take too many
  bytes (`Packer.Told`). Provided that arguments come first, the stream has one instruction for
  each command that adds one (`Packer.built_of_build`). An argument that comes later moves the
  values that the instructions before it read.
-/
import DexShrinker.Proofs.Packed.Canonical
import DexShrinker.Proofs.Packed.Writing

namespace DexShrinker

/-! ### Instructions that cannot be written -/

namespace PackedInstr

/-- The order by which the instruction compares references. -/
def ordersReferences? : PackedInstr → Option Comparison
  | branch kind .object _ _ _ => if kind = .eq ∨ kind = .ne then none else some kind
  | _ => none

/-- Why the instruction with value index `current` cannot be written. -/
def failure? (current : Nat) (i : PackedInstr) : Option PackedError :=
  match i.ordersReferences? with
  | some kind => some (.unsupportedBranch kind)
  | none =>
    let size := (i.operandBytes current).length
    if size ≤ 255 then none else some (.operandsTooLarge size)

/-- Exactly the instructions that order references have no opcode. -/
theorem opcode_cases (i : PackedInstr) :
    (∃ op, i.opcode = .ok op ∧ i.ordersReferences? = none) ∨
      ∃ kind, i.opcode = .error (.unsupportedBranch kind) ∧ i.ordersReferences? = some kind := by
  cases i with
  | branch kind type target lhs rhs =>
    cases type with
    | int => cases rhs <;> exact .inl ⟨_, rfl, rfl⟩
    | object => cases kind <;> cases rhs <;> first | exact .inl ⟨_, rfl, rfl⟩ | exact .inr ⟨_, rfl, rfl⟩
  | constInt value =>
    refine .inl ?_
    simp only [opcode]
    split <;> exact ⟨_, rfl, rfl⟩
  | ret value => cases value <;> exact .inl ⟨_, rfl, rfl⟩
  | _ => exact .inl ⟨_, rfl, rfl⟩

theorem operandBytes_of_isOneByte {i : PackedInstr} {op : UInt8} (hop : i.opcode = .ok op) (hone : Opcode.isOneByte op = true)
    (current : Nat) : i.operandBytes current = [] := by
  cases i with
  | constInt value =>
    simp only [opcode] at hop
    split at hop
    · next hsmall => simp [operandBytes, hsmall]
    · cases hop
      cases hone
  | constNull | debugPosition | «fallthrough» => rfl
  | ret value =>
    cases value with
    | none => rfl
    | some value =>
      cases hop
      cases hone
  | invoke kind itf => cases kind <;> cases itf <;> cases hop <;> cases hone
  | binary op type => cases op <;> cases type <;> cases hop <;> cases hone
  | branch kind type target lhs rhs => cases kind <;> cases type <;> cases rhs <;> cases hop <;> cases hone
  | _ =>
    cases hop
    cases hone

/-- An instruction is written unless it has one of the two failures. -/
theorem encode_cases (current : Nat) (i : PackedInstr) :
    (∃ bytes, i.encode current = .ok bytes ∧ i.failure? current = none) ∨
      ∃ e, i.encode current = .error e ∧ i.failure? current = some e := by
  rcases i.opcode_cases with ⟨op, hop, horders⟩ | ⟨kind, hop, horders⟩
  · by_cases hone : Opcode.isOneByte op = true
    · refine .inl ⟨[op], ?_, ?_⟩
      · simp [encode, hop, hone, ok_bind]
      · simp [failure?, horders, operandBytes_of_isOneByte hop hone]
    · by_cases hsize : (i.operandBytes current).length ≤ 255
      · refine .inl ⟨[op, (i.operandBytes current).length.toUInt8] ++ i.operandBytes current, ?_, ?_⟩
        · simp [encode, hop, hone, ok_bind, headBytes, hsize]
        · simp [failure?, horders, hsize]
      · refine .inr ⟨.operandsTooLarge (i.operandBytes current).length, ?_, ?_⟩
        · simp [encode, hop, hone, ok_bind, headBytes, hsize]
        · simp [failure?, horders, hsize]
  · refine .inr ⟨.unsupportedBranch kind, ?_, ?_⟩
    · rw [encode, hop]
      rfl
    · simp [failure?, horders]

end PackedInstr

/-! ### Commands -/

namespace Packer

/-- What a packer can be told. -/
inductive Command where
  /-- Declare one more argument. -/
  | argument
  /-- Give the instructions that follow a source line. -/
  | line (line : Line)
  /-- Set the exception handlers of a block. -/
  | handlers (block : Nat) (handlers : List Handler)
  /-- Add an operation over value indices. -/
  | op (op : Op)
  /-- Add a phi. -/
  | phi (type : Descriptor) (operands : List Nat)
  /-- Add an instruction that ends a block. -/
  | exit (i : PackedInstr) (terminates : i.isTerminator = true)

namespace Command

/-- The instruction to be written, if the command adds one. -/
def entry? : Command → Option Entry
  | argument | line _ | handlers .. => none
  | op o => some ⟨none, o.constant?, o.code⟩
  | phi t operands => some ⟨none, some (.type t), (.phi · operands)⟩
  | exit i _ => some ⟨none, none, fun _ => i⟩

/-- The values and blocks of the instruction that the command adds. -/
def numbers : Command → List Nat
  | argument | line _ | handlers .. => []
  | op o => o.reads
  | phi _ operands => operands
  | exit i _ => i.numbers

/-- All these numbers have thirty-two bits. -/
def Fits (c : Command) : Prop := ∀ n ∈ c.numbers, n < UInt32.size

theorem Fits.code {c : Command} (h : c.Fits) {e : Entry} (he : c.entry? = some e) {k : Nat} (hk : k < UInt32.size) :
    (e.code k).Fits := by
  intro n hn
  cases c with
  | argument | line | handlers => cases he
  | op o =>
    cases he
    rcases Op.mem_numbers_code hn with rfl | hn
    · exact hk
    · exact h n hn
  | phi t operands =>
    cases he
    rcases List.mem_cons.1 hn with rfl | hn
    · exact hk
    · exact h n hn
  | exit i hi =>
    cases he
    exact h n hn

end Command

/-- Follow a command. -/
def perform (p : Packer) : Command → Packer
  | .argument => p.addArgument.2
  | .line l => p.setLine l
  | .handlers block hs => p.addHandlers block hs
  | .op o => p.addOp o
  | .phi t operands => p.addPhi t operands
  | .exit i _ => p.push i

/-- The packed body that comes of commands. -/
def build (cs : List Command) : Except PackedError PackedBody := (cs.foldl perform {}).finish

/-- The constants of commands, each where it is used first. -/
def poolOf (cs : List Command) : List Constant := (cs.filterMap fun c => c.entry?.bind Entry.constant).eraseDups

/-- The value index of the next instruction after commands. -/
def nextValueOf (cs : List Command) : Nat :=
  valueIndexOf (cs.filter fun c => c matches .argument).length (cs.filterMap Command.entry?).length

/-- Why a command cannot be followed after others. A constant that is new takes the place behind the pool. -/
def Command.failure? (before : List Command) (c : Command) : Option PackedError :=
  c.entry?.bind fun e => (e.code (e.constant.elim 0 (poolOf before).idxOf)).failure? (nextValueOf before)

/-- What is wrong with commands that come after others, in order. -/
def failuresAfter (before : List Command) : List Command → List PackedError
  | [] => []
  | c :: cs => (c.failure? before).toList ++ failuresAfter (before ++ [c]) cs

/-- What is wrong with commands, in order. -/
def failures (cs : List Command) : List PackedError := failuresAfter [] cs

theorem failuresAfter_snoc (before cs : List Command) (c : Command) :
    failuresAfter before (cs ++ [c]) = failuresAfter before cs ++ (c.failure? (before ++ cs)).toList := by
  induction cs generalizing before with
  | nil => simp [failuresAfter]
  | cons c' cs ih => simp [failuresAfter, ih]

/-- A pool with one more constant, unless it is there. -/
def grow (pool : List Constant) : Option Constant → List Constant
  | none => pool
  | some k => if k ∈ pool then pool else pool ++ [k]

theorem eraseDups_append_toList (ks : List Constant) (k? : Option Constant) :
    (ks ++ k?.toList).eraseDups = grow ks.eraseDups k? := by
  unfold grow
  cases k? with
  | none => simp
  | some k => by_cases hmem : k ∈ ks <;> simp [List.eraseDups_append, List.eraseDups_cons, List.removeAll, hmem]

theorem poolOf_snoc (cs : List Command) (c : Command) : poolOf (cs ++ [c]) = grow (poolOf cs) (c.entry?.bind Entry.constant) := by
  rw [poolOf, List.filterMap_append, poolOf, ← eraseDups_append_toList]
  cases hconst : c.entry?.bind Entry.constant <;> simp [hconst]

theorem nodup_poolOf (cs : List Command) : (poolOf cs).Nodup := by
  induction cs using List.reverseRecOn with
  | nil => simp [poolOf]
  | append_singleton cs c ih =>
    rw [poolOf_snoc]
    unfold grow
    split
    · exact ih
    · split
      · exact ih
      · next hnew => exact ih.append (List.nodup_singleton _) (by simpa using hnew)

/-! ### What a command changes -/

variable {p q : Packer} {c : Command} {e : Entry} {es : List Entry} {cs : List Command}

theorem perform_eq_write (he : c.entry? = some e) : p.perform c = p.write e := by
  cases c with
  | argument | line | handlers => cases he
  | op o =>
    cases he
    cases o <;> rfl
  | phi | exit =>
    cases he
    rfl

theorem intern_eq_grow (p : Packer) (k : Constant) :
    p.intern k = (p.constants.idxOf k, { p with constants := grow p.constants (some k) }) := by
  unfold intern grow
  split
  · next i hi =>
    have hmem : k ∈ p.constants := by
      by_contra hnew
      rw [List.idxOf?_eq_none_iff.2 hnew] at hi
      cases hi
    simp [List.idxOf_eq_getD_idxOf?, hi, hmem]
  · next hnew =>
    have hnew := List.idxOf?_eq_none_iff.1 hnew
    simp [hnew]

/-- Writing an entry sets its line, gives its constant a place and writes the instruction. -/
theorem write_eq_push (p : Packer) (e : Entry) :
    p.write e = ({ p with constants := grow p.constants e.constant, line := e.line.getD p.line } : Packer).push
      (e.code (e.constant.elim 0 p.constants.idxOf)) := by
  unfold write
  cases e.line <;> cases e.constant <;> simp [pushWith, intern_eq_grow, setLine, grow]

theorem push_error (p : Packer) (i : PackedInstr) : (p.push i).error = (p.error <|> i.failure? p.nextValue) := by
  rcases i.encode_cases p.nextValue with ⟨bytes, henc, hnone⟩ | ⟨e, henc, hsome⟩
  · simp [push, henc, hnone, advance]
  · simp [push, henc, hsome, advance]

/-- The packer has followed the commands. -/
structure Told (q : Packer) (cs : List Command) : Prop where
  argumentCount : q.argumentCount = (cs.filter fun c => c matches .argument).length
  count : q.instructionCount = (cs.filterMap Command.entry?).length
  pool : q.constants = poolOf cs
  error : q.error = (failures cs).head?

theorem failures_snoc (cs : List Command) (c : Command) : failures (cs ++ [c]) = failures cs ++ (c.failure? cs).toList :=
  failuresAfter_snoc [] cs c

theorem Told.nextValue (h : q.Told cs) : q.nextValue = nextValueOf cs := by
  rw [Packer.nextValue, h.argumentCount, h.count, nextValueOf]

/-- A command that adds an instruction is followed by writing it. -/
theorem Told.write (h : q.Told cs) (he : c.entry? = some e) : (q.write e).Told (cs ++ [c]) := by
  have hwrite := write_eq_push q e
  refine ⟨?_, ?_, ?_, ?_⟩
  · rw [hwrite, push_argumentCount, h.argumentCount]
    cases c with
    | argument => cases he
    | _ => simp
  · rw [hwrite, push_instructionCount, h.count]
    simp [he]
  · rw [hwrite, push_constants, poolOf_snoc, he, h.pool]
    rfl
  · have hfailure : c.failure? cs = (e.code (e.constant.elim 0 (poolOf cs).idxOf)).failure? (nextValueOf cs) := by
      rw [Command.failure?, he, Option.bind_some]
    rw [hwrite, push_error, failures_snoc, List.head?_append, ← h.error, hfailure, ← h.pool, ← h.nextValue]
    simp [Packer.nextValue]

/-- Other commands leave alone what was written. -/
theorem perform_of_none (he : c.entry? = none) (p : Packer) : (p.perform c).constants = p.constants ∧
    (p.perform c).instructionCount = p.instructionCount ∧ (p.perform c).error = p.error ∧
      (p.perform c).argumentCount = p.argumentCount + ([c].filter fun c => c matches .argument).length := by
  cases c with
  | argument | line => exact ⟨rfl, rfl, rfl, rfl⟩
  | handlers block hs =>
    rw [perform, addHandlers]
    split <;> exact ⟨rfl, rfl, rfl, rfl⟩
  | op | phi | exit => cases he

theorem Told.perform (h : q.Told cs) (c : Command) : (q.perform c).Told (cs ++ [c]) := by
  cases he : c.entry? with
  | some e =>
    rw [perform_eq_write he]
    exact h.write he
  | none =>
    obtain ⟨hconstants, hcount, herror, hargumentCount⟩ := perform_of_none he q
    refine ⟨?_, ?_, ?_, ?_⟩
    · rw [hargumentCount, h.argumentCount, List.filter_append, List.length_append]
    · rw [hcount, h.count]
      simp [he]
    · rw [hconstants, h.pool, poolOf_snoc, he]
      rfl
    · rw [herror, h.error, failures_snoc, Command.failure?, he]
      simp

theorem told_build (cs : List Command) : (cs.foldl perform {}).Told cs := by
  induction cs using List.reverseRecOn with
  | nil => exact ⟨rfl, rfl, rfl, rfl⟩
  | append_singleton cs c ih =>
    rw [List.foldl_append]
    exact ih.perform c

/-! ### Reading what was built -/

/-- Arguments are declared before instructions are added. -/
def ArgumentsFirst (cs : List Command) : Prop :=
  cs.Pairwise fun c c' => c.entry?.isSome = true → c' ≠ .argument

theorem Holds.addArgument (h : p.Holds []) : p.addArgument.2.Holds [] := by
  refine ⟨h.count, ⟨h.table.ordered, h.table.starts, h.table.noted⟩, h.lines, fun herror => ⟨[], .nil, ?_⟩, h.errors⟩
  obtain ⟨insns, hwritten, hstream⟩ := h.stream herror
  have hbytes : p.bytes = [] := by
    generalize p.bytes = bytes at hstream
    cases hstream with
    | nil => rfl
    | snoc => simpa using hwritten.length_eq
  change Streamed _ [] p.bytes
  rw [hbytes]
  exact .nil

/-- As long as arguments come first, the packer holds the instructions that it was told. -/
theorem holds_build (hfirst : ArgumentsFirst cs) : (cs.foldl perform {}).Holds (cs.filterMap Command.entry?) := by
  induction cs using List.reverseRecOn with
  | nil => exact holds_start 0
  | append_singleton cs c ih =>
    obtain ⟨hfirst, -, hlater⟩ := List.pairwise_append.1 hfirst
    have hholds := ih hfirst
    rw [List.foldl_append, List.filterMap_append]
    cases he : c.entry? with
    | some e =>
      simpa [he, perform_eq_write he] using hholds.write e
    | none =>
      simp only [List.filterMap_cons, he, List.filterMap_nil, List.append_nil]
      cases c with
      | argument =>
        -- What is written already would be read relative to another value index, so there must be nothing.
        have hnone : cs.filterMap Command.entry? = [] := by
          refine List.filterMap_eq_nil_iff.2 fun c hc => ?_
          by_contra hsome
          exact hlater c hc .argument (by simp) (Option.isSome_iff_ne_none.2 hsome) rfl
        rw [hnone] at hholds ⊢
        exact hholds.addArgument
      | line l => exact hholds.withPool (List.prefix_refl _) l
      | handlers block hs => exact hholds.addHandlers block hs
      | op | phi | exit => cases he

end Packer

/-- The instructions of a packed body, read one after the other. -/
def PackedBody.instructions (p : PackedBody) : List (Except PackedError PackedInstr) := p.views.map (· >>= InstrView.decode)

/-- What was read is the instruction of the entry, over the place of its constant in the pool. -/
def Entry.ReadAs (p : PackedBody) (e : Entry) (item : Except PackedError PackedInstr) : Prop :=
  ∃ k, item = .ok (e.code k).settled ∧ ∀ c, e.constant = some c → p.constants[k]? = some c

/-- **Every instruction that a packer is told is read back** in order, if arguments come first: the same operation over
    the same values and blocks, with its constant at its place in the pool, except that the flag of a virtual or interface
    call is settled. The pool has each constant once, in the order of first use. The packer fails with the first error of
    its commands, and only then. -/
theorem Packer.built_of_build (cs : List Command) :
    (∀ e, build cs = .error e ↔ (failures cs).head? = some e) ∧
    ∀ p, build cs = .ok p →
      p.constants = poolOf cs ∧ p.constants.Nodup ∧
        (ArgumentsFirst cs → (∀ c ∈ cs, c.Fits) → p.constants.length ≤ UInt32.size →
          List.Forall₂ (Entry.ReadAs p) (cs.filterMap Command.entry?) p.instructions) := by
  have htold := told_build cs
  refine ⟨fun e => ?_, fun p h => ?_⟩
  · rw [← htold.error, build, finish]
    cases (cs.foldl perform {}).error <;> simp
  · have hpool : p.constants = poolOf cs := by rw [(finish_eq_ok h).2, ← htold.pool]
    refine ⟨hpool, hpool ▸ nodup_poolOf cs, fun hfirst hfits hsize => ?_⟩
    obtain ⟨vs, hviews, hshown⟩ := (holds_build hfirst).shown h
    rw [PackedBody.instructions, hviews, List.map_map, List.forall₂_map_right_iff]
    have hcode : ∀ e ∈ cs.filterMap Command.entry?, ∀ k < UInt32.size, (e.code k).Fits := by
      intro e he k hk
      obtain ⟨c, hc, he⟩ := List.mem_filterMap.1 he
      exact (hfits c hc).code he hk
    exact ((List.forall₂_and_left _ _).2 ⟨hcode, hshown⟩).imp fun e v ⟨hcode, hshown⟩ => hshown.decode hsize hcode

/-- Two arguments, calls of both kinds that are dispatched, a class that is named twice, and a phi. -/
def Packer.commandsSample : List Packer.Command :=
  [.argument, .argument, .line 1, .handlers 0 [⟨.object, 4⟩], .op (.newInstance ⟨"Lp/A;"⟩),
    .op (.invoke .virtual ⟨⟨"Lp/A;"⟩, "go", ⟨.void, [.int]⟩⟩ [2, 0] false), .line 2, .op (.checkCast ⟨"Lp/A;"⟩ 1),
    .exit (.branch .lt .int 0 0 (some 1)) rfl, .phi .int [0, 1], .exit (.ret none) rfl]

theorem Packer.built_of_build_commandsSample :
    ∃ p, build commandsSample = .ok p ∧ p.constants = poolOf commandsSample ∧ p.constants.Nodup ∧ ArgumentsFirst commandsSample ∧
      (∀ c ∈ commandsSample, c.Fits) ∧ p.constants.length ≤ UInt32.size ∧
        List.Forall₂ (Entry.ReadAs p) (commandsSample.filterMap Command.entry?) p.instructions := by
  have hfirst : ArgumentsFirst commandsSample := by simp [ArgumentsFirst, commandsSample, Command.entry?]
  have hfits : ∀ c ∈ commandsSample, c.Fits := by
    simp [commandsSample, Command.Fits, Command.numbers, Op.reads, PackedInstr.numbers, UInt32.size]
  have hbuilds : (build commandsSample).isOk = true := by decide +kernel
  have hlength : (poolOf commandsSample).length ≤ UInt32.size := by decide +kernel
  cases hbuild : build commandsSample with
  | error e =>
    rw [hbuild] at hbuilds
    cases hbuilds
  | ok p =>
    obtain ⟨hpool, hnodup, hread⟩ := (built_of_build commandsSample).2 p hbuild
    have hsize : p.constants.length ≤ UInt32.size := hpool ▸ hlength
    exact ⟨p, rfl, hpool, hnodup, hfirst, hfits, hsize, hread hfirst hfits hsize⟩

/-- The flag of a virtual call is lost, and an argument that is declared after an instruction moves what that instruction reads. -/
theorem Packer.flag_lost_and_value_moved :
    (build [.op (.invoke .virtual ⟨⟨"Lp/A;"⟩, "go", ⟨.void, []⟩⟩ [] true)]).map PackedBody.instructions =
        .ok [.ok (.invoke .virtual false 0 [])] ∧
      (build [.exit (.throw 0) rfl, .argument]).map PackedBody.instructions = .ok [.ok (.throw 1)] := by
  decide +kernel

end DexShrinker
