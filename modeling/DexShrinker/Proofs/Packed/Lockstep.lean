/-
  DexShrinker/Proofs/Packed/Lockstep.lean
  =======================================
  **Reading two streams in lockstep.**

  Two streams with the same control flow and the same operands are read alike: both
  readers open the same blocks and give the same names to values. They may differ in the
  types of values and, as far as a relation `R` allows, in their instructions
  (`Unpacker.Lockstep`). `Unpacking.Follows` says that a step on the second stream
  succeeds where the step on the first one does and keeps the readers in lockstep.
-/
import DexShrinker.Proofs.Body.Verify
import DexShrinker.Proofs.Outcome
import DexShrinker.Packed.Unpack

namespace DexShrinker

open Std

/-! ### Tables with the same keys -/

section

variable {α β : Type} {P : α → β → Prop}

theorem isSome_eq {x : Option α} {y : Option β} (h : Option.Rel P x y) : x.isSome = y.isSome := by
  cases h <;> rfl

theorem forall₂_toList {t : TreeMap Nat α} {t' : TreeMap Nat β} (h : ∀ k : Nat, Option.Rel P t[k]? t'[k]?) :
    List.Forall₂ (fun x x' => x'.1 = x.1 ∧ P x.2 x'.2) t.toList t'.toList := by
  have hequiv : (t.map fun _ _ => ()).Equiv (t'.map fun _ _ => ()) := by
    refine TreeMap.Equiv.of_forall_contains_unit_eq fun k => ?_
    rw [TreeMap.contains_map, TreeMap.contains_map, TreeMap.contains_eq_isSome_getElem?,
      TreeMap.contains_eq_isSome_getElem?]
    exact isSome_eq (h k)
  have hkeys : t.toList.map Prod.fst = t'.toList.map Prod.fst := by
    simpa using hequiv.keys_eq
  have hlen : t.toList.length = t'.toList.length := by
    simpa only [List.length_map] using congrArg List.length hkeys
  refine List.forall₂_iff_get.2 ⟨hlen, fun i hi hi' => ?_⟩
  have hkey : (t.toList.get ⟨i, hi⟩).1 = (t'.toList.get ⟨i, hi'⟩).1 := by
    have hi? := congrArg (·[i]?) hkeys
    simp only [List.getElem?_map, List.getElem?_eq_getElem hi, List.getElem?_eq_getElem hi', Option.map_some] at hi?
    exact Option.some.inj hi?
  have hget := TreeMap.mem_toList_iff_getElem?_eq_some.1 (t.toList.get_mem ⟨i, hi⟩)
  have hget' := TreeMap.mem_toList_iff_getElem?_eq_some.1 (t'.toList.get_mem ⟨i, hi'⟩)
  have hrel := h (t.toList.get ⟨i, hi⟩).1
  rw [hget, hkey, hget'] at hrel
  cases hrel with
  | some hp => exact ⟨hkey.symm, hp⟩

theorem map_fst_of_forall₂ {xs : List (Nat × α)} {xs' : List (Nat × β)}
    (h : List.Forall₂ (fun x x' => x'.1 = x.1 ∧ P x.2 x'.2) xs xs') : xs'.map Prod.fst = xs.map Prod.fst := by
  induction h with
  | nil => rfl
  | cons hx _ ih => rw [List.map_cons, List.map_cons, hx.1, ih]

end

variable {R : Instr → Instr → Prop}

/-- Blocks that differ in their instructions only, as far as `R` allows. -/
structure DraftBlock.Alike (R : Instr → Instr → Prop) (b b' : DraftBlock) : Prop where
  phis : b'.phis = b.phis
  body : List.Forall₂ R b.body b'.body
  terminator : b'.terminator = b.terminator

theorem DraftBlock.alike_empty : DraftBlock.Alike R {} {} := ⟨rfl, .nil, rfl⟩

/-- Readers that have come equally far through streams that are alike. -/
structure Unpacker.Lockstep (R : Instr → Instr → Prop) (s s' : Unpacker) : Prop where
  slots : s'.slots = s.slots
  origins : s'.values.map Value.origin = s.values.map Value.origin
  blocks : ∀ start : Nat, Option.Rel (DraftBlock.Alike R) s.blocks[start]? s'.blocks[start]?
  current : s'.current = s.current
  line : s'.line = s.line
  linesAhead : s'.linesAhead = s.linesAhead

namespace Unpacker.Lockstep

variable {s s' : Unpacker}

theorem length_values (h : Lockstep R s s') : s'.values.length = s.values.length := by
  simpa using congrArg List.length h.origins

theorem contains_blocks (h : Lockstep R s s') (start : Nat) : s'.blocks.contains start = s.blocks.contains start := by
  rw [TreeMap.contains_eq_isSome_getElem?, TreeMap.contains_eq_isSome_getElem?]
  exact (isSome_eq (h.blocks start)).symm

theorem getD_blocks (h : Lockstep R s s') (start : Nat) :
    DraftBlock.Alike R (s.blocks.getD start {}) (s'.blocks.getD start {}) := by
  have hrel := h.blocks start
  rw [TreeMap.getD_eq_getD_getElem?, TreeMap.getD_eq_getD_getElem?]
  generalize s.blocks[start]? = b, s'.blocks[start]? = b' at hrel ⊢
  cases hrel with
  | none => exact DraftBlock.alike_empty
  | some hb => exact hb

theorem insert_blocks (h : Lockstep R s s') (start : Nat) {b b' : DraftBlock} (hb : DraftBlock.Alike R b b') :
    Lockstep R { s with blocks := s.blocks.insert start b } { s' with blocks := s'.blocks.insert start b' } := by
  refine ⟨h.slots, h.origins, fun k => ?_, h.current, h.line, h.linesAhead⟩
  simp only [TreeMap.getElem?_insert]
  split
  · exact .some hb
  · exact h.blocks k

/-- Both readers have collected the same starts, in the same order. -/
theorem toList_blocks (h : Lockstep R s s') :
    List.Forall₂ (fun x x' => x'.1 = x.1 ∧ DraftBlock.Alike R x.2 x'.2) s.blocks.toList s'.blocks.toList :=
  forall₂_toList h.blocks

end Unpacker.Lockstep

/-! ### Steps -/

namespace Unpacking

open Unpacker (Lockstep)

/-- From readers in lockstep the second step succeeds where the first one does, its answer
    is related by `A` and the readers stay in lockstep. -/
def Follows {α α' : Type} (R : Instr → Instr → Prop) (m : Unpacking α) (m' : Unpacking α') (A : α → α' → Prop) : Prop :=
  ∀ s s', Lockstep R s s' → ∀ a t, m.run s = .ok (a, t) → ∃ a' t', m'.run s' = .ok (a', t') ∧ A a a' ∧ Lockstep R t t'

variable {α α' β β' : Type} {m : Unpacking α} {m' : Unpacking α'} {A : α → α' → Prop} {B : β → β' → Prop}

theorem Follows.pure {a : α} {a' : α'} (h : A a a') : Follows R (Pure.pure a) (Pure.pure a') A := by
  intro s s' hs b t hrun
  cases hrun
  exact ⟨a', s', rfl, h, hs⟩

theorem Follows.bind {f : α → Unpacking β} {f' : α' → Unpacking β'} (h : Follows R m m' A)
    (hnext : ∀ a a', A a a' → Follows R (f a) (f' a') B) : Follows R (m >>= f) (m' >>= f') B := by
  intro s s' hs b t hrun
  rw [StateT.run_bind] at hrun
  obtain ⟨⟨a, r⟩, hm, hf⟩ := bind_eq_ok.1 hrun
  obtain ⟨a', r', hm', ha, hr⟩ := h s s' hs a r hm
  obtain ⟨b', t', hf', hb, ht⟩ := hnext a a' ha r r' hr b t hf
  refine ⟨b', t', ?_, hb, ht⟩
  rw [StateT.run_bind, hm']
  exact hf'

/-- Computations beside the state. -/
theorem Follows.lift {x : Except PackedError α} {x' : Except PackedError α'}
    (h : ∀ a, x = .ok a → ∃ a', x' = .ok a' ∧ A a a') : Follows R (liftM x) (liftM x') A := by
  intro s s' hs a t hrun
  cases hx : x with
  | error e =>
    rw [hx] at hrun
    cases hrun
  | ok b =>
    rw [hx] at hrun
    cases hrun
    obtain ⟨a', hx', ha⟩ := h a hx
    exact ⟨a', s', by rw [hx']; rfl, ha, hs⟩

theorem Follows.throw (e : PackedError) : Follows R (throw e : Unpacking α) m' A := by
  intro s s' _ a t hrun
  cases hrun

theorem Follows.modify {f f' : Unpacker → Unpacker} (h : ∀ s s', Lockstep R s s' → Lockstep R (f s) (f' s')) :
    Follows R (modify f : Unpacking Unit) (modify f' : Unpacking Unit) Eq := by
  intro s s' hs a t hrun
  cases hrun
  exact ⟨(), f' s', rfl, rfl, h s s' hs⟩

/-- A step that begins by looking at the state. -/
theorem Follows.get_bind {f : Unpacker → Unpacking β} {f' : Unpacker → Unpacking β'}
    (h : ∀ s s', Lockstep R s s' → Follows R (f s) (f' s') B) : Follows R (get >>= f) (get >>= f') B :=
  fun s s' hs => h s s' hs s s' hs

theorem Follows.mapM {f : α → Unpacking β} (hf : ∀ a, Follows R (f a) (f a) Eq) (xs : List α) :
    Follows R (xs.mapM f) (xs.mapM f) Eq := by
  induction xs with
  | nil => exact Follows.pure rfl
  | cons x xs ih =>
    rw [List.mapM_cons]
    refine (hf x).bind ?_
    rintro y _ rfl
    refine ih.bind ?_
    rintro ys _ rfl
    exact Follows.pure rfl

theorem Follows.optionMapM {f : α → Unpacking β} (hf : ∀ a, Follows R (f a) (f a) Eq) (x : Option α) :
    Follows R (x.mapM f) (x.mapM f) Eq := by
  cases x with
  | none => exact Follows.pure rfl
  | some a =>
    change Follows R (f a >>= fun b => Pure.pure (some b)) (f a >>= fun b => Pure.pure (some b)) Eq
    refine (hf a).bind ?_
    rintro y _ rfl
    exact Follows.pure rfl

/-- Runs over streams whose items are followed one by one. -/
theorem Follows.forM {xs : List α} {xs' : List α'} {f : α → Unpacking Unit} {f' : α' → Unpacking Unit}
    (h : List.Forall₂ (fun x x' => Follows R (f x) (f' x') Eq) xs xs') : Follows R (xs.forM f) (xs'.forM f') Eq := by
  induction h with
  | nil => exact Follows.pure rfl
  | cons hx _ ih => exact hx.bind fun _ _ _ => ih

/-! ### The operations of a reader -/

theorem follows_value (i : Nat) : Follows R (value i) (value i) Eq := by
  unfold value
  refine Follows.get_bind fun s s' hs => ?_
  rw [hs.slots]
  split
  · exact Follows.throw _
  · exact Follows.pure rfl
  · -- The readers agree on how many values there are, so the new one has the same name.
    intro r r' _ a t hrun
    cases hrun
    refine ⟨s'.values.length, _, rfl, hs.length_values.symm, ?_⟩
    refine ⟨?_, by simp [hs.origins], hs.blocks, hs.current, hs.line, hs.linesAhead⟩
    simp only [hs.length_values]

/-- A step that begins by mentioning a value. -/
theorem Follows.value_bind {i : Nat} {f : ValueId → Unpacking β} {f' : ValueId → Unpacking β'}
    (h : ∀ v, Follows R (f v) (f' v) B) : Follows R (value i >>= f) (value i >>= f') B := by
  refine (follows_value i).bind ?_
  rintro v _ rfl
  exact h v

/-- A step that begins by mentioning values one after the other. -/
theorem Follows.values_bind {is : List Nat} {f : List ValueId → Unpacking β} {f' : List ValueId → Unpacking β'}
    (h : ∀ vs, Follows R (f vs) (f' vs) B) : Follows R (is.mapM value >>= f) (is.mapM value >>= f') B := by
  refine (Follows.mapM follows_value is).bind ?_
  rintro vs _ rfl
  exact h vs

theorem follows_define (i : Nat) (type type' : Descriptor) (origin : Origin) :
    Follows R (define i type origin) (define i type' origin) Eq := by
  unfold define
  refine Follows.value_bind fun v => (Follows.modify fun s s' hs => ?_).bind fun _ _ _ => Follows.pure rfl
  exact ⟨hs.slots, by simp [hs.origins, List.map_set], hs.blocks, hs.current, hs.line, hs.linesAhead⟩

theorem follows_openBlock (start : Nat) : Follows R (openBlock start) (openBlock start) Eq := by
  refine Follows.modify fun s s' hs => ?_
  rw [hs.contains_blocks start]
  split
  · exact hs
  · exact hs.insert_blocks start DraftBlock.alike_empty

theorem follows_openTarget (count start : Nat) : Follows R (openTarget count start) (openTarget count start) Eq := by
  unfold openTarget
  split
  · exact Follows.throw _
  · exact follows_openBlock start

theorem follows_onCurrent {f f' : DraftBlock → DraftBlock}
    (hf : ∀ b b', DraftBlock.Alike R b b' → DraftBlock.Alike R (f b) (f' b')) :
    Follows R (onCurrent f) (onCurrent f') Eq := by
  refine Follows.modify fun s s' hs => ?_
  have hinsert := hs.insert_blocks (s.current.getD 0) (hf _ _ (hs.getD_blocks (s.current.getD 0)))
  simp only [hs.current] at hinsert ⊢
  exact hinsert

theorem follows_terminate (t : Terminator) : Follows R (terminate t) (terminate t) Eq := by
  unfold terminate
  refine Follows.get_bind fun s s' hs => ?_
  rw [hs.line]
  refine (follows_onCurrent fun b b' hb => ?_).bind fun _ _ _ => Follows.modify fun r r' hr => ?_
  · exact ⟨hb.phis, hb.body, rfl⟩
  · exact ⟨hr.slots, hr.origins, hr.blocks, rfl, hr.line, hr.linesAhead⟩

theorem follows_passLines (index : Nat) : Follows R (passLines index) (passLines index) Eq := by
  refine Follows.modify fun s s' hs => ?_
  refine ⟨hs.slots, hs.origins, hs.blocks, hs.current, ?_, ?_⟩
  · simp only [hs.linesAhead, hs.line]
  · simp only [hs.linesAhead]

theorem follows_enterBlock (index : Nat) : Follows R (enterBlock index) (enterBlock index) Eq := by
  unfold enterBlock
  refine Follows.get_bind fun s s' hs => ?_
  rw [hs.current]
  split
  · have hset : Follows R (set { s with current := some index } : Unpacking PUnit)
        (set { s' with current := some index } : Unpacking PUnit) Eq := by
      intro r r' _ a t hrun
      cases hrun
      exact ⟨(), _, rfl, rfl, hs.slots, hs.origins, hs.blocks, rfl, hs.line, hs.linesAhead⟩
    exact hset.bind fun _ _ _ => follows_openBlock index
  · rw [hs.contains_blocks index]
    split
    · exact Follows.throw _
    · exact Follows.pure rfl

/-! ### Instructions -/

/-- Operations that may stand for one another: both have a result or neither, and `R`
    allows the instructions made of them. -/
def OpsAlike (R : Instr → Instr → Prop) (x x' : Op × Option Descriptor) : Prop :=
  x'.2.isSome = x.2.isSome ∧
    ∀ (dest : Option ValueId) (line : Line), dest.isSome = x.2.isSome → R ⟨dest, x.1, line⟩ ⟨dest, x'.1, line⟩

/-- An instruction that becomes part of a block, from its operation. -/
theorem follows_plain {m m' : Unpacking (Op × Option Descriptor)} (h : Follows R m m' (OpsAlike R)) (index : Nat) :
    Follows R
      (do
        let (op, result) ← m
        let dest ← result.mapM fun t => define index t .instruction
        let line := (← get).line
        onCurrent fun b => { b with body := b.body ++ [⟨dest, op, line⟩] })
      (do
        let (op, result) ← m'
        let dest ← result.mapM fun t => define index t .instruction
        let line := (← get).line
        onCurrent fun b => { b with body := b.body ++ [⟨dest, op, line⟩] }) Eq := by
  refine h.bind ?_
  rintro ⟨op, result⟩ ⟨op', result'⟩ ⟨hresult, hops⟩
  simp only at hresult hops ⊢
  have hdest : Follows R (result.mapM fun t => define index t .instruction)
      (result'.mapM fun t => define index t .instruction) fun d d' => d' = d ∧ d.isSome = result.isSome := by
    cases result with
    | none =>
      obtain rfl : result' = none := by simpa using hresult
      exact Follows.pure ⟨rfl, rfl⟩
    | some t =>
      obtain ⟨t', rfl⟩ := Option.isSome_iff_exists.1 (hresult.trans rfl)
      exact (follows_define index t t' .instruction).bind fun v v' hv => Follows.pure ⟨by rw [hv], rfl⟩
  refine hdest.bind ?_
  rintro _ dest ⟨rfl, hsome⟩
  refine Follows.get_bind fun s s' hs => follows_onCurrent fun b b' hb => ?_
  rw [hs.line]
  exact ⟨hb.phis, List.rel_append hb.body (.cons (hops dest s.line hsome) .nil), hb.terminator⟩

/-- The instruction becomes part of a block. -/
def IsPlain : PackedInstr → Prop
  | .phi .. | .goto _ | .fallthrough | .branch .. | .ret _ | .throw _ => False
  | _ => True

/-- Instructions of two streams that may stand for one another: the control flow is the
    same, and so are the operations. -/
def InstrsAlike (R : Instr → Instr → Prop) (p q : PackedBody) (i i' : PackedInstr) : Prop :=
  IsPlain i ∧ IsPlain i' ∧ Follows R (operation p i) (operation q i') (OpsAlike R) ∨ ¬ IsPlain i ∧ i' = i

theorem instruction_plain {p : PackedBody} {v : InstrView} {i : PackedInstr} (h : IsPlain i) :
    instruction p v i = (do
      let (op, result) ← operation p i
      let dest ← result.mapM fun t => define v.valueIndex t .instruction
      let line := (← get).line
      onCurrent fun b => { b with body := b.body ++ [⟨dest, op, line⟩] }) := by
  cases i <;> first | rfl | exact h.elim

variable {p q : PackedBody}

/-- **One instruction** is read alike from both streams. -/
theorem follows_instruction (hcount : q.instructionCount = p.instructionCount)
    (htypes : ∀ t x, p.typeAt t = .ok x → ∃ x', q.typeAt t = .ok x') {v v' : InstrView} (hindex : v'.index = v.index)
    (hvalue : v'.valueIndex = v.valueIndex) {i i' : PackedInstr} (hi : InstrsAlike R p q i i') :
    Follows R (instruction p v i) (instruction q v' i') Eq := by
  rcases hi with ⟨hplain, hplain', hops⟩ | ⟨hcontrol, rfl⟩
  · rw [instruction_plain hplain, instruction_plain hplain', hvalue]
    exact follows_plain hops v.valueIndex
  · cases i' with
    | phi t operands =>
      have htype : Follows R (liftM (p.typeAt t)) (liftM (q.typeAt t)) fun _ _ => True := by
        refine Follows.lift fun x hx => ?_
        obtain ⟨x', hx'⟩ := htypes t x hx
        exact ⟨x', hx', trivial⟩
      refine htype.bind fun x x' _ => ?_
      rw [hvalue]
      refine (follows_define v.valueIndex x x' .phi).bind ?_
      rintro dest _ rfl
      refine Follows.values_bind fun operands => ?_
      exact follows_onCurrent fun b b' hb => ⟨by rw [hb.phis], hb.body, hb.terminator⟩
    | goto target =>
      rw [instruction, instruction, hcount]
      exact (follows_openTarget _ _).bind fun _ _ _ => follows_terminate _
    | «fallthrough» =>
      rw [instruction, instruction, hcount, hindex]
      exact (follows_openTarget _ _).bind fun _ _ _ => follows_terminate _
    | branch kind type target lhs rhs =>
      rw [instruction, instruction, hcount, hindex]
      refine (follows_openTarget _ _).bind fun _ _ _ => (follows_openTarget _ _).bind fun _ _ _ => ?_
      refine Follows.value_bind fun lhs => ?_
      refine (Follows.optionMapM follows_value rhs).bind ?_
      rintro rhs _ rfl
      exact follows_terminate _
    | ret value =>
      refine (Follows.optionMapM follows_value value).bind ?_
      rintro value _ rfl
      exact follows_terminate _
    | throw value => exact Follows.value_bind fun value => follows_terminate _
    | _ => exact absurd trivial hcontrol

/-- **One item of the stream.** -/
theorem follows_step (hcount : q.instructionCount = p.instructionCount)
    (htypes : ∀ t x, p.typeAt t = .ok x → ∃ x', q.typeAt t = .ok x') {v v' : InstrView} (hindex : v'.index = v.index)
    (hvalue : v'.valueIndex = v.valueIndex)
    (hdecode : ∀ i, v.decode = .ok i → ∃ i', v'.decode = .ok i' ∧ InstrsAlike R p q i i') :
    Follows R (step p (.ok v)) (step q (.ok v')) Eq := by
  refine Follows.bind (A := fun w w' => w = v ∧ w' = v') (Follows.lift ?_) ?_
  · rintro _ ⟨⟩
    exact ⟨v', rfl, rfl, rfl⟩
  · rintro _ _ ⟨rfl, rfl⟩
    rw [hindex]
    refine (follows_passLines _).bind fun _ _ _ => (follows_enterBlock _).bind fun _ _ _ => ?_
    exact (Follows.lift hdecode).bind fun i i' hi => follows_instruction hcount htypes hindex hvalue hi

end Unpacking

/-! ### Laying out -/

/-- Blocks that differ in their instructions as far as `R` allows, and in their guards as `g`
    says. -/
structure Block.Alike (R : Instr → Instr → Prop) (g : Descriptor → Descriptor) (b b' : Block) : Prop where
  phis : b'.phis = b.phis
  body : List.Forall₂ R b.body b'.body
  terminator : b'.terminator = b.terminator
  terminatorLine : b'.terminatorLine = b.terminatorLine
  handlers : b'.handlers = b.handlers.map fun h => { h with guard := g h.guard }

/-- `R` allows instructions that read and define the same. -/
def SameValues (R : Instr → Instr → Prop) : Prop := ∀ i i', R i i' → i'.dest = i.dest ∧ i'.op.reads = i.op.reads

theorem Block.Alike.mirrors {g : Descriptor → Descriptor} {b b' : Block} (hR : SameValues R) (h : Block.Alike R g b b') :
    Body.Mirrors id b b' := by
  have hbody : b'.body.flatMap (·.op.reads) = b.body.flatMap (·.op.reads) ∧
      b'.body.filterMap Instr.dest = b.body.filterMap Instr.dest := by
    have hforall := h.body
    generalize b.body = is, b'.body = is' at hforall
    induction hforall with
    | nil => exact ⟨rfl, rfl⟩
    | cons hi _ ih =>
      obtain ⟨hdest, hreads⟩ := hR _ _ hi
      simp [hdest, hreads, ih, List.filterMap_cons]
  refine ⟨?_, ?_, fun here => ?_, ?_⟩
  · simp [Block.reads, h.phis, hbody, h.terminator]
  · simp [Block.defs, h.phis, hbody]
  · simp [Block.targets, h.terminator, h.handlers, Function.comp_def]
  · rw [h.phis]

namespace PackedBody

variable {p q : PackedBody} {s s' : Unpacker} {code code' c : Body}

/-- What has to hold for a layout to be accepted. -/
theorem close_eq_ok_iff : p.close code s = .ok c ↔ s.current = none ∧
    p.checkHandlers (s.blocks.toList.map Prod.fst) = .ok () ∧ ∃ blocks, p.layoutBlocks s.blocks.toList = .ok blocks ∧
      (∀ x ∈ s.values, x.origin ≠ .unresolved) ∧ c = { code with values := s.values, blocks := blocks } ∧ c.WellFormed := by
  have hresolved : s.values.findIdx? (·.origin == .unresolved) = none ↔ ∀ x ∈ s.values, x.origin ≠ .unresolved := by
    simp [List.findIdx?_eq_none_iff]
  unfold close
  cases s.current with
  | some start => simp [bind, Except.bind, Outcome.raise]
  | none =>
    simp only [check_bind_eq_ok, Outcome.ofExcept_eq_ok, true_and]
    refine and_congr_right fun _ => ?_
    simp only [bind_eq_ok, Outcome.ofExcept_eq_ok]
    refine exists_congr fun blocks => and_congr_right fun _ => ?_
    cases hfind : s.values.findIdx? (·.origin == .unresolved) with
    | some v =>
      have hno : ¬ ∀ x ∈ s.values, x.origin ≠ .unresolved := by simp [← hresolved, hfind]
      simp [hno, bind, Except.bind, Outcome.raise]
    | none =>
      simp only [check_bind_eq_ok, Outcome.mapError_eq_ok, pure_eq_ok, Body.verify_eq_ok_iff]
      constructor
      · rintro ⟨hwell, rfl⟩
        exact ⟨hresolved.1 hfind, rfl, hwell⟩
      · rintro ⟨_, rfl, hwell⟩
        exact ⟨hwell, rfl⟩

theorem checkHandlers_eq_ok_iff {starts : List Nat} : p.checkHandlers starts = .ok () ↔
    ∀ (start : Nat) (hs : List Handler), p.handlers[start]? = some hs →
      (∃ b, layoutIndex starts start = .ok b) ∧ ∀ h ∈ hs, ∃ b, layoutIndex starts h.target = .ok b := by
  have hdiscard (start : Nat) : discard (layoutIndex starts start) = .ok () ↔ ∃ b, layoutIndex starts start = .ok b := by
    cases layoutIndex starts start <;> simp [discard, Functor.discard, Functor.mapConst, Except.map]
  rw [checkHandlers, forM_eq_ok_iff]
  simp only [Prod.forall, TreeMap.mem_toList_iff_getElem?_eq_some, check_bind_eq_ok, hdiscard, forM_eq_ok_iff]

variable {g : Descriptor → Descriptor}

/-- The handlers of `q` are those of `p` with their guards sent through `g`. -/
def SameHandlers (g : Descriptor → Descriptor) (p q : PackedBody) : Prop :=
  ∀ start : Nat, q.handlers[start]? = p.handlers[start]?.map (List.map fun h => { h with guard := g h.guard })

theorem SameHandlers.checkHandlers (hh : SameHandlers g p q) {starts : List Nat} (h : p.checkHandlers starts = .ok ()) :
    q.checkHandlers starts = .ok () := by
  rw [checkHandlers_eq_ok_iff] at h ⊢
  intro start hs' hstart
  rw [hh start] at hstart
  obtain ⟨hs, hget, rfl⟩ := Option.map_eq_some_iff.1 hstart
  obtain ⟨hblock, htargets⟩ := h start hs hget
  refine ⟨hblock, fun handler' hmem' => ?_⟩
  obtain ⟨handler, hmem, rfl⟩ := List.mem_map.1 hmem'
  exact htargets handler hmem

theorem SameHandlers.layoutHandlers (hh : SameHandlers g p q) {starts : List Nat} {start : Nat} {hs : List Handler}
    (h : p.layoutHandlers starts start = .ok hs) :
    q.layoutHandlers starts start = .ok (hs.map fun h => { h with guard := g h.guard }) := by
  have hgetD : q.handlers.getD start [] = (p.handlers.getD start []).map fun h => { h with guard := g h.guard } := by
    rw [TreeMap.getD_eq_getD_getElem?, TreeMap.getD_eq_getD_getElem?, hh start]
    cases p.handlers[start]? <;> rfl
  unfold PackedBody.layoutHandlers at h ⊢
  rw [mapM_eq_ok_iff] at h ⊢
  rw [hgetD, List.forall₂_map_left_iff, List.forall₂_map_right_iff]
  refine h.imp fun x y hxy => ?_
  obtain ⟨b, hb, heq⟩ := bind_eq_ok.1 hxy
  cases heq
  simp only [hb]
  rfl

theorem layoutBlocks_lockstep (hh : SameHandlers g p q) {xs xs' : List (Nat × DraftBlock)}
    (hxs : List.Forall₂ (fun x x' => x'.1 = x.1 ∧ DraftBlock.Alike R x.2 x'.2) xs xs') {blocks : List Block}
    (h : p.layoutBlocks xs = .ok blocks) :
    ∃ blocks', q.layoutBlocks xs' = .ok blocks' ∧ List.Forall₂ (Block.Alike R g) blocks blocks' := by
  have hstarts := map_fst_of_forall₂ hxs
  unfold layoutBlocks at h ⊢
  simp only [hstarts] at h ⊢
  refine mapM_follows (hxs.imp fun x x' hx block hblock => ?_) h
  obtain ⟨start, b⟩ := x
  obtain ⟨start', b'⟩ := x'
  obtain ⟨rfl, hb⟩ := hx
  replace hb : DraftBlock.Alike R b b' := hb
  simp only at hblock ⊢
  split at hblock
  · cases hblock
  · next t line hterm =>
    obtain ⟨t', ht, hblock⟩ := bind_eq_ok.1 hblock
    obtain ⟨hs, hhs, hblock⟩ := bind_eq_ok.1 hblock
    cases hblock
    refine ⟨⟨b'.phis, b'.body, t', line, hs.map fun h => { h with guard := g h.guard }⟩, ?_, hb.phis, hb.body, rfl, rfl, rfl⟩
    simp only [hb.terminator, hterm, ht, hh.layoutHandlers hhs]
    rfl

/-- **What was read in lockstep is laid out alike.** -/
theorem close_lockstep (hR : SameValues R) (hh : SameHandlers g p q) (hs : Unpacker.Lockstep R s s')
    (harguments : code'.arguments = code.arguments) (h : p.close code s = .ok c) :
    ∃ c', q.close code' s' = .ok c' ∧ c'.method = code'.method ∧ c'.isStatic = code'.isStatic ∧
      c'.arguments = c.arguments ∧ c'.values.map Value.origin = c.values.map Value.origin ∧
      List.Forall₂ (Block.Alike R g) c.blocks c'.blocks := by
  obtain ⟨hcurrent, hcheck, blocks, hblocks, hresolved, rfl, hwell⟩ := close_eq_ok_iff.1 h
  have hstarts := map_fst_of_forall₂ hs.toList_blocks
  obtain ⟨blocks', hblocks', halike⟩ := layoutBlocks_lockstep hh hs.toList_blocks hblocks
  have hresolved' : ∀ x ∈ s'.values, x.origin ≠ .unresolved := by
    intro x hx
    have hmem : x.origin ∈ s.values.map Value.origin := hs.origins ▸ List.mem_map_of_mem hx
    obtain ⟨y, hy, heq⟩ := List.mem_map.1 hmem
    exact heq ▸ hresolved y hy
  refine ⟨{ code' with values := s'.values, blocks := blocks' }, close_eq_ok_iff.2 ?_, rfl, rfl, harguments, hs.origins, halike⟩
  refine ⟨hs.current.trans hcurrent, hstarts ▸ hh.checkHandlers hcheck, blocks', hblocks', hresolved', rfl, ?_⟩
  refine hwell.mirrored (by simpa using harguments) (halike.imp fun _ _ hb => hb.mirrors hR) (fun v hv => ?_) hresolved'
  exact hs.length_values ▸ hwell.defsInRange v hv

/-! ### Whole bodies -/

theorem unpack_eq_ok_iff {method : MethodRef} {isStatic : Bool} {types : List Descriptor} :
    p.unpack method isStatic types = .ok c ↔ types.length = p.argumentCount ∧ p.instructionCount ≠ 0 ∧
      ∃ s : Unpacker, (p.views.forM (Unpacking.step p)).run
          { values := (Body.withArguments method isStatic types).values
            slots := (List.range types.length).map some ++ List.replicate p.instructionCount none
            linesAhead := p.lines } = .ok ((), s) ∧
        p.close (Body.withArguments method isStatic types) s = .ok c := by
  unfold unpack
  by_cases hlength : types.length = p.argumentCount
  · simp only [hlength, ne_eq, not_true_eq_false, if_false, true_and, bind_eq_ok, Outcome.ofExcept_eq_ok]
    by_cases hcount : p.instructionCount = 0
    · simp [hcount, Outcome.raise, bind, Except.bind]
    · simp [hcount, Body.withArguments, hlength, Unique.exists_iff]
  · simp [hlength, bind, Except.bind, Outcome.raise]

/-- A stream that was read to its end has instructions only. -/
theorem views_of_run {items : List (Except PackedError InstrView)} {s t : Unpacker}
    (h : (items.forM (Unpacking.step p)).run s = .ok ((), t)) :
    ∃ vs : List InstrView, items = vs.map .ok ∧ ∀ v ∈ vs, ∃ i, v.decode = .ok i := by
  induction items generalizing s with
  | nil => exact ⟨[], rfl, by simp⟩
  | cons item items ih =>
    change ((Unpacking.step p item >>= fun _ => items.forM (Unpacking.step p)).run s) = _ at h
    rw [StateT.run_bind] at h
    obtain ⟨⟨_, r⟩, hstep, hrest⟩ := bind_eq_ok.1 h
    obtain ⟨vs, rfl, hvs⟩ := ih hrest
    cases item with
    | error e => cases hstep
    | ok v =>
      refine ⟨v :: vs, rfl, List.forall_mem_cons.2 ⟨?_, hvs⟩⟩
      cases hdecode : v.decode with
      | ok i => exact ⟨i, rfl⟩
      | error e =>
        simp only [Unpacking.step, StateT.run_bind, bind_eq_ok] at hstep
        obtain ⟨_, hview, _, _, _, _, _, hthrow, _⟩ := hstep
        cases hview
        rw [hdecode] at hthrow
        cases hthrow

/-- Instructions at the same place of two streams. -/
def ViewsAlike (R : Instr → Instr → Prop) (p q : PackedBody) (v v' : InstrView) : Prop :=
  v'.index = v.index ∧ v'.valueIndex = v.valueIndex ∧
    ∀ i, v.decode = .ok i → ∃ i', v'.decode = .ok i' ∧ Unpacking.InstrsAlike R p q i i'

/-- Bodies whose tables agree up to the pool and the guards. -/
structure TablesAlike (g : Descriptor → Descriptor) (p q : PackedBody) : Prop where
  argumentCount : q.argumentCount = p.argumentCount
  instructionCount : q.instructionCount = p.instructionCount
  lines : q.lines = p.lines
  handlers : SameHandlers g p q
  types : ∀ t x, p.typeAt t = .ok x → ∃ x', q.typeAt t = .ok x'

/-- **Bodies that are alike are unpacked alike**, whatever the types of their arguments. -/
theorem unpack_lockstep (hR : SameValues R) (ht : TablesAlike g p q) {vs vs' : List InstrView}
    (hviews : p.views = vs.map .ok) (hviews' : q.views = vs'.map .ok) (hvs : List.Forall₂ (ViewsAlike R p q) vs vs')
    {method method' : MethodRef} {isStatic isStatic' : Bool} {types types' : List Descriptor}
    (htypes' : types'.length = p.argumentCount) (h : p.unpack method isStatic types = .ok c) :
    ∃ c', q.unpack method' isStatic' types' = .ok c' ∧ c'.method = method' ∧ c'.isStatic = isStatic' ∧
      c'.arguments = c.arguments ∧ c'.values.map Value.origin = c.values.map Value.origin ∧
      List.Forall₂ (Block.Alike R g) c.blocks c'.blocks := by
  obtain ⟨hlength, hcount, s, hrun, hclose⟩ := unpack_eq_ok_iff.1 h
  have hrange : types'.length = types.length := htypes'.trans hlength.symm
  have hitems : Unpacking.Follows R (p.views.forM (Unpacking.step p)) (q.views.forM (Unpacking.step q)) Eq := by
    rw [hviews, hviews']
    refine Unpacking.Follows.forM ?_
    rw [List.forall₂_map_left_iff, List.forall₂_map_right_iff]
    exact hvs.imp fun v v' ⟨hindex, hvalue, hdecode⟩ =>
      Unpacking.follows_step ht.instructionCount ht.types hindex hvalue hdecode
  have hstart : Unpacker.Lockstep R
      { values := (Body.withArguments method isStatic types).values
        slots := (List.range types.length).map some ++ List.replicate p.instructionCount none
        linesAhead := p.lines }
      { values := (Body.withArguments method' isStatic' types').values
        slots := (List.range types'.length).map some ++ List.replicate q.instructionCount none
        linesAhead := q.lines } := by
    refine ⟨by simp only [hrange, ht.instructionCount], ?_, fun _ => ?_, rfl, rfl, ht.lines⟩
    · refine List.ext_getElem (by simp [Body.withArguments, hrange]) fun i _ _ => ?_
      simp [Body.withArguments]
    · rw [TreeMap.getElem?_emptyc]
      exact .none
  obtain ⟨_, s', hrun', -, hs⟩ := hitems _ _ hstart _ _ hrun
  have harguments : (Body.withArguments method' isStatic' types').arguments =
      (Body.withArguments method isStatic types).arguments := by
    simp only [Body.withArguments, hrange]
  obtain ⟨c', hclose', hc'⟩ := close_lockstep hR ht.handlers hs harguments hclose
  exact ⟨c', unpack_eq_ok_iff.2 ⟨htypes'.trans ht.argumentCount.symm, ht.instructionCount ▸ hcount, s', hrun', hclose'⟩, hc'⟩

end PackedBody

end DexShrinker
