/-
  DexShrinker/Proofs/Packed/Writing.lean
  ======================================
  **A packed body touches no field that the body does not touch.**

  The references of a packed body are its guards and what its instructions mention one by one
  (`PackedBody.uses_eq_ok`). An operation that is read from an instruction makes the reference
  that the instruction makes, so an unpacked body makes no reference that the stream does not
  (`PackedBody.use_of_unpack`).

  The other way round this holds of fields, for any body that can be packed, of any size, as long
  as the stream can be read: an opcode tells how a field is touched (`InstrView.answers_fieldUse`),
  and a pool index is read back as it was written. A pool with more places than an index can tell
  apart has an instruction whose index is cut off when it is read (`Packer.index_lt`), because every
  place was made for some instruction. The constants and the guards of the packed body are the
  constants of the body, the types of values it chooses between, and its guards
  (`Body.names_of_pack`).
-/
import DexShrinker.Usage
import DexShrinker.Proofs.Packed.Calls
import DexShrinker.Proofs.Packed.Packer
import DexShrinker.Proofs.Packed.Stream

namespace DexShrinker

namespace PackedBody

/-! ### References of a stream -/

variable {p : PackedBody} {us : List Use}

/-- Some instruction of the stream makes the reference. -/
def Mentions (p : PackedBody) (use : Use) : Prop :=
  ∃ v i, .ok v ∈ p.views ∧ v.decode = .ok i ∧ p.useOf i = .ok (some use)

theorem usesOfViews_eq_ok {items : List (Except PackedError InstrView)} (h : p.usesOfViews items = (us, none)) :
    (∃ vs : List InstrView, items = vs.map .ok ∧ ∀ v ∈ vs, ∃ i, v.decode = .ok i) ∧
      ∀ use, use ∈ us ↔ ∃ v i, .ok v ∈ items ∧ v.decode = .ok i ∧ p.useOf i = .ok (some use) := by
  induction items generalizing us with
  | nil =>
    cases h
    exact ⟨⟨[], rfl, by simp⟩, by simp⟩
  | cons item items ih =>
    rw [usesOfViews] at h
    split at h
    · cases h
    · next first hfirst =>
      obtain ⟨i, hread, huse⟩ := bind_eq_ok.1 hfirst
      obtain ⟨v, rfl, hi⟩ := bind_eq_ok.1 hread
      cases hrest : p.usesOfViews items with
      | mk rest e =>
        rw [hrest] at h
        cases h
        obtain ⟨⟨vs, rfl, hreadable⟩, hmem⟩ := ih hrest
        refine ⟨⟨v :: vs, rfl, List.forall_mem_cons.2 ⟨⟨i, hi⟩, hreadable⟩⟩, fun use => ?_⟩
        rw [List.mem_append, hmem]
        constructor
        · rintro (hnew | ⟨w, j, hw, hj, hmentions⟩)
          · rw [Option.mem_toList.1 hnew] at huse
            exact ⟨v, i, List.mem_cons_self, hi, huse⟩
          · exact ⟨w, j, List.mem_cons_of_mem _ hw, hj, hmentions⟩
        · rintro ⟨w, j, hw, hj, hmentions⟩
          rcases List.mem_cons.1 hw with heq | hw
          · cases heq
            cases hi.symm.trans hj
            cases huse.symm.trans hmentions
            exact .inl (by simp)
          · exact .inr ⟨w, j, hw, hj, hmentions⟩

/-- **The references of a stream**, all of whose instructions can be read. -/
theorem uses_eq_ok (h : p.uses = .ok us) :
    (∃ vs : List InstrView, p.views = vs.map .ok ∧ ∀ v ∈ vs, ∃ i, v.decode = .ok i) ∧
      ∀ use, use ∈ us ↔ (∃ t ∈ p.guards, use = .type t .catchGuard) ∨ p.Mentions use := by
  unfold uses usesSoFar at h
  cases hviews : p.usesOfViews p.views with
  | mk rest e =>
    rw [hviews] at h
    cases e with
    | some e => cases h
    | none =>
      cases h
      obtain ⟨hreadable, hmem⟩ := usesOfViews_eq_ok (p := p) hviews
      refine ⟨hreadable, fun use => ?_⟩
      rw [List.mem_append, hmem, List.mem_map]
      simp only [Mentions, eq_comm]

theorem field_mem_uses_iff (h : p.uses = .ok us) {f : FieldRef} {how : FieldUse} : .field f how ∈ us ↔ p.Mentions (.field f how) := by
  rw [(uses_eq_ok h).2]
  simp

end PackedBody

/-! ### References of an unpacked body -/

namespace Unpacking

variable {p : PackedBody} {R : Instr → Instr → Prop}

/-- An operation makes the reference that its instruction makes. -/
theorem useOf_of_operation (i : PackedInstr) (s : Unpacker) : Ensures (operation p i) s fun r _ => p.useOf i = .ok r.1.use? := by
  cases i with
  | loadConstant c =>
    refine Ensures.lift_bind fun k hk => ?_
    cases k with
    | string | type | handle | proto => exact Ensures.pure (by rw [PackedBody.useOf, hk]; rfl)
    | field | method | callSite => exact Ensures.throw _
  | newInstance t | staticGet f =>
    refine Ensures.lift_bind fun t ht => Ensures.pure ?_
    rw [PackedBody.useOf, ht]
    rfl
  | newUnboxedEnum t ordinal => exact Ensures.lift_bind fun t _ => Ensures.pure rfl
  | newArray t size | checkCast t v | instanceOf t v | staticPut f v | instanceGet f object =>
    refine Ensures.lift_bind fun t ht => Ensures.skip fun v _ => Ensures.pure ?_
    rw [PackedBody.useOf, ht]
    rfl
  | arrayGet t array index => exact Ensures.lift_bind fun t _ => Ensures.skip fun v _ => Ensures.skip fun w _ => Ensures.pure rfl
  | instancePut f object v =>
    refine Ensures.lift_bind fun f hf => Ensures.skip fun v _ => Ensures.skip fun w _ => Ensures.pure ?_
    rw [PackedBody.useOf, hf]
    rfl
  | arrayPut array index v =>
    exact Ensures.skip fun v _ => Ensures.skip fun w _ => Ensures.skip fun x _ => Ensures.pure rfl
  | arrayLength array => exact Ensures.skip fun v _ => Ensures.pure rfl
  | invoke kind itf m args =>
    refine Ensures.lift_bind fun m hm => Ensures.skip fun args _ => Ensures.pure ?_
    rw [PackedBody.useOf, hm]
    rfl
  | invokeCustom site args =>
    refine Ensures.lift_bind fun k hk => ?_
    cases k with
    | callSite site =>
      refine Ensures.skip fun vs _ => Ensures.pure ?_
      rw [PackedBody.useOf, hk]
      rfl
    | _ => exact Ensures.throw _
  | binary op type lhs rhs =>
    cases type with
    | int | long => exact Ensures.skip fun v _ => Ensures.skip fun w _ => Ensures.pure rfl
  | _ => exact Ensures.pure rfl

/-- What is known of a computation beside the state can be used in what follows. -/
theorem follows_operation (i : PackedInstr) : Follows R (operation p i) (operation p i) Eq := by
  cases i with
  | loadConstant c =>
    refine Follows.lift_bind_self fun k _ => ?_
    cases k with
    | string | type | handle | proto => exact Follows.pure rfl
    | field | method | callSite => exact Follows.throw _
  | newInstance t | newUnboxedEnum t ordinal | staticGet f => exact Follows.lift_bind_self fun t _ => Follows.pure rfl
  | newArray t size | checkCast t v | instanceOf t v | staticPut f v | instanceGet f object =>
    exact Follows.lift_bind_self fun t _ => Follows.value_bind fun v => Follows.pure rfl
  | arrayGet t array index | instancePut f object v =>
    exact Follows.lift_bind_self fun t _ => Follows.value_bind fun v => Follows.value_bind fun w => Follows.pure rfl
  | arrayPut array index v =>
    exact Follows.value_bind fun v => Follows.value_bind fun w => Follows.value_bind fun x => Follows.pure rfl
  | arrayLength array => exact Follows.value_bind fun v => Follows.pure rfl
  | invoke kind itf m args => exact Follows.lift_bind_self fun m _ => Follows.values_bind fun args => Follows.pure rfl
  | invokeCustom site args =>
    refine Follows.lift_bind_self fun k _ => ?_
    cases k with
    | callSite site => exact Follows.values_bind fun args => Follows.pure rfl
    | _ => exact Follows.throw _
  | binary op type lhs rhs =>
    cases type with
    | int | long => exact Follows.value_bind fun v => Follows.value_bind fun w => Follows.pure rfl
  | _ => exact Follows.pure rfl

end Unpacking

namespace PackedBody

variable {p : PackedBody} {c : Body} {method : MethodRef} {isStatic : Bool} {types : List Descriptor}

/-- What every operation of the stream is ensured to satisfy holds of all instructions of the unpacked body. -/
theorem each_of_unpack {P : Instr → Prop} (h : p.unpack method isStatic types = .ok c)
    (hP : ∀ v i, .ok v ∈ p.views → v.decode = .ok i → ∀ s,
      Unpacking.Ensures (Unpacking.operation p i) s fun r _ => ∀ dest line, P ⟨dest, r.1, line⟩) : c.Each P := by
  obtain ⟨hlength, -, s, hrun, -⟩ := unpack_eq_ok_iff.1 h
  obtain ⟨vs, hviews, -⟩ := views_of_run hrun
  have htables : TablesAlike id p p := by
    refine ⟨rfl, rfl, rfl, fun start => ?_, fun _ x hx => ⟨x, hx⟩⟩
    cases p.handlers[start]? <;> simp
  have hsame : SameValues fun i i' => i' = i ∧ P i := by
    intro i i' hi
    rw [hi.1]
    exact ⟨rfl, rfl⟩
  have halike (v : InstrView) (hv : v ∈ vs) : ViewsAlike (fun i i' => i' = i ∧ P i) p p v v := by
    refine ⟨rfl, rfl, fun i hi => ⟨i, hi, ?_⟩⟩
    by_cases hplain : Unpacking.IsPlain i
    · refine .inl ⟨hplain, hplain, fun s s' hs r t hrun => ?_⟩
      obtain ⟨_, t', hrun', rfl, ht⟩ := Unpacking.follows_operation i s s' hs r t hrun
      have hmem : .ok v ∈ p.views := by
        rw [hviews]
        exact List.mem_map_of_mem hv
      exact ⟨r, t', hrun', ⟨rfl, fun dest line _ => ⟨rfl, hP v i hmem hi s r t hrun dest line⟩⟩, ht⟩
    · exact .inr ⟨hplain, rfl⟩
  obtain ⟨c', -, -, -, -, -, hblocks⟩ := @unpack_lockstep _ _ _ _ _ hsame htables vs vs hviews hviews (List.forall₂_same.2 halike)
    method method isStatic isStatic types types hlength h
  intro b hb i hi
  obtain ⟨b', -, hb'⟩ := exists_of_mem_left hblocks hb
  obtain ⟨i', -, hcopies⟩ := exists_of_mem_left hb'.body hi
  exact hcopies.2

/-- **An unpacked body makes no reference that the stream does not make.** -/
theorem use_of_unpack (h : p.unpack method isStatic types = .ok c) :
    c.Each fun i => ∀ use, i.op.use? = some use → p.Mentions use := by
  refine each_of_unpack h fun v i hv hi s r t hrun dest line use huse => ?_
  exact ⟨v, i, hv, hi, (Unpacking.useOf_of_operation i s r t hrun).trans (congrArg Except.ok huse)⟩

end PackedBody

/-! ### The pool index of an instruction -/

namespace PackedInstr

/-- The place in the pool that the instruction names. -/
def pool? : PackedInstr → Option Nat
  | loadConstant k | newInstance k | newArray k _ | newUnboxedEnum k _ | arrayGet k _ _ | staticGet k | staticPut k _
  | instanceGet k _ | instancePut k _ _ | invoke _ _ k _ | invokeCustom k _ | checkCast k _ | instanceOf k _ | phi k _ => some k
  | _ => none

/-- How the instruction touches a field. -/
def fieldUse? : PackedInstr → Option FieldUse
  | staticGet _ => some .staticRead
  | staticPut .. => some .staticWrite
  | instanceGet .. => some .instanceRead
  | instancePut .. => some .instanceWrite
  | _ => none

end PackedInstr

namespace PackedBody

variable {p : PackedBody} {f : FieldRef}

theorem fieldAt_eq_ok_iff {k : Nat} : p.fieldAt k = .ok f ↔ p.constants[k]? = some (.field f) := by
  unfold fieldAt constant
  cases p.constants[k]? with
  | none => simp [bind, Except.bind]
  | some c =>
    cases c with
    | field g =>
      change Except.ok g = .ok f ↔ _
      simp
    | _ => simp [bind, Except.bind, throw, throwThe, MonadExceptOf.throw]

theorem useOf_eq_field_iff {i : PackedInstr} {how : FieldUse} : p.useOf i = .ok (some (.field f how)) ↔
    i.fieldUse? = some how ∧ ∃ k, i.pool? = some k ∧ p.constants[k]? = some (.field f) := by
  constructor
  · intro h
    cases i with
    | staticGet k | staticPut k | instanceGet k | instancePut k =>
      obtain ⟨g, hg, h⟩ := bind_eq_ok.1 h
      cases h
      exact ⟨rfl, k, rfl, fieldAt_eq_ok_iff.1 hg⟩
    | newInstance k | newArray k | checkCast k | instanceOf k | invoke kind itf k =>
      obtain ⟨g, -, h⟩ := bind_eq_ok.1 h
      cases h
    | loadConstant k | invokeCustom k =>
      obtain ⟨c, -, h⟩ := bind_eq_ok.1 h
      cases c <;> cases h
    | _ => cases h
  · rintro ⟨hhow, k, hk, hconst⟩
    cases i with
    | staticGet | staticPut | instanceGet | instancePut =>
      cases hhow
      cases hk
      rw [useOf, fieldAt_eq_ok_iff.2 hconst]
      rfl
    | _ => cases hhow

end PackedBody

namespace InstrView

open OperandReader PackedInstr

variable {v : InstrView} {i j : PackedInstr}

/-- The opcode tells how the instruction touches a field. -/
theorem answers_fieldUse (hop : i.opcode = .ok v.opcode) : Answers v.instruction fun j => j.fieldUse? = i.fieldUse? := by
  obtain ⟨index, current, offset, opcode, operands⟩ := v
  cases i with
  | constInt value =>
    simp only [PackedInstr.opcode] at hop
    cases hsmall : smallInt? value with
    | some small =>
      simp only [hsmall] at hop
      rcases smallInt?_eq_some hsmall with ⟨rfl, rfl⟩ | ⟨rfl, rfl⟩ | ⟨rfl, rfl⟩ | ⟨rfl, rfl⟩ | ⟨rfl, rfl⟩ | ⟨rfl, rfl⟩ <;>
        cases hop <;> exact answers_pure rfl
    | none =>
      simp only [hsmall] at hop
      cases hop
      exact answers_bind _ fun n => answers_pure rfl
  | constNull | debugPosition | «fallthrough» =>
    cases hop
    exact answers_pure rfl
  | constLong | loadConstant | newInstance | arrayLength | staticGet | goto | throw =>
    cases hop
    exact answers_bind _ fun n => answers_pure rfl
  | newArray | newUnboxedEnum | staticPut | instanceGet | invokeCustom | checkCast | instanceOf | phi =>
    cases hop
    exact answers_bind _ fun n => answers_bind _ fun x => answers_pure rfl
  | arrayGet | arrayPut | instancePut =>
    cases hop
    exact answers_bind _ fun n => answers_bind _ fun x => answers_bind _ fun y => answers_pure rfl
  | invoke kind itf m args =>
    cases kind <;> cases itf <;> cases hop <;> exact answers_bind _ fun n => answers_bind _ fun x => answers_pure rfl
  | binary op type lhs rhs =>
    cases op <;> cases type <;> cases hop <;> exact answers_bind _ fun n => answers_bind _ fun x => answers_pure rfl
  | branch kind type target lhs rhs =>
    cases rhs with
    | none => cases kind <;> cases type <;> cases hop <;> exact answers_bind _ fun n => answers_bind _ fun x => answers_pure rfl
    | some rhs =>
      cases kind <;> cases type <;> cases hop <;>
        exact answers_bind _ fun n => answers_bind _ fun x => answers_bind _ fun y => answers_pure rfl
  | ret value =>
    cases value with
    | none =>
      cases hop
      exact answers_pure rfl
    | some value =>
      cases hop
      exact answers_bind _ fun n => answers_pure rfl

/-- An instruction over the pool is read with its index first. -/
theorem instruction_pool {k : Nat} (hop : i.opcode = .ok v.opcode) (hk : i.pool? = some k) :
    ∃ f, v.instruction = OperandReader.index >>= f ∧ ∀ n, Answers (f n) fun j => j.pool? = some n := by
  obtain ⟨index, current, offset, opcode, operands⟩ := v
  cases i with
  | loadConstant | newInstance | staticGet =>
    cases hop
    exact ⟨_, rfl, fun n => answers_pure rfl⟩
  | newArray | newUnboxedEnum | staticPut | instanceGet | invokeCustom | checkCast | instanceOf | phi =>
    cases hop
    exact ⟨_, rfl, fun n => answers_bind _ fun x => answers_pure rfl⟩
  | arrayGet | instancePut =>
    cases hop
    exact ⟨_, rfl, fun n => answers_bind _ fun x => answers_bind _ fun y => answers_pure rfl⟩
  | invoke kind itf m args =>
    cases kind <;> cases itf <;> cases hop <;> exact ⟨_, rfl, fun n => answers_bind _ fun x => answers_pure rfl⟩
  | _ => cases hk

theorem operandsOf_pool (current : Nat) {op : UInt8} {k : Nat} (hop : i.opcode = .ok op) (hk : i.pool? = some k) :
    ∃ rest, operandsOf op current i = indexBytes k ++ rest := by
  cases i with
  | loadConstant | newInstance | staticGet =>
    cases hop
    cases hk
    exact ⟨[], (List.append_nil _).symm⟩
  | newArray | newUnboxedEnum | staticPut | instanceGet | invokeCustom | checkCast | instanceOf | phi =>
    cases hop
    cases hk
    exact ⟨_, rfl⟩
  | arrayGet | instancePut =>
    cases hop
    cases hk
    exact ⟨_, List.append_assoc ..⟩
  | invoke kind itf m args =>
    cases hk
    cases kind <;> cases itf <;> cases hop <;> exact ⟨_, rfl⟩
  | _ => cases hk

/-- **A pool index is read back** from its sixty-four bits, and is refused beyond thirty-two. -/
theorem Bears.pool?_eq {argc n k : Nat} (h : Bears argc n i v) (hk : i.pool? = some k) (hj : v.decode = .ok j) :
    k.toUInt64.toNat < UInt32.size ∧ j.pool? = some k.toUInt64.toNat := by
  obtain ⟨offset, hread⟩ := decode_eq_ok_iff.1 hj
  obtain ⟨f, hf, hanswers⟩ := instruction_pool h.opcode hk
  obtain ⟨rest, hoperands⟩ := operandsOf_pool v.valueIndex h.opcode hk
  obtain ⟨offset', hword⟩ := reads_word k.toUInt64 rest (v.offset + 2)
  have hindex : OperandReader.index ⟨v.operands, v.offset + 2⟩ = if k.toUInt64.toNat < UInt32.size
      then .ok (k.toUInt64.toNat, ⟨rest, offset'⟩) else .error (.truncated (v.offset + 2)) := by
    change (word ⟨_, _⟩ >>= fun x =>
      (if x.1.toNat < UInt32.size then (pure x.1.toNat : OperandReader Nat) else throw (.truncated (v.offset + 2))) x.2) = _
    rw [h.operands, hoperands, indexBytes, hword]
    change (if k.toUInt64.toNat < UInt32.size then (pure k.toUInt64.toNat : OperandReader Nat) else _) _ = _
    split <;> rfl
  rw [hf] at hread
  change (OperandReader.index ⟨_, _⟩ >>= fun x => f x.1 x.2) = _ at hread
  rw [hindex] at hread
  split at hread
  · next hlt => exact ⟨hlt, hanswers _ _ _ _ hread⟩
  · cases hread

end InstrView

/-! ### Entries that come from a body -/

theorem Body.field_mem_uses_iff {c : Body} {f : FieldRef} {how : FieldUse} :
    .field f how ∈ c.uses ↔ ∃ b ∈ c.blocks, ∃ i ∈ b.body, i.op.use? = some (.field f how) := by
  simp [Body.uses, Block.uses]

/-- The body names the constant: an operation needs it, or it is the type of a phi. -/
def Body.Names (c : Body) (k : Constant) : Prop :=
  (∃ b ∈ c.blocks, ∃ i ∈ b.body, i.op.constant? = some k) ∨
    ∃ b ∈ c.blocks, ∃ x ∈ b.phis, ∃ v, c.values[x.dest]? = some v ∧ k = .type v.type

/-- A handler of the body has the guard. -/
def Body.Guards (c : Body) (t : Descriptor) : Prop := ∃ b ∈ c.blocks, ∃ x ∈ b.handlers, x.guard = t

theorem Op.named_of_traverseReads {ε : Type} {g : ValueId → Except ε ValueId} {op op' : Op} (h : op.traverseReads g = .ok op') :
    op'.use? = op.use? ∧ op'.constant? = op.constant? := by
  cases op with
  | newArray | arrayLength | staticPut | instanceGet | invoke | invokeCustom | checkCast | instanceOf =>
    obtain ⟨v, -, h⟩ := bind_eq_ok.1 h
    cases h
    exact ⟨rfl, rfl⟩
  | arrayGet | instancePut | binary =>
    obtain ⟨v, -, h⟩ := bind_eq_ok.1 h
    obtain ⟨w, -, h⟩ := bind_eq_ok.1 h
    cases h
    exact ⟨rfl, rfl⟩
  | arrayPut =>
    obtain ⟨v, -, h⟩ := bind_eq_ok.1 h
    obtain ⟨w, -, h⟩ := bind_eq_ok.1 h
    obtain ⟨x, -, h⟩ := bind_eq_ok.1 h
    cases h
    exact ⟨rfl, rfl⟩
  | _ =>
    cases h
    exact ⟨rfl, rfl⟩

namespace Entry

/-- The instruction names the place of the constant, which the body names, and touches a field only as the body does. -/
structure Within (c : Body) (e : Entry) : Prop where
  pool : e.constant.isSome → ∀ k, (e.code k).pool? = some k
  names : ∀ k, e.constant = some k → c.Names k
  fields : ∀ k how, (e.code k).fieldUse? = some how → ∃ f, e.constant = some (.field f) ∧ .field f how ∈ c.uses

variable {c : Body}

theorem within_op {op : Op} {line : Line} (hnames : ∀ k, op.constant? = some k → c.Names k)
    (h : ∀ f how, op.use? = some (.field f how) → .field f how ∈ c.uses) : (op.entry line).Within c := by
  refine ⟨?_, hnames, ?_⟩
  · intro hconst k
    cases op with
    | constNull | constInt | constLong | arrayPut | arrayLength | binary | debugPosition => cases hconst
    | _ => rfl
  · intro k how hhow
    cases op with
    | staticGet f | staticPut f | instanceGet f | instancePut f =>
      cases hhow
      exact ⟨f, rfl, h f _ rfl⟩
    | _ => cases hhow

theorem within_phi (line : Option Line) {t : Descriptor} (ht : c.Names (.type t)) (operands : List Nat) :
    Within c ⟨line, some (.type t), (.phi · operands)⟩ := by
  refine ⟨fun _ _ => rfl, ?_, fun _ _ h => nomatch h⟩
  rintro _ ⟨⟩
  exact ht

theorem within_exit (line : Option Line) {i : PackedInstr} (hi : i.isTerminator = true) : Within c ⟨line, none, fun _ => i⟩ := by
  refine ⟨?_, ?_, ?_⟩
  · intro hconst
    cases hconst
  · intro k hconst
    cases hconst
  · intro k how hhow
    change i.fieldUse? = some how at hhow
    cases i <;> cases hi <;> cases hhow

end Entry

/-! ### Packers that hold such entries -/

namespace Packer

/-- The pool has a place for each constant that an entry needs, and for nothing else. -/
structure Pooled (p : Packer) (es : List Entry) : Prop where
  nodup : p.constants.Nodup
  needed : ∀ k ∈ p.constants, ∃ e ∈ es, e.constant = some k

variable {p p' : Packer} {es : List Entry} {c : Body}

theorem Pooled.intern (h : p.Pooled es) {e : Entry} {k : Constant} (hk : e.constant = some k) :
    (p.intern k).2.Pooled (es ++ [e]) := by
  have hold : ∀ c ∈ p.constants, ∃ e' ∈ es ++ [e], e'.constant = some c := by
    intro c hc
    obtain ⟨e', he', hneeds⟩ := h.needed c hc
    exact ⟨e', List.mem_append_left _ he', hneeds⟩
  unfold Packer.intern
  split
  · exact ⟨h.nodup, hold⟩
  · next hnew =>
    refine ⟨?_, ?_⟩
    · refine List.nodup_append.2 ⟨h.nodup, List.nodup_singleton k, ?_⟩
      rintro c hc _ hk' rfl
      cases List.mem_singleton.1 hk'
      exact absurd hc (by simpa using hnew)
    · intro c hc
      rcases List.mem_append.1 hc with hc | hc
      · exact hold c hc
      · cases List.mem_singleton.1 hc
        exact ⟨e, by simp, hk⟩

theorem Pooled.write (h : p.Pooled es) (e : Entry) : (p.write e).Pooled (es ++ [e]) := by
  have hline : (e.line.elim p p.setLine).Pooled es := by
    cases e.line with
    | none => exact h
    | some line => exact ⟨h.nodup, h.needed⟩
  unfold Packer.write
  split
  · refine ⟨by simpa using hline.nodup, fun c hc => ?_⟩
    rw [push_constants] at hc
    obtain ⟨e', he', hneeds⟩ := hline.needed c hc
    exact ⟨e', List.mem_append_left _ he', hneeds⟩
  · next k hk =>
    have hintern := hline.intern hk
    refine ⟨?_, ?_⟩
    · rw [pushWith, push_constants]
      exact hintern.nodup
    · rw [pushWith, push_constants]
      exact hintern.needed

/-- The handlers in the table are those of the body. -/
def Guarded (c : Body) (p : Packer) : Prop := ∀ (start : Nat) (hs : List Handler), p.handlers[start]? = some hs → ∀ x ∈ hs, c.Guards x.guard

/-- The packer has written entries and handlers that come from a body. -/
def Packs (c : Body) (p : Packer) : Prop := (∃ es, p.Holds es ∧ p.Pooled es ∧ ∀ e ∈ es, e.Within c) ∧ p.Guarded c

theorem packs_start (argc : Nat) : Packs c { argumentCount := argc } :=
  ⟨⟨[], holds_start argc, ⟨.nil, by simp⟩, by simp⟩, fun start hs hget => by simp at hget⟩

theorem Packs.write (h : p.Packs c) {e : Entry} (he : e.Within c) : (p.write e).Packs c := by
  obtain ⟨⟨es, hholds, hpool, hes⟩, hguarded⟩ := h
  refine ⟨⟨es ++ [e], hholds.write e, hpool.write e, ?_⟩, by rwa [Guarded, write_handlers]⟩
  simpa [or_imp, forall_and] using ⟨hes, he⟩

theorem Packs.addHandlers (h : p.Packs c) (start : Nat) {handlers : List Handler} (hhandlers : ∀ x ∈ handlers, c.Guards x.guard) :
    (p.addHandlers start handlers).Packs c := by
  obtain ⟨⟨es, hholds, hpool, hes⟩, hguarded⟩ := h
  refine ⟨⟨es, hholds.addHandlers start handlers, ?_, hes⟩, ?_⟩
  · unfold Packer.addHandlers
    split
    · exact hpool
    · exact ⟨hpool.nodup, hpool.needed⟩
  · unfold Packer.addHandlers
    split
    · exact hguarded
    · intro start' hs hget
      simp only [Std.TreeMap.getElem?_insert] at hget
      split at hget
      · cases hget
        exact hhandlers
      · exact hguarded start' hs hget

theorem Packs.exit (h : p.Packs c) (line : Line) {i : PackedInstr} (hi : i.isTerminator = true) : ((p.setLine line).push i).Packs c :=
  h.write (Entry.within_exit (some line) hi)

end Packer

namespace Body

variable {c : Body} {p p' : Packer} {index : ValueId → Except (Failure PackedError) Nat} {b : BlockId} {block : Block}

theorem packs_of_packTerminator (hp : p.Packs c) {line : Line} {t : Terminator}
    (h : c.packTerminator index (p.setLine line) b t = .ok p') : p'.Packs c := by
  cases t with
  | goto target =>
    rw [packTerminator] at h
    split at h
    · cases h
      exact hp.exit line rfl
    · obtain ⟨start, -, h⟩ := bind_eq_ok.1 h
      cases h
      exact hp.exit line rfl
  | branch kind type lhs rhs target =>
    obtain ⟨rhs', -, h⟩ := bind_eq_ok.1 h
    obtain ⟨start, -, h⟩ := bind_eq_ok.1 h
    obtain ⟨lhs', -, h⟩ := bind_eq_ok.1 h
    cases h
    exact hp.exit line rfl
  | ret value =>
    obtain ⟨value', -, h⟩ := bind_eq_ok.1 h
    cases h
    exact hp.exit line rfl
  | throw value =>
    obtain ⟨value', -, h⟩ := bind_eq_ok.1 h
    cases h
    exact hp.exit line rfl

theorem packs_of_packBlock (hp : p.Packs c) (hblock : block ∈ c.blocks) (h : c.packBlock index p b block = .ok p') : p'.Packs c := by
  obtain ⟨start, -, h⟩ := bind_eq_ok.1 h
  obtain ⟨handlers, hhandlers, h⟩ := bind_eq_ok.1 h
  obtain ⟨p₁, hphis, h⟩ := bind_eq_ok.1 h
  obtain ⟨p₂, hbody, h⟩ := bind_eq_ok.1 h
  have hguards : ∀ x ∈ handlers, c.Guards x.guard := by
    intro x hx
    obtain ⟨y, hy, hstep⟩ := exists_of_mem_left (mapM_eq_ok_iff.1 hhandlers).flip hx
    obtain ⟨target, -, hstep⟩ := bind_eq_ok.1 hstep
    cases hstep
    exact ⟨block, hblock, y, hy, rfl⟩
  have hp₁ : p₁.Packs c := by
    refine foldlM_preserves (fun q phi hphi q' hq hstep => ?_) (hp.addHandlers start hguards) hphis
    obtain ⟨operands, -, hstep⟩ := bind_eq_ok.1 hstep
    obtain ⟨v, hv, hstep⟩ := bind_eq_ok.1 hstep
    cases hstep
    exact hq.write (Entry.within_phi none (.inr ⟨block, hblock, phi, hphi, v, entryOr_eq_ok.1 (Outcome.lift_eq_ok.1 hv), rfl⟩) operands)
  have hp₂ : p₂.Packs c := by
    refine foldlM_preserves (fun q i hi q' hq hstep => ?_) hp₁ hbody
    obtain ⟨op, hop, hstep⟩ := bind_eq_ok.1 hstep
    cases hstep
    rw [Packer.addOp_eq_write]
    obtain ⟨hsame, hconstant⟩ := Op.named_of_traverseReads hop
    refine hq.write (Entry.within_op (fun k hk => .inl ⟨block, hblock, i, hi, hconstant.symm.trans hk⟩) fun f how huse => ?_)
    exact field_mem_uses_iff.2 ⟨block, hblock, i, hi, hsame.symm.trans huse⟩
  exact packs_of_packTerminator hp₂ h

theorem packs_of_pack {p : PackedBody} (h : c.pack = .ok p) : ∃ q : Packer, q.Packs c ∧ q.finish = .ok p := by
  unfold pack at h
  split at h
  · cases h
  obtain ⟨q, hq, h⟩ := bind_eq_ok.1 h
  refine ⟨q, ?_, Outcome.ofExcept_eq_ok.1 h⟩
  refine foldlM_preserves (fun p x hx p' hp hstep => ?_) (Packer.packs_start _) hq
  obtain ⟨b, hlt, rfl⟩ := List.mem_mapIdx.1 hx
  exact packs_of_packBlock hp (List.getElem_mem hlt) hstep

/-- **What is in the pool, the body names**, and its handlers have the guards of the packed ones. -/
theorem names_of_pack {p : PackedBody} (h : c.pack = .ok p) :
    (∀ k ∈ p.constants, c.Names k) ∧ ∀ (start : Nat) (hs : List Handler), p.handlers[start]? = some hs → ∀ x ∈ hs, c.Guards x.guard := by
  obtain ⟨q, ⟨⟨es, -, hpool, hwithin⟩, hguarded⟩, hfinish⟩ := packs_of_pack h
  obtain ⟨-, rfl⟩ := Packer.finish_eq_ok hfinish
  refine ⟨fun k hk => ?_, hguarded⟩
  obtain ⟨e, he, hneeds⟩ := hpool.needed k hk
  exact (hwithin e he).names k hneeds

end Body

/-! ### Reading what was packed -/

namespace Entry

/-- The view is of the instruction that the entry was written as. -/
def Shown (p : PackedBody) (e : Entry) (v : InstrView) : Prop := ∃ i n, e.Written p.constants i ∧ v.Bears p.argumentCount n i

variable {p : PackedBody} {c : Body} {e : Entry} {v : InstrView} {j : PackedInstr}

/-- The pool index of an instruction that can be read is the place of the constant up to the sixty-four bits that are written. -/
theorem Shown.pool?_eq (h : e.Shown p v) (he : e.Within c) {k : Constant} (hk : e.constant = some k) (hj : v.decode = .ok j) :
    ∃ n : Nat, p.constants[n]? = some k ∧ n.toUInt64.toNat < UInt32.size ∧ j.pool? = some n.toUInt64.toNat := by
  obtain ⟨i, m, ⟨n, rfl, -, hconst⟩, hbears⟩ := h
  exact ⟨n, hconst k hk, hbears.pool?_eq (he.pool (by simp [hk]) n) hj⟩

/-- With numbers of thirty-two bits the instruction is read back as the entry's. -/
theorem Shown.decode (h : e.Shown p v) (hpool : p.constants.length ≤ UInt32.size) (hfits : ∀ k < UInt32.size, (e.code k).Fits) :
    ∃ k, v.decode = .ok (e.code k).settled ∧ ∀ c, e.constant = some c → p.constants[k]? = some c := by
  obtain ⟨i, n, ⟨k, rfl, hk, hconst⟩, hbears⟩ := h
  have hlt : k < UInt32.size := by
    rcases hk with rfl | hk
    · decide
    · exact Nat.lt_of_lt_of_le hk hpool
  exact ⟨k, (hbears.shows (hfits k hlt)).decode, hconst⟩

theorem Shown.fieldUse? (h : e.Shown p v) (he : e.Within c) {how : FieldUse} (hj : v.decode = .ok j) (hhow : j.fieldUse? = some how) :
    ∃ f, e.constant = some (.field f) ∧ .field f how ∈ c.uses := by
  obtain ⟨i, m, ⟨n, rfl, -, -⟩, hbears⟩ := h
  obtain ⟨offset, hread⟩ := InstrView.decode_eq_ok_iff.1 hj
  exact he.fields n how ((InstrView.answers_fieldUse hbears.opcode _ _ _ hread).symm.trans hhow)

end Entry

/-- The stream of a packed body shows the entries. -/
theorem Packer.Holds.shown {q : Packer} {es : List Entry} {p : PackedBody} (h : q.Holds es) (hfinish : q.finish = .ok p) :
    ∃ vs : List InstrView, p.views = vs.map .ok ∧ List.Forall₂ (Entry.Shown p) es vs := by
  obtain ⟨herror, rfl⟩ := Packer.finish_eq_ok hfinish
  obtain ⟨insns, hwritten, hstream⟩ := h.stream herror
  obtain ⟨vs, hlength, hbears, hscan⟩ := hstream.scanBytes
  refine ⟨vs, ?_, List.forall₂_iff_get.2 ⟨hwritten.length_eq.trans hlength.symm, fun n hn hn' => ?_⟩⟩
  · have hall := hscan []
    rw [List.append_nil] at hall
    rw [PackedBody.views, hall]
    simp [scanBytes]
  · obtain ⟨v, hv, hbears⟩ := hbears n _ (List.getElem?_eq_getElem (hlength ▸ hn'))
    obtain rfl : vs[n] = v := Option.some.inj ((List.getElem?_eq_getElem hn').symm.trans hv)
    exact ⟨_, n, hwritten.get hn (hlength ▸ hn'), hbears⟩

/-- **A stream that can be read has no more places in its pool than thirty-two bits can tell apart**: the place behind the last of
    these would be needed by an instruction whose index cannot be read. -/
theorem Packer.Pooled.length_le {es : List Entry} {p : PackedBody} {c : Body} {vs : List InstrView} {q : Packer}
    (h : q.Pooled es) (hconstants : q.constants = p.constants) (hwithin : ∀ e ∈ es, e.Within c)
    (hshown : List.Forall₂ (Entry.Shown p) es vs) (hreadable : ∀ v ∈ vs, ∃ i, v.decode = .ok i) :
    p.constants.length ≤ UInt32.size := by
  by_contra! hlarge
  obtain ⟨hnodup, hneeded⟩ := h
  rw [hconstants] at hnodup hneeded
  obtain ⟨e, he, hk⟩ := hneeded _ (List.getElem_mem hlarge)
  obtain ⟨v, hv, hview⟩ := exists_of_mem_left hshown he
  obtain ⟨j, hj⟩ := hreadable v hv
  obtain ⟨n, hn, hlt, -⟩ := hview.pool?_eq (hwithin e he) hk hj
  obtain ⟨hbound, hn⟩ := List.getElem?_eq_some_iff.1 hn
  obtain rfl : n = UInt32.size := (hnodup.getElem_inj_iff).1 hn
  exact absurd hlt (by decide)

/-- **A packed body touches only fields that the body touches.** -/
theorem Body.field_of_pack {c : Body} {p : PackedBody} {us : List Use} {f : FieldRef} {how : FieldUse} (h : c.pack = .ok p)
    (hus : p.uses = .ok us) (hf : .field f how ∈ us) : .field f how ∈ c.uses := by
  obtain ⟨q, ⟨⟨es, hholds, hpool, hwithin⟩, -⟩, hfinish⟩ := packs_of_pack h
  obtain ⟨vs, hviews, hshown⟩ := hholds.shown hfinish
  have hconstants : q.constants = p.constants := by rw [(Packer.finish_eq_ok hfinish).2]
  have hreadable : ∀ v ∈ vs, ∃ i, v.decode = .ok i := by
    obtain ⟨vs', hviews', hall⟩ := (PackedBody.uses_eq_ok hus).1
    have heq : vs = vs' := List.map_injective_iff.2 (fun _ _ => Except.ok.inj) (hviews.symm.trans hviews')
    exact heq ▸ hall
  have hlength := hpool.length_le hconstants hwithin hshown hreadable
  obtain ⟨v, j, hv, hj, huse⟩ := (PackedBody.field_mem_uses_iff hus).1 hf
  obtain ⟨hhow, m, hm, hplace⟩ := PackedBody.useOf_eq_field_iff.1 huse
  rw [hviews] at hv
  obtain ⟨_, hv, heq⟩ := List.mem_map.1 hv
  cases heq
  obtain ⟨e, he, (hview : e.Shown p v)⟩ := exists_of_mem_left hshown.flip hv
  obtain ⟨g, hg, htouched⟩ := hview.fieldUse? (hwithin e he) hj hhow
  obtain ⟨n, hn, hlt, hpool?⟩ := hview.pool?_eq (hwithin e he) hg hj
  have hbound := (List.getElem?_eq_some_iff.1 hn).1
  have hword : n.toUInt64.toNat = n := by
    have hsize : UInt32.size = 4294967296 := rfl
    simp
    omega
  cases (hpool?.symm.trans hm).symm.trans (congrArg some hword)
  cases hplace.symm.trans hn
  exact htouched

end DexShrinker
