/-
  DexShrinker/Proofs/Packed/Instr.lean
  ====================================
  **A packed instruction is read back as it was written.**

  Readers are composed as writers are: `Reads r bytes a` says that `r` takes exactly
  `bytes` off the front and answers `a`, and `ReadsAll` that it takes all there is. One
  such fact for each kind of operand, and one step for each opcode, give that decoding
  the bytes of an instruction gives the instruction (`decode_of_encode`), except that
  virtual and interface calls have one opcode each and so lose the flag of their holder.
  Cutting a stream of written instructions apart gives them in order
  (`Streamed.scanBytes`).
-/
import DexShrinker.Proofs.Packed.Varint

namespace DexShrinker

/-! ### Families of opcodes -/

namespace Opcode

/-- Whether the holder of a call reads as an interface: virtual calls never do and
    interface calls always. -/
def settledFlag : InvokeKind → Bool → Bool
  | .virtual, _ => false
  | .interface, _ => true
  | _, itf => itf

end Opcode

/-! ### Readers -/

namespace OperandReader

/-- The reader takes exactly `bytes` off the front and answers `a`. -/
def Reads {α : Type} (r : OperandReader α) (bytes : List UInt8) (a : α) : Prop :=
  ∀ rest offset, ∃ offset', r ⟨bytes ++ rest, offset⟩ = .ok (a, ⟨rest, offset'⟩)

/-- The reader takes all of `bytes`, which must be all there is, and answers `a`. -/
def ReadsAll {α : Type} (r : OperandReader α) (bytes : List UInt8) (a : α) : Prop :=
  ∀ offset, ∃ offset', r ⟨bytes, offset⟩ = .ok (a, ⟨[], offset'⟩)

variable {α β γ δ : Type}

theorem Reads.all {r : OperandReader α} {bytes : List UInt8} {a : α} (h : Reads r bytes a) : ReadsAll r bytes a := by
  intro offset
  simpa using h [] offset

theorem reads_pure (a : α) : Reads (pure a) [] a := fun _ offset => ⟨offset, rfl⟩

/-- One operand that runs to the end. -/
theorem ReadsAll.map {r : OperandReader α} {bytes : List UInt8} {a : α} (h : ReadsAll r bytes a) (f : α → β) :
    ReadsAll (do return f (← r)) bytes (f a) := by
  intro offset
  obtain ⟨offset', hr⟩ := h offset
  refine ⟨offset', ?_⟩
  change (r ⟨bytes, offset⟩ >>= fun x => (pure (f x.1) : OperandReader β) x.2) = _
  rw [hr]
  rfl

theorem Reads.bindAll {r : OperandReader α} {f : α → OperandReader β} {front back : List UInt8} {a : α} {b : β}
    (hr : Reads r front a) (hf : ReadsAll (f a) back b) : ReadsAll (r >>= f) (front ++ back) b := by
  intro offset
  obtain ⟨middle, hmiddle⟩ := hr back offset
  obtain ⟨last, hlast⟩ := hf middle
  refine ⟨last, ?_⟩
  change (r ⟨front ++ back, offset⟩ >>= fun x => f x.1 x.2) = _
  rw [hmiddle]
  exact hlast

/-- Two operands, the second of which runs to the end. -/
theorem Reads.map₂ {r : OperandReader α} {r' : OperandReader β} {front back : List UInt8} {a : α} {b : β}
    (h : Reads r front a) (h' : ReadsAll r' back b) (f : α → β → γ) :
    ReadsAll (do return f (← r) (← r')) (front ++ back) (f a b) :=
  Reads.bindAll (f := fun x => do return f x (← r')) h (h'.map (f a))

/-- Three operands, the last of which runs to the end. -/
theorem Reads.map₃ {r : OperandReader α} {r' : OperandReader β} {r'' : OperandReader γ}
    {front middle back : List UInt8} {a : α} {b : β} {c : γ} (h : Reads r front a) (h' : Reads r' middle b)
    (h'' : ReadsAll r'' back c) (f : α → β → γ → δ) :
    ReadsAll (do return f (← r) (← r') (← r'')) (front ++ middle ++ back) (f a b c) := by
  rw [List.append_assoc]
  exact Reads.bindAll (f := fun x => do return f x (← r') (← r'')) h (h'.map₂ h'' (f a))

theorem reads_word (v : UInt64) : Reads word (Varint.write v) v := by
  intro rest offset
  simp [word, next]

theorem reads_index {n : Nat} (h : n < UInt32.size) : Reads index (PackedInstr.indexBytes n) n := by
  intro rest offset
  obtain ⟨offset', hword⟩ := reads_word n.toUInt64 rest offset
  refine ⟨offset', ?_⟩
  have hsize : UInt32.size = 4294967296 := rfl
  have hn : n.toUInt64.toNat = n := by
    simp
    omega
  change (word ⟨_, offset⟩ >>= fun x =>
    (if x.1.toNat < UInt32.size then (pure x.1.toNat : OperandReader Nat) else throw (.truncated offset)) x.2) = _
  rw [PackedInstr.indexBytes, hword]
  change (if n.toUInt64.toNat < UInt32.size then (pure n.toUInt64.toNat : OperandReader Nat) else _) _ = _
  rw [hn, if_pos h]
  rfl

theorem reads_long (v : Int64) : Reads long (PackedInstr.intBytes v) v := by
  intro rest offset
  obtain ⟨offset', hword⟩ := reads_word (Varint.zigzag v) rest offset
  refine ⟨offset', ?_⟩
  change (word ⟨_, offset⟩ >>= fun x => (pure (Varint.unzigzag x.1) : OperandReader Int64) x.2) = _
  rw [PackedInstr.intBytes, hword]
  change Except.ok (Varint.unzigzag (Varint.zigzag v), _) = _
  rw [Varint.unzigzag_zigzag]

theorem reads_int (v : Int32) : Reads int (PackedInstr.intBytes v.toInt64) v := by
  intro rest offset
  obtain ⟨offset', hlong⟩ := reads_long v.toInt64 rest offset
  refine ⟨offset', ?_⟩
  change (long ⟨_, offset⟩ >>= fun x =>
    (if x.1.toInt32.toInt64 = x.1 then (pure x.1.toInt32 : OperandReader Int32) else throw (.truncated offset)) x.2) = _
  rw [hlong]
  change (if v.toInt64.toInt32.toInt64 = v.toInt64 then (pure v.toInt64.toInt32 : OperandReader Int32) else _) _ = _
  rw [Int32.toInt32_toInt64, if_pos rfl]
  rfl

/-- The distance back from any value index leads to the value it was taken to. -/
theorem valueAt_distance (current : Nat) {value : Nat} (hv : value < UInt32.size) :
    valueAt current (Int64.ofInt ((current : Int) - value)) = .ok value := by
  have hsize : UInt32.size = 4294967296 := rfl
  have hback : (Int64.ofInt current - Int64.ofInt ((current : Int) - value)).toInt = value := by
    rw [← Int64.ofInt_sub, Int64.toInt_ofInt_of_le] <;> omega
  rw [valueAt, hback]
  simp [hv]

theorem reads_value (current : Nat) {value : Nat} (hv : value < UInt32.size) :
    Reads (OperandReader.value current) (PackedInstr.valueBytes current value) value := by
  intro rest offset
  obtain ⟨offset', hlong⟩ := reads_long (Int64.ofInt ((current : Int) - value)) rest offset
  refine ⟨offset', ?_⟩
  change (long ⟨_, offset⟩ >>= fun x => (liftM (valueAt current x.1) : OperandReader Nat) x.2) = _
  rw [PackedInstr.valueBytes, hlong]
  change (liftM (valueAt current _) : OperandReader Nat) _ = _
  rw [valueAt_distance current hv]
  rfl

theorem valuesFrom_valuesBytes (current : Nat) (values : List Nat) :
    (∀ v ∈ values, v < UInt32.size) → ∀ offset,
      valuesFrom current ⟨PackedInstr.valuesBytes current values, offset⟩ = .ok values := by
  induction values with
  | nil =>
    intro _ offset
    rw [valuesFrom]
    rfl
  | cons v vs ih =>
    intro hfit offset
    have hne : (PackedInstr.valueBytes current v ++ PackedInstr.valuesBytes current vs).isEmpty = false := by
      simp [PackedInstr.valueBytes, PackedInstr.intBytes, Varint.write_ne_nil]
    have hcons : PackedInstr.valuesBytes current (v :: vs) =
        PackedInstr.valueBytes current v ++ PackedInstr.valuesBytes current vs := by
      simp [PackedInstr.valuesBytes]
    have hread : Varint.read? (PackedInstr.valueBytes current v ++ PackedInstr.valuesBytes current vs) =
        some (Varint.zigzag (Int64.ofInt ((current : Int) - v)), PackedInstr.valuesBytes current vs) := by
      simp [PackedInstr.valueBytes, PackedInstr.intBytes]
    rw [hcons, valuesFrom]
    simp only [hne, Bool.false_eq_true, if_false]
    split
    · next hnone => simp [hread] at hnone
    · next w rest hsome =>
      obtain ⟨rfl, rfl⟩ := Prod.mk.inj (Option.some.inj (hread.symm.trans hsome))
      rw [Varint.unzigzag_zigzag, valueAt_distance current (hfit v (by simp)),
        ih (fun x hx => hfit x (by simp [hx]))]
      rfl

theorem reads_values (current : Nat) {values : List Nat} (hfit : ∀ v ∈ values, v < UInt32.size) :
    ReadsAll (OperandReader.values current) (PackedInstr.valuesBytes current values) values := by
  intro offset
  refine ⟨offset + (PackedInstr.valuesBytes current values).length, ?_⟩
  change (valuesFrom current ⟨_, offset⟩ >>= fun vs => pure (vs, (⟨[], _⟩ : OperandCursor))) = _
  rw [valuesFrom_valuesBytes current values hfit]
  rfl

end OperandReader

/-! ### Instructions -/

namespace PackedInstr

/-- The instruction as it reads once written: the flag of a virtual or interface call is
    settled by its opcode. -/
def settled : PackedInstr → PackedInstr
  | invoke kind itf m args => invoke kind (Opcode.settledFlag kind itf) m args
  | i => i

/-- The pool indices, block starts and value indices of an instruction. -/
def numbers : PackedInstr → List Nat
  | loadConstant c => [c]
  | newInstance t => [t]
  | newArray t size => [t, size]
  | newUnboxedEnum t _ => [t]
  | arrayGet t array index => [t, array, index]
  | arrayPut array index value => [array, index, value]
  | arrayLength array => [array]
  | staticGet f => [f]
  | staticPut f value => [f, value]
  | instanceGet f object => [f, object]
  | instancePut f object value => [f, object, value]
  | invoke _ _ m args => m :: args
  | invokeCustom site args => site :: args
  | checkCast t value => [t, value]
  | instanceOf t value => [t, value]
  | binary _ _ lhs rhs => [lhs, rhs]
  | goto target => [target]
  | branch _ _ target lhs rhs => target :: lhs :: rhs.toList
  | ret value => value.toList
  | throw value => [value]
  | phi t operands => t :: operands
  | constNull | constInt _ | constLong _ | debugPosition | fallthrough => []

/-- All numbers of the instruction have thirty-two bits. -/
def Fits (i : PackedInstr) : Prop := ∀ n ∈ i.numbers, n < UInt32.size

theorem valuesBytes_singleton (current value : Nat) : valuesBytes current [value] = valueBytes current value := by
  simp [valuesBytes]

theorem smallInt?_eq_some {value : Int32} {small : UInt8} (h : smallInt? value = some small) :
    value = 0 ∧ small = 0 ∨ value = 1 ∧ small = 1 ∨ value = 2 ∧ small = 2 ∨ value = 3 ∧ small = 3 ∨
      value = 4 ∧ small = 4 ∨ value = 5 ∧ small = 5 := by
  unfold smallInt? at h
  split at h
  · next hrange =>
    cases h
    have hlo : 0 ≤ value.toInt := by simpa [Int32.le_iff_toInt_le] using hrange.1
    have hhi : value.toInt ≤ 5 := by simpa [Int32.le_iff_toInt_le] using hrange.2
    have hcases : value.toInt = 0 ∨ value.toInt = 1 ∨ value.toInt = 2 ∨ value.toInt = 3 ∨ value.toInt = 4 ∨
        value.toInt = 5 := by omega
    rcases hcases with h | h | h | h | h | h
    · left; exact ⟨Int32.toInt.inj h, by rw [h]; rfl⟩
    · right; left; exact ⟨Int32.toInt.inj h, by rw [h]; rfl⟩
    · right; right; left; exact ⟨Int32.toInt.inj h, by rw [h]; rfl⟩
    · right; right; right; left; exact ⟨Int32.toInt.inj h, by rw [h]; rfl⟩
    · right; right; right; right; left; exact ⟨Int32.toInt.inj h, by rw [h]; rfl⟩
    · right; right; right; right; right; exact ⟨Int32.toInt.inj h, by rw [h]; rfl⟩
  · cases h

end PackedInstr

namespace InstrView

open OperandReader PackedInstr

/-- The operands as they stand in the stream: none behind an opcode that stands alone. -/
def operandsOf (op : UInt8) (current : Nat) (i : PackedInstr) : List UInt8 :=
  if Opcode.isOneByte op then [] else i.operandBytes current

theorem readsAll_instruction {i : PackedInstr} {op : UInt8} (hop : i.opcode = .ok op) (hfit : i.Fits)
    (view : InstrView) (hview : view.opcode = op) :
    ReadsAll view.instruction (operandsOf op view.valueIndex i) i.settled := by
  obtain ⟨index, current, offset, opcode, operands⟩ := view
  subst hview
  have hnum (n : Nat) (hn : n ∈ i.numbers) : Reads OperandReader.index (indexBytes n) n := reads_index (hfit n hn)
  have hval (n : Nat) (hn : n ∈ i.numbers) : Reads (OperandReader.value current) (valueBytes current n) n :=
    reads_value current (hfit n hn)
  have hvals (ns : List Nat) (hns : ∀ n ∈ ns, n ∈ i.numbers) :
      ReadsAll (OperandReader.values current) (valuesBytes current ns) ns :=
    reads_values current fun n hn => hfit n (hns n hn)
  cases i with
  | constNull =>
    cases hop
    exact (reads_pure _).all
  | constInt value =>
    simp only [PackedInstr.opcode] at hop
    cases hsmall : smallInt? value with
    | some small =>
      simp only [hsmall] at hop
      rcases smallInt?_eq_some hsmall with ⟨rfl, rfl⟩ | ⟨rfl, rfl⟩ | ⟨rfl, rfl⟩ | ⟨rfl, rfl⟩ | ⟨rfl, rfl⟩ | ⟨rfl, rfl⟩ <;>
        cases hop <;> exact (reads_pure _).all
    | none =>
      simp only [hsmall] at hop
      cases hop
      have hbytes : operandsOf Opcode.constInt current (.constInt value) = intBytes value.toInt64 := by
        simp [operandsOf, operandBytes, hsmall, show Opcode.isOneByte Opcode.constInt = false from rfl]
      rw [hbytes]
      exact (reads_int value).all.map PackedInstr.constInt
  | constLong value =>
    cases hop
    exact (reads_long value).all.map PackedInstr.constLong
  | loadConstant c =>
    cases hop
    exact (hnum c (by simp [numbers])).all.map PackedInstr.loadConstant
  | newInstance t =>
    cases hop
    exact (hnum t (by simp [numbers])).all.map PackedInstr.newInstance
  | newArray t size =>
    cases hop
    exact (hnum t (by simp [numbers])).map₂ (hval size (by simp [numbers])).all PackedInstr.newArray
  | newUnboxedEnum t ordinal =>
    cases hop
    exact (hnum t (by simp [numbers])).map₂ (reads_int ordinal).all PackedInstr.newUnboxedEnum
  | arrayGet t array index =>
    cases hop
    exact (hnum t (by simp [numbers])).map₃ (hval array (by simp [numbers])) (hval index (by simp [numbers])).all
      PackedInstr.arrayGet
  | arrayPut array index value =>
    cases hop
    exact (hval array (by simp [numbers])).map₃ (hval index (by simp [numbers])) (hval value (by simp [numbers])).all
      PackedInstr.arrayPut
  | arrayLength array =>
    cases hop
    exact (hval array (by simp [numbers])).all.map PackedInstr.arrayLength
  | staticGet f =>
    cases hop
    exact (hnum f (by simp [numbers])).all.map PackedInstr.staticGet
  | staticPut f value =>
    cases hop
    exact (hnum f (by simp [numbers])).map₂ (hval value (by simp [numbers])).all PackedInstr.staticPut
  | instanceGet f object =>
    cases hop
    exact (hnum f (by simp [numbers])).map₂ (hval object (by simp [numbers])).all PackedInstr.instanceGet
  | instancePut f object value =>
    cases hop
    exact (hnum f (by simp [numbers])).map₃ (hval object (by simp [numbers])) (hval value (by simp [numbers])).all
      PackedInstr.instancePut
  | invoke kind itf m args =>
    cases hop
    have hreads := (hnum m (by simp [numbers])).map₂ (hvals args (by simp +contextual [numbers]))
      (PackedInstr.invoke kind (Opcode.settledFlag kind itf))
    cases kind <;> cases itf <;> exact hreads
  | invokeCustom site args =>
    cases hop
    exact (hnum site (by simp [numbers])).map₂ (hvals args (by simp +contextual [numbers])) PackedInstr.invokeCustom
  | checkCast t value =>
    cases hop
    exact (hnum t (by simp [numbers])).map₂ (hval value (by simp [numbers])).all PackedInstr.checkCast
  | instanceOf t value =>
    cases hop
    exact (hnum t (by simp [numbers])).map₂ (hval value (by simp [numbers])).all PackedInstr.instanceOf
  | binary op type lhs rhs =>
    cases hop
    have hreads := (hval lhs (by simp [numbers])).map₂ (hval rhs (by simp [numbers])).all (PackedInstr.binary op type)
    cases op <;> cases type <;> exact hreads
  | debugPosition =>
    cases hop
    exact (reads_pure _).all
  | goto target =>
    cases hop
    exact (hnum target (by simp [numbers])).all.map PackedInstr.goto
  | fallthrough =>
    cases hop
    exact (reads_pure _).all
  | branch kind type target lhs rhs =>
    cases rhs with
    | none =>
      have hreads := (hnum target (by simp [numbers])).map₂ (hval lhs (by simp [numbers])).all
        (PackedInstr.branch kind type · · none)
      rw [← List.append_nil (indexBytes target ++ valueBytes current lhs)] at hreads
      cases kind <;> cases type <;> cases hop <;> exact hreads
    | some rhs =>
      have hreads := (hnum target (by simp [numbers])).map₃ (hval lhs (by simp [numbers]))
        (hval rhs (by simp [numbers])).all (PackedInstr.branch kind type · · <| some ·)
      rw [← valuesBytes_singleton current rhs] at hreads
      cases kind <;> cases type <;> cases hop <;> exact hreads
  | ret value =>
    cases value with
    | none =>
      cases hop
      exact (reads_pure _).all
    | some value =>
      cases hop
      have hreads := (hval value (by simp [numbers])).all.map (PackedInstr.ret ∘ some)
      rw [← valuesBytes_singleton] at hreads
      exact hreads
  | throw value =>
    cases hop
    exact (hval value (by simp [numbers])).all.map PackedInstr.throw
  | phi t operands =>
    cases hop
    exact (hnum t (by simp [numbers])).map₂ (hvals operands (by simp +contextual [numbers])) PackedInstr.phi

/-- **Decoding the written operands gives the instruction**, its flag settled. -/
theorem decode_of_operands {i : PackedInstr} {op : UInt8} (hop : i.opcode = .ok op) (hfit : i.Fits) (view : InstrView)
    (hview : view.opcode = op) (hbytes : view.operands = operandsOf op view.valueIndex i) :
    view.decode = .ok i.settled := by
  obtain ⟨offset', hrun⟩ := readsAll_instruction hop hfit view hview (view.offset + 2)
  change (view.instruction ⟨view.operands, view.offset + 2⟩ >>= fun x =>
    if x.2.rest.isEmpty then pure x.1 else throw (.truncated x.2.offset)) = _
  rw [hbytes, hrun]
  rfl

end InstrView

/-! ### Streams -/

/-- An instruction that can be written has an opcode, which stands alone or is followed
    by the length of the operands and the operands. -/
theorem PackedInstr.encode_eq_ok {current : Nat} {i : PackedInstr} {bytes : List UInt8}
    (h : i.encode current = .ok bytes) :
    ∃ op, i.opcode = .ok op ∧
      (Opcode.isOneByte op = true ∧ bytes = [op] ∨
        Opcode.isOneByte op = false ∧ (i.operandBytes current).length ≤ 255 ∧
          bytes = op :: (i.operandBytes current).length.toUInt8 :: i.operandBytes current) := by
  unfold encode at h
  cases hop : i.opcode with
  | error e =>
    rw [hop] at h
    cases h
  | ok op =>
    rw [hop] at h
    refine ⟨op, rfl, ?_⟩
    change (if Opcode.isOneByte op = true then _ else _) = _ at h
    cases hone : Opcode.isOneByte op with
    | true =>
      rw [hone, if_pos rfl] at h
      cases h
      exact .inl ⟨rfl, rfl⟩
    | false =>
      rw [hone, if_neg Bool.false_ne_true, headBytes] at h
      split at h
      · next hlen =>
        cases h
        exact .inr ⟨rfl, hlen, rfl⟩
      · cases h

namespace InstrView

/-- The view is that of instruction `k` of a body with `argc` arguments, and the
    instruction is `i` up to the flags its opcode settles. -/
structure Shows (argc k : Nat) (i : PackedInstr) (view : InstrView) : Prop where
  index : view.index = k
  valueIndex : view.valueIndex = valueIndexOf argc k
  decode : view.decode = .ok i.settled

/-- The view is that of instruction `k` of a body with `argc` arguments, and its bytes are those
    of `i`, whether or not they can be read back. -/
structure Bears (argc k : Nat) (i : PackedInstr) (view : InstrView) : Prop where
  index : view.index = k
  valueIndex : view.valueIndex = valueIndexOf argc k
  opcode : i.opcode = .ok view.opcode
  operands : view.operands = operandsOf view.opcode view.valueIndex i

/-- Numbers of thirty-two bits are read back. -/
theorem Bears.shows {argc k : Nat} {i : PackedInstr} {view : InstrView} (h : Bears argc k i view) (hfit : i.Fits) :
    Shows argc k i view :=
  ⟨h.index, h.valueIndex, decode_of_operands h.opcode hfit view rfl h.operands⟩

end InstrView

/-- The first instruction of a stream is cut off as it was written, wherever the stream is read. -/
theorem scanBytes_encode {current : Nat} {i : PackedInstr} {bytes : List UInt8} (henc : i.encode current = .ok bytes) :
    ∃ op, i.opcode = .ok op ∧ ∀ argc offset k rest,
      scanBytes argc offset k (bytes ++ rest) =
        .ok ⟨k, valueIndexOf argc k, offset, op, InstrView.operandsOf op current i⟩ ::
          scanBytes argc (offset + bytes.length) (k + 1) rest := by
  obtain ⟨op, hop, ⟨hone, rfl⟩ | ⟨hone, hlen, rfl⟩⟩ := PackedInstr.encode_eq_ok henc
  · refine ⟨op, hop, fun argc offset k rest => ?_⟩
    have hnone : InstrView.operandsOf op current i = [] := by simp [InstrView.operandsOf, hone]
    rw [hnone, List.cons_append, List.nil_append, scanBytes.eq_def]
    simp only [hone, if_true, List.length_singleton]
  · refine ⟨op, hop, fun argc offset k rest => ?_⟩
    have hoperands : InstrView.operandsOf op current i = i.operandBytes current := by simp [InstrView.operandsOf, hone]
    rw [hoperands]
    generalize i.operandBytes current = operands at hlen ⊢
    have hcount : operands.length.toUInt8.toNat = operands.length := Varint.toNat_toUInt8_of_lt (by omega)
    rw [List.cons_append, List.cons_append, scanBytes]
    simp only [hone, Bool.false_eq_true, if_false, hcount, List.length_append]
    rw [if_neg (by omega), List.take_left, List.drop_left, List.length_cons, List.length_cons]
    congr 2
    omega

theorem InstrView.exists_bears {argc k : Nat} {i : PackedInstr} {bytes : List UInt8}
    (henc : i.encode (valueIndexOf argc k) = .ok bytes) (offset : Nat) :
    ∃ view, Bears argc k i view ∧ ∀ rest,
      scanBytes argc offset k (bytes ++ rest) = .ok view :: scanBytes argc (offset + bytes.length) (k + 1) rest := by
  obtain ⟨op, hop, hcut⟩ := scanBytes_encode henc
  exact ⟨_, ⟨rfl, rfl, hop, rfl⟩, hcut argc offset k⟩

/-- Instructions and the bytes they are written as, one behind the other. -/
inductive Streamed (argc : Nat) : List PackedInstr → List UInt8 → Prop where
  | nil : Streamed argc [] []
  | snoc {insns : List PackedInstr} {bytes : List UInt8} {i : PackedInstr} {more : List UInt8} :
    Streamed argc insns bytes → i.encode (valueIndexOf argc insns.length) = .ok more →
      Streamed argc (insns ++ [i]) (bytes ++ more)

/-- **Cutting a written stream apart gives its instructions in order.** -/
theorem Streamed.scanBytes {argc : Nat} {insns : List PackedInstr} {bytes : List UInt8} (h : Streamed argc insns bytes) :
    ∃ views : List InstrView, views.length = insns.length ∧
      (∀ k i, insns[k]? = some i → ∃ view, views[k]? = some view ∧ InstrView.Bears argc k i view) ∧
      ∀ rest, DexShrinker.scanBytes argc 0 0 (bytes ++ rest) =
        views.map .ok ++ DexShrinker.scanBytes argc bytes.length insns.length rest := by
  induction h with
  | nil => exact ⟨[], rfl, by simp, by simp⟩
  | @snoc insns bytes i more _ henc ih =>
    obtain ⟨views, hlen, hviews, hscan⟩ := ih
    obtain ⟨view, hbears, hcut⟩ := InstrView.exists_bears henc bytes.length
    refine ⟨views ++ [view], by simp [hlen], ?_, ?_⟩
    · intro k i' hk
      rcases Nat.lt_trichotomy k insns.length with hlt | rfl | hgt
      · rw [List.getElem?_append_left hlt] at hk
        rw [List.getElem?_append_left (by omega)]
        exact hviews k i' hk
      · simp only [List.getElem?_concat_length, Option.some.injEq] at hk
        subst hk
        exact ⟨view, by simp [← hlen], hbears⟩
      · rw [List.getElem?_eq_none (by simp; omega)] at hk
        cases hk
    · intro rest
      rw [List.append_assoc, hscan, hcut]
      simp

end DexShrinker
