/-
  DexShrinker/Proofs/Packed/Stream.lean
  =====================================
  **Streams whose opcodes are replaced in place.**

  A stream that can be cut into instructions is their bytes one after the other
  (`scanBytes_eq_iff`). Replacing opcodes that carry operands by other such opcodes, each
  at the offset of its instruction, leaves the cuts where they are
  (`scanBytes_patched`). For a call this changes the kind of call and nothing else
  (`decode_retagged_call`).
-/
import DexShrinker.Packed.Instr
import Mathlib.Data.List.Basic

namespace DexShrinker

namespace InstrView

/-- The bytes of the instruction. -/
def bytes (v : InstrView) : List UInt8 :=
  if Opcode.isOneByte v.opcode then [v.opcode] else v.opcode :: v.operands.length.toUInt8 :: v.operands

/-- The instructions stand one behind the other from an offset and an index on. -/
def Cut (argc : Nat) : (offset index : Nat) → List InstrView → Prop
  | _, _, [] => True
  | offset, index, v :: vs =>
    v.index = index ∧ v.valueIndex = valueIndexOf argc index ∧ v.offset = offset ∧ v.operands.length ≤ 255 ∧
      (Opcode.isOneByte v.opcode = true → v.operands = []) ∧ Cut argc (offset + v.bytes.length) (index + 1) vs

theorem Cut.scanBytes {argc offset index : Nat} {vs : List InstrView} (h : Cut argc offset index vs) :
    scanBytes argc offset index (vs.flatMap bytes) = vs.map .ok := by
  induction vs generalizing offset index with
  | nil => simp [DexShrinker.scanBytes]
  | cons v vs ih =>
    obtain ⟨hindex, hvalue, hoffset, hlen, hone, hrest⟩ := h
    obtain ⟨i, vi, off, op, operands⟩ := v
    simp only at hindex hvalue hoffset hlen hone
    subst hindex hvalue hoffset
    have ih := ih hrest
    rw [List.flatMap_cons, List.map_cons, DexShrinker.scanBytes.eq_def]
    cases hop : Opcode.isOneByte op with
    | true =>
      simp only [bytes, hop, if_true, List.cons_append, List.nil_append, List.length_singleton] at ih ⊢
      rw [ih, hone hop]
    | false =>
      have hcount : operands.length.toUInt8.toNat = operands.length := by
        simp
        omega
      simp only [bytes, hop, Bool.false_eq_true, if_false, List.cons_append, List.length_cons, hcount, List.length_append] at ih ⊢
      rw [if_neg (by omega), List.take_left, List.drop_left, ← ih]
      congr 2
      omega

theorem cut_of_scanBytes {argc offset index : Nat} {bs : List UInt8} {vs : List InstrView}
    (h : scanBytes argc offset index bs = vs.map .ok) : Cut argc offset index vs ∧ bs = vs.flatMap bytes := by
  induction vs generalizing offset index bs with
  | nil =>
    rw [DexShrinker.scanBytes.eq_def] at h
    split at h
    · exact ⟨trivial, rfl⟩
    · split at h
      · cases h
      · split at h
        · cases h
        · split at h <;> cases h
  | cons v vs ih =>
    rw [DexShrinker.scanBytes.eq_def] at h
    split at h
    · cases h
    · next op rest =>
      split at h
      · next hop =>
        obtain ⟨hhead, htail⟩ := List.cons.inj h
        obtain ⟨hcut, rfl⟩ := ih htail
        cases hhead
        refine ⟨⟨rfl, rfl, rfl, by simp, fun _ => rfl, ?_⟩, ?_⟩
        · simpa [bytes, hop] using hcut
        · simp [bytes, hop]
      · next hop =>
        split at h
        · cases h
        · next len tail =>
          split at h
          · cases h
          · next hlen =>
            obtain ⟨hhead, htail⟩ := List.cons.inj h
            obtain ⟨hcut, hdrop⟩ := ih htail
            cases hhead
            have htake : (tail.take len.toNat).length = len.toNat := by
              rw [List.length_take]
              omega
            refine ⟨⟨rfl, rfl, rfl, ?_, fun hone => absurd hone hop, ?_⟩, ?_⟩
            · have hbyte := len.toNat_lt
              simp only [htake]
              omega
            · rw [bytes, if_neg hop, List.length_cons, List.length_cons, htake]
              rwa [show offset + (len.toNat + 1 + 1) = offset + 2 + len.toNat by omega]
            · rw [List.flatMap_cons, bytes, if_neg hop, ← hdrop, htake, Nat.toUInt8_eq, UInt8.ofNat_toNat]
              simp

/-- A stream is cut into instructions exactly when it is their bytes. -/
theorem scanBytes_eq_iff {argc : Nat} {bs : List UInt8} {vs : List InstrView} :
    scanBytes argc 0 0 bs = vs.map .ok ↔ Cut argc 0 0 vs ∧ bs = vs.flatMap bytes := by
  constructor
  · exact cut_of_scanBytes
  · rintro ⟨hcut, rfl⟩
    exact hcut.scanBytes

/-! ### Calls -/

open OperandReader

/-- The instruction is no call. -/
def NotCall : PackedInstr → Prop
  | .invoke .. => False
  | _ => True

theorem instruction_call {v : InstrView} {kind : InvokeKind} {itf : Bool} (h : Opcode.invoke? v.opcode = some (kind, itf)) :
    v.instruction = (do return .invoke kind itf (← OperandReader.index) (← OperandReader.values v.valueIndex)) := by
  have hcall := h
  unfold Opcode.invoke? at h
  split at h
  all_goals cases h
  all_goals next hop => simp [instruction, hop, hcall]

/-- Whatever the reader answers satisfies `P`. -/
def Answers {α : Type} (r : OperandReader α) (P : α → Prop) : Prop := ∀ c a c', r c = .ok (a, c') → P a

theorem answers_pure {α : Type} {P : α → Prop} {a : α} (h : P a) : Answers (pure a) P := by
  intro c b c' hb
  cases hb
  exact h

theorem answers_throw {α : Type} {P : α → Prop} (e : PackedError) : Answers (throw e : OperandReader α) P := by
  intro c b c' hb
  cases hb

theorem answers_bind {α β : Type} {P : β → Prop} (r : OperandReader α) {f : α → OperandReader β} (h : ∀ a, Answers (f a) P) :
    Answers (r >>= f) P := by
  intro c b c' hb
  change (r c >>= fun x => f x.1 x.2) = _ at hb
  cases hr : r c with
  | error e =>
    rw [hr] at hb
    cases hb
  | ok x =>
    rw [hr] at hb
    exact h x.1 x.2 b c' hb

theorem answers_not_call {v : InstrView} (h : Opcode.invoke? v.opcode = none) : Answers v.instruction NotCall := by
  unfold instruction
  split
  all_goals try simp only [h]
  all_goals try split
  all_goals
    repeat first
      | contradiction
      | exact answers_pure trivial
      | exact answers_throw _
      | refine answers_bind _ fun _ => ?_

/-- An instruction is read when its operands are used up. -/
theorem decode_eq_ok_iff {v : InstrView} {i : PackedInstr} :
    v.decode = .ok i ↔ ∃ offset, v.instruction ⟨v.operands, v.offset + 2⟩ = .ok (i, ⟨[], offset⟩) := by
  change (v.instruction ⟨v.operands, v.offset + 2⟩ >>= fun x => if x.2.rest.isEmpty then pure x.1 else throw _) = _ ↔ _
  cases v.instruction ⟨v.operands, v.offset + 2⟩ with
  | error e => simp [bind, Except.bind]
  | ok x =>
    obtain ⟨j, rest, offset⟩ := x
    change (if rest.isEmpty then _ else _) = _ ↔ _
    cases rest with
    | nil => simp [pure, Except.pure]
    | cons b rest => simp [throw, throwThe, MonadExceptOf.throw]

/-- Only the opcodes of calls decode to calls. -/
theorem invoke?_of_decode {v : InstrView} {kind : InvokeKind} {itf : Bool} {m : Nat} {args : List Nat}
    (h : v.decode = .ok (.invoke kind itf m args)) : Opcode.invoke? v.opcode = some (kind, itf) := by
  obtain ⟨offset, hread⟩ := decode_eq_ok_iff.1 h
  cases hop : Opcode.invoke? v.opcode with
  | none => exact (answers_not_call hop _ _ _ hread).elim
  | some call =>
    obtain ⟨kind', itf'⟩ := call
    have hcall : Answers v.instruction fun i => ∃ m args, i = .invoke kind' itf' m args := by
      rw [instruction_call hop]
      exact answers_bind _ fun m => answers_bind _ fun args => answers_pure ⟨m, args, rfl⟩
    obtain ⟨m', args', heq⟩ := hcall _ _ _ hread
    cases heq
    rfl

/-- **A call under another opcode for calls** is the same call of another kind. -/
theorem decode_retagged_call {v v' : InstrView} {kind kind' : InvokeKind} {itf itf' : Bool} {m : Nat} {args : List Nat}
    (h : v.decode = .ok (.invoke kind itf m args)) (hvalue : v'.valueIndex = v.valueIndex) (hoffset : v'.offset = v.offset)
    (hoperands : v'.operands = v.operands) (hop : Opcode.invoke? v'.opcode = some (kind', itf')) :
    v'.decode = .ok (.invoke kind' itf' m args) := by
  obtain ⟨offset, hread⟩ := decode_eq_ok_iff.1 h
  refine decode_eq_ok_iff.2 ⟨offset, ?_⟩
  rw [instruction_call (invoke?_of_decode h)] at hread
  rw [instruction_call hop, hvalue, hoffset, hoperands]
  change (OperandReader.index _ >>= fun x => (OperandReader.values v.valueIndex >>= fun y =>
    (pure (.invoke kind itf x.1 y) : OperandReader PackedInstr)) x.2) = _ at hread
  change (OperandReader.index _ >>= fun x => (OperandReader.values v.valueIndex >>= fun y =>
    (pure (.invoke kind' itf' x.1 y) : OperandReader PackedInstr)) x.2) = _
  cases hindex : OperandReader.index ⟨v.operands, v.offset + 2⟩ with
  | error e =>
    rw [hindex] at hread
    cases hread
  | ok x =>
    rw [hindex] at hread
    change (OperandReader.values v.valueIndex x.2 >>= fun y =>
      (pure (.invoke kind itf x.1 y.1) : OperandReader PackedInstr) y.2) = _ at hread
    change (OperandReader.values v.valueIndex x.2 >>= fun y =>
      (pure (.invoke kind' itf' x.1 y.1) : OperandReader PackedInstr) y.2) = _
    cases hvalues : OperandReader.values v.valueIndex x.2 with
    | error e =>
      rw [hvalues] at hread
      cases hread
    | ok y =>
      obtain ⟨values, c⟩ := y
      rw [hvalues] at hread
      cases hread
      rfl

theorem exists_invoke?_ofInvoke (kind : InvokeKind) (itf : Bool) :
    ∃ itf', Opcode.invoke? (Opcode.ofInvoke kind itf) = some (kind, itf') := by
  cases kind <;> cases itf <;> exact ⟨_, rfl⟩

theorem isOneByte_of_invoke? {op : UInt8} {call : InvokeKind × Bool} (h : Opcode.invoke? op = some call) :
    Opcode.isOneByte op = false := by
  unfold Opcode.invoke? at h
  split at h
  all_goals cases h
  all_goals next hop => exact decide_eq_false (by rw [UInt8.lt_iff_toNat_lt, hop]; decide)

/-! ### Replacing opcodes -/

/-- The instruction under the opcode that replaces its own, if one does. -/
def retag (g : InstrView → Option UInt8) (v : InstrView) : InstrView := { v with opcode := (g v).getD v.opcode }

/-- Only opcodes with operands are replaced, by opcodes with operands. -/
def KeepsOperands (g : InstrView → Option UInt8) (v : InstrView) : Prop :=
  ∀ op, g v = some op → Opcode.isOneByte v.opcode = false ∧ Opcode.isOneByte op = false

theorem KeepsOperands.isOneByte {g : InstrView → Option UInt8} {v : InstrView} (h : KeepsOperands g v) :
    Opcode.isOneByte (retag g v).opcode = Opcode.isOneByte v.opcode := by
  cases hg : g v with
  | none => simp [retag, hg]
  | some op => simp [retag, hg, h op hg]

theorem KeepsOperands.length_bytes {g : InstrView → Option UInt8} {v : InstrView} (h : KeepsOperands g v) :
    (retag g v).bytes.length = v.bytes.length := by
  rw [bytes, bytes, h.isOneByte]
  split <;> rfl

theorem Cut.retag {argc : Nat} {g : InstrView → Option UInt8} {offset index : Nat} {vs : List InstrView}
    (h : Cut argc offset index vs) (hg : ∀ v ∈ vs, KeepsOperands g v) : Cut argc offset index (vs.map (retag g)) := by
  induction vs generalizing offset index with
  | nil => trivial
  | cons v vs ih =>
    obtain ⟨hindex, hvalue, hoffset, hlen, hone, hrest⟩ := h
    have hv := hg v (by simp)
    refine ⟨hindex, hvalue, hoffset, hlen, fun h => hone (hv.isOneByte ▸ h), ?_⟩
    rw [hv.length_bytes]
    exact ih hrest fun w hw => hg w (by simp [hw])

/-- The replacements with the offsets at which they go. -/
def patchesOf (g : InstrView → Option UInt8) (vs : List InstrView) : List (Nat × UInt8) :=
  vs.filterMap fun v => (g v).map (v.offset, ·)

theorem Cut.foldl_set {argc : Nat} {g : InstrView → Option UInt8} {offset index : Nat} {vs : List InstrView}
    (h : Cut argc offset index vs) (hg : ∀ v ∈ vs, KeepsOperands g v) (front : List UInt8) (hfront : front.length = offset) :
    (patchesOf g vs).foldl (fun bytes (offset, op) => bytes.set offset op) (front ++ vs.flatMap bytes) =
      front ++ (vs.map (InstrView.retag g)).flatMap bytes := by
  induction vs generalizing offset index front with
  | nil => rfl
  | cons v vs ih =>
    obtain ⟨-, -, hoffset, -, -, hrest⟩ := h
    have hv := hg v (by simp)
    have ih := ih hrest (fun w hw => hg w (by simp [hw])) (front ++ (InstrView.retag g v).bytes)
      (by rw [List.length_append, hfront, hv.length_bytes])
    rw [List.map_cons, List.flatMap_cons, List.flatMap_cons, ← List.append_assoc, ← List.append_assoc, ← ih]
    cases hgv : g v with
    | none =>
      have hsame : InstrView.retag g v = v := by simp [InstrView.retag, hgv]
      simp [patchesOf, hgv, hsame]
    | some op =>
      obtain ⟨hold, hnew⟩ := hv op hgv
      have hset : (front ++ v.bytes ++ vs.flatMap bytes).set v.offset op =
          front ++ (InstrView.retag g v).bytes ++ vs.flatMap bytes := by
        simp [bytes, InstrView.retag, hgv, hold, hnew, hoffset, ← hfront]
      simp only [patchesOf, List.filterMap_cons, hgv, Option.map_some, List.foldl_cons]
      exact congrArg (List.foldl _ · _) hset

/-- **Replacing opcodes leaves the cuts where they are.** -/
theorem scanBytes_patched {argc : Nat} {bs : List UInt8} {vs : List InstrView} (h : scanBytes argc 0 0 bs = vs.map .ok)
    {g : InstrView → Option UInt8} (hg : ∀ v ∈ vs, KeepsOperands g v) :
    scanBytes argc 0 0 ((patchesOf g vs).foldl (fun bytes (offset, op) => bytes.set offset op) bs) =
      (vs.map (retag g)).map .ok := by
  obtain ⟨hcut, rfl⟩ := scanBytes_eq_iff.1 h
  have hfold := hcut.foldl_set hg [] rfl
  rw [List.nil_append, List.nil_append] at hfold
  rw [hfold]
  exact (hcut.retag hg).scanBytes

end InstrView

end DexShrinker
