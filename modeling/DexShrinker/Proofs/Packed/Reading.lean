/-
  DexShrinker/Proofs/Packed/Reading.lean
  ======================================
  **What a stream can be unpacked to.**

  An unpacked body has the control flow that verification asks for, its arguments are counted,
  every instruction has a result exactly if its operation has one, and it names nothing that
  is not in the pool (`unpack_spec`). The reader is followed by itself here: in lockstep with
  itself it meets every instruction twice, and can say of the second copy what is known of
  the first.
-/
import DexShrinker.Proofs.Body.Shape
import DexShrinker.Proofs.Packed.Lockstep
import DexShrinker.Proofs.Packed.Pack

namespace DexShrinker

open Std

namespace PackedBody

variable {p : PackedBody}

/-- The instruction has a result exactly if its operation has one, and names a constant of the
    pool if any. -/
def Holds (p : PackedBody) (i : Instr) : Prop :=
  i.dest.isSome = i.op.hasResult ∧ ∀ k, i.op.constant? = some k → k ∈ p.constants

/-- The instruction is read twice. -/
def Copies (p : PackedBody) (i i' : Instr) : Prop := i' = i ∧ p.Holds i

theorem constants_of_eq_ok {i : Nat} {k : Constant} (h : p.constant i = .ok k) : k ∈ p.constants := by
  unfold constant at h
  split at h
  · next hget =>
    cases h
    exact List.mem_of_getElem? hget
  · cases h

theorem mem_of_typeAt {i : Nat} {t : Descriptor} (h : p.typeAt i = .ok t) : .type t ∈ p.constants := by
  obtain ⟨k, hk, h⟩ := bind_eq_ok.1 h
  split at h
  · cases h
    exact constants_of_eq_ok hk
  · cases h

theorem mem_of_fieldAt {i : Nat} {f : FieldRef} (h : p.fieldAt i = .ok f) : .field f ∈ p.constants := by
  obtain ⟨k, hk, h⟩ := bind_eq_ok.1 h
  split at h
  · cases h
    exact constants_of_eq_ok hk
  · cases h

theorem mem_of_methodAt {i : Nat} {m : MethodRef} (h : p.methodAt i = .ok m) : .method m ∈ p.constants := by
  obtain ⟨k, hk, h⟩ := bind_eq_ok.1 h
  split at h
  · cases h
    exact constants_of_eq_ok hk
  · cases h

end PackedBody

namespace Unpacking

variable {p : PackedBody} {α β : Type}

/-- What is known of a computation beside the state can be used in what follows. -/
theorem Follows.lift_bind_self {R : Instr → Instr → Prop} {B : β → β → Prop} {x : Except PackedError α} {f : α → Unpacking β}
    (h : ∀ a, x = .ok a → Follows R (f a) (f a) B) : Follows R (liftM x >>= f) (liftM x >>= f) B := by
  have hx : Follows R (liftM x) (liftM x) fun a a' => a' = a ∧ x = .ok a := Follows.lift fun a ha => ⟨a, ha, rfl, ha⟩
  refine hx.bind ?_
  rintro a _ ⟨rfl, ha⟩
  exact h _ ha

theorem follows_pure_self {op : Op} {result : Option Descriptor} (hresult : result.isSome = op.hasResult)
    (hpool : ∀ k, op.constant? = some k → k ∈ p.constants) :
    Follows p.Copies (Pure.pure (op, result)) (Pure.pure (op, result)) (OpsAlike p.Copies) :=
  Follows.pure ⟨rfl, fun _ _ hdest => ⟨rfl, hdest.trans hresult, hpool⟩⟩

theorem isSome_resultType (proto : Prototype) : (operation.resultType proto).isSome = !proto.returnType.isVoid := by
  unfold operation.resultType
  cases proto.returnType.isVoid <;> rfl

/-- **An operation that is read** has a result where one was noted, and its constant is in the
    pool. -/
theorem follows_operation_self (i : PackedInstr) :
    Follows p.Copies (operation p i) (operation p i) (OpsAlike p.Copies) := by
  cases i with
  | loadConstant c =>
    refine Follows.lift_bind_self fun k hk => ?_
    have hmem := PackedBody.constants_of_eq_ok hk
    cases k with
    | string | type | handle | proto => exact follows_pure_self rfl (by simpa [Op.constant?] using hmem)
    | field | method | callSite => exact Follows.throw _
  | newInstance t =>
    refine Follows.lift_bind_self fun t ht => ?_
    exact follows_pure_self rfl (by simpa [Op.constant?] using PackedBody.mem_of_typeAt ht)
  | newUnboxedEnum t ordinal =>
    refine Follows.lift_bind_self fun t ht => ?_
    exact follows_pure_self rfl (by simpa [Op.constant?] using PackedBody.mem_of_typeAt ht)
  | newArray t size | checkCast t v | instanceOf t v =>
    refine Follows.lift_bind_self fun t ht => Follows.value_bind fun v => ?_
    exact follows_pure_self rfl (by simpa [Op.constant?] using PackedBody.mem_of_typeAt ht)
  | arrayGet t array index =>
    refine Follows.lift_bind_self fun t ht => Follows.value_bind fun array => Follows.value_bind fun index => ?_
    exact follows_pure_self rfl (by simpa [Op.constant?] using PackedBody.mem_of_typeAt ht)
  | staticGet f =>
    refine Follows.lift_bind_self fun f hf => ?_
    exact follows_pure_self rfl (by simpa [Op.constant?] using PackedBody.mem_of_fieldAt hf)
  | staticPut f v | instanceGet f object =>
    refine Follows.lift_bind_self fun f hf => Follows.value_bind fun v => ?_
    exact follows_pure_self rfl (by simpa [Op.constant?] using PackedBody.mem_of_fieldAt hf)
  | instancePut f object v =>
    refine Follows.lift_bind_self fun f hf => Follows.value_bind fun object => Follows.value_bind fun v => ?_
    exact follows_pure_self rfl (by simpa [Op.constant?] using PackedBody.mem_of_fieldAt hf)
  | invoke kind itf m args =>
    refine Follows.lift_bind_self fun m hm => Follows.values_bind fun args => ?_
    exact follows_pure_self (isSome_resultType m.proto) (by simpa [Op.constant?] using PackedBody.mem_of_methodAt hm)
  | invokeCustom site args =>
    refine Follows.lift_bind_self fun k hk => ?_
    have hmem := PackedBody.constants_of_eq_ok hk
    cases k with
    | callSite site =>
      refine Follows.values_bind fun args => ?_
      exact follows_pure_self (isSome_resultType site.proto) (by simpa [Op.constant?] using hmem)
    | _ => exact Follows.throw _
  | arrayPut array index v =>
    refine Follows.value_bind fun array => Follows.value_bind fun index => Follows.value_bind fun v => ?_
    exact follows_pure_self rfl (by simp [Op.constant?])
  | arrayLength array =>
    exact Follows.value_bind fun array => follows_pure_self rfl (by simp [Op.constant?])
  | binary op type lhs rhs =>
    cases type with
    | int | long =>
      exact Follows.value_bind fun lhs => Follows.value_bind fun rhs => follows_pure_self rfl (by simp [Op.constant?])
  | _ => exact follows_pure_self rfl (by simp [Op.constant?])

/-! ### Streams that are not empty -/

/-- The step leaves a block behind. -/
def Lays (m : Unpacking Unit) : Prop := ∀ s t, m.run s = .ok ((), t) → ∃ (k : Nat) (b : DraftBlock), t.blocks[k]? = some b

theorem Lays.bind {m : Unpacking α} {f : α → Unpacking Unit} (h : ∀ a, Lays (f a)) : Lays (m >>= f) := by
  intro s t hrun
  rw [StateT.run_bind] at hrun
  obtain ⟨⟨a, r⟩, -, hrun⟩ := bind_eq_ok.1 hrun
  exact h a r t hrun

theorem lays_onCurrent (f : DraftBlock → DraftBlock) : Lays (onCurrent f) := by
  intro s t hrun
  cases hrun
  exact ⟨s.current.getD 0, _, TreeMap.getElem?_insert_self⟩

theorem lays_terminate (e : Terminator) : Lays (terminate e) := by
  intro s t hrun
  cases hrun
  exact ⟨s.current.getD 0, _, TreeMap.getElem?_insert_self⟩

theorem lays_instruction (v : InstrView) (i : PackedInstr) : Lays (instruction p v i) := by
  cases i with
  | phi t operands => exact Lays.bind fun _ => Lays.bind fun _ => Lays.bind fun _ => lays_onCurrent _
  | goto target => exact Lays.bind fun _ => lays_terminate _
  | «fallthrough» => exact Lays.bind fun _ => lays_terminate _
  | branch kind type target lhs rhs =>
    exact Lays.bind fun _ => Lays.bind fun _ => Lays.bind fun _ => Lays.bind fun _ => lays_terminate _
  | ret value => exact Lays.bind fun _ => lays_terminate _
  | throw value => exact Lays.bind fun _ => lays_terminate _
  | _ => exact Lays.bind fun _ => Lays.bind fun _ => Lays.bind fun _ => lays_onCurrent _

theorem lays_forM {items : List (Except PackedError InstrView)} (hne : items ≠ []) : Lays (items.forM (step p)) := by
  induction items with
  | nil => exact absurd rfl hne
  | cons item items ih =>
    by_cases hlast : items = []
    · subst hlast
      intro s t hrun
      change ((step p item >>= fun _ => Pure.pure ()).run s) = _ at hrun
      rw [StateT.run_bind] at hrun
      obtain ⟨⟨_, r⟩, hstep, hrun⟩ := bind_eq_ok.1 hrun
      cases hrun
      have hlays : Lays (step p item) :=
        Lays.bind fun _ => Lays.bind fun _ => Lays.bind fun _ => Lays.bind fun _ => lays_instruction _ _
      exact hlays s _ hstep
    · exact Lays.bind fun _ => ih hlast

end Unpacking

theorem scanBytes_eq_nil_iff {argumentCount offset index : Nat} {bytes : List UInt8} :
    scanBytes argumentCount offset index bytes = [] ↔ bytes = [] := by
  cases bytes with
  | nil => simp [scanBytes]
  | cons op rest =>
    rw [scanBytes.eq_def]
    simp only
    split
    · simp
    · split
      · simp
      · split <;> simp

namespace PackedBody

variable {p : PackedBody} {method : MethodRef} {isStatic : Bool} {types : List Descriptor} {c : Body}

/-- A body has blocks exactly if its stream has bytes. -/
theorem blocks_ne_nil_iff (h : p.unpack method isStatic types = .ok c) : c.blocks ≠ [] ↔ p.bytes ≠ [] := by
  obtain ⟨-, -, s, hrun, hclose⟩ := unpack_eq_ok_iff.1 h
  obtain ⟨-, -, blocks, hblocks, -, rfl, -⟩ := close_eq_ok_iff.1 hclose
  have hlength := (mapM_eq_ok_iff.1 hblocks).length_eq
  constructor
  · intro hne hnil
    have hviews : p.views = [] := scanBytes_eq_nil_iff.2 hnil
    rw [hviews] at hrun
    cases hrun
    exact hne (List.length_eq_zero_iff.1 hlength.symm)
  · intro hbytes hnil
    obtain ⟨k, b, hb⟩ := Unpacking.lays_forM (fun hviews => hbytes (scanBytes_eq_nil_iff.1 hviews)) _ _ hrun
    have hmem := TreeMap.mem_toList_iff_getElem?_eq_some.2 hb
    rw [List.length_eq_zero_iff.1 (hlength.trans (List.length_eq_zero_iff.2 hnil))] at hmem
    cases hmem

/-- **What unpacks once unpacks against any other signature** with as many arguments, to the same instructions. -/
theorem exists_unpack (h : p.unpack method isStatic types = .ok c) (method' : MethodRef) (isStatic' : Bool) {types' : List Descriptor}
    (htypes' : types'.length = p.argumentCount) :
    ∃ c', p.unpack method' isStatic' types' = .ok c' ∧ List.Forall₂ (Block.Alike p.Copies id) c.blocks c'.blocks := by
  obtain ⟨-, -, s, hrun, -⟩ := unpack_eq_ok_iff.1 h
  obtain ⟨vs, hviews, -⟩ := views_of_run hrun
  have htables : TablesAlike id p p := by
    refine ⟨rfl, rfl, rfl, fun start => ?_, fun _ x hx => ⟨x, hx⟩⟩
    cases p.handlers[start]? <;> simp
  have hcopies : SameValues p.Copies := by
    intro i i' hi
    rw [hi.1]
    exact ⟨rfl, rfl⟩
  obtain ⟨c', hc', -, -, -, -, hblocks⟩ := unpack_lockstep hcopies htables hviews hviews (List.forall₂_same.2 fun v _ =>
    ⟨rfl, rfl, fun i hi => ⟨i, hi, by
      by_cases hplain : Unpacking.IsPlain i
      · exact .inl ⟨hplain, hplain, Unpacking.follows_operation_self i⟩
      · exact .inr ⟨hplain, rfl⟩⟩⟩) htypes' h
  exact ⟨c', hc', hblocks⟩

/-- What is named stands in the pool. -/
theorem each_holds_of_unpack (h : p.unpack method isStatic types = .ok c) : c.Each p.Holds := by
  intro b hb i hi
  obtain ⟨c', -, hblocks⟩ := exists_unpack h method isStatic (unpack_eq_ok_iff.1 h).1
  obtain ⟨b', -, halike⟩ := exists_of_mem_left hblocks hb
  obtain ⟨i', -, hcopies⟩ := exists_of_mem_left halike.body hi
  exact hcopies.2

/-- **What a stream unpacks to**, if it is not empty. -/
theorem unpack_spec (hbytes : p.bytes ≠ []) (h : p.unpack method isStatic types = .ok c) :
    c.Shaped ∧ c.Each p.Holds ∧ c.arguments.length = p.argumentCount := by
  have hne := (blocks_ne_nil_iff h).2 hbytes
  have hholds := each_holds_of_unpack h
  obtain ⟨hlength, -, s, -, hclose⟩ := unpack_eq_ok_iff.1 h
  obtain ⟨-, -, blocks, -, -, rfl, hwellFormed⟩ := close_eq_ok_iff.1 hclose
  exact ⟨hwellFormed.shaped hne, hholds, by simp [Body.withArguments, hlength]⟩

end PackedBody

end DexShrinker
