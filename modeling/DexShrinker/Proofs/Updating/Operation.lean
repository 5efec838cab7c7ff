/-
  DexShrinker/Proofs/Updating/Operation.lean
  ==========================================
  **The instructions of a patched body.**

  An instruction read from a patched body is the instruction that the update makes of
  the one read from the body as it was, but for the flag of interface calls
  (`Update.Carried`). Two kinds of instructions are left out. An unboxed enum constant keeps
  its type in an unpacked body and has it renamed in a patched one, and a call of a
  superclass method may become a direct call in one of the two only.
-/
import DexShrinker.Proofs.Packed.Lockstep
import DexShrinker.Proofs.Updating.Passing
import DexShrinker.Proofs.Updating.Patch

namespace DexShrinker

namespace Op

/-- Patching and rebuilding make the same of the operation. -/
def isPortable : Op → Bool
  | newUnboxedEnum .. => false
  | invoke .super .. => false
  | _ => true

/-- The operation without the flag of interface calls. -/
def unflagged : Op → Op
  | invoke kind m args _ => invoke kind m args false
  | op => op

end Op

/-- Nothing that is moved becomes void or returns void if it did not before, or the other
    way round. -/
structure Renaming.KeepsVoid (n : Renaming) : Prop where
  types : ∀ old new : Descriptor, n.types[old]? = some new → new.isVoid = old.isVoid
  methods : ∀ old new : MethodRef, n.methods[old]? = some new →
    new.proto.returnType.isVoid = old.proto.returnType.isVoid

namespace Renaming.KeepsVoid

variable {n : Renaming}

instance : Decidable n.KeepsVoid :=
  decidable_of_iff
    ((∀ x ∈ n.types.toList, x.2.isVoid = x.1.isVoid) ∧
      ∀ x ∈ n.methods.toList, x.2.proto.returnType.isVoid = x.1.proto.returnType.isVoid)
    ⟨fun h => ⟨fun old new hmoved => h.1 (old, new) (Std.TreeMap.mem_toList_iff_getElem?_eq_some.2 hmoved),
        fun old new hmoved => h.2 (old, new) (Std.TreeMap.mem_toList_iff_getElem?_eq_some.2 hmoved)⟩,
      fun h => ⟨fun x hx => h.types x.1 x.2 (Std.TreeMap.mem_toList_iff_getElem?_eq_some.1 hx),
        fun x hx => h.methods x.1 x.2 (Std.TreeMap.mem_toList_iff_getElem?_eq_some.1 hx)⟩⟩

theorem type (h : n.KeepsVoid) (t : Descriptor) : (n.mapType t).isVoid = t.isVoid := by
  -- An array stays an array, and no array is void.
  have hvoid (s : Descriptor) (hs : s.isArray = true) : s.isVoid = false := by
    cases hv : s.isVoid with
    | false => rfl
    | true =>
      obtain ⟨text⟩ := s
      obtain rfl : text = "V" := by simpa [Descriptor.isVoid] using hv
      cases hs
  rw [mapType, Descriptor.mapBase]
  split
  · next harray =>
    rw [hvoid t harray, hvoid]
    simp only [Descriptor.isArray, Descriptor.chars, Descriptor.replaceBase, beq_iff_eq] at harray ⊢
    obtain ⟨rest, hrest⟩ := List.head?_eq_some_iff.1 harray
    simp [hrest]
  · rw [mapClass, Std.TreeMap.getD_eq_getD_getElem?]
    cases hmoved : n.types[t]? with
    | none => rfl
    | some new => exact h.types t new hmoved

theorem proto (h : n.KeepsVoid) (p : Prototype) : (n.mapProto p).returnType.isVoid = p.returnType.isVoid :=
  h.type p.returnType

theorem method (h : n.KeepsVoid) (m : MethodRef) :
    (n.mapMethod m).proto.returnType.isVoid = m.proto.returnType.isVoid := by
  rw [mapMethod, Std.TreeMap.getD_eq_getD_getElem?]
  cases hmoved : n.methods[m]? with
  | none => exact h.proto m.proto
  | some new => exact h.methods m new hmoved

end Renaming.KeepsVoid

namespace Update

/-- The instruction `i'` is what the update makes of `i`, up to the flag of interface
    calls. -/
structure Carried (u : Update) (context : MethodRef) (i i' : Instr) : Prop where
  dest : i'.dest = i.dest
  reads : i'.op.reads = i.op.reads
  line : i'.line = i.line
  updated : i.op.isPortable = true → ∃ op, op.unflagged = i'.op.unflagged ∧
    ∀ values, (u.instr context i).run values = .ok ([{ i with op := op }], values)

theorem sameValues_carried (u : Update) (context : MethodRef) : SameValues (u.Carried context) :=
  fun _ _ h => ⟨h.dest, h.reads⟩

variable {u : Update} {n : Renaming} {context : MethodRef} {p q : PackedBody}

open Unpacking (Follows OpsAlike)

/-- Operations that the update treats alike whatever their result and line. -/
theorem opsAlike_of_instr {op op' : Op} {r r' : Option Descriptor} (hresult : r'.isSome = r.isSome)
    (hreads : op'.reads = op.reads)
    (h : op.isPortable = true → ∀ (dest : Option ValueId) (line : Line), dest.isSome = r.isSome →
      ∃ op'', op''.unflagged = op'.unflagged ∧
        ∀ values, (u.instr context ⟨dest, op, line⟩).run values = .ok ([⟨dest, op'', line⟩], values)) :
    OpsAlike (u.Carried context) (op, r) (op', r') :=
  ⟨hresult, fun dest line hdest => ⟨rfl, hreads, rfl, fun hportable => h hportable dest line hdest⟩⟩

/-- Operations that stay one instruction. -/
theorem opsAlike_of_keep {op op' : Op} {r r' : Option Descriptor} (hresult : r'.isSome = r.isSome)
    (hreads : op'.reads = op.reads)
    (h : ∀ (dest : Option ValueId) (line : Line) (values : List Value),
      (u.instr context ⟨dest, op, line⟩).run values = .ok ([⟨dest, op', line⟩], values)) :
    OpsAlike (u.Carried context) (op, r) (op', r') :=
  opsAlike_of_instr hresult hreads fun _ dest line _ => ⟨op', rfl, h dest line⟩

/-! ### Reading the pool -/

theorem constants_of_constant {i : Nat} {c : Constant} (h : p.constant i = .ok c) : p.constants[i]? = some c := by
  unfold PackedBody.constant at h
  split at h
  · next hget =>
    cases h
    exact hget
  · cases h

/-- A constant of the patched pool is the constant brought up to date. -/
theorem Kept.constant (hq : u.Kept context p q) {i : Nat} {c : Constant} (h : p.constant i = .ok c) :
    ∃ c' flag, q.constant i = .ok c' ∧ u.constant? context c = .ok (some (c', flag)) := by
  obtain ⟨c', hc', flag, hflag⟩ := exists_of_getElem?_left hq.pool (constants_of_constant h)
  exact ⟨c', flag, by rw [PackedBody.constant, hc'], hflag⟩

theorem Kept.typeAt (hq : u.Kept context p q) {i : Nat} {t : Descriptor} (h : p.typeAt i = .ok t) :
    q.typeAt i = .ok (u.type t) := by
  obtain ⟨c, hc, h⟩ := bind_eq_ok.1 h
  obtain ⟨c', flag, hc', hupdated⟩ := hq.constant hc
  cases c with
  | type s =>
    cases h
    cases hupdated
    rw [PackedBody.typeAt, hc']
    rfl
  | _ => cases h

theorem Kept.fieldAt (hq : u.Kept context p q) {i : Nat} {f : FieldRef} (h : p.fieldAt i = .ok f) :
    q.fieldAt i = .ok (u.field f).ref ∧ p.constant i = .ok (.field f) := by
  obtain ⟨c, hc, h⟩ := bind_eq_ok.1 h
  obtain ⟨c', flag, hc', hupdated⟩ := hq.constant hc
  cases c with
  | field g =>
    cases h
    cases hupdated
    rw [PackedBody.fieldAt, hc']
    exact ⟨rfl, hc⟩
  | _ => cases h

theorem Kept.methodAt (hq : u.Kept context p q) {i : Nat} {m : MethodRef} (h : p.methodAt i = .ok m) :
    p.constant i = .ok (.method m) ∧ ∃ result, u.method context m .virtual = .ok result ∧
      result.changes.isEmpty = true ∧ q.methodAt i = .ok result.ref := by
  obtain ⟨c, hc, h⟩ := bind_eq_ok.1 h
  obtain ⟨c', flag, hc', hupdated⟩ := hq.constant hc
  cases c with
  | method m' =>
    cases h
    simp only [constant?] at hupdated
    obtain ⟨result, hresult, hupdated⟩ := bind_eq_ok.1 hupdated
    split at hupdated
    · next hempty =>
      obtain ⟨probe, -, hupdated⟩ := bind_eq_ok.1 hupdated
      cases hupdated
      refine ⟨hc, result, hresult, hempty, ?_⟩
      rw [PackedBody.methodAt, hc']
      rfl
    · cases hupdated
  | _ => cases h

/-! ### Calls -/

/-- A call whose arguments stay is one call. -/
theorem run_invoke {m : MethodRef} {kind : InvokeKind} {result : MethodLookup} (hresult : u.method context m kind = .ok result)
    (hempty : result.changes.isEmpty = true) {dest : Option ValueId} (args : List ValueId) (itf : Bool) (line : Line)
    (hdest : result.ref.proto.returnType.isVoid = true → dest = none) :
    ∃ itf', ∀ values, (u.instr context ⟨dest, .invoke kind m args itf, line⟩).run values =
      .ok ([⟨dest, .invoke result.kind result.ref args itf', line⟩], values) := by
  simp only [ProtoChanges.isEmpty, Bool.and_eq_true, List.isEmpty_iff] at hempty
  have hextra : result.changes.extra = [] := hempty.1.2
  have hdest' : (if result.ref.proto.returnType.isVoid then none else dest) = dest := by
    split
    · next hv => exact (hdest hv).symm
    · rfl
  refine ⟨if result.kind = kind then itf else result.kind = .interface, fun values => ?_⟩
  have hrun : (liftM (u.method context m kind) : WithValues MethodLookup) = pure result := by
    rw [hresult]
    rfl
  simp only [instr, invoke, hrun, pure_bind, hextra, List.mapM_nil, List.map_nil, List.nil_append, List.append_nil,
    keptArguments_eq hempty.1.1, hdest']
  rfl

/-- What calls of a method of the pool become: the arguments stay, whatever the kind. -/
theorem Across.call_of_virtual (hn : u.Across n) {m : MethodRef} {virtual : MethodLookup}
    (h : u.method context m .virtual = .ok virtual) (kind : InvokeKind) :
    ∃ result, u.method context m kind = .ok result ∧ result.ref = virtual.ref ∧ result.ref = n.mapMethod m ∧
      result.changes = virtual.changes := by
  obtain ⟨hresult, href, -⟩ := hn.method_eq_ok h kind
  exact ⟨_, hresult, by simp [href], by simp, by simp⟩

/-! ### Operations -/

/-- A read of a field of the pool that needs no cast. -/
theorem readCast_of_castsReads {f : Nat} {field : FieldRef} (hf : p.constants[f]? = some (.field field))
    (h : (p.constants[f]?).any u.castsReads = false) : (u.field field).readCast = none := by
  rw [hf] at h
  simpa [castsReads] using h

section

variable (hq : u.Patched context p q)

include hq

theorem Patched.typeAt_bind {β β' : Type} {R : Instr → Instr → Prop} {B : β → β' → Prop} {t : Nat}
    {f : Descriptor → Unpacking β} {f' : Descriptor → Unpacking β'} (h : ∀ x, Follows R (f x) (f' (u.type x)) B) :
    Follows R (liftM (p.typeAt t) >>= f) (liftM (q.typeAt t) >>= f') B := by
  have htype : Follows R (liftM (p.typeAt t)) (liftM (q.typeAt t)) fun x x' => x' = u.type x :=
    Follows.lift fun _ hx => ⟨_, hq.typeAt hx, rfl⟩
  refine htype.bind ?_
  rintro x _ rfl
  exact h x

theorem Patched.fieldAt_bind {β β' : Type} {R : Instr → Instr → Prop} {B : β → β' → Prop} {i : Nat}
    {f : FieldRef → Unpacking β} {f' : FieldRef → Unpacking β'}
    (h : ∀ x, p.constants[i]? = some (.field x) → Follows R (f x) (f' (u.field x).ref) B) :
    Follows R (liftM (p.fieldAt i) >>= f) (liftM (q.fieldAt i) >>= f') B := by
  have hfield : Follows R (liftM (p.fieldAt i)) (liftM (q.fieldAt i)) fun x x' =>
      x' = (u.field x).ref ∧ p.constants[i]? = some (.field x) :=
    Follows.lift fun _ hx => ⟨_, (hq.fieldAt hx).1, rfl, constants_of_constant (hq.fieldAt hx).2⟩
  refine hfield.bind ?_
  rintro x _ ⟨rfl, hx⟩
  exact h x hx

theorem Patched.follows_constant {R : Instr → Instr → Prop} (i : Nat) :
    Follows R (liftM (p.constant i)) (liftM (q.constant i)) fun c c' =>
      ∃ flag, u.constant? context c = .ok (some (c', flag)) := by
  refine Follows.lift fun c hc => ?_
  obtain ⟨c', flag, hc', hupdated⟩ := hq.constant hc
  exact ⟨c', hc', flag, hupdated⟩

theorem Patched.follows_methodAt {R : Instr → Instr → Prop} (i : Nat) :
    Follows R (liftM (p.methodAt i)) (liftM (q.methodAt i)) fun m m' => p.constants[i]? = some (.method m) ∧
      ∃ virtual, u.method context m .virtual = .ok virtual ∧ virtual.changes.isEmpty = true ∧ m' = virtual.ref := by
  refine Follows.lift fun m hm => ?_
  obtain ⟨hconstant, virtual, hvirtual, hempty, hm'⟩ := hq.methodAt hm
  exact ⟨virtual.ref, hm', constants_of_constant hconstant, virtual, hvirtual, hempty, rfl⟩

/-- A constant of the pool that is loaded. -/
theorem Patched.follows_loadConstant (c : Nat) :
    Follows (u.Carried context) (Unpacking.operation p (.loadConstant c)) (Unpacking.operation q (.loadConstant c))
      (OpsAlike (u.Carried context)) := by
  refine (hq.follows_constant c).bind ?_
  rintro c c' ⟨flag, hupdated⟩
  cases c with
  | string s =>
    cases hupdated
    exact Follows.pure (opsAlike_of_keep rfl rfl fun _ _ _ => rfl)
  | type t =>
    cases hupdated
    exact Follows.pure (opsAlike_of_keep rfl rfl fun _ _ _ => rfl)
  | proto pr =>
    cases hupdated
    exact Follows.pure (opsAlike_of_keep rfl rfl fun _ _ _ => rfl)
  | handle h =>
    obtain ⟨h', hh', heq⟩ := bind_eq_ok.1 hupdated
    cases heq
    refine Follows.pure (opsAlike_of_keep rfl rfl fun _ _ _ => ?_)
    simp only [instr, hh']
    rfl
  | field f => exact Follows.throw _
  | method m => exact Follows.throw _
  | callSite s => exact Follows.throw _

/-- A call site of the pool that is called. -/
theorem Patched.follows_invokeCustom (hn : u.Across n) (hvoid : n.KeepsVoid) (site : Nat) (args : List Nat) :
    Follows (u.Carried context) (Unpacking.operation p (.invokeCustom site args))
      (Unpacking.operation q (.invokeCustom site args)) (OpsAlike (u.Carried context)) := by
  refine (hq.follows_constant site).bind ?_
  rintro c c' ⟨flag, hupdated⟩
  cases c with
  | callSite cs =>
    obtain ⟨cs', hcs', heq⟩ := bind_eq_ok.1 hupdated
    cases heq
    have hproto : cs'.proto = u.proto cs.proto := by
      obtain ⟨bootstrap, -, hcs'⟩ := bind_eq_ok.1 hcs'
      obtain ⟨bootstrapArgs, -, hcs'⟩ := bind_eq_ok.1 hcs'
      cases hcs'
      rfl
    refine Follows.values_bind fun args => ?_
    refine Follows.pure (opsAlike_of_keep ?_ rfl fun _ _ _ => ?_)
    · simp only [Unpacking.operation.resultType, hproto, hn.proto, hvoid.proto]
      split <;> rfl
    · simp only [instr, hcs']
      rfl
  | _ => exact Follows.throw _

/-- A method of the pool that is called, where the kind of call is the one it now has. -/
theorem Patched.follows_invoke (hn : u.Across n) (hvoid : n.KeepsVoid) {kind kind' : InvokeKind} {itf itf' : Bool} {m : Nat}
    {args : List Nat} (hkind : ∀ called result, p.constants[m]? = some (.method called) → kind ≠ .super →
      u.method context called kind = .ok result → kind' = result.kind) :
    Follows (u.Carried context) (Unpacking.operation p (.invoke kind itf m args))
      (Unpacking.operation q (.invoke kind' itf' m args)) (OpsAlike (u.Carried context)) := by
  refine (hq.follows_methodAt m).bind ?_
  rintro called _ ⟨hcalled, virtual, hvirtual, hempty, rfl⟩
  refine Follows.values_bind fun args => ?_
  obtain ⟨result, hresult, href, hmap, hchanges⟩ := hn.call_of_virtual hvirtual kind
  have hreturn : virtual.ref.proto.returnType.isVoid = called.proto.returnType.isVoid := by
    rw [← href, hmap, hvoid.method]
  refine Follows.pure (opsAlike_of_instr ?_ rfl fun hportable dest line hdest => ?_)
  · simp only [Unpacking.operation.resultType, hreturn]
    split <;> rfl
  · have hsuper : kind ≠ .super := by
      rintro rfl
      cases hportable
    have hnone : result.ref.proto.returnType.isVoid = true → dest = none := by
      intro hv
      rw [href, hreturn] at hv
      simpa [Unpacking.operation.resultType, hv] using hdest
    obtain ⟨flag, hrun⟩ := run_invoke hresult (hchanges ▸ hempty) args itf line hnone
    refine ⟨_, ?_, hrun⟩
    rw [hkind called result hcalled hsuper hresult, href]
    rfl

/-- **The operations of a patched body** are those that the update makes. -/
theorem Patched.follows_operation (hn : u.Across n) (hvoid : n.KeepsVoid) {i i' : PackedInstr}
    (hi : u.Keeps context p i i') (hplain : Unpacking.IsPlain i) :
    Unpacking.IsPlain i' ∧
      Follows (u.Carried context) (Unpacking.operation p i) (Unpacking.operation q i') (OpsAlike (u.Carried context)) := by
  cases i with
  | invoke kind itf m args =>
    obtain ⟨kind', itf', rfl, hkind⟩ := hi
    exact ⟨trivial, hq.follows_invoke hn hvoid hkind⟩
  | staticGet f =>
    obtain ⟨rfl, hcast⟩ := hi
    refine ⟨trivial, hq.fieldAt_bind fun field hfield => ?_⟩
    refine Follows.pure (opsAlike_of_keep rfl rfl fun _ _ _ => ?_)
    simp only [instr, fieldRead, readCast_of_castsReads hfield hcast]
    rfl
  | instanceGet f object =>
    obtain ⟨rfl, hcast⟩ := hi
    refine ⟨trivial, hq.fieldAt_bind fun field hfield => Follows.value_bind fun object => ?_⟩
    refine Follows.pure (opsAlike_of_keep rfl rfl fun _ _ _ => ?_)
    simp only [instr, fieldRead, readCast_of_castsReads hfield hcast]
    rfl
  | loadConstant c =>
    cases hi
    exact ⟨trivial, hq.follows_loadConstant c⟩
  | invokeCustom site args =>
    cases hi
    exact ⟨trivial, hq.follows_invokeCustom hn hvoid site args⟩
  | newUnboxedEnum t ordinal =>
    cases hi
    refine ⟨trivial, hq.typeAt_bind fun t => Follows.pure ?_⟩
    exact opsAlike_of_instr rfl rfl fun hportable => by cases hportable
  | newInstance t =>
    cases hi
    refine ⟨trivial, hq.typeAt_bind fun t => ?_⟩
    exact Follows.pure (opsAlike_of_keep rfl rfl fun _ _ _ => rfl)
  | newArray t size | checkCast t v | instanceOf t v =>
    cases hi
    refine ⟨trivial, hq.typeAt_bind fun t => Follows.value_bind fun v => ?_⟩
    exact Follows.pure (opsAlike_of_keep rfl rfl fun _ _ _ => rfl)
  | arrayGet t array index =>
    cases hi
    refine ⟨trivial, hq.typeAt_bind fun t => Follows.value_bind fun array => Follows.value_bind fun index => ?_⟩
    exact Follows.pure (opsAlike_of_keep rfl rfl fun _ _ _ => rfl)
  | staticPut f v =>
    cases hi
    refine ⟨trivial, hq.fieldAt_bind fun field _ => Follows.value_bind fun v => ?_⟩
    exact Follows.pure (opsAlike_of_keep rfl rfl fun _ _ _ => rfl)
  | instancePut f object v =>
    cases hi
    refine ⟨trivial, hq.fieldAt_bind fun field _ => Follows.value_bind fun object => Follows.value_bind fun v => ?_⟩
    exact Follows.pure (opsAlike_of_keep rfl rfl fun _ _ _ => rfl)
  | arrayPut array index v =>
    cases hi
    refine ⟨trivial, Follows.value_bind fun array => Follows.value_bind fun index => Follows.value_bind fun v => ?_⟩
    exact Follows.pure (opsAlike_of_keep rfl rfl fun _ _ _ => rfl)
  | arrayLength array =>
    cases hi
    refine ⟨trivial, Follows.value_bind fun array => ?_⟩
    exact Follows.pure (opsAlike_of_keep rfl rfl fun _ _ _ => rfl)
  | binary op type lhs rhs =>
    cases hi
    cases type with
    | int | long =>
      refine ⟨trivial, Follows.value_bind fun lhs => Follows.value_bind fun rhs => ?_⟩
      exact Follows.pure (opsAlike_of_keep rfl rfl fun _ _ _ => rfl)
  | constNull | constInt _ | constLong _ | debugPosition =>
    cases hi
    exact ⟨trivial, Follows.pure (opsAlike_of_keep rfl rfl fun _ _ _ => rfl)⟩
  | _ => exact hplain.elim

end

end Update

end DexShrinker
