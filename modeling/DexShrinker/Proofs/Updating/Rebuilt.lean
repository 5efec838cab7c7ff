/-
  DexShrinker/Proofs/Updating/Rebuilt.lean
  ========================================
  **What an update makes of a body.**

  Every instruction of an updated body is made of one that the body had, or is a constant in
  place of an argument (`body_spec`). The control flow stays well formed, calls have a result
  only if they return one, and what is named is what was named, brought up to date
  (`Update.Renews`). So a packed body can be read after the update if it could before,
  whether it was patched or rebuilt (`readable_of_packed`).
-/
import DexShrinker.Proofs.Lens.Rules
import DexShrinker.Proofs.Packed.Canonical
import DexShrinker.Proofs.Packed.Reading
import DexShrinker.Proofs.Updating.Agreement

namespace DexShrinker

/-- A walk with a state that ends well. -/
theorem forall₂_of_run_mapM {ε σ α β : Type} {f : α → StateT σ (Except ε) β} {xs : List α} {ys : List β} {s t : σ}
    (h : (xs.mapM f).run s = .ok (ys, t)) : List.Forall₂ (fun x y => ∃ s t, (f x).run s = .ok (y, t)) xs ys := by
  induction xs generalizing s ys with
  | nil =>
    cases h
    exact .nil
  | cons x xs ih =>
    rw [List.mapM_cons, StateT.run_bind] at h
    obtain ⟨⟨y, s₁⟩, hx, h⟩ := bind_eq_ok.1 h
    rw [StateT.run_bind] at h
    obtain ⟨⟨zs, s₂⟩, hxs, h⟩ := bind_eq_ok.1 h
    cases h
    exact .cons ⟨s, s₁, hx⟩ (ih hxs)

/-- The operation is a call of a method. -/
def Op.isCall : Op → Bool
  | invoke .. => true
  | _ => false

/-- The instruction is a call, or names a result only if its operation has one. -/
def Instr.IsNearlySound (i : Instr) : Prop := i.dest.isSome = true → i.op.hasResult = true ∨ i.op.isCall = true

theorem Instr.IsSound.nearly {i : Instr} (h : i.IsSound) : i.IsNearlySound := fun hdest => .inl (h hdest)

namespace Update

/-- The second constant is the first one brought up to date. -/
inductive Renews (u : Update) (context : MethodRef) : Constant → Constant → Prop
  | string (s : String) : Renews u context (.string s) (.string s)
  | type (t : Descriptor) : Renews u context (.type t) (.type (u.type t))
  | field (f : FieldRef) : Renews u context (.field f) (.field (u.field f).ref)
  | method {m : MethodRef} {kind : InvokeKind} {result : MethodLookup} (h : u.method context m kind = .ok result) :
    Renews u context (.method m) (.method result.ref)
  | proto (p : Prototype) : Renews u context (.proto p) (.proto (u.proto p))
  | handle {h h' : MethodHandle} (heq : u.handle context h = .ok h') : Renews u context (.handle h) (.handle h')
  | callSite {c c' : CallSite} (h : u.callSite context c = .ok c') : Renews u context (.callSite c) (.callSite c')

variable {u : Update} {n : Renaming} {context : MethodRef}

theorem renews_of_constant? {k k' : Constant} {flag : Bool} (h : u.constant? context k = .ok (some (k', flag))) :
    u.Renews context k k' := by
  cases k with
  | string | type | field | proto =>
    cases h
    constructor
  | method m =>
    obtain ⟨result, hresult, h⟩ := bind_eq_ok.1 h
    split at h
    · obtain ⟨probe, -, h⟩ := bind_eq_ok.1 h
      cases h
      exact .method hresult
    · cases h
  | handle x =>
    obtain ⟨x', hx', h⟩ := bind_eq_ok.1 h
    cases h
    exact .handle hx'
  | callSite x =>
    obtain ⟨x', hx', h⟩ := bind_eq_ok.1 h
    cases h
    exact .callSite hx'

/-! ### Instructions -/

/-- A constant that an instruction with the operation `op` may name after the update: the one it
    named brought up to date, the type that a value read from a field is cast to, or an enum whose
    instance it stands for. -/
def Names (u : Update) (context : MethodRef) (op : Op) (k' : Constant) : Prop :=
  (∃ k, op.constant? = some k ∧ u.Renews context k k') ∨
    (∃ f t, op.constant? = some (.field f) ∧ (u.field f).readCast = some t ∧ k' = .type t) ∨
    ∃ t ordinal, op = .newUnboxedEnum t ordinal ∧ k' = .type t

/-- The instruction `j` may be made of `i`. -/
structure Makes (u : Update) (context : MethodRef) (i j : Instr) : Prop where
  sound : i.IsNearlySound → j.IsSound
  constants : ∀ k', j.op.constant? = some k' → u.Names context i.op k'

/-- An instruction that stays one instruction. -/
theorem makes_of_keep {i : Instr} {op : Op} (hresult : op.hasResult = i.op.hasResult) (hcall : i.op.isCall = false)
    (hconstants : ∀ k', op.constant? = some k' → u.Names context i.op k') : u.Makes context i { i with op := op } := by
  refine ⟨fun hsound hdest => ?_, hconstants⟩
  rcases hsound hdest with hyes | hno
  · exact hresult.trans hyes
  · cases hcall.symm.trans hno

theorem makes_of_fieldRead {i : Instr} {op : Op} {f : FieldRef} (hfield : i.op.constant? = some (.field f)) (hresult : op.hasResult = true)
    (hconstant : op.constant? = some (.field (u.field f).ref)) {is : List Instr} {s t : List Value}
    (h : (fieldRead i.dest op (u.field f) i.line).run s = .ok (is, t)) : ∀ j ∈ is, u.Makes context i j := by
  have hread (dest : Option ValueId) : u.Makes context i ⟨dest, op, i.line⟩ := by
    refine ⟨fun _ _ => hresult, fun k' hk' => .inl ⟨_, hfield, ?_⟩⟩
    cases hconstant.symm.trans hk'
    exact .field f
  unfold fieldRead at h
  split at h
  · next cast d hcast _ =>
    cases h
    refine List.forall_mem_cons.2 ⟨hread _, List.forall_mem_singleton.2 ⟨fun _ _ => rfl, fun k' hk' => ?_⟩⟩
    cases hk'
    exact .inr (.inl ⟨f, cast, hfield, hcast, rfl⟩)
  · cases h
    exact List.forall_mem_singleton.2 (hread _)

theorem makes_of_invoke {i : Instr} {kind : InvokeKind} {m : MethodRef} {args : List ValueId} {itf : Bool}
    (hop : i.op = .invoke kind m args itf) {is : List Instr} {s t : List Value}
    (h : (u.invoke context i.dest kind m args itf i.line).run s = .ok (is, t)) : ∀ j ∈ is, u.Makes context i j := by
  unfold invoke at h
  rw [StateT.run_bind] at h
  obtain ⟨⟨result, s₁⟩, hresult, h⟩ := bind_eq_ok.1 h
  have hmethod : u.method context m kind = .ok result := by
    cases hm : u.method context m kind with
    | error e =>
      rw [hm] at hresult
      cases hresult
    | ok r =>
      rw [hm] at hresult
      cases hresult
      rfl
  rw [StateT.run_bind] at h
  obtain ⟨⟨extra, s₂⟩, -, h⟩ := bind_eq_ok.1 h
  cases h
  intro j hj
  rcases List.mem_append.1 hj with hj | hj
  · obtain ⟨⟨v, e⟩, -, rfl⟩ := List.mem_map.1 hj
    cases e with
    | unusedNull | constantInt => exact ⟨fun _ _ => rfl, fun k' hk' => by cases hk'⟩
  · rw [List.mem_singleton.1 hj]
    refine ⟨fun _ hdest => ?_, fun k' hk' => .inl ⟨.method m, by rw [hop]; rfl, ?_⟩⟩
    · simp only [Op.hasResult]
      cases hvoid : result.ref.proto.returnType.isVoid with
      | false => rfl
      | true => simp [hvoid] at hdest
    · cases hk'
      exact .method hmethod

/-- A computation beside the values. -/
theorem run_liftM_eq_ok {α : Type} {x : Guarded α} {s t : List Value} {a : α}
    (h : (liftM x : WithValues α).run s = .ok (a, t)) : x = .ok a := by
  cases x with
  | error e => cases h
  | ok b =>
    cases h
    rfl

/-- **What an instruction becomes.** -/
theorem makes_of_instr (hvoid : ∀ t, (u.type t).isVoid = t.isVoid) {i : Instr} {is : List Instr} {s t : List Value}
    (hproto : ∀ p, (u.proto p).returnType = u.type p.returnType)
    (h : (u.instr context i).run s = .ok (is, t)) : ∀ j ∈ is, u.Makes context i j := by
  have hpooled (k k' : Constant) (hk : i.op.constant? = some k) (hnew : u.Renews context k k') :
      ∀ x, some k' = some x → u.Names context i.op x := by
    rintro _ ⟨⟩
    exact .inl ⟨k, hk, hnew⟩
  unfold instr at h
  cases hop : i.op with
  | constClass x | newInstance x | newArray x size | arrayGet x array index | checkCast x v | instanceOf x v =>
    rw [hop] at h hpooled
    cases h
    refine List.forall_mem_singleton.2 (makes_of_keep (by rw [hop]; rfl) (by rw [hop]; rfl) ?_)
    rw [hop]
    exact hpooled _ _ rfl (.type x)
  | constMethodType x =>
    rw [hop] at h hpooled
    cases h
    refine List.forall_mem_singleton.2 (makes_of_keep (by rw [hop]; rfl) (by rw [hop]; rfl) ?_)
    rw [hop]
    exact hpooled _ _ rfl (.proto x)
  | constHandle x =>
    rw [hop] at h hpooled
    simp only [StateT.run_bind] at h
    obtain ⟨⟨x', s₁⟩, hx', h⟩ := bind_eq_ok.1 h
    cases h
    refine List.forall_mem_singleton.2 (makes_of_keep (by rw [hop]; rfl) (by rw [hop]; rfl) ?_)
    rw [hop]
    exact hpooled _ _ rfl (.handle (run_liftM_eq_ok hx'))
  | invokeCustom x args =>
    rw [hop] at h hpooled
    simp only [StateT.run_bind] at h
    obtain ⟨⟨x', s₁⟩, hx', h⟩ := bind_eq_ok.1 h
    cases h
    have hx := run_liftM_eq_ok hx'
    refine List.forall_mem_singleton.2 (makes_of_keep ?_ (by rw [hop]; rfl) ?_)
    · obtain ⟨bootstrap, -, hx⟩ := bind_eq_ok.1 hx
      obtain ⟨arguments, -, hx⟩ := bind_eq_ok.1 hx
      cases hx
      rw [hop]
      simp only [Op.hasResult, hproto, hvoid]
    · rw [hop]
      exact hpooled _ _ rfl (.callSite hx)
  | staticGet f =>
    rw [hop] at h
    exact makes_of_fieldRead (by rw [hop]; rfl) rfl rfl h
  | instanceGet f object =>
    rw [hop] at h
    exact makes_of_fieldRead (by rw [hop]; rfl) rfl rfl h
  | staticPut f v | instancePut f object v =>
    rw [hop] at h hpooled
    cases h
    refine List.forall_mem_singleton.2 (makes_of_keep (by rw [hop]; rfl) (by rw [hop]; rfl) ?_)
    rw [hop]
    exact hpooled _ _ rfl (.field f)
  | invoke kind m args itf =>
    rw [hop] at h
    exact makes_of_invoke hop h
  | constString x =>
    rw [hop] at h hpooled
    cases h
    refine List.forall_mem_singleton.2 (makes_of_keep (by rw [hop]) (by rw [hop]; rfl) ?_)
    rw [hop]
    exact hpooled _ _ rfl (.string x)
  | newUnboxedEnum x ordinal =>
    rw [hop] at h
    cases h
    refine List.forall_mem_singleton.2 (makes_of_keep (by rw [hop]) (by rw [hop]; rfl) ?_)
    rintro _ ⟨⟩
    exact .inr (.inr ⟨x, ordinal, hop, rfl⟩)
  | _ =>
    rw [hop] at h
    cases h
    refine List.forall_mem_singleton.2 (makes_of_keep (by rw [hop]) (by rw [hop]; rfl) fun k' hk' => ?_)
    cases hk'

/-! ### Bodies -/

/-- The block `d` may be made of `b`. -/
structure MakesBlock (u : Update) (context : MethodRef) (b d : Block) : Prop where
  follows : b.Follows d
  body : ∀ j ∈ d.body, ∃ i ∈ b.body, u.Makes context i j
  guards : d.handlers.map Handler.guard = b.handlers.map fun x => u.type x.guard

theorem makesBlock_of_block (hvoid : ∀ t, (u.type t).isVoid = t.isVoid) (hproto : ∀ p, (u.proto p).returnType = u.type p.returnType)
    {b d : Block} {s t : List Value} (h : (u.block context b).run s = .ok (d, t)) : u.MakesBlock context b d := by
  unfold block at h
  rw [StateT.run_bind] at h
  obtain ⟨⟨body, s₁⟩, hbody, h⟩ := bind_eq_ok.1 h
  cases h
  refine ⟨.of_eq rfl rfl (by simp [Function.comp_def]), fun j hj => ?_, by simp [Function.comp_def]⟩
  obtain ⟨is, his, hj⟩ := List.mem_flatten.1 hj
  obtain ⟨i, hi, _, _, hinstr⟩ := exists_of_mem_left (forall₂_of_run_mapM hbody).flip his
  exact ⟨i, hi, makes_of_instr hvoid hproto hinstr j hj⟩

/-- An instruction that takes the place of an argument. -/
def IsFiller (i : Instr) : Prop := i.IsSound ∧ i.op.constant? = none ∧ i.op.isCall = false ∧ ∀ t ordinal, i.op ≠ .newUnboxedEnum t ordinal

/-- What stands for an argument is a constant. -/
theorem removedArgumentOp_cases (type : Descriptor) (constant : Option Int64) :
    removedArgumentOp type constant = .constNull ∨ (∃ x, removedArgumentOp type constant = .constLong x) ∨
      ∃ x, removedArgumentOp type constant = .constInt x := by
  unfold removedArgumentOp
  split
  · exact .inl rfl
  · split
    · exact .inr (.inl ⟨_, rfl⟩)
    · split
      · split <;> exact .inr (.inr ⟨_, rfl⟩)
      · exact .inr (.inr ⟨_, rfl⟩)

theorem isFiller_removedArgumentOp (v : ValueId) (type : Descriptor) (constant : Option Int64) :
    IsFiller ⟨some v, removedArgumentOp type constant, 0⟩ := by
  rcases removedArgumentOp_cases type constant with h | ⟨x, h⟩ | ⟨x, h⟩ <;> rw [h] <;> exact ⟨fun _ => rfl, rfl, rfl, by simp⟩

/-- A body whose arguments follow the changes of its definition: fillers stand in front. -/
theorem updateArguments_spec (c : Body) (changes : ProtoChanges) :
    List.Forall₂ (fun b b' => b.Follows b' ∧ b'.handlers = b.handlers ∧ ∀ i ∈ b'.body, IsFiller i ∨ i ∈ b.body)
      c.blocks (c.updateArguments changes).blocks := by
  have hsame (b : Block) : b.Follows b ∧ b.handlers = b.handlers ∧ ∀ i ∈ b.body, IsFiller i ∨ i ∈ b.body :=
    ⟨.refl b, rfl, fun _ hi => .inr hi⟩
  unfold Body.updateArguments
  split
  · exact List.forall₂_same.2 fun b _ => hsame b
  · simp only
    cases hblocks : c.blocks with
    | nil => exact .nil
    | cons entry rest =>
      refine .cons ⟨.of_eq rfl rfl rfl, rfl, fun i hi => ?_⟩ (List.forall₂_same.2 fun b _ => hsame b)
      rcases List.mem_append.1 hi with hi | hi
      · obtain ⟨⟨v, change⟩, -, hfiller⟩ := List.mem_filterMap.1 hi
        split at hfiller
        · cases hfiller
          exact .inl (isFiller_removedArgumentOp _ _ _)
        · cases hfiller
      · exact .inr hi

/-- No argument goes, so the added ones are all that changes in number. -/
theorem length_updateArguments (c : Body) {changes : ProtoChanges} (h : changes.arguments.isEmpty = true) :
    (c.updateArguments changes).arguments.length = c.arguments.length + changes.extra.length := by
  have hnone (i : Nat) : changes.argumentAt? i = none := by
    simp [ProtoChanges.argumentAt?, ProtoChanges.argument?, Std.TreeMap.getElem?_of_isEmpty h]
  unfold Body.updateArguments
  split
  · next hempty =>
    simp only [ProtoChanges.isEmpty, Bool.and_eq_true, List.isEmpty_iff] at hempty
    simp [hempty.1.2]
  · simp only [List.length_append, List.length_range', List.length_map, ProtoChanges.extraTypes]
    congr 1
    simp [hnone, List.mapIdx_eq_zipIdx_map]

/-- **What an update makes of a body.** -/
theorem body_spec (hvoid : ∀ t, (u.type t).isVoid = t.isVoid) (hproto : ∀ p, (u.proto p).returnType = u.type p.returnType)
    {c d : Body} {method : MethodRef} {isStatic : Bool} (h : u.body c method isStatic = .ok d) :
    (c.Shaped → d.Shaped) ∧ (c.Each Instr.IsNearlySound → d.Each Instr.IsSound) ∧
      (∃ changes, u.definitionChanges method = .ok changes ∧
        (changes.arguments.isEmpty = true → d.arguments.length = c.arguments.length + changes.extra.length)) ∧
      (∀ b ∈ d.blocks, ∀ j ∈ b.body, ∃ i, u.Makes method i j ∧ (IsFiller i ∨ ∃ b₀ ∈ c.blocks, i ∈ b₀.body)) ∧
      ∀ b ∈ d.blocks, ∀ x ∈ b.handlers, ∃ b₀ ∈ c.blocks, ∃ y ∈ b₀.handlers, x.guard = u.type y.guard := by
  obtain ⟨changes, hchanges, h⟩ := bind_eq_ok.1 h
  obtain ⟨⟨blocks, values⟩, hblocks, h⟩ := bind_eq_ok.1 h
  obtain ⟨e, hprune, h⟩ := bind_eq_ok.1 h
  cases h
  let retyped : Body := { c with values := c.values.map fun v => ({ v with type := u.type v.type } : Value) }
  have harguments := updateArguments_spec retyped changes
  have hmade : List.Forall₂ (u.MakesBlock method) (retyped.updateArguments changes).blocks blocks :=
    (forall₂_of_run_mapM hblocks).imp fun _ _ ⟨_, _, hblock⟩ => makesBlock_of_block hvoid hproto hblock
  obtain ⟨hsame, hkept⟩ := Body.exists_of_pruneGuards hprune
  have horigin : ∀ b ∈ e.blocks, ∃ b₁ ∈ (retyped.updateArguments changes).blocks, ∃ b₀ ∈ c.blocks,
      (∀ j ∈ b.body, ∃ i ∈ b₁.body, u.Makes method i j) ∧ (∀ i ∈ b₁.body, IsFiller i ∨ i ∈ b₀.body) ∧
      ∀ x ∈ b.handlers, ∃ y ∈ b₀.handlers, x.guard = u.type y.guard := by
    intro b hb
    obtain ⟨b₂, hb₂, hbody, hguards⟩ := hkept b hb
    obtain ⟨b₁, hb₁, hmakes⟩ := exists_of_mem_left hmade.flip hb₂
    obtain ⟨b₀, hb₀, -, hhandlers, hfillers⟩ := exists_of_mem_left harguments.flip hb₁
    refine ⟨b₁, hb₁, b₀, hb₀, hbody ▸ hmakes.body, hfillers, fun x hx => ?_⟩
    obtain ⟨y, hy, hxy⟩ := hguards x hx
    have hguard : y.guard ∈ b₁.handlers.map fun x => u.type x.guard := hmakes.guards ▸ List.mem_map_of_mem hy
    obtain ⟨z, hz, hyz⟩ := List.mem_map.1 hguard
    exact ⟨z, hhandlers ▸ hz, hxy.trans hyz.symm⟩
  refine ⟨fun hshaped => ?_, fun hsound b hb j hj => ?_, ⟨changes, hchanges, fun hempty => ?_⟩, fun b hb j hj => ?_,
    fun b hb x hx => ?_⟩
  · have hretyped : retyped.Shaped := ⟨hshaped.nonempty, hshaped.targets, hshaped.entry, hshaped.arity⟩
    have hupdated : ({ retyped.updateArguments changes with blocks := blocks, values := values } : Body).Shaped :=
      (hretyped.follows (harguments.imp fun _ _ hb => hb.1)).follows (hmade.imp fun _ _ hb => hb.follows)
    have hpruned : e.Shaped := hupdated.pruneGuards hprune
    exact ⟨hpruned.nonempty, hpruned.targets, hpruned.entry, hpruned.arity⟩
  · obtain ⟨b₁, hb₁, b₀, hb₀, hmakes, hfillers, -⟩ := horigin b hb
    obtain ⟨i, hi, hij⟩ := hmakes j hj
    refine hij.sound ?_
    rcases hfillers i hi with hfiller | hold
    · exact hfiller.1.nearly
    · exact hsound b₀ hb₀ i hold
  · exact (congrArg List.length hsame).trans (length_updateArguments retyped hempty)
  · obtain ⟨b₁, hb₁, b₀, hb₀, hmakes, hfillers, -⟩ := horigin b hb
    obtain ⟨i, hi, hij⟩ := hmakes j hj
    exact ⟨i, hij, (hfillers i hi).imp_right fun hold => ⟨b₀, hb₀, hold⟩⟩
  · obtain ⟨b₁, -, b₀, hb₀, -, -, hguards⟩ := horigin b hb
    obtain ⟨y, hy, hxy⟩ := hguards x hx
    exact ⟨b₀, hb₀, y, hy, hxy⟩

end Update

/-! ### Bodies that can be read -/

/-- The body unpacks against every signature with as many arguments, if its value indices fit into
    thirty-two bits. -/
structure PackedBody.Readable (p : PackedBody) : Prop where
  bytes : p.bytes ≠ []
  unpacks : p.argumentCount + p.instructionCount ≤ UInt32.size → ∀ (method : MethodRef) (isStatic : Bool) (types : List Descriptor),
    types.length = p.argumentCount → ∃ c, p.unpack method isStatic types = .ok c

theorem Body.readable_of_pack {c : Body} (hshaped : c.Shaped) (hsound : c.Each Instr.IsSound) {p : PackedBody} (h : c.pack = .ok p) :
    p.Readable ∧ p.argumentCount = c.arguments.length :=
  have hp := unpack_of_pack hshaped hsound h
  ⟨⟨hp.2.1, hp.2.2⟩, hp.1⟩

theorem PackedBody.readable_of_unpack {p : PackedBody} (hbytes : p.bytes ≠ []) {method : MethodRef} {isStatic : Bool} {types : List Descriptor}
    {c : Body} (h : p.unpack method isStatic types = .ok c) : p.Readable := by
  refine ⟨hbytes, fun _ method' isStatic' types' htypes' => ?_⟩
  obtain ⟨c', hc', -⟩ := exists_unpack h method' isStatic' htypes'
  exact ⟨c', hc'⟩

/-- The body after an update. -/
def PackedUpdate.result (p : PackedBody) : PackedUpdate → PackedBody
  | .unchanged => p
  | .patched q => q
  | .rebuilt q => q

/-- Changes that only add parameters come through as they are. -/
theorem ProtoChanges.of_none_combine {c c' : ProtoChanges} (h : c.arguments.isEmpty = true) (hc : none.combine c = .ok c') :
    c'.arguments.isEmpty = true ∧ c'.extra = c.extra := by
  obtain ⟨arguments, harguments, hc⟩ := bind_eq_ok.1 hc
  cases hc
  have hnil : c.arguments.toList = [] := by
    rw [← List.isEmpty_iff, Std.TreeMap.isEmpty_toList]
    exact h
  rw [combineArguments, hnil] at harguments
  cases harguments
  exact ⟨Std.TreeMap.isEmpty_emptyc, rfl⟩

namespace Update

variable {u : Update} {n : Renaming} {method : MethodRef} {isStatic : Bool} {p : PackedBody}

theorem Across.definitionChanges_eq (h : u.Across n) (m : MethodRef) :
    u.definitionChanges m = ProtoChanges.none.combine (n.definitionChanges.getD m .none) := by
  rw [Update.definitionChanges, Lens.definitionChanges, h.forward]
  exact bind_pure (ProtoChanges.none.combine (n.definitionChanges.getD m .none))

theorem Across.definitionChanges (h : u.Across n) {k : Nat} (hpads : n.Pads method k) {changes : ProtoChanges}
    (hchanges : u.definitionChanges method = .ok changes) : changes.arguments.isEmpty = true ∧ changes.extra.length = k := by
  rw [h.definitionChanges_eq] at hchanges
  obtain ⟨hempty, hextra⟩ := ProtoChanges.of_none_combine hpads.1 hchanges
  exact ⟨hempty, hextra ▸ hpads.2⟩

theorem Across.returnType_proto (h : u.Across n) (q : Prototype) : (u.proto q).returnType = u.type q.returnType := by
  rw [h.proto, h.type]
  rfl

/-- A body that is brought up to date and packed. -/
theorem readable_of_body (hn : u.Across n) (hvoid : n.KeepsVoid) {k : Nat} (hpads : n.Pads method k) {c d : Body}
    (hshaped : c.Shaped) (hsound : c.Each Instr.IsNearlySound) (hd : u.body c method isStatic = .ok d) {q : PackedBody}
    (hq : d.pack = .ok q) : q.Readable ∧ q.argumentCount = c.arguments.length + k := by
  obtain ⟨hshape, hresults, ⟨changes, hchanges, hlength⟩, -, -⟩ :=
    body_spec (fun t => by rw [hn.type, hvoid.type]) hn.returnType_proto hd
  obtain ⟨hempty, rfl⟩ := hn.definitionChanges hpads hchanges
  obtain ⟨hreadable, hcount⟩ := Body.readable_of_pack (hshape hshaped) (hresults hsound) hq
  exact ⟨hreadable, hcount.trans (hlength hempty)⟩

theorem readable_of_rebuild (hn : u.Across n) (hvoid : n.KeepsVoid) {k : Nat} (hpads : n.Pads method k) (hp : p.Readable)
    {q : PackedBody} (h : u.rebuild p method isStatic = .ok (.rebuilt q)) : q.Readable ∧ q.argumentCount = p.argumentCount + k := by
  obtain ⟨c, hc, h⟩ := bind_eq_ok.1 h
  obtain ⟨d, hd, h⟩ := bind_eq_ok.1 h
  obtain ⟨q', hq, h⟩ := bind_eq_ok.1 h
  cases h
  obtain ⟨hshaped, hholds, hcount⟩ := PackedBody.unpack_spec hp.bytes hc
  rw [← hcount]
  refine readable_of_body hn hvoid hpads hshaped (fun b hb i hi hdest => .inl ?_) (Outcome.lift_eq_ok.1 hd) hq
  rw [← (hholds b hb i hi).1]
  exact hdest

theorem length_foldl_set (patches : List (Nat × UInt8)) (bytes : List UInt8) :
    (patches.foldl (fun bytes (offset, op) => bytes.set offset op) bytes).length = bytes.length := by
  induction patches generalizing bytes with
  | nil => rfl
  | cons x xs ih => rw [List.foldl_cons, ih, List.length_set]

/-- How an update of a packed body ends. -/
theorem packed_cases {r : PackedUpdate} (h : u.packed p method isStatic = .ok r) :
    u.rebuild p method isStatic = .ok r ∨ ∃ constants kindsChanged handlers,
      u.patch p method isStatic constants kindsChanged handlers = .ok r := by
  unfold packed at h
  obtain ⟨changes, -, h⟩ := bind_eq_ok.1 h
  split at h
  · exact .inl h
  · obtain ⟨pool, -, h⟩ := bind_eq_ok.1 h
    cases pool with
    | none => exact .inl h
    | some pool =>
      simp only at h
      split at h
      · exact .inl h
      · exact .inr ⟨_, _, _, h⟩

theorem patch_cases {constants : List Constant} {kindsChanged : Bool} {handlers : Std.TreeMap Nat (List Handler)} {r : PackedUpdate}
    (h : u.patch p method isStatic constants kindsChanged handlers = .ok r) :
    u.rebuild p method isStatic = .ok r ∨ ∃ q, r.kept? p = some q ∧ q.bytes.length = p.bytes.length := by
  have hpatched (patches : List (Nat × UInt8)) :
      (patches.foldl (fun bytes (offset, op) => bytes.set offset op) p.bytes).length = p.bytes.length := length_foldl_set patches p.bytes
  simp only [patch] at h
  split at h
  · cases h
    exact .inr ⟨p, rfl, rfl⟩
  · split at h
    · obtain ⟨patches, -, h⟩ := bind_eq_ok.1 h
      cases patches with
      | none => exact .inl h
      | some patches =>
        simp only at h
        split at h <;> cases h
        · exact .inr ⟨p, rfl, rfl⟩
        · exact .inr ⟨_, rfl, hpatched patches⟩
    · simp only [pure_bind] at h
      split at h <;> cases h
      · exact .inr ⟨p, rfl, rfl⟩
      · exact .inr ⟨_, rfl, hpatched []⟩

theorem exists_rebuilt {r : PackedUpdate} (h : u.rebuild p method isStatic = .ok r) : ∃ q, r = .rebuilt q := by
  obtain ⟨_, _, h⟩ := bind_eq_ok.1 h
  obtain ⟨_, _, h⟩ := bind_eq_ok.1 h
  obtain ⟨q, _, h⟩ := bind_eq_ok.1 h
  cases h
  exact ⟨q, rfl⟩

/-- **A packed body that can be read can be read after an update**, and has as many arguments more as
    its definition has. -/
theorem readable_of_packed (hn : u.Across n) (hself : ∀ f : FieldRef, n.fields[f]? ≠ some f) (hvoid : n.KeepsVoid) {k : Nat}
    (hpads : n.Pads method k) (hp : p.Readable) {r : PackedUpdate} (h : u.packed p method isStatic = .ok r) :
    (r.result p).Readable ∧ (r.result p).argumentCount = p.argumentCount + k := by
  have hrebuild (h : u.rebuild p method isStatic = .ok r) :
      (r.result p).Readable ∧ (r.result p).argumentCount = p.argumentCount + k := by
    obtain ⟨q, rfl⟩ := exists_rebuilt h
    exact readable_of_rebuild hn hvoid hpads hp h
  rcases packed_cases h with hr | ⟨constants, kindsChanged, handlers, hr⟩
  · exact hrebuild hr
  rcases patch_cases hr with hr | ⟨q, hq, hlength⟩
  · exact hrebuild hr
  have hresult : r.result p = q := by
    cases r with
    | unchanged | patched => exact Option.some.inj hq
    | rebuilt => cases hq
  obtain ⟨⟨changes, hchanges, hempty⟩, hpatched⟩ := patched_of_packed hn hself h hq
  obtain ⟨-, rfl⟩ := hn.definitionChanges hpads hchanges
  simp only [ProtoChanges.isEmpty, Bool.and_eq_true, List.isEmpty_iff] at hempty
  rw [hresult, hempty.1.2]
  refine ⟨⟨fun hnil => hp.bytes ?_, fun hsize m s types htypes => ?_⟩, hpatched.argumentCount⟩
  · rw [hnil] at hlength
    exact List.length_eq_zero_iff.1 hlength.symm
  · rw [hpatched.argumentCount, hpatched.instructionCount] at hsize
    rw [hpatched.argumentCount] at htypes
    obtain ⟨c, hc⟩ := hp.unpacks hsize m s types htypes
    obtain ⟨c', hc', -⟩ : ∃ c', q.unpack m s types = .ok c' ∧ _ := hpatched.unpack hn hvoid htypes hc
    exact ⟨c', hc'⟩

end Update

end DexShrinker
