/-
  DexShrinker/Proofs/Body/Assembly.lean
  =====================================
  **What bodies are put together from.**

  Steps *add* what satisfies a predicate if every instruction they add does (`Assembly.Adds`).
  They *emit* a set of constants if every instruction names constants of the set only, and a
  result only if its operation has one (`Assembly.Emits`). Phis that they add are numbers. A
  step followed by another adds what both do, so a body that steps build has well-formed
  control flow, the arguments of its method, and nothing but what the steps add
  (`Assembly.build_spec`, `Assembly.each_of_build`).

  What steps do to a draft exactly is said of the current block with those before it and those
  after it (`Draft.within`). A step on the current block changes that block only, a new block
  comes last, and going on in the next block moves the current one over. Unlike what steps emit,
  this says what the finished blocks are, so that the body can be run.
-/
import DexShrinker.Body.Assembly
import DexShrinker.Proofs.Body.Execution
import DexShrinker.Proofs.Packed.Canonical

namespace DexShrinker

/-- The instruction names a result only if its operation has one, and only constants that
    satisfy `K`. -/
structure Instr.IsSoundIn (K : Constant → Prop) (i : Instr) : Prop where
  sound : i.IsSound
  constants : ∀ k, i.op.constant? = some k → K k

/-- The phi defines a number, where `values` are the values of the body. -/
def Phi.IsNumber (values : List Value) (x : Phi) : Prop := values[x.dest]?.map Value.type = some .int

theorem Phi.IsNumber.mono {values values' : List Value} (hvalues : values <+: values') {x : Phi} (h : x.IsNumber values) :
    x.IsNumber values' := by
  obtain ⟨v, hv, htype⟩ := Option.map_eq_some_iff.1 h
  obtain ⟨more, rfl⟩ := hvalues
  rw [IsNumber, List.getElem?_append_left (List.getElem?_eq_some_iff.1 hv).1, hv, Option.map_some, htype]

/-- The block has no handlers, only instructions that satisfy `P`, and only phis that are numbers. -/
structure DraftBlock.Holds (P : Instr → Prop) (values : List Value) (b : DraftBlock) : Prop where
  handlers : b.handlers = []
  body : ∀ i ∈ b.body, P i
  phis : ∀ x ∈ b.phis, x.IsNumber values

theorem DraftBlock.Holds.mono {P : Instr → Prop} {values values' : List Value} (hvalues : values <+: values') {b : DraftBlock}
    (h : b.Holds P values) : b.Holds P values' :=
  ⟨h.handlers, h.body, fun x hx => (h.phis x hx).mono hvalues⟩

/-- The draft `d'` comes from `d` by adding instructions that satisfy `P`. -/
structure Draft.Gains (P : Instr → Prop) (d d' : Draft) : Prop where
  arguments : d'.code.arguments = d.code.arguments
  values : d.code.values <+: d'.code.values
  blocks : d.blocks.length ≤ d'.blocks.length
  holds : (∀ b ∈ d.blocks, b.Holds P d.code.values) → ∀ b ∈ d'.blocks, b.Holds P d'.code.values

theorem Draft.Gains.refl (P : Instr → Prop) (d : Draft) : Draft.Gains P d d := ⟨rfl, List.prefix_refl _, Nat.le_refl _, id⟩

theorem Draft.Gains.trans {P : Instr → Prop} {d d' d'' : Draft} (h : Draft.Gains P d d') (h' : Draft.Gains P d' d'') :
    Draft.Gains P d d'' :=
  ⟨h'.arguments.trans h.arguments, h.values.trans h'.values, Nat.le_trans h.blocks h'.blocks, fun hd => h'.holds (h.holds hd)⟩

namespace Assembly

/-- Every instruction that the steps add satisfies `P`. -/
def Adds {α : Type} (P : Instr → Prop) (x : Assembly α) : Prop := ∀ d, Draft.Gains P d (x.run.run d).2

/-- Whatever the steps add names only constants that satisfy `K`. -/
abbrev Emits {α : Type} (K : Constant → Prop) (x : Assembly α) : Prop := x.Adds (Instr.IsSoundIn K)

variable {α β : Type} {P : Instr → Prop} {K : Constant → Prop}

theorem adds_pure (a : α) : (pure a : Assembly α).Adds P := fun d => .refl _ d

theorem run_bind (x : Assembly α) (f : α → Assembly β) (d : Draft) : (x >>= f).run.run d =
    match x.run.run d with
    | (.ok a, d') => (f a).run.run d'
    | (.error e, d') => (.error e, d') := by
  change StateT.run (ExceptT.run x >>= ExceptT.bindCont f) d = _
  rw [StateT.run_bind]
  change (ExceptT.bindCont f (x.run.run d).1).run (x.run.run d).2 = _
  cases x.run.run d with
  | mk result d' => cases result <;> rfl

theorem Adds.bind {x : Assembly α} {f : α → Assembly β} (hx : x.Adds P) (hf : ∀ a, (f a).Adds P) : (x >>= f).Adds P := by
  intro d
  rw [run_bind]
  have hgains := hx d
  cases hstep : x.run.run d with
  | mk result d' =>
    rw [hstep] at hgains
    cases result with
    | ok a => exact hgains.trans (hf a d')
    | error e => exact hgains

theorem Adds.map {x : Assembly α} (hx : x.Adds P) (f : α → β) : (f <$> x).Adds P := by
  rw [map_eq_pure_bind]
  exact hx.bind fun a => adds_pure (f a)

theorem adds_mapM {xs : List α} {f : α → Assembly β} (h : ∀ x ∈ xs, (f x).Adds P) : (xs.mapM f).Adds P := by
  induction xs with
  | nil => exact adds_pure []
  | cons x xs ih =>
    rw [List.mapM_cons]
    rw [List.forall_mem_cons] at h
    exact h.1.bind fun y => (ih h.2).bind fun ys => adds_pure _

theorem adds_forM {xs : List α} {f : α → Assembly PUnit} (h : ∀ x ∈ xs, (f x).Adds P) : (xs.forM f).Adds P := by
  induction xs with
  | nil => exact adds_pure ()
  | cons x xs ih =>
    rw [List.forall_mem_cons] at h
    exact h.1.bind fun _ => ih h.2

/-! ### Single steps -/

theorem adds_liftExcept (x : Guarded α) : (liftExcept x).Adds P := fun d => .refl _ d

theorem adds_get : (get : Assembly Draft).Adds P := fun d => .refl _ d

theorem adds_argument (i : Nat) : (argument i).Adds P := adds_get.bind fun _ => adds_liftExcept _

theorem adds_newBlock : newBlock.Adds P := by
  intro d
  refine ⟨rfl, List.prefix_refl _, ?_, fun h => ?_⟩
  · change d.blocks.length ≤ (d.blocks ++ [_]).length
    simp
  · change ∀ b ∈ d.blocks ++ [({} : DraftBlock)], _
    intro b hb
    rcases List.mem_append.1 hb with hb | hb
    · exact h b hb
    · rw [List.mem_singleton.1 hb]
      exact ⟨rfl, by simp, by simp⟩

theorem adds_switchTo (b : BlockId) : (switchTo b).Adds P := fun _ => ⟨rfl, List.prefix_refl _, Nat.le_refl _, id⟩

theorem gains_newValue (d : Draft) (t : Descriptor) (origin : Origin) :
    Draft.Gains P d { d with code := (d.code.newValue t origin).2 } :=
  ⟨rfl, List.prefix_append _ _, Nat.le_refl _, fun h b hb => (h b hb).mono (List.prefix_append _ _)⟩

theorem adds_newValue (t : Descriptor) (origin : Origin) : (newValue t origin).Adds P := fun d => gains_newValue d t origin

/-- A step on the current block, if what it does to the block is right for the values of the draft. -/
theorem gains_onCurrent {d : Draft} {f : DraftBlock → DraftBlock}
    (h : ∀ b : DraftBlock, b.Holds P d.code.values → (f b).Holds P d.code.values) : Draft.Gains P d ((onCurrent f).run.run d).2 := by
  unfold onCurrent
  change Draft.Gains _ d (StateT.run (ExceptT.run (liftExcept (entryOr d.blocks d.current (.blockOutOfRange d.current)) >>= _)) d).2
  cases hb : d.blocks[d.current]? with
  | none =>
    rw [show entryOr d.blocks d.current (.blockOutOfRange d.current) = .error (.blockOutOfRange d.current) by simp [entryOr, hb]]
    exact .refl _ d
  | some b =>
    rw [show entryOr d.blocks d.current (.blockOutOfRange d.current) = .ok b by simp [entryOr, hb]]
    refine ⟨rfl, List.prefix_refl _, ?_, fun hd b' hb' => ?_⟩
    · change d.blocks.length ≤ (d.blocks.set d.current (f b)).length
      rw [List.length_set]
    · rcases List.mem_or_eq_of_mem_set (show b' ∈ d.blocks.set d.current (f b) from hb') with hold | rfl
      · exact hd b' hold
      · exact h b (hd b (List.mem_of_getElem? hb))

theorem adds_onCurrent {f : DraftBlock → DraftBlock}
    (h : ∀ values (b : DraftBlock), b.Holds P values → (f b).Holds P values) : (onCurrent f).Adds P :=
  fun d => gains_onCurrent (h d.code.values)

theorem adds_emit {op : Op} (h : ∀ line, P ⟨none, op, line⟩) : (emit op).Adds P := by
  refine adds_get.bind fun d => adds_onCurrent fun _ b hb => ⟨hb.handlers, fun i hi => ?_, hb.phis⟩
  rcases List.mem_append.1 hi with hi | hi
  · exact hb.body i hi
  · rw [List.mem_singleton.1 hi]
    exact h _

theorem adds_emitValue {op : Op} (t : Descriptor) (h : ∀ v line, P ⟨some v, op, line⟩) : (emitValue op t).Adds P := by
  refine (adds_newValue t _).bind fun v => adds_get.bind fun d => Adds.bind ?_ fun _ => adds_pure v
  refine adds_onCurrent fun _ b hb => ⟨hb.handlers, fun i hi => ?_, hb.phis⟩
  rcases List.mem_append.1 hi with hi | hi
  · exact hb.body i hi
  · rw [List.mem_singleton.1 hi]
    exact h _ _

theorem emits_emit {op : Op} (h : ∀ k, op.constant? = some k → K k) : (emit op).Emits K :=
  adds_emit fun _ => ⟨fun hdest => absurd hdest (by simp), h⟩

theorem emits_emitValue {op : Op} (t : Descriptor) (hresult : op.hasResult = true) (h : ∀ k, op.constant? = some k → K k) :
    (emitValue op t).Emits K :=
  adds_emitValue t fun _ _ => ⟨fun _ => hresult, h⟩

/-- An operation that names no constant. -/
theorem emits_emitValue_of_none {op : Op} (t : Descriptor) (hresult : op.hasResult = true) (h : op.constant? = none) :
    (emitValue op t).Emits K :=
  emits_emitValue t hresult fun k hk => by cases h.symm.trans hk

theorem adds_phi (operands : List ValueId) : (phi .int operands).Adds P := by
  intro d
  let d' : Draft := { d with code := (d.code.newValue .int .phi).2 }
  let add (b : DraftBlock) : DraftBlock := { b with phis := b.phis ++ [⟨d.code.values.length, operands⟩] }
  have hnew : d'.code.values[d.code.values.length]? = some ⟨.int, .phi⟩ := by simp [d', Body.newValue]
  have hadd : Draft.Gains P d' ((onCurrent add).run.run d').2 := by
    refine gains_onCurrent fun b hb => ⟨hb.handlers, hb.body, fun x hx => ?_⟩
    rcases List.mem_append.1 hx with hx | hx
    · exact hb.phis x hx
    · rw [List.mem_singleton.1 hx, Phi.IsNumber, hnew]
      rfl
  have hrun : ((phi .int operands).run.run d).2 = ((onCurrent add).run.run d').2 := by
    rw [phi, run_bind]
    change ((onCurrent add >>= fun _ => pure d.code.values.length).run.run d').2 = _
    rw [run_bind]
    cases (onCurrent add).run.run d' with
    | mk result d'' => cases result <;> rfl
  rw [hrun]
  exact (gains_newValue d .int .phi).trans hadd

theorem adds_terminate (t : Terminator) : (terminate t).Adds P :=
  adds_get.bind fun _ => adds_onCurrent fun _ _ hb => ⟨hb.handlers, hb.body, hb.phis⟩

theorem adds_ret (v : Option ValueId) : (ret v).Adds P := adds_terminate _

theorem emits_constInt (n : Int32) : (constInt n).Emits K := emits_emitValue_of_none .int rfl rfl

theorem emits_constString {s : String} (h : K (.string s)) : (constString s).Emits K :=
  emits_emitValue .string rfl fun k hk => by
    cases hk
    exact h

theorem emits_invoke {kind : InvokeKind} {m : MethodRef} (args : List ValueId) (h : K (.method m)) : (invoke kind m args).Emits K := by
  have hop : ∀ k, (Op.invoke kind m args (kind == .interface)).constant? = some k → K k := by
    rintro _ ⟨⟩
    exact h
  unfold invoke
  simp only
  split
  · exact (emits_emit hop).bind fun _ => adds_pure _
  · next hvoid =>
    exact (emits_emitValue _ (by simpa [Op.hasResult] using hvoid) hop).bind fun v => adds_pure (some v)

end Assembly

/-! ### Finished bodies -/

/-- The body is put together from instructions that name only constants that satisfy `K`. -/
structure Body.Assembled (K : Constant → Prop) (c : Body) : Prop where
  shaped : c.Shaped
  each : c.Each (Instr.IsSoundIn K)
  handlers : ∀ b ∈ c.blocks, b.handlers = []
  phis : ∀ b ∈ c.blocks, ∀ x ∈ b.phis, x.IsNumber c.values

/-- The draft that steps start from is empty. -/
theorem Draft.holds_start (P : Instr → Prop) (method : MethodRef) (isStatic : Bool) :
    ∀ b ∈ (Draft.start method isStatic).blocks, b.Holds P (Draft.start method isStatic).code.values := by
  intro b hb
  rw [List.mem_singleton.1 hb]
  exact ⟨rfl, by simp, by simp⟩

/-- A finished body has the blocks of the draft. -/
theorem Draft.finish_eq_ok {d : Draft} {c : Body} (h : d.finish = .ok c) :
    c.verify = .ok () ∧ c.arguments = d.code.arguments ∧ c.values = d.code.values ∧ c.blocks.length = d.blocks.length ∧
      ∀ b ∈ c.blocks, ∃ b₀ ∈ d.blocks, b.body = b₀.body ∧ b.handlers = b₀.handlers ∧ b.phis = b₀.phis := by
  obtain ⟨blocks, hblocks, h⟩ := bind_eq_ok.1 h
  obtain ⟨hverify, h⟩ := check_bind_eq_ok.1 h
  cases h
  have hclosed := mapM_eq_ok_iff.1 (Outcome.ofExcept_eq_ok.1 hblocks)
  refine ⟨hverify, rfl, rfl, ?_, fun b hb => ?_⟩
  · simpa using hclosed.length_eq.symm
  · obtain ⟨⟨i, b₀⟩, hmem, hclose⟩ := exists_of_mem_left hclosed.flip hb
    obtain ⟨j, hj, heq⟩ := List.mem_mapIdx.1 hmem
    cases heq
    refine ⟨d.blocks[i], List.getElem_mem hj, ?_⟩
    simp only at hclose
    split at hclose <;> cases hclose
    exact ⟨rfl, rfl, rfl⟩

theorem Draft.finish_spec {K : Constant → Prop} {method : MethodRef} {isStatic : Bool} {d : Draft}
    (h : Draft.Gains (Instr.IsSoundIn K) (Draft.start method isStatic) d) {c : Body} (hc : d.finish = .ok c) :
    c.Assembled K ∧ c.arguments.length = (method.argumentTypes isStatic).length := by
  obtain ⟨hverify, harguments, hvalues, hlength, horigin⟩ := finish_eq_ok hc
  have hholds := h.holds (holds_start _ method isStatic)
  refine ⟨⟨(Body.verify_eq_ok_iff.1 hverify).shaped fun hnil => ?_, fun b hb i hi => ?_, fun b hb => ?_, fun b hb x hx => ?_⟩, ?_⟩
  · rw [hnil, List.length_nil] at hlength
    exact absurd h.blocks (by simp [← hlength, Draft.start])
  · obtain ⟨b₀, hb₀, hbody, -⟩ := horigin b hb
    exact (hholds b₀ hb₀).body i (hbody ▸ hi)
  · obtain ⟨b₀, hb₀, -, hhandlers, -⟩ := horigin b hb
    rw [hhandlers, (hholds b₀ hb₀).handlers]
  · obtain ⟨b₀, hb₀, -, -, hphis⟩ := horigin b hb
    rw [hvalues]
    exact (hholds b₀ hb₀).phis x (hphis ▸ hx)
  · rw [harguments, h.arguments]
    simp [Draft.start, Body.empty, Body.withArguments]

/-- **A body that was put together.** -/
theorem Assembly.build_spec {K : Constant → Prop} {method : MethodRef} {isStatic : Bool} {steps : Assembly Unit}
    (h : steps.Emits K) {c : Body} (hc : build method isStatic steps = .ok c) :
    c.Assembled K ∧ c.arguments.length = (method.argumentTypes isStatic).length := by
  have hgains := h (Draft.start method isStatic)
  obtain ⟨-, hfinish⟩ := check_bind_eq_ok.1 hc
  exact Draft.finish_spec hgains hfinish

/-- The instructions of the body are those that the steps add. -/
theorem Assembly.each_of_build {P : Instr → Prop} {method : MethodRef} {isStatic : Bool} {steps : Assembly Unit}
    (h : steps.Adds P) {c : Body} (hc : build method isStatic steps = .ok c) : c.Each P := by
  obtain ⟨-, hfinish⟩ := check_bind_eq_ok.1 hc
  obtain ⟨-, -, -, -, horigin⟩ := Draft.finish_eq_ok hfinish
  intro b hb i hi
  obtain ⟨b₀, hb₀, hbody, -⟩ := horigin b hb
  exact ((h (Draft.start method isStatic)).holds (Draft.holds_start P method isStatic) b₀ hb₀).body i (hbody ▸ hi)

/-! ### What steps do to a draft, exactly -/

/-- The draft whose current block is `b`. -/
def Draft.within (code : Body) (before : List DraftBlock) (b : DraftBlock) (after : List DraftBlock) (line : Line) : Draft :=
  ⟨code, before ++ b :: after, before.length, line⟩

theorem Draft.start_eq_within (method : MethodRef) (isStatic : Bool) : Draft.start method isStatic = .within (Body.empty method isStatic) [] {} [] 0 := rfl

namespace Assembly

variable {α β : Type} {d d' d'' : Draft}

/-- On the draft `d` the steps end well, with the answer `a` and the draft `d'`. -/
def Yields (x : Assembly α) (d : Draft) (a : α) (d' : Draft) : Prop := x.run.run d = (.ok a, d')

theorem yields_pure (a : α) (d : Draft) : (pure a : Assembly α).Yields d a d := rfl

theorem Yields.bind {x : Assembly α} {f : α → Assembly β} {a : α} {b : β} (hx : x.Yields d a d') (hf : (f a).Yields d' b d'') :
    (x >>= f).Yields d b d'' := by
  rw [Yields, run_bind, hx]
  exact hf

theorem Yields.of_eq {x : Assembly α} {a : α} (h : x.Yields d a d') (heq : d' = d'') : x.Yields d a d'' := heq ▸ h

theorem yields_mapM {xs : List α} {f : α → Assembly β} {g : α → β} (h : ∀ x ∈ xs, (f x).Yields d (g x) d) :
    (xs.mapM f).Yields d (xs.map g) d := by
  induction xs with
  | nil => exact yields_pure [] d
  | cons x xs ih =>
    rw [List.forall_mem_cons] at h
    rw [List.mapM_cons]
    exact h.1.bind ((ih h.2).bind (yields_pure _ d))

theorem yields_argument {i : Nat} {v : ValueId} (h : d.code.arguments[i]? = some v) : (argument i).Yields d v d := by
  change (entryOr d.code.arguments i (.indexOutOfRange i), d) = _
  rw [entryOr, h]

variable {code : Body} {before after : List DraftBlock} {b b' : DraftBlock} {line : Line}

theorem yields_onCurrent (f : DraftBlock → DraftBlock) :
    (onCurrent f).Yields (.within code before b after line) () (.within code before (f b) after line) := by
  have hentry : entryOr (before ++ b :: after) before.length (.blockOutOfRange before.length) = .ok b := by simp [entryOr]
  have hset : (before ++ b :: after).set before.length (f b) = before ++ f b :: after := by simp
  rw [Yields, onCurrent, run_bind]
  change StateT.run (ExceptT.run (liftExcept (entryOr (before ++ b :: after) before.length (.blockOutOfRange before.length)) >>= _)) _ = _
  rw [hentry]
  change (Except.ok (), (⟨code, (before ++ b :: after).set before.length (f b), before.length, line⟩ : Draft)) = _
  rw [hset]
  rfl

theorem yields_emit (op : Op) : (emit op).Yields (.within code before b after line) ()
    (.within code before { b with body := b.body ++ [⟨none, op, line⟩] } after line) :=
  yields_onCurrent _

theorem yields_emitValue (op : Op) (t : Descriptor) : (emitValue op t).Yields (.within code before b after line) code.values.length
    (.within (code.newValue t .instruction).2 before { b with body := b.body ++ [⟨some code.values.length, op, line⟩] } after line) := by
  let d : Draft := .within (code.newValue t .instruction).2 before b after line
  have hvalue : (newValue t .instruction).Yields (.within code before b after line) code.values.length d := rfl
  have hline : (get : Assembly Draft).Yields d d d := rfl
  exact hvalue.bind (hline.bind ((yields_onCurrent _).bind (yields_pure _ _)))

theorem yields_phi (t : Descriptor) (operands : List ValueId) : (phi t operands).Yields (.within code before b after line) code.values.length
    (.within (code.newValue t .phi).2 before { b with phis := b.phis ++ [⟨code.values.length, operands⟩] } after line) := by
  let d : Draft := .within (code.newValue t .phi).2 before b after line
  have hvalue : (newValue t .phi).Yields (.within code before b after line) code.values.length d := rfl
  exact hvalue.bind ((yields_onCurrent _).bind (yields_pure _ _))

theorem yields_terminate (t : Terminator) : (terminate t).Yields (.within code before b after line) ()
    (.within code before { b with terminator := some (t, line) } after line) :=
  yields_onCurrent _

theorem yields_newBlock {k : BlockId} (hk : before.length + 1 + after.length = k) : newBlock.Yields (.within code before b after line) k
    (.within code before b (after ++ [({} : DraftBlock)]) line) := by
  change (Except.ok (before ++ b :: after).length, (⟨code, (before ++ b :: after) ++ [({} : DraftBlock)], before.length, line⟩ : Draft)) = _
  simp only [Draft.within, List.length_append, List.length_cons, List.append_assoc, List.cons_append]
  congr 2
  omega

theorem yields_invoke_void {kind : InvokeKind} {m : MethodRef} (hvoid : m.proto.returnType.isVoid = true) (args : List ValueId) :
    (invoke kind m args).Yields (.within code before b after line) none
      (.within code before { b with body := b.body ++ [⟨none, .invoke kind m args (kind == .interface), line⟩] } after line) := by
  unfold invoke
  rw [if_pos hvoid]
  exact (yields_emit _).bind (yields_pure none _)

theorem yields_invoke {kind : InvokeKind} {m : MethodRef} (hvoid : m.proto.returnType.isVoid = false) (args : List ValueId) :
    (invoke kind m args).Yields (.within code before b after line) (some code.values.length)
      (.within (code.newValue m.proto.returnType .instruction).2 before
        { b with body := b.body ++ [⟨some code.values.length, .invoke kind m args (kind == .interface), line⟩] } after line) := by
  unfold invoke
  rw [if_neg (by simp [hvoid])]
  exact (yields_emitValue _ _).bind (yields_pure _ _)

/-- Go on in the next block. -/
theorem yields_switchTo {k : BlockId} (hk : before.length + 1 = k) : (switchTo k).Yields (.within code before b (b' :: after) line) ()
    (.within code (before ++ [b]) b' after line) := by
  subst hk
  change (Except.ok (), (⟨code, before ++ b :: b' :: after, before.length + 1, line⟩ : Draft)) = _
  simp [Draft.within]

end Assembly

/-! ### Finished blocks -/

/-- The finished block is the drafted one with its terminator. -/
def DraftBlock.Closes (b : DraftBlock) (block : Block) : Prop :=
  ∃ t line, b.terminator = some (t, line) ∧ block = ⟨b.phis, b.body, t, line, b.handlers⟩

theorem Draft.forall₂_closeBlocks {bs : List DraftBlock} {blocks : List Block} (h : closeBlocks bs = .ok blocks) :
    List.Forall₂ DraftBlock.Closes bs blocks := by
  have hforall := mapM_eq_ok_iff.1 h
  rw [List.forall₂_iff_get] at hforall ⊢
  obtain ⟨hlength, hforall⟩ := hforall
  rw [List.length_mapIdx] at hlength
  refine ⟨hlength, fun i hi hi' => ?_⟩
  have hclose := hforall i (by rwa [List.length_mapIdx]) hi'
  simp only [List.get_eq_getElem, List.getElem_mapIdx] at hclose ⊢
  split at hclose
  · next t line hterminator =>
    exact ⟨t, line, hterminator, (Except.ok.inj hclose).symm⟩
  · cases hclose

theorem Draft.exists_closeBlocks {bs : List DraftBlock} (h : ∀ b ∈ bs, b.terminator.isSome = true) : ∃ blocks, closeBlocks bs = .ok blocks := by
  refine (exists_mapM_eq_ok (P := fun _ _ => True) fun x hx => ?_).imp fun _ hblocks => hblocks.1
  obtain ⟨i, hi, rfl⟩ := List.mem_mapIdx.1 hx
  obtain ⟨⟨t, line⟩, hterminator⟩ := Option.isSome_iff_exists.1 (h _ (List.getElem_mem hi))
  refine ⟨⟨bs[i].phis, bs[i].body, t, line, bs[i].handlers⟩, ?_, trivial⟩
  dsimp only
  rw [hterminator]

theorem exists_block {bs : List DraftBlock} {blocks : List Block} (h : List.Forall₂ DraftBlock.Closes bs blocks) {i : Nat}
    {b : DraftBlock} (hb : bs[i]? = some b) {t : Terminator} {line : Line} (hterminator : b.terminator = some (t, line)) :
    blocks[i]? = some ⟨b.phis, b.body, t, line, b.handlers⟩ := by
  obtain ⟨hi, rfl⟩ := List.getElem?_eq_some_iff.1 hb
  have hi' : i < blocks.length := h.length_eq ▸ hi
  obtain ⟨t', line', hterminator', hblock⟩ := h.get hi hi'
  cases hterminator.symm.trans hterminator'
  rw [List.getElem?_eq_getElem hi']
  exact congrArg some hblock

/-- The blocks of a body that was put together are those of the last draft. -/
theorem Assembly.of_build {method : MethodRef} {isStatic : Bool} {steps : Assembly Unit} {c : Body} (h : build method isStatic steps = .ok c)
    {d : Draft} (hsteps : steps.Yields (Draft.start method isStatic) () d) :
    List.Forall₂ DraftBlock.Closes d.blocks c.blocks ∧ c.arguments = d.code.arguments := by
  obtain ⟨-, h⟩ := check_bind_eq_ok.1 h
  replace h : d.finish = .ok c := by
    rw [← h]
    exact congrArg (fun x : Except Fault Unit × Draft => x.2.finish) hsteps.symm
  obtain ⟨blocks, hblocks, h⟩ := bind_eq_ok.1 h
  obtain ⟨-, h⟩ := check_bind_eq_ok.1 h
  cases h
  exact ⟨Draft.forall₂_closeBlocks (Outcome.ofExcept_eq_ok.1 hblocks), rfl⟩

/-- The draft that becomes the body when it is finished. -/
def Draft.ofBody (c : Body) : Draft where
  code := { c with blocks := [] }
  blocks := c.blocks.map fun b => ⟨b.phis, b.body, some (b.terminator, b.terminatorLine), b.handlers⟩
  current := c.blocks.length - 1
  line := 0

theorem Draft.finish_ofBody {c : Body} (h : c.verify = .ok ()) : (Draft.ofBody c).finish = .ok c := by
  have hclose : closeBlocks (Draft.ofBody c).blocks = .ok c.blocks := by
    apply mapM_eq_ok_iff.2
    rw [List.forall₂_iff_get]
    refine ⟨by simp [ofBody], fun i hi hi' => ?_⟩
    simp [ofBody]
  rw [finish, hclose]
  change (do c.verify; return c) = _
  rw [h]
  rfl

/-- Steps that put a body together build it, if it is well formed. -/
theorem Assembly.build_eq_ok {method : MethodRef} {isStatic : Bool} {steps : Assembly Unit} {c : Body}
    (hsteps : steps.Yields (Draft.start method isStatic) () (Draft.ofBody c)) (h : c.verify = .ok ()) : build method isStatic steps = .ok c := by
  rw [← Draft.finish_ofBody h]
  exact congrArg (fun x : Except Fault Unit × Draft => (do Outcome.lift x.1; x.2.finish)) hsteps

/-! ### Bodies without loops -/

/-- The blocks are plain and go forward only, and the values are what the arguments and the instructions
    define. -/
structure Forward (code : Body) (blocks : List DraftBlock) : Prop where
  plain : ∀ b ∈ blocks, b.phis = [] ∧ b.handlers = []
  reads : ∀ b ∈ blocks, ∀ i ∈ b.body, ∀ v ∈ i.op.reads, v < code.values.length
  exits : ∀ (k : BlockId) (b : DraftBlock), blocks[k]? = some b → ∀ t line, b.terminator = some (t, line) →
    (∀ v ∈ t.reads, v < code.values.length) ∧ ∀ s ∈ t.successors k, k < s ∧ s < blocks.length
  defs : ∀ v, v < code.values.length ↔ v ∈ code.arguments ∨ v ∈ blocks.flatMap fun b => b.body.filterMap Instr.dest
  origins : ∀ x ∈ code.values, x.origin ≠ .unresolved

namespace Forward

variable {code : Body} {before after bs : List DraftBlock} {b b' : DraftBlock} {blocks : List Block}

theorem start (method : MethodRef) (isStatic : Bool) : Forward (Draft.start method isStatic).code [({} : DraftBlock)] where
  plain := by simp
  reads := by simp
  exits k b hb t line hterminator := by
    obtain ⟨-, rfl⟩ : k = 0 ∧ b = {} := by simpa [List.getElem?_singleton, eq_comm] using hb
    cases hterminator
  defs v := by simp [Draft.start, Body.empty, Body.withArguments]
  origins x hx := by
    obtain ⟨i, hi, rfl⟩ := List.mem_mapIdx.1 hx
    nofun

theorem mem_middle {x : DraftBlock} (h : x ∈ before ++ b' :: after) : x = b' ∨ x ∈ before ++ b :: after := by
  rcases List.mem_append.1 h with h | h
  · exact .inr (List.mem_append_left _ h)
  · rcases List.mem_cons.1 h with rfl | h
    · exact .inl rfl
    · exact .inr (List.mem_append_right _ (List.mem_cons_of_mem b h))

theorem getElem?_middle {k : Nat} {x : DraftBlock} (h : (before ++ b' :: after)[k]? = some x) :
    k = before.length ∧ x = b' ∨ (before ++ b :: after)[k]? = some x := by
  rcases Nat.lt_trichotomy k before.length with hlt | rfl | hgt
  · rw [List.getElem?_append_left hlt] at h ⊢
    exact .inr h
  · exact .inl ⟨rfl, by simpa using h.symm⟩
  · obtain ⟨j, rfl⟩ : ∃ j, k = before.length + (j + 1) := ⟨k - before.length - 1, by omega⟩
    rw [List.getElem?_append_right (by omega), Nat.add_sub_cancel_left, List.getElem?_cons_succ] at h ⊢
    exact .inr h

/-- More instructions in the current block, which define all values that are new. -/
theorem extend (h : Forward code (before ++ b :: after)) {more : List Value} {is : List Instr} {code' : Body}
    (harguments : code'.arguments = code.arguments) (hvalues : code'.values = code.values ++ more) (horigins : ∀ x ∈ more, x.origin ≠ .unresolved)
    (hreads : ∀ i ∈ is, ∀ v ∈ i.op.reads, v < code.values.length)
    (hdests : is.filterMap Instr.dest = List.range' code.values.length more.length) :
    Forward code' (before ++ { b with body := b.body ++ is } :: after) where
  plain x hx := by
    rcases mem_middle (b := b) hx with rfl | hx
    · exact h.plain b (by simp)
    · exact h.plain x hx
  reads x hx i hi v hv := by
    rw [hvalues, List.length_append]
    apply Nat.lt_add_right
    rcases mem_middle (b := b) hx with rfl | hx
    · rcases List.mem_append.1 hi with hi | hi
      · exact h.reads b (by simp) i hi v hv
      · exact hreads i hi v hv
    · exact h.reads x hx i hi v hv
  exits k x hx t line hterminator := by
    obtain ⟨y, hy, hsame⟩ : ∃ y, (before ++ b :: after)[k]? = some y ∧ y.terminator = x.terminator := by
      rcases getElem?_middle (b := b) hx with ⟨rfl, rfl⟩ | hx
      · exact ⟨b, by simp, rfl⟩
      · exact ⟨x, hx, rfl⟩
    obtain ⟨hreads, htargets⟩ := h.exits k y hy t line (hsame.trans hterminator)
    have hlength : (before ++ { b with body := b.body ++ is } :: after).length = (before ++ b :: after).length := by simp
    rw [hlength]
    refine ⟨fun v hv => ?_, htargets⟩
    rw [hvalues, List.length_append]
    exact Nat.lt_add_right _ (hreads v hv)
  defs v := by
    have hold := h.defs v
    have hnew : v ∈ is.filterMap Instr.dest ↔ code.values.length ≤ v ∧ v < code.values.length + more.length := by
      rw [hdests, List.mem_range'_1]
    simp only [List.flatMap_append, List.flatMap_cons, List.mem_append] at hold
    have hsplit : v < code.values.length + more.length ↔
        v < code.values.length ∨ code.values.length ≤ v ∧ v < code.values.length + more.length := by omega
    simp only [harguments, hvalues, List.length_append, List.flatMap_append, List.flatMap_cons, List.filterMap_append, List.mem_append, hnew]
    rw [hsplit, hold]
    grind
  origins x hx := by
    rw [hvalues] at hx
    rcases List.mem_append.1 hx with hx | hx
    · exact h.origins x hx
    · exact horigins x hx

theorem emit (h : Forward code (before ++ b :: after)) (op : Op) (hreads : ∀ v ∈ op.reads, v < code.values.length) (line : Line) :
    Forward code (before ++ { b with body := b.body ++ [⟨none, op, line⟩] } :: after) :=
  h.extend rfl (List.append_nil _).symm (by simp) (by simpa using hreads) rfl

theorem emitValue (h : Forward code (before ++ b :: after)) (op : Op) (hreads : ∀ v ∈ op.reads, v < code.values.length) (t : Descriptor)
    (line : Line) : Forward (code.newValue t .instruction).2 (before ++ { b with body := b.body ++ [⟨some code.values.length, op, line⟩] } :: after) :=
  have hvalues : (code.newValue t .instruction).2.values = code.values ++ [⟨t, .instruction⟩] := rfl
  h.extend rfl hvalues (by simp) (by simpa using hreads) rfl

theorem terminate (h : Forward code (before ++ b :: after)) {t : Terminator} (hreads : ∀ v ∈ t.reads, v < code.values.length)
    (htargets : ∀ s ∈ t.successors before.length, before.length < s ∧ s ≤ before.length + after.length) (line : Line) :
    Forward code (before ++ { b with terminator := some (t, line) } :: after) where
  plain x hx := by
    rcases mem_middle (b := b) hx with rfl | hx
    · exact h.plain b (by simp)
    · exact h.plain x hx
  reads x hx := by
    rcases mem_middle (b := b) hx with rfl | hx
    · exact h.reads b (by simp)
    · exact h.reads x hx
  exits k x hx t' line' hterminator := by
    have hlength : (before ++ { b with terminator := some (t, line) } :: after).length = before.length + (after.length + 1) := by simp
    rcases getElem?_middle (b := b) hx with ⟨rfl, rfl⟩ | hx
    · cases hterminator
      refine ⟨hreads, fun s hs => ?_⟩
      rw [hlength]
      exact ⟨(htargets s hs).1, Nat.lt_succ_of_le (htargets s hs).2⟩
    · have := h.exits k x hx t' line' hterminator
      simpa using this
  defs v := by simpa using h.defs v
  origins := h.origins

theorem newBlock (h : Forward code bs) : Forward code (bs ++ [({} : DraftBlock)]) where
  plain x hx := by
    rcases List.mem_append.1 hx with hx | hx
    · exact h.plain x hx
    · cases List.mem_singleton.1 hx
      exact ⟨rfl, rfl⟩
  reads x hx := by
    rcases List.mem_append.1 hx with hx | hx
    · exact h.reads x hx
    · cases List.mem_singleton.1 hx
      simp
  exits k x hx t line hterminator := by
    rcases Nat.lt_or_ge k bs.length with hlt | hge
    · rw [List.getElem?_append_left hlt] at hx
      obtain ⟨hreads, htargets⟩ := h.exits k x hx t line hterminator
      refine ⟨hreads, fun s hs => ⟨(htargets s hs).1, ?_⟩⟩
      rw [List.length_append]
      exact Nat.lt_add_right _ (htargets s hs).2
    · rw [List.getElem?_append_right hge] at hx
      cases List.mem_singleton.1 (List.mem_of_getElem? hx)
      cases hterminator
  defs v := by simpa using h.defs v
  origins := h.origins

/-- **A body of such blocks is well formed.** -/
theorem wellFormed (h : Forward code bs) (hclosed : List.Forall₂ DraftBlock.Closes bs blocks) :
    ({ code with blocks := blocks } : Body).WellFormed := by
  have hblock {k : BlockId} {block : Block} (hk : blocks[k]? = some block) :
      ∃ b ∈ bs, block.phis = [] ∧ block.handlers = [] ∧ block.body = b.body ∧ (∀ v ∈ block.terminator.reads, v < code.values.length) ∧
        ∀ s ∈ block.terminator.successors k, k < s ∧ s < blocks.length := by
    obtain ⟨b, hb, t, line, hterminator, rfl⟩ := exists_of_getElem?_right hclosed hk
    have hmem := List.mem_of_getElem? hb
    refine ⟨b, hmem, (h.plain b hmem).1, (h.plain b hmem).2, rfl, ?_⟩
    rw [← hclosed.length_eq]
    exact h.exits k b hb t line hterminator
  have hreads : ∀ v ∈ ({ code with blocks := blocks } : Body).reads, v < code.values.length := by
    intro v hv
    obtain ⟨block, hmem, hv⟩ := List.mem_flatMap.1 hv
    obtain ⟨k, hk⟩ := List.getElem?_of_mem hmem
    obtain ⟨b, hb, hphis, -, hbody, hterminator, -⟩ := hblock hk
    rw [Block.reads, hphis, hbody] at hv
    rcases List.mem_append.1 hv with hv | hv
    · obtain ⟨i, hi, hv⟩ := List.mem_flatMap.1 hv
      exact h.reads b hb i hi v hv
    · exact hterminator v hv
  have hdefs (v : ValueId) : v ∈ ({ code with blocks := blocks } : Body).defs ↔ v < code.values.length := by
    rw [h.defs, Body.defs, List.mem_append, List.mem_flatMap, List.mem_flatMap]
    apply or_congr_right
    constructor
    · rintro ⟨block, hmem, hv⟩
      obtain ⟨k, hk⟩ := List.getElem?_of_mem hmem
      obtain ⟨b, hb, hphis, -, hbody, -⟩ := hblock hk
      exact ⟨b, hb, by simpa [Block.defs, hphis, hbody] using hv⟩
    · rintro ⟨b, hb, hv⟩
      obtain ⟨block, hmem, t, line, -, rfl⟩ := exists_of_mem_left hclosed hb
      exact ⟨_, hmem, List.mem_append_right _ hv⟩
  refine ⟨?_, ?_, ?_, fun v hv => (hdefs v).1 hv, hreads, fun v hv => (hdefs v).2 (hreads v hv), ?_⟩
  · intro k block hk s hs
    obtain ⟨-, -, -, hhandlers, -, -, htargets⟩ := hblock hk
    rw [Block.targets, hhandlers, List.map_nil, List.append_nil] at hs
    exact (htargets s hs).2
  · apply List.eq_nil_iff_forall_not_mem.2
    intro p hp
    obtain ⟨hlt, hp⟩ := Body.mem_predecessorsOf.1 hp
    have hget : blocks[p]? = some blocks[p] := List.getElem?_eq_getElem hlt
    obtain ⟨-, -, -, hhandlers, -, -, htargets⟩ := hblock hget
    rw [Body.mem_successors hget, Block.targets, hhandlers, List.map_nil, List.append_nil] at hp
    exact absurd (htargets 0 hp).1 (Nat.not_lt_zero p)
  · intro k block hk phi hphi
    obtain ⟨-, -, hphis, -⟩ := hblock hk
    rw [hphis] at hphi
    cases hphi
  · intro v _ x hx
    exact h.origins x (List.mem_of_getElem? hx)

end Forward

/-- **Steps that leave such blocks behind build a body.** -/
theorem Assembly.exists_build {method : MethodRef} {isStatic : Bool} {steps : Assembly Unit} {d : Draft}
    (hsteps : steps.Yields (Draft.start method isStatic) () d) (hforward : Forward d.code d.blocks)
    (hclosed : ∀ b ∈ d.blocks, b.terminator.isSome = true) :
    ∃ c, build method isStatic steps = .ok c ∧ List.Forall₂ DraftBlock.Closes d.blocks c.blocks ∧ c.arguments = d.code.arguments := by
  obtain ⟨blocks, hblocks⟩ := Draft.exists_closeBlocks hclosed
  have hforall := Draft.forall₂_closeBlocks hblocks
  have hfinish : d.finish = .ok { d.code with blocks := blocks } := by
    rw [Draft.finish, hblocks, Outcome.ofExcept, ok_bind]
    dsimp only
    rw [Body.verify_eq_ok_iff.2 (hforward.wellFormed hforall)]
    rfl
  refine ⟨{ d.code with blocks := blocks }, ?_, hforall, rfl⟩
  rw [← hfinish]
  exact congrArg (fun x : Except Fault Unit × Draft => (do Outcome.lift x.1; x.2.finish)) hsteps

end DexShrinker
