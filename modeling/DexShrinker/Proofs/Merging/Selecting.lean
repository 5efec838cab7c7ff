/-
  DexShrinker/Proofs/Merging/Selecting.lean
  =========================================
  **Which helper a dispatching initializer calls.**

  The tests of a dispatching initializer are laid out one after the other: a block that
  compares the class id with the number of a helper, the block that calls the helper, and the
  block of the next test, which the first one branches to. The branch falls through to the
  block made right after its own, so a run that has the number of a helper goes past all tests
  before it and calls that helper only (`exists_dispatch`). It has stored the class id before
  (`runs_of_build`).
-/
import DexShrinker.Merging.Initializers
import DexShrinker.Proofs.Body.Assembly
import Mathlib.Data.List.Nodup

namespace DexShrinker

namespace InitMerge

open Assembly

variable {answers : Answers} {code : Body} {before after : List DraftBlock} {b : DraftBlock} {line : Line}

/-! ### One call -/

/-- The block ends with a call of the helper. -/
def calling (b : DraftBlock) (dest : Option ValueId) (helper : MethodRef) (args : List ValueId) (line : Line) : DraftBlock :=
  { b with body := b.body ++ [⟨dest, .invoke .direct helper args false, line⟩], terminator := some (.ret none, line) }

theorem exists_callHelper (code : Body) (before : List DraftBlock) (b : DraftBlock) (after : List DraftBlock) (line : Line)
    (receiver : ValueId) (parameters : List ValueId) (helper : MethodRef) :
    ∃ code' dest, (callHelper receiver parameters helper).Yields (.within code before b after line) ()
        (.within code' before (calling b dest helper (receiver :: parameters.take helper.proto.arity) line) after line) ∧
      code'.arguments = code.arguments ∧ code.values.length ≤ code'.values.length := by
  unfold callHelper invoke
  simp only
  split
  · refine ⟨code, none, ?_, rfl, Nat.le_refl _⟩
    exact Yields.bind ((yields_emit _).bind (yields_pure none _)) (yields_terminate _)
  · refine ⟨(code.newValue helper.proto.returnType .instruction).2, some code.values.length, ?_, rfl, ?_⟩
    · exact Yields.bind ((yields_emitValue _ _).bind (yields_pure (some _) _)) (yields_terminate _)
    · simp [Body.newValue]

/-- A run that comes through the block calls the helper and returns. -/
theorem runsFrom_calling {c : Body} {bs : List DraftBlock} (hclosed : List.Forall₂ DraftBlock.Closes bs c.blocks) {i : BlockId}
    {dest : Option ValueId} {helper : MethodRef} {args : List ValueId} (hb : bs[i]? = some (calling b dest helper args line))
    (hphis : b.phis = []) {env₀ env : Env} {events : List Event} (hbody : Instr.executeAll answers b.body env₀ = some (env, events))
    {data : List Datum} (hdata : args.mapM env = some data) :
    c.RunsFrom answers i env₀ (events ++ [.call .direct helper data]) := by
  exact .returns (exists_block hclosed hb rfl) hphis (Instr.executeAll_append hbody (Instr.executeAll_invoke hdata)) rfl

/-! ### One test after the other -/

/-- A run that has come from block `start` through `body` calls the helper whose number is the
    class id, and does nothing else. -/
def Selects (c : Body) (start : BlockId) (body : List Instr) (receiver classId : ValueId) (parameters : List ValueId)
    (helpers : List (Nat × MethodRef)) : Prop :=
  ∀ answers env₀ env events, Instr.executeAll answers body env₀ = some (env, events) →
    ∀ id helper data, (id, helper) ∈ helpers → env classId = some (.int (.ofNat id)) →
      (receiver :: parameters.take helper.proto.arity).mapM env = some data →
        c.RunsFrom answers start env₀ (events ++ [.call .direct helper data])

/-- **The tests select the helper.** -/
theorem exists_dispatch (line : Line) {receiver classId : ValueId} {parameters : List ValueId} {helpers : List (Nat × MethodRef)} (hne : helpers ≠ [])
    (hids : (helpers.map fun x => Int32.ofNat x.1).Nodup) (code : Body) (hclassId : classId < code.values.length)
    (hvalues : ∀ v ∈ receiver :: parameters, v < code.values.length) (before : List DraftBlock) (b : DraftBlock) (hphis : b.phis = []) :
    ∃ code' blocks current, (dispatch receiver classId parameters helpers).Yields (.within code before b [] line) ()
        ⟨code', before ++ blocks, current, line⟩ ∧ code'.arguments = code.arguments ∧
      ∀ c : Body, List.Forall₂ DraftBlock.Closes (before ++ blocks) c.blocks →
        Selects c before.length b.body receiver classId parameters helpers := by
  induction helpers generalizing code before b with
  | nil => exact absurd rfl hne
  | cons x rest ih =>
    cases rest with
    | nil =>
      obtain ⟨code', dest, hcall, harguments, -⟩ := exists_callHelper code before b [] line receiver parameters x.2
      refine ⟨code', _, _, hcall, harguments, ?_⟩
      intro c hclosed answers env₀ env events hbody id helper data hmem _ hdata
      cases List.mem_singleton.1 hmem
      exact runsFrom_calling hclosed List.getElem?_concat_length hphis hbody hdata
    | cons y rest =>
      -- The test, the block of its helper, and all that follows.
      let v := code.values.length
      let code₁ := (code.newValue .int .instruction).2
      let test : DraftBlock := { b with
        body := b.body ++ [⟨some v, .constInt (.ofNat x.1), line⟩]
        terminator := some (.branch .ne .int classId (some v) (before.length + 2), line) }
      obtain ⟨code₂, dest, hcall, harguments, hmore⟩ := exists_callHelper code₁ (before ++ [test]) {} [{}] line receiver parameters x.2
      replace hmore : v + 1 ≤ code₂.values.length := by simpa [code₁, v, Body.newValue] using hmore
      have hv (w : ValueId) (hw : w < v) : w < code₂.values.length := Nat.lt_of_lt_of_le (Nat.lt_succ_of_lt hw) hmore
      let called := calling {} dest x.2 (receiver :: parameters.take x.2.proto.arity) line
      obtain ⟨code', blocks, current, hrest, harguments', hselects⟩ := ih (by simp) (List.nodup_cons.1 hids).2 code₂ (hv _ hclassId)
        (fun w hw => hv w (hvalues w hw)) (before ++ [test] ++ [called]) {} rfl
      refine ⟨code', test :: called :: blocks, current, ?_, harguments'.trans harguments, ?_⟩
      · have hnext : (switchTo (before.length + 2)).Yields (.within code₂ (before ++ [test]) called [{}] line) ()
            (.within code₂ (before ++ [test] ++ [called]) {} [] line) := by
          exact yields_switchTo (by simp)
        have hlayout : before ++ [test] ++ [called] ++ blocks = before ++ test :: called :: blocks := by simp
        rw [hlayout] at hrest
        refine (yields_emitValue _ _).bind ((yields_newBlock rfl).bind ((yields_newBlock rfl).bind ((yields_terminate _).bind ?_)))
        exact (yields_switchTo rfl).bind (hcall.bind (hnext.bind hrest))
      · intro c hclosed answers env₀ env events hbody id helper data hmem hid hdata
        let env' := env.define v (.int (.ofNat x.1))
        have htest : Instr.executeAll answers test.body env₀ = some (env', events) := by
          have hconst : Instr.executeAll answers [⟨some v, .constInt (.ofNat x.1), line⟩] env = some (env', []) := rfl
          rw [← List.append_nil events]
          exact Instr.executeAll_append hbody hconst
        have hblock := exists_block hclosed (i := before.length) (b := test) (by simp) rfl
        have hid' : env' classId = some (.int (.ofNat id)) := (env.define_of_lt _ hclassId).trans hid
        have hdata' : (receiver :: parameters.take helper.proto.arity).mapM env' = some data := by
          rw [Env.mapM_define, hdata]
          intro w hw
          apply hvalues
          rcases List.mem_cons.1 hw with rfl | hw
          · exact List.mem_cons_self
          · exact List.mem_cons_of_mem _ (List.mem_of_mem_take hw)
        have hself : env' v = some (.int (.ofNat x.1)) := env.define_self v _
        let next := Terminator.branch .ne .int classId (some v) (before.length + 2)
        rcases List.mem_cons.1 hmem with rfl | hmem
        · have hnext : next.next? before.length env' = some (some (before.length + 1)) := by
            simp [next, Terminator.next?, hid', hself, Comparison.holds]
          have hcalled : (before ++ test :: called :: blocks)[before.length + 1]? = some called := by simp
          exact .goes hblock hphis htest hnext (runsFrom_calling hclosed hcalled rfl rfl hdata')
        · have hne : Int32.ofNat id ≠ Int32.ofNat x.1 := by
            intro heq
            exact (List.nodup_cons.1 hids).1 (List.mem_map.2 ⟨(id, helper), hmem, heq⟩)
          have hnext : next.next? before.length env' = some (some (before.length + 2)) := by
            simp [next, Terminator.next?, hid', hself, Comparison.holds, hne]
          have hrun := hselects c (by simpa using hclosed) answers env' env' [] rfl id helper data hmem hid' hdata'
          rw [show (before ++ [test] ++ [called]).length = before.length + 2 by simp] at hrun
          exact .goes hblock hphis htest hnext hrun

/-! ### From the arguments on -/

theorem mapM_eq_some {α β : Type} {f : α → Option β} {xs : List α} {ys : List β} (hlength : xs.length = ys.length)
    (h : ∀ (i : Nat) (x : α), xs[i]? = some x → f x = ys[i]?) : xs.mapM f = some ys := by
  induction xs generalizing ys with
  | nil => rw [List.eq_nil_of_length_eq_zero hlength.symm]; rfl
  | cons x xs ih =>
    cases ys with
    | nil => cases hlength
    | cons y ys =>
      have hx : f x = some y := h 0 x rfl
      rw [List.mapM_cons, hx, ih (Nat.succ.inj hlength) fun i x' hx' => h (i + 1) x' hx']
      rfl

theorem lookup_zip_range' (data : List Datum) (s v : Nat) :
    ((List.range' s data.length).zip data).lookup v = if v < s then none else data[v - s]? := by
  induction data generalizing s with
  | nil => simp
  | cons x data ih =>
    rw [List.length_cons, List.range'_succ, List.zip_cons_cons, List.lookup_cons, ih]
    by_cases heq : v = s
    · simp [heq]
    · have hbeq : (v == s) = false := by simpa using heq
      rw [hbeq]
      by_cases hlt : v < s
      · dsimp only
        rw [if_pos hlt, if_pos (Nat.lt_succ_of_lt hlt)]
      · obtain ⟨k, rfl⟩ : ∃ k, v = s + 1 + k := ⟨v - s - 1, by omega⟩
        dsimp only
        rw [if_neg hlt, if_neg (by omega), Nat.add_sub_cancel_left, show s + 1 + k - s = k + 1 by omega, List.getElem?_cons_succ]

theorem ofArguments_range (data : List Datum) (v : ValueId) : Env.ofArguments (List.range data.length) data v = data[v]? := by
  rw [Env.ofArguments, List.range_eq_range', lookup_zip_range']
  simp

/-- How many parameters the dispatching initializer passes on at most. -/
def ownArity (method : MethodRef) (passesId : Bool) : Nat := if passesId then method.proto.arity - 2 else method.proto.arity

/-- The class id is an argument, or a constant if callers do not pass it. -/
def classIdSteps (method : MethodRef) (helpers : List (Nat × MethodRef)) (passesId : Bool) : Assembly ValueId :=
  if passesId then argument (ownArity method passesId + 2) else constInt (.ofNat ((helpers.head?.map Prod.fst).getD 0))

theorem dispatchSteps_eq (method : MethodRef) (classIdField : FieldRef) (helpers : List (Nat × MethodRef)) (passesId : Bool) :
    dispatchSteps method classIdField helpers passesId =
      (argument 0 >>= fun receiver => ((List.range (ownArity method passesId)).mapM fun i => argument (i + 1)) >>= fun parameters =>
        classIdSteps method helpers passesId >>= fun classId =>
          instancePut classIdField receiver classId >>= fun _ => dispatch receiver classId parameters helpers) := by
  cases passesId <;> rfl

section

variable {method : MethodRef} {classIdField : FieldRef} {helpers : List (Nat × MethodRef)} {passesId : Bool} {id : Nat} {this : Datum}
  {args extra : List Datum}

theorem arguments_start (method : MethodRef) : (Draft.start method false).code.arguments = List.range (method.proto.arity + 1) ∧
    (Draft.start method false).code.values.length = method.proto.arity + 1 := by
  constructor <;> simp [Draft.start, Body.empty, Body.withArguments, MethodRef.argumentTypes, Prototype.arity]

theorem yields_argument_start {i : Nat} (hi : i ≤ method.proto.arity) :
    (argument i).Yields (Draft.start method false) i (Draft.start method false) := by
  apply yields_argument
  rw [(arguments_start method).1, List.getElem?_range (Nat.lt_succ_of_le hi)]

/-- What callers pass: the old arguments, then padding, and the class id in the last place if the
    dispatching initializer takes it. -/
structure Passed (method : MethodRef) (helpers : List (Nat × MethodRef)) (passesId : Bool) (id : Nat) (args extra : List Datum) : Prop where
  arity : (args ++ extra).length = method.proto.arity
  classId : if passesId then ∃ padding, extra = padding ++ [.null, .int (.ofNat id)] else helpers.head?.map Prod.fst = some id

theorem Passed.length_le (h : Passed method helpers passesId id args extra) :
    args.length ≤ ownArity method passesId ∧ ownArity method passesId ≤ method.proto.arity := by
  have harity := h.arity
  have hid := h.classId
  rw [List.length_append] at harity
  unfold ownArity
  split
  · next hpasses =>
    rw [if_pos hpasses] at hid
    obtain ⟨padding, rfl⟩ := hid
    rw [List.length_append, List.length_cons, List.length_singleton] at harity
    omega
  · omega

/-- The class id is there after the instructions `is`, and so are the arguments. -/
structure Entry (method : MethodRef) (helpers : List (Nat × MethodRef)) (passesId : Bool) (id : Nat) (data : List Datum)
    (classId : ValueId) (code : Body) (is : List Instr) : Prop where
  steps : (classIdSteps method helpers passesId).Yields (Draft.start method false) classId (.within code [] { body := is } [] 0)
  arguments : code.arguments = List.range data.length
  values : data.length ≤ code.values.length
  classId_lt : classId < code.values.length
  runs : ∀ answers, ∃ env, Instr.executeAll answers is (.ofArguments (List.range data.length) data) = some (env, []) ∧
    (∀ v < data.length, env v = data[v]?) ∧ env classId = some (.int (.ofNat id))

/-- **The class id is the one that was meant.** -/
theorem exists_entry (h : Passed method helpers passesId id args extra) (this : Datum) :
    ∃ classId code is, Entry method helpers passesId id (this :: (args ++ extra)) classId code is := by
  have hlength : (this :: (args ++ extra)).length = method.proto.arity + 1 := congrArg (· + 1) h.arity
  obtain ⟨harguments, hvalues⟩ := arguments_start method
  rw [← hlength] at harguments hvalues
  cases passesId with
  | true =>
    obtain ⟨padding, rfl⟩ : ∃ padding, extra = padding ++ [Datum.null, Datum.int (.ofNat id)] := h.classId
    have harity := h.arity
    have hlast : ownArity method true + 2 = method.proto.arity := by
      rw [← List.append_assoc, List.length_append] at harity
      change method.proto.arity - 2 + 2 = method.proto.arity
      rw [← harity]
      rfl
    refine ⟨ownArity method true + 2, (Draft.start method false).code, [], yields_argument_start (Nat.le_of_eq hlast), harguments,
      Nat.le_of_eq hvalues.symm, ?_, fun _ => ⟨_, rfl, fun v _ => ofArguments_range _ v, ?_⟩⟩
    · rw [hvalues, hlength, hlast]
      exact Nat.lt_succ_self _
    · rw [ofArguments_range, hlast, ← harity]
      simp [← List.append_assoc]
  | false =>
    have hid : helpers.head?.map Prod.fst = some id := h.classId
    let v := (Draft.start method false).code.values.length
    refine ⟨v, ((Draft.start method false).code.newValue .int .instruction).2, [⟨some v, .constInt (.ofNat id), 0⟩], ?_, harguments, ?_, ?_,
      fun _ => ⟨_, rfl, fun w hw => ?_, Env.define_self _ _ _⟩⟩
    · have hconst : (constInt (.ofNat id)).Yields (.within (Draft.start method false).code [] {} [] 0) v _ := yields_emitValue _ _
      change Yields (constInt (.ofNat ((helpers.head?.map Prod.fst).getD 0))) _ _ _
      rw [hid]
      exact hconst
    · simp [Body.newValue, hvalues]
    · simp [Body.newValue, v]
    · rw [← hvalues] at hw
      exact (Env.define_of_lt _ _ hw).trans (ofArguments_range _ w)

/-- The first parameters are the old arguments. -/
theorem mapM_parameters {env : Env} (hold : ∀ v < (this :: (args ++ extra)).length, env v = (this :: (args ++ extra))[v]?) {arity : Nat}
    (hle : args.length ≤ arity) : (0 :: ((List.range arity).map (· + 1)).take args.length).mapM env = some (this :: args) := by
  have hlt (i : Nat) (hi : i ≤ args.length) : i < (this :: (args ++ extra)).length := by
    rw [List.length_cons, List.length_append]
    omega
  apply mapM_eq_some
  · simp
    omega
  · intro i v hv
    cases i with
    | zero =>
      cases hv
      exact hold 0 (hlt 0 (Nat.zero_le _))
    | succ i =>
      obtain ⟨hi, hget⟩ := List.getElem?_eq_some_iff.1 hv
      obtain rfl : i + 1 = v := by simpa using hget
      replace hi : i < args.length := by
        simp at hi
        omega
      rw [hold (i + 1) (hlt _ hi)]
      exact List.getElem?_append_left hi

/-- **What a dispatching initializer does.** -/
theorem runs_of_build {body : Body} (hbuild : Assembly.build method false (dispatchSteps method classIdField helpers passesId) = .ok body)
    (hids : (helpers.map fun x => Int32.ofNat x.1).Nodup) {helper : MethodRef} (hmem : (id, helper) ∈ helpers)
    (hargs : args.length = helper.proto.arity) (hpassed : Passed method helpers passesId id args extra) :
    body.Runs answers (this :: args ++ extra) [.put classIdField this (.int (.ofNat id)), .call .direct helper (this :: args)] := by
  obtain ⟨hle, hle'⟩ := hpassed.length_le
  obtain ⟨classId, code, is, hentry⟩ := exists_entry hpassed this
  have hlength : (this :: (args ++ extra)).length = method.proto.arity + 1 := congrArg (· + 1) hpassed.arity
  have hmore := hentry.values
  rw [hlength] at hmore
  let parameters := (List.range (ownArity method passesId)).map (· + 1)
  have hparameters : ((List.range (ownArity method passesId)).mapM fun i => argument (i + 1)).Yields (Draft.start method false) parameters
      (Draft.start method false) := by
    apply yields_mapM
    intro i hi
    rw [List.mem_range] at hi
    exact yields_argument_start (by omega)
  have hthere : ∀ v ∈ 0 :: parameters, v < code.values.length := by
    intro v hv
    rcases List.mem_cons.1 hv with rfl | hv
    · omega
    · obtain ⟨i, hi, rfl⟩ := List.mem_map.1 hv
      rw [List.mem_range] at hi
      omega
  obtain ⟨code', blocks, current, hdispatch, hcode', hselects⟩ := exists_dispatch 0 (List.ne_nil_of_mem hmem) hids code hentry.classId_lt
    hthere [] { body := is ++ [⟨none, .instancePut classIdField 0 classId, 0⟩] } rfl
  have hsteps : (dispatchSteps method classIdField helpers passesId).Yields (Draft.start method false) () ⟨code', blocks, current, 0⟩ := by
    rw [dispatchSteps_eq]
    exact (yields_argument_start (Nat.zero_le _)).bind (hparameters.bind (hentry.steps.bind ((yields_emit _).bind hdispatch)))
  obtain ⟨hclosed, hbody⟩ := of_build hbuild hsteps
  replace hbody : body.arguments = List.range (this :: (args ++ extra)).length := hbody.trans (hcode'.trans hentry.arguments)
  obtain ⟨env, hexecute, hold, hvalue⟩ := hentry.runs answers
  have hthis : env 0 = some this := hold 0 (by omega)
  have hput : Instr.executeAll answers [⟨none, .instancePut classIdField 0 classId, 0⟩] env =
      some (env, [.put classIdField this (.int (.ofNat id))]) := by
    simp [Instr.executeAll, Instr.execute, hthis, hvalue]
  refine ⟨by rw [hbody, List.length_range]; rfl, ?_⟩
  rw [hbody]
  refine hselects body hclosed answers _ env _ (Instr.executeAll_append hexecute hput) id helper (this :: args) hmem hvalue ?_
  rw [← hargs]
  exact mapM_parameters hold hle

end

end InitMerge

end DexShrinker
