/-
  DexShrinker/Proofs/Updating/Passing.lean
  ========================================
  **What a call passes on.**

  Where only parameters were added, a call passes its old arguments, and for each new
  parameter a constant that it makes right before. The constants are new values, so they
  leave the old arguments alone, and the call that is brought up to date makes one call
  with the old data and that of the new parameters (`exists_call`).
-/
import DexShrinker.Proofs.Body.Execution
import DexShrinker.Proofs.Outcome
import DexShrinker.Updating.Body

namespace DexShrinker

/-- What calls pass for an added parameter. -/
def ExtraParameter.datum : ExtraParameter → Datum
  | unusedNull _ => .null
  | constantInt n => .int n

namespace Update

variable {u : Update} {context m ref : MethodRef} {kind kind' : InvokeKind} {extra : List ExtraParameter}

/-- If no argument changes, all are passed. -/
theorem keptArguments_eq {changes : ProtoChanges} (h : changes.arguments.isEmpty = true) (args : List ValueId) :
    keptArguments changes args = args := by
  have hnone (i : Nat) : changes.argumentAt? i = none := Std.TreeMap.getElem?_of_isEmpty h
  simp only [keptArguments, hnone]
  rw [show (fun x : Nat × ValueId => some x.2) = some ∘ Prod.snd from rfl, List.filterMap_eq_map]
  exact List.ext_getElem (by simp) fun i _ _ => by simp

/-- The values for the added parameters are new. -/
theorem run_fresh (extra : List ExtraParameter) (values : List Value) :
    (extra.mapM fun e => return (← WithValues.fresh e.type .instruction, e) : WithValues (List (ValueId × ExtraParameter))).run values =
      .ok ((List.range' values.length extra.length).zip extra, values ++ extra.map fun e => ⟨e.type, .instruction⟩) := by
  induction extra generalizing values with
  | nil =>
    rw [List.map_nil, List.append_nil]
    rfl
  | cons e extra ih =>
    have hstep : (do return (← WithValues.fresh e.type .instruction, e) : WithValues (ValueId × ExtraParameter)).run values =
        .ok ((values.length, e), values ++ [⟨e.type, .instruction⟩]) := rfl
    rw [List.mapM_cons, StateT.run_bind, hstep, ok_bind, StateT.run_bind]
    dsimp only
    rw [ih, ok_bind, List.length_append, List.length_singleton, List.append_assoc, List.length_cons, List.range'_succ]
    rfl

/-- Making the constants leaves the values before them alone. -/
theorem executeAll_constants (answers : Answers) (extra : List ExtraParameter) (n : ValueId) (line : Line) (env : Env) :
    let xs := (List.range' n extra.length).zip extra
    ∃ env', Instr.executeAll answers (xs.map fun x => ⟨some x.1, extraOp x.2, line⟩) env = some (env', []) ∧ (∀ w < n, env' w = env w) ∧
      (xs.map Prod.fst).mapM env' = some (extra.map ExtraParameter.datum) := by
  induction extra generalizing n env with
  | nil => exact ⟨env, rfl, fun _ _ => rfl, rfl⟩
  | cons e extra ih =>
    have hfirst : Instr.execute answers ⟨some n, extraOp e, line⟩ env = some (env.define n e.datum, []) := by cases e <;> rfl
    obtain ⟨env', hrest, hold, hdata⟩ := ih (n + 1) (env.define n e.datum)
    refine ⟨env', ?_, ?_, ?_⟩
    · exact Instr.executeAll_cons hfirst hrest
    · intro w hw
      rw [hold w (Nat.lt_succ_of_lt hw), env.define_of_lt _ hw]
    · have hself : env' n = some e.datum := by rw [hold n (Nat.lt_succ_self n), env.define_self]
      simp only [List.length_cons, List.range'_succ, List.zip_cons_cons, List.map_cons, List.mapM_cons, hself, hdata]
      rfl

/-- **A call to which only parameters were added is one call that passes them.** -/
theorem exists_call (hmethod : u.method context m kind = .ok ⟨ref, kind', { extra := extra }⟩) (dest : Option ValueId)
    {args : List ValueId} (itf : Bool) (line : Line) {values : List Value} (hargs : ∀ w ∈ args, w < values.length) :
    ∃ call values', (u.instr context ⟨dest, .invoke kind m args itf, line⟩).run values = .ok (call, values') ∧
      ∀ answers env data, args.mapM env = some data →
        ∃ env', Instr.executeAll answers call env = some (env', [.call kind' ref (data ++ extra.map ExtraParameter.datum)]) := by
  have hrun : (liftM (u.method context m kind) : WithValues MethodLookup) = pure ⟨ref, kind', { extra := extra }⟩ := by
    rw [hmethod]
    rfl
  let xs := (List.range' values.length extra.length).zip extra
  let constants := xs.map fun x => (⟨some x.1, extraOp x.2, line⟩ : Instr)
  let call : Instr := ⟨if ref.proto.returnType.isVoid then none else dest,
    .invoke kind' ref (args ++ xs.map Prod.fst) (if kind' = kind then itf else kind' = .interface), line⟩
  refine ⟨constants ++ [call], values ++ extra.map fun e => ⟨e.type, .instruction⟩, ?_, ?_⟩
  · simp only [instr, invoke, hrun, pure_bind, StateT.run_bind, run_fresh, ok_bind]
    rw [keptArguments_eq rfl]
    rfl
  · intro answers env data hdata
    obtain ⟨env', hconstants, hold, hextra⟩ := executeAll_constants answers extra values.length line env
    have hall : (args ++ xs.map Prod.fst).mapM env' = some (data ++ extra.map ExtraParameter.datum) := by
      rw [List.mapM_append, mapM_congr fun w hw => hold w (hargs w hw), hdata, hextra]
      rfl
    exact ⟨_, Instr.executeAll_append hconstants (Instr.executeAll_invoke hall)⟩

end Update

end DexShrinker
