/-
  DexShrinker/Proofs/Body/Execution.lean
  ======================================
  **What a body does when it runs.**

  A run is seen through its stores and its calls, in order. Constants, stores to instance
  fields, calls and branches on numbers have a meaning here, which is all that bodies
  need that are put together rather than read; every other operation stops a run. What a
  call returns is not fixed: it is an argument of the run.

  A body has at most one run on given arguments (`Body.RunsFrom.unique`).
-/
import DexShrinker.Body.Basic

namespace DexShrinker

/-- A value at run time. -/
inductive Datum where
  | null
  | int (value : Int32)
  | object (address : Nat)
deriving DecidableEq

/-- What a run does that others can see. -/
inductive Event where
  | put (field : FieldRef) (object value : Datum)
  | call (kind : InvokeKind) (method : MethodRef) (args : List Datum)
deriving DecidableEq

/-- The values of a body as far as a run has come. -/
abbrev Env := ValueId → Option Datum

theorem mapM_congr {α β : Type} {f f' : α → Option β} {xs : List α} (h : ∀ x ∈ xs, f x = f' x) : xs.mapM f = xs.mapM f' := by
  induction xs with
  | nil => rfl
  | cons x xs ih =>
    rw [List.forall_mem_cons] at h
    rw [List.mapM_cons, List.mapM_cons, h.1, ih h.2]

theorem length_of_mapM {α β : Type} {f : α → Option β} {xs : List α} {ys : List β} (h : xs.mapM f = some ys) : ys.length = xs.length := by
  induction xs generalizing ys with
  | nil =>
    cases h
    rfl
  | cons x xs ih =>
    rw [List.mapM_cons] at h
    obtain ⟨y, -, h⟩ := Option.bind_eq_some_iff.1 h
    obtain ⟨ys', hys, h⟩ := Option.bind_eq_some_iff.1 h
    cases h
    rw [List.length_cons, List.length_cons, ih hys]

namespace Env

/-- Define a value. -/
def define (env : Env) (v : ValueId) (x : Datum) : Env := fun w => if w = v then some x else env w

theorem define_self (env : Env) (v : ValueId) (x : Datum) : env.define v x v = some x := if_pos rfl

theorem define_of_lt (env : Env) {v w : ValueId} (x : Datum) (h : w < v) : env.define v x w = env w := if_neg (Nat.ne_of_lt h)

theorem mapM_define {vs : List ValueId} {v : ValueId} (h : ∀ w ∈ vs, w < v) (env : Env) (x : Datum) :
    vs.mapM (env.define v x) = vs.mapM env :=
  mapM_congr fun w hw => env.define_of_lt x (h w hw)

/-- The values of arguments. -/
def ofArguments (arguments : List ValueId) (data : List Datum) : Env := fun v => (arguments.zip data).lookup v

end Env

/-- What calls return. -/
abbrev Answers := MethodRef → List Datum → Datum

section

variable (answers : Answers)

/-- Run an instruction. -/
def Instr.execute (i : Instr) (env : Env) : Option (Env × List Event) :=
  match i.op, i.dest with
  | .constNull, some v => some (env.define v .null, [])
  | .constInt n, some v => some (env.define v (.int n), [])
  | .instancePut f object value, none => do return (env, [.put f (← env object) (← env value)])
  | .invoke kind m args _, dest => do
    let data ← args.mapM env
    return (dest.elim env fun v => env.define v (answers m data), [.call kind m data])
  | _, _ => none

/-- Run instructions one after the other. -/
def Instr.executeAll : List Instr → Env → Option (Env × List Event)
  | [], env => some (env, [])
  | i :: is, env => do
    let (env, events) ← i.execute answers env
    let (env, more) ← executeAll is env
    return (env, events ++ more)

end

/-- A comparison of numbers holds. -/
def Comparison.holds (c : Comparison) (a b : Int32) : Bool :=
  match c with
  | .eq => a == b
  | .ne => a != b
  | .lt => a < b
  | .ge => b ≤ a
  | .gt => b < a
  | .le => a ≤ b

/-- Where a run goes on after block `here`; nowhere if the body returns. -/
def Terminator.next? (t : Terminator) (here : BlockId) (env : Env) : Option (Option BlockId) :=
  match t with
  | .goto target => some (some target)
  | .branch kind .int lhs rhs target =>
    match env lhs, rhs.elim (some (.int 0)) env with
    | some (.int a), some (.int b) => some (some (if kind.holds a b then target else here + 1))
    | _, _ => none
  | .ret none => some none
  | _ => none

/-- A run of the body from a block on, with everything that it does. -/
inductive Body.RunsFrom (answers : Answers) (c : Body) : BlockId → Env → List Event → Prop
  | returns {b : BlockId} {block : Block} {env env' : Env} {events : List Event} (hblock : c.blocks[b]? = some block)
      (hphis : block.phis = []) (hbody : Instr.executeAll answers block.body env = some (env', events))
      (hnext : block.terminator.next? b env' = some none) : RunsFrom answers c b env events
  | goes {b b' : BlockId} {block : Block} {env env' : Env} {events more : List Event} (hblock : c.blocks[b]? = some block)
      (hphis : block.phis = []) (hbody : Instr.executeAll answers block.body env = some (env', events))
      (hnext : block.terminator.next? b env' = some (some b')) (hrest : RunsFrom answers c b' env' more) :
      RunsFrom answers c b env (events ++ more)

/-- A run of the body on arguments. -/
def Body.Runs (answers : Answers) (c : Body) (data : List Datum) (events : List Event) : Prop :=
  data.length = c.arguments.length ∧ c.RunsFrom answers 0 (.ofArguments c.arguments data) events

variable {answers : Answers}

/-- **A body has at most one run.** -/
theorem Body.RunsFrom.unique {c : Body} {b : BlockId} {env : Env} {events events' : List Event} (h : c.RunsFrom answers b env events)
    (h' : c.RunsFrom answers b env events') : events = events' := by
  induction h generalizing events' with
  | returns hblock _ hbody hnext =>
    cases h' with
    | returns hblock' _ hbody' _ =>
      cases hblock.symm.trans hblock'
      cases hbody.symm.trans hbody'
      rfl
    | goes hblock' _ hbody' hnext' _ =>
      cases hblock.symm.trans hblock'
      cases hbody.symm.trans hbody'
      cases hnext.symm.trans hnext'
  | goes hblock _ hbody hnext _ ih =>
    cases h' with
    | returns hblock' _ hbody' hnext' =>
      cases hblock.symm.trans hblock'
      cases hbody.symm.trans hbody'
      cases hnext.symm.trans hnext'
    | goes hblock' _ hbody' hnext' hrest' =>
      cases hblock.symm.trans hblock'
      cases hbody.symm.trans hbody'
      cases hnext.symm.trans hnext'
      rw [ih hrest']

theorem Body.Runs.unique {c : Body} {data : List Datum} {events events' : List Event} (h : c.Runs answers data events)
    (h' : c.Runs answers data events') : events = events' :=
  h.2.unique h'.2

/-- A run begins with what the first block does. -/
theorem Body.Runs.exists_first {c : Body} {data : List Datum} {events : List Event} (h : c.Runs answers data events) {block : Block}
    (hblock : c.blocks[0]? = some block) :
    ∃ env first more, Instr.executeAll answers block.body (.ofArguments c.arguments data) = some (env, first) ∧ events = first ++ more := by
  cases h.2 with
  | returns hblock' _ hbody _ =>
    cases hblock.symm.trans hblock'
    exact ⟨_, _, [], hbody, (List.append_nil _).symm⟩
  | goes hblock' _ hbody _ _ =>
    cases hblock.symm.trans hblock'
    exact ⟨_, _, _, hbody, rfl⟩

namespace Instr

variable {is js : List Instr} {env env' env'' : Env} {events more : List Event}

theorem executeAll_cons {i : Instr} (h : i.execute answers env = some (env', events))
    (hmore : executeAll answers is env' = some (env'', more)) : executeAll answers (i :: is) env = some (env'', events ++ more) := by
  simp [executeAll, h, hmore]

theorem executeAll_append (h : executeAll answers is env = some (env', events))
    (hmore : executeAll answers js env' = some (env'', more)) : executeAll answers (is ++ js) env = some (env'', events ++ more) := by
  induction is generalizing env events with
  | nil =>
    cases h
    exact hmore
  | cons i is ih =>
    simp only [executeAll, Option.bind_eq_bind, Option.bind_eq_some_iff] at h
    obtain ⟨⟨env₁, first⟩, hfirst, ⟨env₂, second⟩, hsecond, heq⟩ := h
    cases heq
    rw [List.append_assoc]
    exact executeAll_cons hfirst (ih hsecond)

theorem executeAll_invoke {dest : Option ValueId} {kind : InvokeKind} {m : MethodRef} {args : List ValueId} {itf : Bool} {line : Line}
    {data : List Datum} (hdata : args.mapM env = some data) :
    executeAll answers [⟨dest, .invoke kind m args itf, line⟩] env =
      some (dest.elim env fun v => env.define v (answers m data), [.call kind m data]) := by
  simp only [executeAll, execute, hdata]
  rfl

end Instr

end DexShrinker
