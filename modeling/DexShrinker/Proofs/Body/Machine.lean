/-
  DexShrinker/Proofs/Body/Machine.lean
  ====================================
  **Runs of methods that call each other.**

  A machine has code for some methods and answers for others. What runs on it changes a store:
  the objects that were made, the static fields, and the *trace* of what others can see, which is
  the stores to instance fields and the calls that the machine has no code for.

  `Runs` relates a task in a store to how it ends and the store after it. It is defined where
  operations have a meaning: constants, objects, arrays of integers, fields, sums and differences,
  calls, and branches on integers and on null. An operation that has none, or that the virtual
  machine would stop with an exception of its own, has no run here, and neither does a block with
  handlers. A task has at most one run (`Runs.unique`), so what is proved of a run is proved of
  what happens.
-/
import DexShrinker.Body.Flow
import DexShrinker.Program
import DexShrinker.Proofs.Body.Execution
import Mathlib.Logic.Function.Basic

namespace DexShrinker

namespace Machine

/-- A value at run time. -/
inductive Val where
  | null
  | int (value : Int32)
  | long (value : Int64)
  | text (value : String)
  | ref (address : Nat)
deriving DecidableEq

/-- What a reference leads to. -/
inductive Obj where
  | array (entries : List Int32)
  | instance (type : Descriptor)
deriving DecidableEq

/-- What others can see. -/
inductive Effect where
  | put (field : FieldRef) (object value : Val)
  | call (kind : InvokeKind) (method : MethodRef) (args : List Val)
deriving DecidableEq

/-- What runs share. -/
structure Store where
  heap : List Obj := []
  statics : FieldRef → Option Val := fun _ => none
  trace : List Effect := []

namespace Store

/-- Make an object, at the next address. -/
def alloc (s : Store) (x : Obj) : Store := { s with heap := s.heap ++ [x] }

/-- Let others see something. -/
def record (s : Store) (effects : List Effect) : Store := { s with trace := s.trace ++ effects }

@[simp] theorem record_nil (s : Store) : s.record [] = s := by simp [record]

theorem record_append (s : Store) (effects more : List Effect) : s.record (effects ++ more) = (s.record effects).record more := by simp [record]

/-- The entries of an array. -/
def array? (s : Store) (a : Nat) : Option (List Int32) :=
  match s.heap[a]? with
  | some (.array entries) => some entries
  | _ => none

end Store

/-- The values of a body as far as a run has come. -/
abbrev Locals := ValueId → Option Val

namespace Locals

def define (env : Locals) (v : ValueId) (x : Val) : Locals := Function.update env v (some x)

/-- Keep a result under the name that an instruction gives it. -/
def assign (env : Locals) : Option ValueId → Option Val → Locals
  | some v, some x => env.define v x
  | _, _ => env

def ofArguments (arguments : List ValueId) (args : List Val) : Locals := fun v => (arguments.zip args).lookup v

variable (env : Locals)

@[simp] theorem define_self (v : ValueId) (x : Val) : env.define v x v = some x := Function.update_self ..

theorem define_of_ne {v w : ValueId} (h : w ≠ v) (x : Val) : env.define v x w = env w := Function.update_of_ne h ..

@[simp] theorem assign_none (x : Option Val) : env.assign none x = env := rfl

@[simp] theorem assign_nothing (dest : Option ValueId) : env.assign dest none = env := by cases dest <;> rfl

end Locals

/-! ### Operations -/

/-- A number as the index of an array. -/
def index? (n : Int32) : Option Nat := if 0 ≤ n then some n.toNatClampNeg else none

def arithmetic? : BinaryOp → Int32 → Int32 → Option Int32
  | .add, a, b => some (a + b)
  | .sub, a, b => some (a - b)
  | _, _, _ => none

/-- What an operation other than a call does: its result, if it has one, and the store after it. -/
def perform (op : Op) (env : Locals) (s : Store) : Option (Option Val × Store) :=
  match op with
  | .debugPosition => some (none, s)
  | .constNull => some (some .null, s)
  | .constInt n => some (some (.int n), s)
  | .constLong n => some (some (.long n), s)
  | .constString t => some (some (.text t), s)
  | .newInstance t => some (some (.ref s.heap.length), s.alloc (.instance t))
  | .newArray t size =>
    match t == .intArray, env size with
    | true, some (.int n) => (index? n).map fun n => (some (.ref s.heap.length), s.alloc (.array (List.replicate n 0)))
    | _, _ => none
  | .arrayGet _ array index =>
    match env array, env index with
    | some (.ref a), some (.int i) => do return (some (.int (← (← s.array? a)[← index? i]?)), s)
    | _, _ => none
  | .arrayPut array index value =>
    match env array, env index, env value with
    | some (.ref a), some (.int i), some (.int x) => do
      let entries ← s.array? a
      let i ← index? i
      if i < entries.length then some (none, { s with heap := s.heap.set a (.array (entries.set i x)) }) else none
    | _, _, _ => none
  | .arrayLength array =>
    match env array with
    | some (.ref a) => do return (some (.int (.ofNat (← s.array? a).length)), s)
    | _ => none
  | .staticGet f => do return (some (← s.statics f), s)
  | .staticPut f value => do return (none, { s with statics := Function.update s.statics f (some (← env value)) })
  | .instancePut f object value =>
    match env object, env value with
    | some (.ref a), some x => some (none, s.record [.put f (.ref a) x])
    | _, _ => none
  | .binary op .int lhs rhs =>
    match env lhs, env rhs with
    | some (.int a), some (.int b) => do return (some (.int (← arithmetic? op a b)), s)
    | _, _ => none
  | _ => none

/-! ### Control -/

/-- What a missing operand of a branch stands for. -/
def zero : ComparedType → Val
  | .int => .int 0
  | .object => .null

/-- The result of a comparison. References are only compared with null. -/
def compare? (kind : Comparison) : ComparedType → Val → Val → Option Bool
  | .int, .int a, .int b => some (kind.holds a b)
  | .object, x, .null =>
    match kind with
    | .eq => some (x == .null)
    | .ne => some (x != .null)
    | _ => none
  | _, _, _ => none

/-- Where a run goes on after block `here`, if it goes on. -/
def next? (t : Terminator) (here : BlockId) (env : Locals) : Option BlockId :=
  match t with
  | .goto target => some target
  | .branch kind type lhs rhs target => do
    let holds ← compare? kind type (← env lhs) (← rhs.elim (some (zero type)) env)
    return if holds then target else here + 1
  | _ => none

/-- How a run ends. -/
inductive Ending where
  | returns (value : Option Val)
  | throws (exception : Val)
deriving DecidableEq

/-- How a terminator ends a run, if it does. -/
def ending? (t : Terminator) (env : Locals) : Option Ending :=
  match t with
  | .ret none => some (.returns none)
  | .ret (some v) => do return .returns (some (← env v))
  | .throw v => do return .throws (← env v)
  | _ => none

/-- The values at the beginning of block `b`, for a run that comes from block `way`. -/
def enter (c : Body) (way : Option BlockId) (b : BlockId) (phis : List Phi) (env : Locals) : Option Locals :=
  match phis, way with
  | [], _ => some env
  | phis, some way => do
    let i := (c.predecessorsOf b).idxOf way
    let xs ← phis.mapM fun p => do env (← p.operands[i]?)
    return (phis.zip xs).foldl (fun env (p, x) => env.define p.dest x) env
  | _, none => none

end Machine

/-- Code for some methods, and what calls of others return. -/
structure Machine where
  code : MethodRef → Option Body
  answer : MethodRef → List Machine.Val → Option (Option Machine.Val)

namespace Machine

/-- What runs. -/
inductive Task where
  | call (kind : InvokeKind) (m : MethodRef) (args : List Val)
  | body (c : Body) (args : List Val)
  /-- Block `b`, coming from block `way`. -/
  | block (c : Body) (way : Option BlockId) (b : BlockId) (env : Locals)
  /-- What is left of block `b`. -/
  | code (c : Body) (b : BlockId) (t : Terminator) (is : List Instr) (env : Locals)

/-- The task ends like this and leaves that store. -/
inductive Runs (M : Machine) : Task → Store → Ending → Store → Prop
  | run {kind : InvokeKind} {m : MethodRef} {args : List Val} {c : Body} {s s' : Store} {e : Ending} (hcode : M.code m = some c)
      (hbody : Runs M (.body c args) s e s') : Runs M (.call kind m args) s e s'
  | answer {kind : InvokeKind} {m : MethodRef} {args : List Val} {x : Option Val} {s : Store} (hcode : M.code m = none)
      (hanswer : M.answer m args = some x) : Runs M (.call kind m args) s (.returns x) (s.record [.call kind m args])
  | body {c : Body} {args : List Val} {s s' : Store} {e : Ending} (hargs : args.length = c.arguments.length)
      (hentry : Runs M (.block c none 0 (.ofArguments c.arguments args)) s e s') : Runs M (.body c args) s e s'
  | block {c : Body} {way : Option BlockId} {b : BlockId} {block : Block} {env env' : Locals} {s s' : Store} {e : Ending}
      (hblock : c.blocks[b]? = some block) (hhandlers : block.handlers = []) (hphis : enter c way b block.phis env = some env')
      (hcode : Runs M (.code c b block.terminator block.body env') s e s') : Runs M (.block c way b env) s e s'
  | op {c : Body} {b : BlockId} {t : Terminator} {i : Instr} {is : List Instr} {env : Locals} {x : Option Val} {s s' s'' : Store}
      {e : Ending} (hop : perform i.op env s = some (x, s')) (hrest : Runs M (.code c b t is (env.assign i.dest x)) s' e s'') :
      Runs M (.code c b t (i :: is) env) s e s''
  | invoke {c : Body} {b : BlockId} {t : Terminator} {dest : Option ValueId} {kind : InvokeKind} {m : MethodRef} {args : List ValueId}
      {itf : Bool} {line : Line} {is : List Instr} {env : Locals} {data : List Val} {x : Option Val} {s s' s'' : Store} {e : Ending}
      (hargs : args.mapM env = some data) (hcall : Runs M (.call kind m data) s (.returns x) s')
      (hrest : Runs M (.code c b t is (env.assign dest x)) s' e s'') :
      Runs M (.code c b t (⟨dest, .invoke kind m args itf, line⟩ :: is) env) s e s''
  | unwind {c : Body} {b : BlockId} {t : Terminator} {dest : Option ValueId} {kind : InvokeKind} {m : MethodRef} {args : List ValueId}
      {itf : Bool} {line : Line} {is : List Instr} {env : Locals} {data : List Val} {x : Val} {s s' : Store}
      (hargs : args.mapM env = some data) (hcall : Runs M (.call kind m data) s (.throws x) s') :
      Runs M (.code c b t (⟨dest, .invoke kind m args itf, line⟩ :: is) env) s (.throws x) s'
  | jump {c : Body} {b b' : BlockId} {t : Terminator} {env : Locals} {s s' : Store} {e : Ending} (hnext : next? t b env = some b')
      (hrest : Runs M (.block c (some b) b' env) s e s') : Runs M (.code c b t [] env) s e s'
  | finish {c : Body} {b : BlockId} {t : Terminator} {env : Locals} {s : Store} {e : Ending} (hend : ending? t env = some e) :
      Runs M (.code c b t [] env) s e s

variable {M : Machine}

theorem ending?_of_next? {t : Terminator} {here there : BlockId} {env : Locals} (h : next? t here env = some there) : ending? t env = none := by
  cases t with
  | goto | branch => rfl
  | ret | throw => cases h

/-- **Runs are deterministic.** -/
theorem Runs.unique {task : Task} {s s' s'' : Store} {e e' : Ending} (h : Runs M task s e s') (h' : Runs M task s e' s'') : e = e' ∧ s' = s'' := by
  induction h generalizing e' s'' with
  | run hcode _ ih =>
    cases h' with
    | run hcode' hbody' =>
      cases hcode.symm.trans hcode'
      exact ih hbody'
    | answer hcode' _ => cases hcode.symm.trans hcode'
  | answer hcode hanswer =>
    cases h' with
    | run hcode' _ => cases hcode.symm.trans hcode'
    | answer _ hanswer' =>
      cases hanswer.symm.trans hanswer'
      exact ⟨rfl, rfl⟩
  | body _ _ ih =>
    cases h' with
    | body _ hentry' => exact ih hentry'
  | block hblock _ hphis _ ih =>
    cases h' with
    | block hblock' _ hphis' hcode' =>
      cases hblock.symm.trans hblock'
      cases hphis.symm.trans hphis'
      exact ih hcode'
  | op hop _ ih =>
    cases h' with
    | op hop' hrest' =>
      cases hop.symm.trans hop'
      exact ih hrest'
    | invoke => cases hop
    | unwind => cases hop
  | invoke hargs _ _ ihcall ihrest =>
    cases h' with
    | op hop' _ => cases hop'
    | invoke hargs' hcall' hrest' =>
      cases hargs.symm.trans hargs'
      obtain ⟨heq, rfl⟩ := ihcall hcall'
      cases heq
      exact ihrest hrest'
    | unwind hargs' hcall' =>
      cases hargs.symm.trans hargs'
      obtain ⟨heq, -⟩ := ihcall hcall'
      cases heq
  | unwind hargs _ ihcall =>
    cases h' with
    | op hop' _ => cases hop'
    | invoke hargs' hcall' _ =>
      cases hargs.symm.trans hargs'
      obtain ⟨heq, -⟩ := ihcall hcall'
      cases heq
    | unwind hargs' hcall' =>
      cases hargs.symm.trans hargs'
      obtain ⟨heq, rfl⟩ := ihcall hcall'
      cases heq
      exact ⟨rfl, rfl⟩
  | jump hnext _ ih =>
    cases h' with
    | jump hnext' hrest' =>
      cases hnext.symm.trans hnext'
      exact ih hrest'
    | finish hend' => cases (ending?_of_next? hnext).symm.trans hend'
  | finish hend =>
    cases h' with
    | jump hnext' _ => cases (ending?_of_next? hnext').symm.trans hend
    | finish hend' =>
      cases hend.symm.trans hend'
      exact ⟨rfl, rfl⟩

/-- **A task has at most one run**, so what one run does is what the task does. -/
theorem Runs.iff {task : Task} {s s' : Store} {e : Ending} (h : Runs M task s e s') (e' : Ending) (s'' : Store) :
    Runs M task s e' s'' ↔ e' = e ∧ s'' = s' := by
  constructor
  · intro h'
    exact h'.unique h
  · rintro ⟨rfl, rfl⟩
    exact h

namespace Runs

variable {kind : InvokeKind} {m : MethodRef} {args : List Val} {c : Body} {way : Option BlockId} {b : BlockId} {block : Block} {t : Terminator}
  {i : Instr} {is : List Instr} {env env' : Locals} {x : Option Val} {s s' s'' : Store} {e e' : Ending}

/-! One step of a run, read both ways. -/

theorem call_iff (hcode : M.code m = some c) : Runs M (.call kind m args) s e s' ↔ Runs M (.body c args) s e s' := by
  constructor
  · intro h
    cases h with
    | run hcode' hbody =>
      cases hcode.symm.trans hcode'
      exact hbody
    | answer hcode' _ => cases hcode.symm.trans hcode'
  · exact .run hcode

theorem body_iff (hargs : args.length = c.arguments.length) :
    Runs M (.body c args) s e s' ↔ Runs M (.block c none 0 (.ofArguments c.arguments args)) s e s' := by
  constructor
  · intro h
    cases h with
    | body _ hentry => exact hentry
  · exact .body hargs

theorem block_iff (hblock : c.blocks[b]? = some block) (hhandlers : block.handlers = []) (hphis : enter c way b block.phis env = some env') :
    Runs M (.block c way b env) s e s' ↔ Runs M (.code c b block.terminator block.body env') s e s' := by
  constructor
  · intro h
    cases h with
    | block hblock' _ hphis' hcode =>
      cases hblock.symm.trans hblock'
      cases hphis.symm.trans hphis'
      exact hcode
  · exact .block hblock hhandlers hphis

theorem op_iff (hop : perform i.op env s = some (x, s')) :
    Runs M (.code c b t (i :: is) env) s e s'' ↔ Runs M (.code c b t is (env.assign i.dest x)) s' e s'' := by
  constructor
  · intro h
    cases h with
    | op hop' hrest =>
      cases hop.symm.trans hop'
      exact hrest
    | invoke | unwind => cases hop
  · exact .op hop

theorem finish_iff (hend : ending? t env = some e') : Runs M (.code c b t [] env) s e s' ↔ e = e' ∧ s' = s :=
  (Runs.finish hend).iff e s'

theorem not_of_perform (hop : perform i.op env s = none) (hinvoke : ∀ kind m args itf, i.op ≠ .invoke kind m args itf) :
    ¬ Runs M (.code c b t (i :: is) env) s e s' := by
  intro h
  cases h with
  | op hop' _ => cases hop.symm.trans hop'
  | invoke | unwind => exact hinvoke _ _ _ _ rfl

end Runs

/-! ### Branches -/

section

variable {kind : Comparison} {type : ComparedType} {lhs rhs : ValueId} {env : Locals} {x y : Val} {holds : Bool}

theorem next?_branch (hlhs : env lhs = some x) (hrhs : env rhs = some y) (h : compare? kind type x y = some holds) (target here : BlockId) :
    next? (.branch kind type lhs (some rhs) target) here env = some (if holds then target else here + 1) := by
  simp [next?, hlhs, hrhs, h]

theorem next?_branch_zero (hlhs : env lhs = some x) (h : compare? kind type x (zero type) = some holds) (target here : BlockId) :
    next? (.branch kind type lhs none target) here env = some (if holds then target else here + 1) := by
  simp [next?, hlhs, h]

end

theorem compare?_ge {m n : Nat} (hm : m < 2147483648) (hn : n < 2147483648) :
    compare? .ge .int (.int (.ofNat m)) (.int (.ofNat n)) = some (decide (n ≤ m)) := by
  have hiff : Int32.ofNat n ≤ .ofNat m ↔ n ≤ m := by
    rw [Int32.le_iff_toInt_le, Int32.toInt_ofNat_of_lt hn, Int32.toInt_ofNat_of_lt hm, Int.ofNat_le]
  simp [compare?, Comparison.holds, hiff]

/-! ### Arrays -/

theorem ofNat_of_toInt {v : Int32} {n : Nat} (h : v.toInt = n) : v = .ofNat n := by
  rw [← Int32.toInt_inj, h, Int32.toInt_ofNat_of_lt (by have := v.toInt_lt; omega)]

theorem lt_of_toInt {v : Int32} {n : Nat} (h : v.toInt = n) : n < 2147483648 := by
  have := v.toInt_lt
  omega

theorem toInt_sub_of_pos {v w : Int32} (hv : 0 ≤ v.toInt) (hw : 0 ≤ w.toInt) : (v - w).toInt = v.toInt - w.toInt := by
  have hv' := v.toInt_lt
  have hw' := w.toInt_lt
  rw [Int32.toInt_sub]
  exact Int.bmod_eq_of_le (by simp; omega) (by simp; omega)

theorem index?_ofNat {n : Nat} (h : n < 2147483648) : index? (.ofNat n) = some n := by
  have hle : (0 : Int32) ≤ .ofNat n := by
    rw [Int32.le_iff_toInt_le, Int32.toInt_ofNat_of_lt h]
    simp
  rw [index?, if_pos hle, Int32.toNatClampNeg_ofNat_of_lt h]

/-- The first entries of an array of `n` entries are filled. -/
def filled (f : Nat → Int32) (n k : Nat) : List Int32 := (List.range n).map fun i => if i < k then f i else 0

section

variable (f : Nat → Int32) (n : Nat)

@[simp] theorem length_filled (k : Nat) : (filled f n k).length = n := by simp [filled]

theorem filled_zero : filled f n 0 = List.replicate n 0 := by simp [filled, List.map_const']

theorem filled_self : filled f n n = (List.range n).map f := by
  apply List.map_congr_left
  intro i hi
  rw [if_pos (List.mem_range.1 hi)]

theorem set_filled (k : Nat) : (filled f n k).set k (f k) = filled f n (k + 1) := by
  apply List.ext_getElem (by simp)
  intro i hi hi'
  simp only [filled, List.getElem_set, List.getElem_map, List.getElem_range]
  split
  · next heq => simp [heq]
  · next hne =>
    have hiff : i < k ↔ i < k + 1 := by omega
    simp only [hiff]

end

namespace Store

/-- Put an array in place of another one. -/
def setArray (s : Store) (a : Nat) (entries : List Int32) : Store := { s with heap := s.heap.set a (.array entries) }

theorem lt_of_array? {s : Store} {a : Nat} {entries : List Int32} (h : s.array? a = some entries) : a < s.heap.length := by
  by_contra hge
  simp [array?, List.getElem?_eq_none (Nat.le_of_not_lt hge)] at h

theorem setArray_self {s : Store} {a : Nat} {entries : List Int32} (h : s.array? a = some entries) : s.setArray a entries = s := by
  have hlt := lt_of_array? h
  have hentry : s.heap[a] = .array entries := by
    unfold array? at h
    rw [List.getElem?_eq_getElem hlt] at h
    split at h
    · next entries' heq =>
      cases h
      exact Option.some.inj heq
    · cases h
  rw [setArray, ← hentry, List.set_getElem_self]

theorem array?_setArray {s : Store} {a : Nat} (ha : a < s.heap.length) (entries : List Int32) :
    (s.setArray a entries).array? a = some entries := by simp [array?, setArray, ha]

@[simp] theorem setArray_setArray (s : Store) (a : Nat) (entries entries' : List Int32) :
    (s.setArray a entries).setArray a entries' = s.setArray a entries' := by simp [setArray]

/-- A new array can be filled as it is made. -/
theorem setArray_alloc (s : Store) (entries entries' : List Int32) :
    (s.alloc (.array entries)).setArray s.heap.length entries' = s.alloc (.array entries') := by simp [setArray, alloc]

theorem array?_alloc {s : Store} {a : Nat} {entries : List Int32} (h : s.array? a = some entries) (x : Obj) :
    (s.alloc x).array? a = some entries := by
  have hlt := lt_of_array? h
  simpa [array?, alloc, List.getElem?_append_left hlt] using h

theorem array?_alloc_self (s : Store) (entries : List Int32) : (s.alloc (.array entries)).array? s.heap.length = some entries := by
  simp [array?, alloc]

end Store

section

variable {env : Locals} {s : Store} {array index value size : ValueId} {a i : Nat} {n x : Int32} {entries : List Int32}

attribute [local simp] perform

theorem perform_add {lhs rhs : ValueId} {x y : Int32} (hlhs : env lhs = some (.int x)) (hrhs : env rhs = some (.int y)) :
    perform (.binary .add .int lhs rhs) env s = some (some (.int (x + y)), s) := by
  simp [hlhs, hrhs, arithmetic?]

theorem perform_newArray (hsize : env size = some (.int n)) (hn : index? n = some i) :
    perform (.newArray .intArray size) env s = some (some (.ref s.heap.length), s.alloc (.array (List.replicate i 0))) := by
  simp [hsize, hn]

theorem perform_staticGet {f : FieldRef} {x : Val} (hx : s.statics f = some x) : perform (.staticGet f) env s = some (some x, s) := by
  simp [hx]

theorem perform_arrayGet (harray : env array = some (.ref a)) (hindex : env index = some (.int n)) (hentries : s.array? a = some entries)
    (hn : index? n = some i) (hx : entries[i]? = some x) (t : Descriptor) :
    perform (.arrayGet t array index) env s = some (some (.int x), s) := by
  simp [harray, hindex, hentries, hn, hx]

theorem perform_arrayPut (harray : env array = some (.ref a)) (hindex : env index = some (.int n)) (hvalue : env value = some (.int x))
    (hentries : s.array? a = some entries) (hn : index? n = some i) (hi : i < entries.length) :
    perform (.arrayPut array index value) env s = some (none, s.setArray a (entries.set i x)) := by
  simp [harray, hindex, hvalue, hentries, hn, hi, Store.setArray]

end

/-! ### Runs that leave the store alone -/

/-- The task returns the value. Others may see calls. -/
def Answers (M : Machine) (task : Task) (s : Store) (x : Val) : Prop :=
  ∃ effects, Runs M task s (.returns (some x)) (s.record effects)

/-- The task throws a new exception. -/
def Fails (M : Machine) (task : Task) (s : Store) (exception : Descriptor) : Prop :=
  ∃ effects, Runs M task s (.throws (.ref s.heap.length)) ((s.alloc (.instance exception)).record effects)

/-- Code for some methods. -/
def ofMethods (methods : List MethodDef) (answer : MethodRef → List Val → Option (Option Val)) : Machine where
  code m :=
    match (methods.find? (·.ref == m)).bind MethodDef.code with
    | some (.body c) => some c
    | _ => none
  answer := answer

end Machine

end DexShrinker
