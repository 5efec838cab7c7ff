/-
  DexShrinker/Proofs/Unboxing/SharedClass.lean
  ============================================
  **What the methods of the shared class do.**

  The shared class is put together block by block, and the bodies are written out here: only the
  class initializer depends on how many constants there are. It fills an array with the numbers of
  all constants, and afterwards `values` returns the first of them (`SharedUtility.Ready`). Ordinals
  and comparisons are what the enum has, and null is answered with an exception where the enum would.

  A loop of the code is followed with an invariant on the array: so many of its entries are filled.
-/
import DexShrinker.Proofs.Body.Assembly
import DexShrinker.Proofs.Body.Machine
import DexShrinker.Unboxing.Utility

namespace DexShrinker

open Machine Assembly

/-! ### The library -/

namespace Utility

/-- What the methods return that utility classes do not have: texts are compared, and the initializers of
    exceptions return nothing. -/
def library (m : MethodRef) (args : List Val) : Option (Option Val) :=
  if m.isInstanceInitializer then some none
  else if m = LocalUtility.textEquals then
    match args with
    | [.text a, .text b] => some (some (.int (if a = b then 1 else 0)))
    | _ => none
  else none

/-- Calls of the library come out right. -/
structure HasLibrary (M : Machine) : Prop where
  initializer : ∀ m : MethodRef, m.isInstanceInitializer = true → M.code m = none ∧ ∀ args, M.answer m args = some none
  textEquals : M.code LocalUtility.textEquals = none ∧
    ∀ a b, M.answer LocalUtility.textEquals [.text a, .text b] = some (some (.int (if a = b then 1 else 0)))

/-- Methods run with their bodies, and calls of the library come out right. -/
structure Links (M : Machine) (methods : List MethodDef) : Prop where
  library : HasLibrary M
  code : ∀ d ∈ methods, ∃ c, d.code = some (.body c) ∧ M.code d.ref = some c

end Utility

/-! ### Pieces -/

namespace Utility

variable {code code' : Body} {before after : List DraftBlock} {b b' : DraftBlock} {line : Line}

theorem synthesize_eq_ok {m : MethodRef} {access : AccessFlags} (haccess : access.isStatic = true) {steps : Assembly Unit} {c : Body}
    (h : Assembly.build m true steps = .ok c) : synthesize m access steps = .ok { ref := m, access := access, code := some (.body c) } := by
  unfold synthesize
  rw [haccess, h]
  rfl

theorem isStatic_methodAccess : methodAccess.isStatic = true := rfl

theorem isStatic_clinitAccess : clinitAccess.isStatic = true := rfl

/-- A test ends the current block, which is the last one. -/
theorem yields_unlessHolds {kind : Comparison} {type : ComparedType} {lhs : ValueId} {rhs : Assembly (Option ValueId)} {r : Option ValueId}
    {k : BlockId} (hk : before.length + 2 = k) (hrhs : rhs.Yields (.within code before b [{}, {}] line) r (.within code' before b' [{}, {}] line)) :
    (unlessHolds kind type lhs rhs).Yields (.within code before b [] line) k
      (.within code' (before ++ [{ b' with terminator := some (.branch kind type lhs r k, line) }]) {} [{}] line) := by
  subst hk
  apply (yields_newBlock rfl).bind
  apply (yields_newBlock rfl).bind
  apply hrhs.bind
  apply (yields_terminate _).bind
  apply (yields_switchTo rfl).bind
  apply yields_pure

/-- The call that initializes a new exception. -/
def initException (exception : Descriptor) (message : Option ValueId) : MethodRef :=
  ⟨exception, MethodRef.initName, .void, message.toList.map fun _ => .string⟩

theorem yields_throwNew (exception : Descriptor) (message : Option ValueId) :
    (throwNew exception message).Yields (.within code before b after line) () (.within (code.newValue exception .instruction).2 before
      { b with
        body := b.body ++ [⟨some code.values.length, .newInstance exception, line⟩] ++
          [⟨none, .invoke .direct (initException exception message) (code.values.length :: message.toList) false, line⟩]
        terminator := some (.throw code.values.length, line) } after line) := by
  apply (yields_emitValue _ _).bind
  apply (yields_invoke_void rfl _).bind
  apply yields_terminate

theorem runs_throwNew {M : Machine} (hlibrary : HasLibrary M) {c : Body} {k : BlockId} {exception : Descriptor} (message : Option ValueId) {v : ValueId}
    {env : Locals} {data : List Val} (hmessage : message.toList.mapM env = some data) (hfresh : ∀ m ∈ message, m ≠ v) (s : Store) :
    Runs M (.code c k (.throw v) ([⟨some v, .newInstance exception, line⟩] ++
        [⟨none, .invoke .direct (initException exception message) (v :: message.toList) false, line⟩]) env) s
      (.throws (.ref s.heap.length)) ((s.alloc (.instance exception)).record [.call .direct (initException exception message)
        (.ref s.heap.length :: data)]) := by
  have hargs : (v :: message.toList).mapM (env.define v (.ref s.heap.length)) = some (.ref s.heap.length :: data) := by
    have hsame : message.toList.mapM (env.define v (.ref s.heap.length)) = some data := by
      rw [← hmessage]
      cases message with
      | none => rfl
      | some m =>
        have hne : env.define v (.ref s.heap.length) m = env m := env.define_of_ne (hfresh m rfl) _
        simp [hne]
    rw [List.mapM_cons, Locals.define_self, hsame]
    rfl
  obtain ⟨hcode, hanswer⟩ := hlibrary.initializer (initException exception message) rfl
  apply Runs.op rfl
  apply Runs.invoke hargs (.answer hcode (hanswer _))
  exact .finish (by simp [ending?, Locals.assign])

end Utility

/-! ### The shared class -/

namespace SharedUtility

open Utility

section

variable (u : SharedUtility)

/-! The bodies that do not depend on the number of constants. -/

def checkBody : Body where
  method := u.checkNotZero
  isStatic := true
  arguments := [0]
  values := [⟨.int, .argument 0⟩, ⟨.nullPointerException, .instruction⟩]
  blocks := [
    { terminator := .branch .ne .int 0 none 2 },
    { body := [⟨some 1, .newInstance .nullPointerException, 0⟩,
        ⟨none, .invoke .direct ⟨.nullPointerException, MethodRef.initName, .void, []⟩ [1] false, 0⟩]
      terminator := .throw 1 },
    { terminator := .ret none }]

def checkWithMessageBody : Body where
  method := u.checkNotZeroWithMessage
  isStatic := true
  arguments := [0, 1]
  values := [⟨.int, .argument 0⟩, ⟨.string, .argument 1⟩, ⟨.nullPointerException, .instruction⟩]
  blocks := [
    { terminator := .branch .ne .int 0 none 2 },
    { body := [⟨some 2, .newInstance .nullPointerException, 0⟩,
        ⟨none, .invoke .direct ⟨.nullPointerException, MethodRef.initName, .void, [.string]⟩ [2, 1] false, 0⟩]
      terminator := .throw 2 },
    { terminator := .ret none }]

def compareToBody : Body where
  method := u.compareTo
  isStatic := true
  arguments := [0, 1]
  values := [⟨.int, .argument 0⟩, ⟨.int, .argument 1⟩, ⟨.int, .instruction⟩]
  blocks := [{
    body := [⟨none, .invoke .static u.checkNotZero [0] false, 0⟩, ⟨none, .invoke .static u.checkNotZero [1] false, 0⟩,
      ⟨some 2, .binary .sub .int 0 1, 0⟩]
    terminator := .ret (some 2) }]

def equalsBody : Body where
  method := u.equals
  isStatic := true
  arguments := [0, 1]
  values := [⟨.int, .argument 0⟩, ⟨.int, .argument 1⟩, ⟨.boolean, .instruction⟩, ⟨.boolean, .instruction⟩]
  blocks := [
    { body := [⟨none, .invoke .static u.checkNotZero [0] false, 0⟩], terminator := .branch .ne .int 0 (some 1) 2 },
    { body := [⟨some 2, .constInt 1, 0⟩], terminator := .ret (some 2) },
    { body := [⟨some 3, .constInt 0, 0⟩], terminator := .ret (some 3) }]

def ordinalBody : Body where
  method := u.ordinal
  isStatic := true
  arguments := [0]
  values := [⟨.int, .argument 0⟩, ⟨.int, .instruction⟩, ⟨.int, .instruction⟩]
  blocks := [{
    body := [⟨none, .invoke .static u.checkNotZero [0] false, 0⟩, ⟨some 1, .constInt 1, 0⟩, ⟨some 2, .binary .sub .int 0 1, 0⟩]
    terminator := .ret (some 2) }]

/-- The loop comes round with `next`. -/
def valuesBody (next : ValueId) : Body where
  method := u.values
  isStatic := true
  arguments := [0]
  values := [⟨.int, .argument 0⟩, ⟨.intArray, .instruction⟩, ⟨.intArray, .instruction⟩, ⟨.int, .instruction⟩, ⟨.int, .phi⟩,
    ⟨.int, .instruction⟩, ⟨.int, .instruction⟩, ⟨.int, .instruction⟩]
  blocks := [
    { body := [⟨some 1, .newArray .intArray 0, 0⟩, ⟨some 2, .staticGet u.valuesField, 0⟩, ⟨some 3, .constInt 0, 0⟩], terminator := .goto 1 },
    { phis := [⟨4, [3, next]⟩], terminator := .branch .ge .int 4 (some 0) 3 },
    { body := [⟨some 5, .constInt 1, 0⟩, ⟨some 6, .binary .add .int 4 5, 0⟩, ⟨some 7, .arrayGet .int 2 6, 0⟩, ⟨none, .arrayPut 1 4 7, 0⟩]
      terminator := .goto 1 },
    { terminator := .ret (some 1) }]

theorem build_check : Assembly.build u.checkNotZero true (checkSteps false) = .ok u.checkBody := by
  refine build_eq_ok ?_ rfl
  rw [Draft.start_eq_within]
  apply Yields.of_eq
  · apply Yields.bind (yields_argument (v := 0) rfl)
    apply (yields_pure none _).bind
    apply (yields_unlessHolds rfl (yields_pure none _)).bind
    apply (yields_throwNew _ _).bind
    apply (yields_switchTo rfl).bind
    apply yields_terminate
  · rfl

theorem build_checkWithMessage : Assembly.build u.checkNotZeroWithMessage true (checkSteps true) = .ok u.checkWithMessageBody := by
  refine build_eq_ok ?_ rfl
  rw [Draft.start_eq_within]
  apply Yields.of_eq
  · apply Yields.bind (yields_argument (v := 0) rfl)
    apply Yields.bind (Yields.bind (yields_argument (v := 1) rfl) (yields_pure (some 1) _))
    apply (yields_unlessHolds rfl (yields_pure none _)).bind
    apply (yields_throwNew _ _).bind
    apply (yields_switchTo rfl).bind
    apply yields_terminate
  · rfl

theorem build_compareTo : Assembly.build u.compareTo true u.compareToSteps = .ok u.compareToBody := by
  refine build_eq_ok ?_ rfl
  rw [Draft.start_eq_within]
  apply Yields.of_eq
  · apply Yields.bind (yields_argument (v := 0) rfl)
    apply Yields.bind (yields_argument (v := 1) rfl)
    apply (yields_invoke_void rfl _).bind
    apply (yields_invoke_void rfl _).bind
    apply (yields_emitValue _ _).bind
    apply yields_terminate
  · rfl

theorem build_equals : Assembly.build u.equals true u.equalsSteps = .ok u.equalsBody := by
  refine build_eq_ok ?_ rfl
  rw [Draft.start_eq_within]
  apply Yields.of_eq
  · apply Yields.bind (yields_argument (v := 0) rfl)
    apply Yields.bind (yields_argument (v := 1) rfl)
    apply (yields_invoke_void rfl _).bind
    apply (yields_unlessHolds rfl (yields_pure _ _)).bind
    apply (yields_emitValue _ _).bind
    apply (yields_terminate _).bind
    apply (yields_switchTo rfl).bind
    apply (yields_emitValue _ _).bind
    apply yields_terminate
  · rfl

theorem build_ordinal : Assembly.build u.ordinal true u.ordinalSteps = .ok u.ordinalBody := by
  refine build_eq_ok ?_ rfl
  rw [Draft.start_eq_within]
  apply Yields.of_eq
  · apply Yields.bind (yields_argument (v := 0) rfl)
    apply (yields_invoke_void rfl _).bind
    apply (yields_emitValue _ _).bind
    apply (yields_emitValue _ _).bind
    apply yields_terminate
  · rfl

theorem yields_valuesSteps : u.valuesSteps.Yields (Draft.start u.values true) (1, 6) (.ofBody (u.valuesBody 3)) := by
  rw [Draft.start_eq_within]
  apply Yields.of_eq
  · apply Yields.bind (yields_argument (v := 0) rfl)
    apply (yields_newBlock (k := 1) rfl).bind
    apply (yields_newBlock (k := 2) rfl).bind
    apply (yields_newBlock (k := 3) rfl).bind
    apply (yields_emitValue _ _).bind
    apply (yields_emitValue _ _).bind
    apply (yields_emitValue _ _).bind
    apply (yields_terminate _).bind
    apply (yields_switchTo rfl).bind
    apply (yields_phi _ _).bind
    apply (yields_terminate _).bind
    apply (yields_switchTo rfl).bind
    apply (yields_emitValue _ _).bind
    apply (yields_emitValue _ _).bind
    apply (yields_emitValue _ _).bind
    apply (yields_emit _).bind
    apply (yields_terminate _).bind
    apply (yields_switchTo rfl).bind
    apply (yields_terminate _).bind
    apply yields_pure
  · rfl

theorem valuesDef_eq_ok : u.valuesDef = .ok { ref := u.values, access := methodAccess, code := some (.body (u.valuesBody 6)) } := by
  have hfinish : (Draft.ofBody (u.valuesBody 3)).finish = .ok (u.valuesBody 3) := Draft.finish_ofBody rfl
  have hclosed : closeLoop (u.valuesBody 3) 1 6 = u.valuesBody 6 := rfl
  have hverify : (u.valuesBody 6).verify = .ok () := rfl
  have hsteps : u.valuesSteps.run.run (Draft.start u.values true) = _ := u.yields_valuesSteps
  unfold valuesDef
  rw [hsteps]
  apply bind_eq_ok.2 ⟨(1, 6), rfl, ?_⟩
  apply bind_eq_ok.2 ⟨u.valuesBody 3, Outcome.mapError_eq_ok.2 hfinish, ?_⟩
  dsimp only
  rw [hclosed, hverify]
  rfl

/-! How they run. -/

variable {u} {M : Machine}

theorem check_returns (hcode : M.code u.checkNotZero = some u.checkBody) {v : Int32} (hv : v ≠ 0) (kind : InvokeKind) (s : Store) :
    Runs M (.call kind u.checkNotZero [.int v]) s (.returns none) s := by
  have hcompare : compare? .ne .int (.int v) (zero .int) = some true := by simp [compare?, zero, Comparison.holds, hv]
  apply Runs.run hcode
  apply Runs.body rfl
  apply Runs.block rfl rfl rfl
  apply Runs.jump (next?_branch_zero rfl hcompare _ _)
  apply Runs.block rfl rfl rfl
  exact .finish rfl

theorem check_throws (hcode : M.code u.checkNotZero = some u.checkBody) (hlibrary : HasLibrary M) (kind : InvokeKind) (s : Store) :
    Fails M (.call kind u.checkNotZero [.int 0]) s .nullPointerException := by
  apply Exists.intro
  apply Runs.run hcode
  apply Runs.body rfl
  apply Runs.block rfl rfl rfl
  apply Runs.jump (next?_branch_zero rfl (by rfl : _ = some false) _ _)
  apply Runs.block rfl rfl rfl
  exact runs_throwNew hlibrary none rfl (by simp) s

section

variable (hcheck : M.code u.checkNotZero = some u.checkBody)

include hcheck

theorem ordinal_returns (hcode : M.code u.ordinal = some u.ordinalBody) {v : Int32} (hv : v ≠ 0) (s : Store) :
    Runs M (.call .static u.ordinal [.int v]) s (.returns (some (.int (v - 1)))) s := by
  apply Runs.run hcode
  apply Runs.body rfl
  apply Runs.block rfl rfl rfl
  apply Runs.invoke rfl (check_returns hcheck hv .static s)
  apply Runs.op rfl
  apply Runs.op rfl
  exact .finish rfl

theorem ordinal_throws (hcode : M.code u.ordinal = some u.ordinalBody) (hlibrary : HasLibrary M) (s : Store) :
    Fails M (.call .static u.ordinal [.int 0]) s .nullPointerException := by
  obtain ⟨effects, hthrows⟩ := check_throws hcheck hlibrary .static s
  apply Exists.intro effects
  apply Runs.run hcode
  apply Runs.body rfl
  apply Runs.block rfl rfl rfl
  exact .unwind rfl hthrows

theorem compareTo_returns (hcode : M.code u.compareTo = some u.compareToBody) {v w : Int32} (hv : v ≠ 0) (hw : w ≠ 0) (s : Store) :
    Runs M (.call .static u.compareTo [.int v, .int w]) s (.returns (some (.int (v - w)))) s := by
  apply Runs.run hcode
  apply Runs.body rfl
  apply Runs.block rfl rfl rfl
  apply Runs.invoke rfl (check_returns hcheck hv .static s)
  apply Runs.invoke rfl (check_returns hcheck hw .static s)
  apply Runs.op rfl
  exact .finish rfl

theorem compareTo_throws (hcode : M.code u.compareTo = some u.compareToBody) (hlibrary : HasLibrary M) {v w : Int32} (h : v = 0 ∨ w = 0) (s : Store) :
    Fails M (.call .static u.compareTo [.int v, .int w]) s .nullPointerException := by
  obtain ⟨effects, hthrows⟩ := check_throws hcheck hlibrary .static s
  apply Exists.intro effects
  apply Runs.run hcode
  apply Runs.body rfl
  apply Runs.block rfl rfl rfl
  by_cases hv : v = 0
  · subst hv
    exact .unwind rfl hthrows
  · obtain rfl : w = 0 := h.resolve_left hv
    apply Runs.invoke rfl (check_returns hcheck hv .static s)
    exact .unwind rfl hthrows

theorem equals_returns (hcode : M.code u.equals = some u.equalsBody) {v : Int32} (hv : v ≠ 0) (w : Int32) (s : Store) :
    Runs M (.call .static u.equals [.int v, .int w]) s (.returns (some (.int (if v = w then 1 else 0)))) s := by
  have hcompare : compare? .ne .int (.int v) (.int w) = some (v != w) := rfl
  apply Runs.run hcode
  apply Runs.body rfl
  apply Runs.block rfl rfl rfl
  apply Runs.invoke rfl (check_returns hcheck hv .static s)
  apply Runs.jump (next?_branch rfl rfl hcompare _ _)
  by_cases heq : v = w
  · rw [if_pos heq, if_neg (by simpa using heq)]
    apply Runs.block rfl rfl rfl
    apply Runs.op rfl
    exact .finish rfl
  · rw [if_neg heq, if_pos (by simpa using heq)]
    apply Runs.block rfl rfl rfl
    apply Runs.op rfl
    exact .finish rfl

theorem equals_throws (hcode : M.code u.equals = some u.equalsBody) (hlibrary : HasLibrary M) (w : Int32) (s : Store) :
    Fails M (.call .static u.equals [.int 0, .int w]) s .nullPointerException := by
  obtain ⟨effects, hthrows⟩ := check_throws hcheck hlibrary .static s
  apply Exists.intro effects
  apply Runs.run hcode
  apply Runs.body rfl
  apply Runs.block rfl rfl rfl
  exact .unwind rfl hthrows

end

variable (u) in
/-- The array has the number of every constant, after that of null. -/
def Ready (s : Store) : Prop :=
  ∃ a, s.statics u.valuesField = some (.ref a) ∧ s.array? a = some ((List.range (u.maxSize + 1)).map .ofNat)

/-- The numbers of the first constants. -/
def numbers (n : Nat) : List Int32 := (List.range n).map fun i => .ofNat (i + 1)

/-- The loop has copied `k` numbers when it comes to its test. -/
theorem runs_loop {n k j a : Nat} (hn : n < 2147483648) (hsize : n ≤ u.maxSize) (hk : k + j = n) {s : Store} {env : Locals}
    (harray : s.array? a = some ((List.range (u.maxSize + 1)).map .ofNat)) (hcount : env 0 = some (.int (.ofNat n)))
    (hresult : env 1 = some (.ref s.heap.length)) (hlookup : env 2 = some (.ref a)) (hindex : env 4 = some (.int (.ofNat k))) :
    Runs M (.code (u.valuesBody 6) 1 (.branch .ge .int 4 (some 0) 3) [] env) (s.alloc (.array (filled (fun i => .ofNat (i + 1)) n k)))
      (.returns (some (.ref s.heap.length))) (s.alloc (.array (numbers n))) := by
  -- By induction on how many numbers are left. The values that the loop reads stay as they are.
  induction j generalizing k env with
  | zero =>
    obtain rfl : k = n := hk
    have hnext := next?_branch hindex hcount (compare?_ge hn hn) 3 1
    rw [if_pos (by simp)] at hnext
    rw [filled_self]
    apply Runs.jump hnext
    apply Runs.block rfl rfl rfl
    exact .finish (by simp [ending?, hresult])
  | succ j ih =>
    have hlt : k < n := by omega
    have hnext := next?_branch hindex hcount (compare?_ge (hlt.trans hn) hn) 3 1
    rw [if_neg (by simpa using hlt)] at hnext
    have hentry : ((List.range (u.maxSize + 1)).map Int32.ofNat)[k + 1]? = some (.ofNat (k + 1)) := by
      rw [List.getElem?_map, List.getElem?_range (by omega), Option.map_some]
    have hread := Store.array?_alloc harray (.array (filled (fun i => .ofNat (i + 1)) n k))
    have hwritten := s.array?_alloc_self (filled (fun i => .ofNat (i + 1)) n k)
    have hadd : Int32.ofNat k + 1 = .ofNat (k + 1) := by rw [Int32.ofNat_add]; rfl
    have hset := set_filled (fun i => Int32.ofNat (i + 1)) n k
    apply Runs.jump hnext
    apply Runs.block rfl rfl rfl
    apply Runs.op rfl
    apply Runs.op (perform_add (by exact hindex) (by rfl))
    rw [hadd]
    apply Runs.op (perform_arrayGet (by exact hlookup) (by rfl) hread (index?_ofNat (by omega)) hentry _)
    apply Runs.op (perform_arrayPut (by exact hresult) (by exact hindex) (by rfl) hwritten (index?_ofNat (by omega)) (by simp; omega))
    rw [hset, Store.setArray_alloc]
    apply Runs.jump rfl
    apply Runs.block rfl rfl rfl
    exact ih (by omega) hcount hresult hlookup rfl

theorem values_returns (hcode : M.code u.values = some (u.valuesBody 6)) {s : Store} (hs : u.Ready s) {count : Int32} {n : Nat}
    (hcount : count.toInt = n) (hsize : n ≤ u.maxSize) :
    Runs M (.call .static u.values [.int count]) s (.returns (some (.ref s.heap.length))) (s.alloc (.array (numbers n))) := by
  obtain ⟨a, hstatic, harray⟩ := hs
  have hn := lt_of_toInt hcount
  rw [ofNat_of_toInt hcount]
  apply Runs.run hcode
  apply Runs.body rfl
  apply Runs.block rfl rfl rfl
  apply Runs.op (perform_newArray rfl (index?_ofNat hn))
  apply Runs.op (perform_staticGet (by exact hstatic))
  apply Runs.op rfl
  apply Runs.jump rfl
  apply Runs.block rfl rfl rfl
  rw [← filled_zero (fun i => .ofNat (i + 1)) n]
  exact runs_loop hn hsize (Nat.zero_add n) harray rfl rfl rfl rfl

/-! The class initializer. -/

/-- Put numbers from `k` on at their own index. -/
def fillSteps (array : ValueId) (k m : Nat) : Assembly Unit :=
  (List.range' k m).forM fun i => do
    let index ← constInt (.ofNat i)
    emit (.arrayPut array index index)

/-- What is left of the block runs on if there is room for all numbers. -/
def Fills (array : ValueId) (k m : Nat) (is : List Instr) : Prop :=
  ∀ ⦃env : Locals⦄ ⦃s : Store⦄ ⦃a n : Nat⦄, env array = some (.ref a) → s.array? a = some (filled .ofNat n k) → k ≤ n → n < 2147483648 →
    ∃ env' : Locals, env' array = some (.ref a) ∧ ∀ (M : Machine) (c : Body) (b : BlockId) (t : Terminator) (rest : List Instr) (e : Ending) (s' : Store),
      Runs M (.code c b t (is ++ rest) env) s e s' ↔ k + m ≤ n ∧ Runs M (.code c b t rest env') (s.setArray a (filled .ofNat n (k + m))) e s'

theorem fills_nil (array : ValueId) (k : Nat) : Fills array k 0 [] := by
  intro env s a n henv hentries hk hn
  refine ⟨env, henv, fun M c b t rest e s' => ?_⟩
  rw [List.nil_append, Nat.add_zero, Store.setArray_self hentries, and_iff_right hk]

theorem Fills.cons {array v : ValueId} {k m : Nat} {is : List Instr} (h : Fills array (k + 1) m is) (hv : array ≠ v) (line line' : Line) :
    Fills array k (m + 1) (⟨some v, .constInt (.ofNat k), line⟩ :: ⟨none, .arrayPut array v v, line'⟩ :: is) := by
  intro env s a n henv hentries hk hn
  have hconst : perform (.constInt (.ofNat k)) env s = some (some (.int (.ofNat k)), s) := rfl
  have henv' : env.define v (.int (.ofNat k)) array = some (.ref a) := by rw [env.define_of_ne hv, henv]
  have hk' : index? (.ofNat k) = some k := index?_ofNat (Nat.lt_of_le_of_lt hk hn)
  rcases Nat.lt_or_eq_of_le hk with hlt | rfl
  · have hput := perform_arrayPut henv' (env.define_self v _) (env.define_self v _) hentries hk' (by simpa using hlt)
    rw [set_filled] at hput
    obtain ⟨env', henv'', hruns⟩ := h henv' (Store.array?_setArray (Store.lt_of_array? hentries) (filled .ofNat n (k + 1))) hlt hn
    simp only [Store.setArray_setArray, Nat.add_right_comm k 1] at hruns
    refine ⟨env', henv'', fun M c b t rest e s' => ?_⟩
    apply (Runs.op_iff hconst).trans
    apply (Runs.op_iff hput).trans
    exact hruns M c b t rest e s'
  · -- The array is full, so the next store has no run.
    have hput : perform (.arrayPut array v v) (env.define v (.int (.ofNat k))) s = none := by
      simp [perform, henv', hentries, hk']
    refine ⟨env, henv, fun M c b t rest e s' => ?_⟩
    rw [List.cons_append, Runs.op_iff hconst, List.cons_append]
    constructor
    · intro hruns
      refine absurd hruns (Runs.not_of_perform hput fun kind m args itf heq => ?_)
      cases heq
    · rintro ⟨hle, -⟩
      omega

theorem exists_fills {code : Body} {before after : List DraftBlock} {b : DraftBlock} {line : Line} (h : Forward code (before ++ b :: after))
    (array : ValueId) (harray : array < code.values.length) (k m : Nat) :
    ∃ code' is, (fillSteps array k m).Yields (.within code before b after line) () (.within code' before { b with body := b.body ++ is } after line) ∧
      code'.arguments = code.arguments ∧ code.values.length ≤ code'.values.length ∧
      Forward code' (before ++ { b with body := b.body ++ is } :: after) ∧ Fills array k m is := by
  induction m generalizing code b k with
  | zero =>
    refine ⟨code, [], ?_, rfl, Nat.le_refl _, ?_, fills_nil array k⟩
    · rw [List.append_nil]
      exact yields_pure () _
    · rwa [List.append_nil]
  | succ m ih =>
    have hlength : (code.newValue .int .instruction).2.values.length = code.values.length + 1 := List.length_append
    have hforward := (h.emitValue (.constInt (.ofNat k)) (by simp [Op.reads]) .int line).emit
      (.arrayPut array code.values.length code.values.length) (by simpa [Op.reads, hlength] using Nat.lt_succ_of_lt harray) line
    have hstep : (do
        let index ← constInt (.ofNat k)
        emit (.arrayPut array index index)).Yields (.within code before b after line) () _ := (yields_emitValue _ _).bind (yields_emit _)
    obtain ⟨code', is, hsteps, harguments, hvalues, hforward', hfills⟩ := ih hforward (hlength ▸ Nat.lt_succ_of_lt harray) (k + 1)
    refine ⟨code', ⟨some code.values.length, .constInt (.ofNat k), line⟩ ::
      ⟨none, .arrayPut array code.values.length code.values.length, line⟩ :: is, ?_, harguments, by omega, ?_,
      hfills.cons (Nat.ne_of_lt harray) line line⟩
    · apply Yields.of_eq (hstep.bind hsteps)
      simp
    · simpa using hforward'

variable (u) in
/-- The store after the class initializer. -/
def initialized (s : Store) : Store :=
  { s.alloc (.array ((List.range (u.maxSize + 1)).map .ofNat)) with
    statics := Function.update s.statics u.valuesField (some (.ref s.heap.length)) }

theorem ready_initialized (s : Store) : u.Ready (u.initialized s) := by
  refine ⟨s.heap.length, ?_, ?_⟩
  · simp [initialized]
  · exact s.array?_alloc_self _

variable (u) in
/-- The instructions of the class initializer, where `is` fills the array. -/
def clinitInstrs (is : List Instr) : List Instr :=
  ⟨some 0, .constInt (.ofNat (min (u.maxSize + 1) 2147483647)), 0⟩ :: ⟨some 1, .newArray .intArray 0, 0⟩ ::
    (is ++ [⟨none, .staticPut u.valuesField 1, 0⟩])

theorem exists_clinit : ∃ c is, Assembly.build u.clinit true u.clinitSteps = .ok c ∧ c.arguments = [] ∧
    c.blocks[0]? = some { body := u.clinitInstrs is, terminator := .ret none } ∧ Fills 1 0 (u.maxSize + 1) is := by
  have hstart : Forward (Body.empty u.clinit true) ([] ++ ({} : DraftBlock) :: []) := Forward.start u.clinit true
  have hsize := hstart.emitValue (.constInt (.ofNat (min (u.maxSize + 1) 2147483647))) (by simp [Op.reads]) .int 0
  have harray := hsize.emitValue (.newArray .intArray 0) (by simp [Op.reads, Body.newValue]) .intArray 0
  obtain ⟨code, is, hsteps, harguments, hvalues, hforward, hfills⟩ := exists_fills harray 1 (Nat.lt_succ_self 1) 0 (u.maxSize + 1)
  let entry : DraftBlock := { body := u.clinitInstrs is, terminator := some (.ret none, 0) }
  have hdefined : 1 < code.values.length := hvalues
  have hentry : Forward code [entry] := (hforward.emit (.staticPut u.valuesField 1) (by simpa [Op.reads] using hdefined) 0).terminate
    (t := .ret none) (by simp [Terminator.reads]) (by simp [Terminator.successors]) 0
  have hyields : u.clinitSteps.Yields (Draft.start u.clinit true) () (.within code [] entry [] 0) := by
    rw [Draft.start_eq_within]
    apply (yields_emitValue _ _).bind
    apply (yields_emitValue _ _).bind
    rw [List.range_eq_range']
    apply hsteps.bind
    apply (yields_emit _).bind
    exact yields_terminate (.ret none)
  obtain ⟨c, hbuild, hblocks, hc⟩ := exists_build hyields hentry (by simp [Draft.within, entry])
  exact ⟨c, is, hbuild, hc.trans harguments, exists_block hblocks (i := 0) rfl rfl, hfills⟩

/-- **The class initializer runs if and only if an array can have that many entries.** -/
theorem clinit_iff {c : Body} {is : List Instr} (hcode : M.code u.clinit = some c) (harguments : c.arguments = [])
    (hblock : c.blocks[0]? = some { body := u.clinitInstrs is, terminator := .ret none }) (hfills : Fills 1 0 (u.maxSize + 1) is) (kind : InvokeKind)
    (s : Store) (e : Ending) (s' : Store) :
    Runs M (.call kind u.clinit []) s e s' ↔ u.maxSize < 2147483647 ∧ e = .returns none ∧ s' = u.initialized s := by
  let n := min (u.maxSize + 1) 2147483647
  have hn : n < 2147483648 := Nat.lt_succ_of_le (Nat.min_le_right _ _)
  have hfilled := Store.array?_alloc_self s (filled .ofNat n 0)
  have hdefined := ((Locals.ofArguments c.arguments []).define 0 (.int (.ofNat n))).define_self 1 (.ref s.heap.length)
  obtain ⟨env, henv, hruns⟩ := hfills hdefined hfilled (Nat.zero_le n) hn
  rw [Runs.call_iff hcode, Runs.body_iff (congrArg List.length harguments).symm, Runs.block_iff hblock rfl rfl]
  apply (Runs.op_iff (i := ⟨some 0, .constInt (.ofNat n), 0⟩) rfl).trans
  apply (Runs.op_iff (i := ⟨some 1, .newArray .intArray 0, 0⟩) (perform_newArray rfl (index?_ofNat hn))).trans
  rw [← filled_zero .ofNat n]
  apply (hruns M c 0 _ _ e s').trans
  -- The array is capped, so there is room for all numbers only below the cap.
  have hroom : 0 + (u.maxSize + 1) ≤ n ↔ u.maxSize < 2147483647 := by omega
  rw [hroom]
  apply and_congr_right
  intro hbound
  have hall : n = u.maxSize + 1 := by omega
  have hput : perform (.staticPut u.valuesField 1) env (s.alloc (.array (filled .ofNat (u.maxSize + 1) (u.maxSize + 1)))) =
      some (none, u.initialized s) := by
    rw [filled_self]
    simp [perform, henv, initialized, Store.alloc]
  rw [hall, Nat.zero_add, Store.setArray_alloc]
  apply (Runs.op_iff hput).trans
  exact Runs.finish_iff rfl

end

/-- The machine runs the methods of the shared class. -/
structure Linked (u : SharedUtility) (M : Machine) : Prop where
  library : HasLibrary M
  clinit : ∀ s e s', Runs M (.call .static u.clinit []) s e s' ↔ u.maxSize < 2147483647 ∧ e = .returns none ∧ s' = u.initialized s
  check : M.code u.checkNotZero = some u.checkBody
  compareTo : M.code u.compareTo = some u.compareToBody
  equals : M.code u.equals = some u.equalsBody
  ordinal : M.code u.ordinal = some u.ordinalBody
  values : M.code u.values = some (u.valuesBody 6)

/-- The methods of the shared class, where only the class initializer depends on how many constants there are. -/
def methods (u : SharedUtility) (clinit : Body) : List MethodDef := [
  { ref := u.clinit, access := clinitAccess, code := some (.body clinit) },
  { ref := u.checkNotZero, access := methodAccess, code := some (.body u.checkBody) },
  { ref := u.checkNotZeroWithMessage, access := methodAccess, code := some (.body u.checkWithMessageBody) },
  { ref := u.compareTo, access := methodAccess, code := some (.body u.compareToBody) },
  { ref := u.equals, access := methodAccess, code := some (.body u.equalsBody) },
  { ref := u.ordinal, access := methodAccess, code := some (.body u.ordinalBody) },
  { ref := u.values, access := methodAccess, code := some (.body (u.valuesBody 6)) }]

theorem exists_linked (u : SharedUtility) : ∃ shared, u.build = .ok shared ∧ ∀ M, Links M shared.methods → u.Linked M := by
  obtain ⟨clinit, is, hclinit, harguments, hblock, hfills⟩ := exists_clinit (u := u)
  refine ⟨{ type := u.type, access := classAccess, superclass := some .object,
            fields := [{ ref := u.valuesField, access := methodAccess ||| .finalFlag }], methods := u.methods clinit }, ?_, fun M hlinks => ?_⟩
  · unfold build
    rw [synthesize_eq_ok isStatic_clinitAccess hclinit, synthesize_eq_ok isStatic_methodAccess u.build_check,
      synthesize_eq_ok isStatic_methodAccess u.build_checkWithMessage, synthesize_eq_ok isStatic_methodAccess u.build_compareTo,
      synthesize_eq_ok isStatic_methodAccess u.build_equals, synthesize_eq_ok isStatic_methodAccess u.build_ordinal, u.valuesDef_eq_ok]
    rfl
  · have hcode (i : Nat) {m : MethodRef} {access : AccessFlags} {c : Body}
        (hd : (u.methods clinit)[i]? = some { ref := m, access := access, code := some (.body c) }) : M.code m = some c := by
      obtain ⟨c', hc', h⟩ := hlinks.code _ (List.mem_of_getElem? hd)
      cases hc'
      exact h
    exact ⟨hlinks.library, clinit_iff (hcode 0 rfl) harguments hblock hfills .static, hcode 1 rfl, hcode 3 rfl, hcode 4 rfl, hcode 5 rfl, hcode 6 rfl⟩

/-- The shared class has what an enum with `n` constants needs, and null is answered with an exception. -/
structure Serves (u : SharedUtility) (n : Nat) (M : Machine) : Prop where
  initializes : u.maxSize < 2147483647 → ∀ s, ∃ s', Runs M (.call .static u.clinit []) s (.returns none) s'
  ready : ∀ s e s', Runs M (.call .static u.clinit []) s e s' → e = .returns none ∧ u.Ready s'
  values : ∀ s, u.Ready s → ∀ count : Int32, count.toInt = n →
    Runs M (.call .static u.values [.int count]) s (.returns (some (.ref s.heap.length))) (s.alloc (.array (numbers n)))
  ordinal : ∀ v : Int32, 1 ≤ v.toInt → v.toInt ≤ n → ∃ i : Int32, i.toInt = v.toInt - 1 ∧
    ∀ s, Runs M (.call .static u.ordinal [.int v]) s (.returns (some (.int i))) s
  compareTo : ∀ v w : Int32, 1 ≤ v.toInt → v.toInt ≤ n → 1 ≤ w.toInt → w.toInt ≤ n → ∃ k : Int32, k.toInt = v.toInt - w.toInt ∧
    ∀ s, Runs M (.call .static u.compareTo [.int v, .int w]) s (.returns (some (.int k))) s
  equals : ∀ v w : Int32, 1 ≤ v.toInt → v.toInt ≤ n → 0 ≤ w.toInt → w.toInt ≤ n →
    ∀ s, Runs M (.call .static u.equals [.int v, .int w]) s (.returns (some (.int (if v = w then 1 else 0)))) s
  ordinal_null : ∀ s, Fails M (.call .static u.ordinal [.int 0]) s .nullPointerException
  compareTo_null : ∀ v w : Int32, v = 0 ∨ w = 0 → ∀ s, Fails M (.call .static u.compareTo [.int v, .int w]) s .nullPointerException
  equals_null : ∀ w s, Fails M (.call .static u.equals [.int 0, .int w]) s .nullPointerException

theorem Linked.serves {u : SharedUtility} {n : Nat} {M : Machine} (h : u.Linked M) (hn : n ≤ u.maxSize) : u.Serves n M := by
  have hne {v : Int32} (hv : 1 ≤ v.toInt) : v ≠ 0 := by
    rintro rfl
    simp at hv
  constructor
  case initializes =>
    intro hbound s
    exact ⟨u.initialized s, (h.clinit ..).2 ⟨hbound, rfl, rfl⟩⟩
  case ready =>
    intro s e s' hruns
    obtain ⟨-, he, rfl⟩ := (h.clinit ..).1 hruns
    exact ⟨he, ready_initialized s⟩
  case values =>
    intro s hs count hcount
    exact values_returns h.values hs hcount hn
  case ordinal =>
    intro v hv _
    exact ⟨v - 1, toInt_sub_of_pos (by omega) (by decide), ordinal_returns h.check h.ordinal (hne hv)⟩
  case compareTo =>
    intro v w hv _ hw _
    exact ⟨v - w, toInt_sub_of_pos (by omega) (by omega), compareTo_returns h.check h.compareTo (hne hv) (hne hw)⟩
  case equals =>
    intro v w hv _ _ _
    exact equals_returns h.check h.equals (hne hv) w
  case ordinal_null => exact ordinal_throws h.check h.ordinal h.library
  case compareTo_null =>
    intro v w hnull
    exact compareTo_throws h.check h.compareTo h.library hnull
  case equals_null => exact equals_throws h.check h.equals h.library

end SharedUtility

end DexShrinker
