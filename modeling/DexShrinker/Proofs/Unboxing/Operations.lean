/-
  DexShrinker/Proofs/Unboxing/Operations.lean
  ===========================================
  **What the methods of utility classes do.**

  Methods whose body depends on the constants are *ladders* (`ladder`): tests that are laid out one
  after the other, each with the block for the case that it holds. A test goes on in one of the next
  two blocks (`IsTest`) and a case ends the run (`IsCase`), so a ladder ends as the case of the first
  test that holds, whatever the number of tests (`decides_ladder`).

  Names of constants, constants with a name and values of fields come out of such ladders. Together
  with the shared class this is what an enum has (`implement_operations`).
-/
import DexShrinker.Proofs.Program
import DexShrinker.Proofs.Unboxing.SharedClass

namespace DexShrinker

open Machine Assembly

/-! ### Ladders -/

namespace Utility

/-- How a method ends that leaves the store alone. -/
inductive Result where
  | answer (x : Val)
  | failure (exception : Descriptor)

/-- The task ends like that. -/
def Ends (M : Machine) (task : Task) (s : Store) : Result → Prop
  | .answer x => Machine.Answers M task s x
  | .failure exception => Fails M task s exception

/-- A task that goes on as another one ends as that one does. -/
theorem Ends.of_steps {M : Machine} {task task' : Task} {s : Store} {effects : List Effect} {r : Result} (h : Ends M task' (s.record effects) r)
    (hsteps : ∀ e s', Runs M task' (s.record effects) e s' → Runs M task s e s') : Ends M task s r := by
  cases r with
  | answer x =>
    obtain ⟨more, hruns⟩ := h
    refine ⟨effects ++ more, ?_⟩
    rw [Store.record_append]
    exact hsteps _ _ hruns
  | failure exception =>
    obtain ⟨more, hruns⟩ := h
    refine ⟨effects ++ more, ?_⟩
    rw [Store.record_append]
    exact hsteps _ _ hruns

/-- The body has grown. -/
structure Grows (code code' : Body) : Prop where
  arguments : code'.arguments = code.arguments
  values : code.values.length ≤ code'.values.length

theorem Grows.trans {code code' code'' : Body} (h : Grows code code') (h' : Grows code' code'') : Grows code code'' :=
  ⟨h'.arguments.trans h.arguments, h.values.trans h'.values⟩

theorem grows_newValue (code : Body) (t : Descriptor) : Grows code (code.newValue t .instruction).2 :=
  ⟨rfl, by simp [Body.newValue]⟩

/-- The steps end a block of their own, and a run that comes to it ends with `r`. Value `v` exists before. -/
def IsCase (v : ValueId) (steps : Assembly Unit) (r : Result) : Prop :=
  ∀ ⦃code : Body⦄ ⦃before after : List DraftBlock⦄ (line : Line), v < code.values.length → Forward code (before ++ ({} : DraftBlock) :: after) →
    ∃ code' b, steps.Yields (.within code before {} after line) () (.within code' before b after line) ∧ b.terminator.isSome = true ∧
      Grows code code' ∧ Forward code' (before ++ b :: after) ∧
      ∀ M, HasLibrary M → ∀ (c : Body) (block : Block), c.blocks[before.length]? = some block → b.Closes block →
        ∀ way env x s, env v = some x → Ends M (.block c way before.length env) s r

/-- The steps end a block with a test of value `v`. A run goes on in the next block if it holds and in the one after that if it does not.
    The test makes sense for values that satisfy `P`. -/
def IsTest (v : ValueId) (P : Val → Prop) (steps : Assembly BlockId) (holds : Val → Bool) : Prop :=
  ∀ ⦃code : Body⦄ ⦃before : List DraftBlock⦄ (line : Line), v < code.values.length → Forward code (before ++ [({} : DraftBlock)]) →
    ∃ code' b, steps.Yields (.within code before {} [] line) (before.length + 2) (.within code' (before ++ [b]) {} [{}] line) ∧
      b.terminator.isSome = true ∧ Grows code code' ∧ Forward code' (before ++ [b, ({} : DraftBlock), {}]) ∧
      ∀ M, HasLibrary M → ∀ (c : Body) (block : Block), c.blocks[before.length]? = some block → b.Closes block →
        ∀ way env x s, env v = some x → P x → ∃ env' effects, env' v = some x ∧
          ∀ e s', Runs M (.block c (some before.length) (if holds x then before.length + 1 else before.length + 2) env') (s.record effects) e s' →
            Runs M (.block c way before.length env) s e s'

/-- The steps begin in a block of their own, which is the last one, and a run that comes to it ends with what `result` has for `v`. -/
def Decides (v : ValueId) (P : Val → Prop) (steps : Assembly Unit) (result : Val → Result) : Prop :=
  ∀ ⦃code : Body⦄ ⦃before : List DraftBlock⦄ (line : Line), v < code.values.length → Forward code (before ++ [({} : DraftBlock)]) →
    ∃ code' bs current, steps.Yields (.within code before {} [] line) () ⟨code', before ++ bs, current, line⟩ ∧
      (∀ b ∈ bs, b.terminator.isSome = true) ∧ Grows code code' ∧ Forward code' (before ++ bs) ∧
      ∀ M, HasLibrary M → ∀ c : Body, List.Forall₂ DraftBlock.Closes (before ++ bs) c.blocks →
        ∀ way env x s, env v = some x → P x → Ends M (.block c way before.length env) s (result x)

variable {v : ValueId} {P : Val → Prop}

theorem isCase_throwNew (exception : Descriptor) (message : Option ValueId) (hmessage : ∀ m ∈ message, m = v) :
    IsCase v (throwNew exception message) (.failure exception) := by
  intro code before after line hv hforward
  have hthrown := hforward.emitValue (.newInstance exception) (by simp [Op.reads]) exception line
  have hdefined : code.values.length < (code.newValue exception .instruction).2.values.length := by
    simp [Body.newValue]
  have hargs : ∀ m ∈ code.values.length :: message.toList, m < (code.newValue exception .instruction).2.values.length := by
    intro m hm
    rcases List.mem_cons.1 hm with rfl | hm
    · exact hdefined
    · rw [hmessage m (Option.mem_toList.1 hm)]
      exact hv.trans hdefined
  have hforward' := (hthrown.emit (.invoke .direct (initException exception message) (code.values.length :: message.toList) false)
    hargs line).terminate (t := .throw code.values.length) (by simpa [Terminator.reads] using hdefined) (by simp [Terminator.successors]) line
  refine ⟨_, _, yields_throwNew exception message, rfl, grows_newValue code exception, hforward', ?_⟩
  rintro M hlibrary c block hblock ⟨t, line, hterminator, rfl⟩ way env x s henv
  cases hterminator
  have hdata : message.toList.mapM env = some (message.toList.map fun _ => x) := by
    cases message with
    | none => rfl
    | some m => simp [hmessage m rfl, henv]
  exact ⟨_, .block hblock rfl rfl (runs_throwNew hlibrary message hdata (fun m hm => (hmessage m hm).trans_ne (Nat.ne_of_lt hv)) s)⟩

theorem isCase_ret (op : Op) {x : Val} (hreads : op.reads = []) (hop : ∀ env s, perform op env s = some (some x, s)) (t : Descriptor) :
    IsCase v (do ret (some (← emitValue op t))) (.answer x) := by
  intro code before after line hv hforward
  have hforward' := (hforward.emitValue op (by simp [hreads]) t line).terminate (t := .ret (some code.values.length))
    (by simp [Terminator.reads, Body.newValue]) (by simp [Terminator.successors]) line
  refine ⟨_, _, (yields_emitValue op t).bind (yields_terminate _), rfl, grows_newValue code t, hforward', ?_⟩
  rintro M hlibrary c block hblock ⟨t, line, hterminator, rfl⟩ way env y s henv
  cases hterminator
  have hend : ending? (.ret (some code.values.length)) (env.define code.values.length x) = some (.returns (some x)) := by simp [ending?]
  exact ⟨[], .block hblock rfl rfl (.op (hop env s) (s.record_nil.symm ▸ .finish hend))⟩

theorem Decides.of_case {steps : Assembly Unit} {r : Result} (h : IsCase v steps r) : Decides v P steps fun _ => r := by
  intro code before line hv hforward
  obtain ⟨code', b, hsteps, hterminator, hgrows, hforward', hends⟩ := h line hv hforward
  refine ⟨code', [b], before.length, hsteps, by simpa using hterminator, hgrows, hforward', ?_⟩
  intro M hlibrary c hblocks way env x s henv _
  obtain ⟨block, hblock, hcloses⟩ := exists_of_getElem?_left hblocks (i := before.length) (x := b) (by simp)
  exact hends M hlibrary c block hblock hcloses way env x s henv

theorem Decides.rung {P' : Val → Prop} {test : Assembly BlockId} {case rest : Assembly Unit} {holds : Val → Bool} {r : Result}
    {result : Val → Result} (htest : IsTest v P test holds) (hcase : IsCase v case r) (hrest : Decides v P' rest result)
    (hP : ∀ x, P x → holds x = false → P' x) :
    Decides v P (do
      let miss ← test
      case
      switchTo miss
      rest) fun x => if holds x then r else result x := by
  intro code before line hv hforward
  obtain ⟨code₁, b₁, hsteps₁, hclosed₁, hgrows₁, hforward₁, hruns₁⟩ := htest line hv hforward
  rw [List.append_cons] at hforward₁
  obtain ⟨code₂, b₂, hsteps₂, hclosed₂, hgrows₂, hforward₂, hruns₂⟩ := hcase line (hv.trans_le hgrows₁.values) hforward₁
  rw [List.append_cons] at hforward₂
  obtain ⟨code₃, bs, current, hsteps₃, hclosed₃, hgrows₃, hforward₃, hruns₃⟩ :=
    hrest line (hv.trans_le (hgrows₁.trans hgrows₂).values) hforward₂
  simp only [List.append_assoc, List.cons_append, List.nil_append] at hsteps₃ hforward₃ hruns₃
  refine ⟨code₃, b₁ :: b₂ :: bs, current, ?_, ?_, (hgrows₁.trans hgrows₂).trans hgrows₃, hforward₃, ?_⟩
  · apply hsteps₁.bind
    apply hsteps₂.bind
    apply (yields_switchTo (by simp)).bind
    simpa using hsteps₃
  · simpa [hclosed₁, hclosed₂] using hclosed₃
  · intro M hlibrary c hblocks way env x s henv hx
    obtain ⟨block₁, hblock₁, hcloses₁⟩ := exists_of_getElem?_left hblocks (i := before.length) (x := b₁) (by simp)
    obtain ⟨block₂, hblock₂, hcloses₂⟩ := exists_of_getElem?_left hblocks (i := before.length + 1) (x := b₂) (by simp)
    obtain ⟨env', effects, henv', hsteps⟩ := hruns₁ M hlibrary c block₁ hblock₁ hcloses₁ way env x s henv hx
    refine Ends.of_steps ?_ hsteps
    dsimp only
    cases hholds : holds x with
    | true =>
      rw [if_pos rfl, if_pos rfl]
      simpa using hruns₂ M hlibrary c block₂ (by simpa using hblock₂) hcloses₂ (some before.length) env' x (s.record effects) henv'
    | false =>
      rw [if_neg nofun, if_neg nofun]
      simpa using hruns₃ M hlibrary c hblocks (some before.length) env' x (s.record effects) henv' (hP x hx hholds)

/-- Tests that are laid out one after the other, each with the block for the case that it holds. -/
def ladder {α : Type} (test : α → Assembly BlockId) (case : α → Assembly Unit) (last : Assembly Unit) : List α → Assembly Unit
  | [] => last
  | a :: rest => do
    let miss ← test a
    case a
    switchTo miss
    ladder test case last rest

/-- **A ladder decides for the first test that holds.** -/
theorem decides_ladder {α : Type} {test : α → Assembly BlockId} {case : α → Assembly Unit} {last : Assembly Unit} {holds : α → Val → Bool}
    {r : α → Result} {result : Val → Result} (htest : ∀ a, IsTest v P (test a) (holds a)) (hcase : ∀ a, IsCase v (case a) (r a))
    (hlast : Decides v P last result) (as : List α) :
    Decides v P (ladder test case last as) fun x => ((as.find? (holds · x)).map r).getD (result x) := by
  induction as with
  | nil => exact hlast
  | cons a as ih =>
    have h := Decides.rung (htest a) (hcase a) ih fun x hx _ => hx
    have hfind : (fun x => ((((a :: as).find? (holds · x)).map r).getD (result x))) =
        fun x => if holds a x then r a else ((as.find? (holds · x)).map r).getD (result x) := by
      funext x
      rw [List.find?_cons]
      cases holds a x <;> rfl
    rw [hfind]
    exact h

/-! The rungs of the ladders. -/

theorem forward_fork {code : Body} {before : List DraftBlock} {b : DraftBlock} (h : Forward code (before ++ [b])) :
    Forward code (before ++ b :: [({} : DraftBlock), {}]) := by simpa using h.newBlock.newBlock

theorem forward_branch {code : Body} {before : List DraftBlock} {b : DraftBlock} (h : Forward code (before ++ b :: [({} : DraftBlock), {}]))
    {kind : Comparison} {type : ComparedType} {lhs : ValueId} {rhs : Option ValueId} (hlhs : lhs < code.values.length)
    (hrhs : ∀ w ∈ rhs, w < code.values.length) (line : Line) :
    Forward code (before ++ { b with terminator := some (.branch kind type lhs rhs (before.length + 2), line) } :: [({} : DraftBlock), {}]) := by
  apply h.terminate
  · intro w hw
    rcases List.mem_cons.1 hw with rfl | hw
    · exact hlhs
    · exact hrhs w (Option.mem_toList.1 hw)
  · intro target htarget
    rw [Terminator.successors, if_neg (by simp)] at htarget
    rcases List.mem_pair.1 htarget with rfl | rfl
    · simp
    · simp

/-- A branch that does not go to its target if the test holds. -/
theorem runs_branch {M : Machine} {c : Body} {k : BlockId} {t : Terminator} {env : Locals} {s s' : Store} {e : Ending} {holds misses : Bool}
    (hnext : next? t k env = some (if misses then k + 2 else k + 1)) (hmisses : misses = !holds)
    (hruns : Runs M (.block c (some k) (if holds then k + 1 else k + 2) env) s e s') : Runs M (.code c k t [] env) s e s' := by
  subst hmisses
  apply Runs.jump hnext
  cases holds with
  | true => exact hruns
  | false => exact hruns

theorem isTest_number (k : Int32) :
    IsTest v (fun x => ∃ i, x = .int i) (unlessHolds .ne .int v (some <$> constInt k)) fun x => x == .int k := by
  intro code before line hv hforward
  have hnumber := (forward_fork hforward).emitValue (.constInt k) (by simp [Op.reads]) .int line
  have hsteps : (some <$> constInt k).Yields (.within code before {} [{}, {}] line) _ _ :=
    (yields_emitValue (.constInt k) .int).bind (yields_pure (some code.values.length) _)
  have hgrows := grows_newValue code .int
  refine ⟨_, _, yields_unlessHolds rfl hsteps, rfl, hgrows, forward_branch hnumber (hv.trans_le hgrows.values) ?_ line, ?_⟩
  · simp [Body.newValue]
  rintro M hlibrary c block hblock ⟨t, line, hterminator, rfl⟩ way env x s henv ⟨i, rfl⟩
  cases hterminator
  have hvalue : env.define code.values.length (.int k) v = some (.int i) := by rw [env.define_of_ne (Nat.ne_of_lt hv), henv]
  have hcompare : compare? .ne .int (.int i) (.int k) = some (i != k) := rfl
  have hnext := next?_branch hvalue (env.define_self _ _) hcompare (before.length + 2) before.length
  refine ⟨_, [], hvalue, fun e s' hruns => ?_⟩
  rw [Store.record_nil] at hruns
  apply Runs.block hblock rfl rfl
  apply Runs.op rfl
  exact runs_branch hnext (congrArg (!·) (Bool.eq_iff_iff.2 (by simp))) hruns

/-- Nothing but null is equal to null. -/
theorem isTest_null : IsTest v P (unlessHolds .ne .object v (pure none)) fun x => x == .null := by
  intro code before line hv hforward
  refine ⟨code, _, yields_unlessHolds rfl (yields_pure none _), rfl, ⟨rfl, Nat.le_refl _⟩, forward_branch (forward_fork hforward) hv (by simp) line, ?_⟩
  rintro M hlibrary c block hblock ⟨t, line, hterminator, rfl⟩ way env x s henv -
  cases hterminator
  have hcompare : compare? .ne .object x (zero .object) = some (x != .null) := rfl
  have hnext := next?_branch_zero henv hcompare (before.length + 2) before.length
  refine ⟨env, [], henv, fun e s' hruns => ?_⟩
  rw [Store.record_nil] at hruns
  apply Runs.block hblock rfl rfl
  exact runs_branch hnext rfl hruns

theorem onConstantFrom_eq_ladder {α : Type} (value : ValueId) (case : α → Assembly Unit) (ordinal : Nat) (as : List α) :
    onConstantFrom value case ordinal as = ladder (fun p : α × Nat => unlessHolds .ne .int value (some <$> constInt (unboxedValue (.ofNat p.2))))
      (fun p => case p.1) (throwNew .nullPointerException none) (as.zipIdx ordinal) := by
  induction as generalizing ordinal with
  | nil => rfl
  | cons a as ih =>
    rw [onConstantFrom, List.zipIdx_cons, ladder, ih]

/-- Compare the value with a text. -/
def textTest (v : ValueId) (t : String) : Assembly BlockId := do
  let hit ← newBlock
  let miss ← newBlock
  let candidate ← constString t
  let isEqual ← invoke .virtual LocalUtility.textEquals [candidate, v]
  terminate (.branch .eq .int (isEqual.getD candidate) none miss)
  switchTo hit
  return miss

section

variable (v : ValueId) (t : String) (code : Body) (before : List DraftBlock) (line : Line)

/-- The body with the values of the test. -/
def textCode : Body := ((code.newValue .string .instruction).2.newValue .boolean .instruction).2

/-- The block that ends with the test. -/
def textBlock : DraftBlock where
  body := [⟨some code.values.length, .constString t, line⟩,
    ⟨some (code.values.length + 1), .invoke .virtual LocalUtility.textEquals [code.values.length, v] false, line⟩]
  terminator := some (.branch .eq .int (code.values.length + 1) none (before.length + 2), line)

theorem length_newValue (t : Descriptor) : (code.newValue t .instruction).2.values.length = code.values.length + 1 := List.length_append

theorem length_textCode : (textCode code).values.length = code.values.length + 2 := by
  rw [textCode, length_newValue, length_newValue]

theorem yields_textTest : (textTest v t).Yields (.within code before {} [] line) (before.length + 2)
    (.within (textCode code) (before ++ [textBlock v t code before line]) {} [{}] line) := by
  rw [textBlock, ← length_newValue code .string]
  apply (yields_newBlock (k := before.length + 1) rfl).bind
  apply (yields_newBlock (k := before.length + 2) rfl).bind
  apply (yields_emitValue (.constString t) .string).bind
  apply (yields_invoke rfl _).bind
  apply (yields_terminate _).bind
  apply (yields_switchTo rfl).bind
  exact yields_pure _ _

variable {v code before}

theorem forward_textTest (hv : v < code.values.length) (h : Forward code (before ++ [({} : DraftBlock)])) :
    Forward (textCode code) (before ++ [textBlock v t code before line, ({} : DraftBlock), {}]) := by
  have hcandidate := (forward_fork h).emitValue (.constString t) (by simp [Op.reads]) .string line
  have hargs : ∀ w ∈ [code.values.length, v], w < (code.newValue .string .instruction).2.values.length := by
    intro w hw
    rw [length_newValue]
    rcases List.mem_pair.1 hw with rfl | rfl
    · exact Nat.lt_succ_self _
    · exact hv.trans (Nat.lt_succ_self _)
  have hisEqual := hcandidate.emitValue (.invoke .virtual LocalUtility.textEquals [code.values.length, v] false) hargs .boolean line
  rw [length_newValue] at hisEqual
  exact forward_branch hisEqual (by rw [length_newValue, length_newValue]; simp) (by simp) line

end

theorem isTest_text (t : String) : IsTest v (fun x => ∃ t, x = .text t) (textTest v t) fun x => x == .text t := by
  intro code before line hv hforward
  have hgrows : Grows code (textCode code) := ⟨rfl, by rw [length_textCode]; exact Nat.le_add_right _ _⟩
  refine ⟨_, _, yields_textTest v t code before line, rfl, hgrows, forward_textTest t line hv hforward, ?_⟩
  rintro M hlibrary c block hblock ⟨_, line, hterminator, rfl⟩ way env x s henv ⟨t', rfl⟩
  cases hterminator
  let env' := env.define code.values.length (.text t)
  have hself : env' code.values.length = some (.text t) := env.define_self _ _
  have hvalue : env' v = some (.text t') := (env.define_of_ne (Nat.ne_of_lt hv) _).trans henv
  have hvalue' (answer : Val) : env'.define (code.values.length + 1) answer v = some (.text t') := by
    rw [env'.define_of_ne (Nat.ne_of_lt (hv.trans (Nat.lt_succ_self _))), hvalue]
  have hdata : [code.values.length, v].mapM env' = some [.text t, .text t'] := by
    rw [List.mapM_cons, List.mapM_cons, hvalue, hself]
    rfl
  have hcompare : compare? .eq .int (.int (if t = t' then 1 else 0)) (zero .int) = some (decide (t ≠ t')) := by
    by_cases heq : t = t'
    · simp [heq, compare?, zero, Comparison.holds]
    · simp [heq, compare?, zero, Comparison.holds]
  have hmisses : decide (t ≠ t') = !(Val.text t' == .text t) := by
    by_cases heq : t = t'
    · simp [heq]
    · simp [heq, Ne.symm heq]
  have hnext := next?_branch_zero (env'.define_self (code.values.length + 1) _) hcompare (before.length + 2) before.length
  refine ⟨_, [.call .virtual LocalUtility.textEquals [.text t, .text t']], hvalue' (.int (if t = t' then 1 else 0)), fun e s' hruns => ?_⟩
  obtain ⟨hcode, hanswer⟩ := hlibrary.textEquals
  apply Runs.block hblock rfl rfl
  apply Runs.op rfl
  apply Runs.invoke hdata (.answer hcode (hanswer t t'))
  exact runs_branch hnext hmisses hruns

theorem matchName_eq_ladder (name : ValueId) (cs : List EnumConstant) :
    LocalUtility.matchName name cs = ladder (fun c => textTest name c.name) (fun c => do ret (some (← constInt (unboxedValue c.ordinal))))
      (throwNew .illegalArgumentException (some name)) cs := by
  induction cs with
  | nil => rfl
  | cons c cs ih =>
    rw [LocalUtility.matchName, ladder, ih]
    simp only [textTest, bind_assoc, pure_bind]

/-! ### Methods that decide -/

/-- A method that decides for its argument. -/
theorem exists_synthesize {m : MethodRef} (hm : (m.argumentTypes true).length = 1) (steps : ValueId → Assembly Unit) {result : Val → Result}
    (h : Decides 0 P (steps 0) result) :
    ∃ d, synthesize m methodAccess (do steps (← argument 0)) = .ok d ∧
      ∀ M, Links M [d] → ∀ x, P x → ∀ s, Ends M (.call .static m [x]) s (result x) := by
  have hlength : (Body.empty m true).values.length = 1 := by simp [Body.empty, Body.withArguments, hm]
  have harguments : (Body.empty m true).arguments = [0] := by simp [Body.empty, Body.withArguments, hm]
  have hstart : Forward (Body.empty m true) ([] ++ [({} : DraftBlock)]) := Forward.start m true
  obtain ⟨code, bs, current, hsteps, hclosed, hgrows, hforward, hends⟩ := h 0 (hlength ▸ Nat.one_pos) hstart
  have hargument : (argument 0).Yields (Draft.start m true) 0 (Draft.start m true) := yields_argument (by
    rw [Draft.start, harguments]
    rfl)
  obtain ⟨c, hbuild, hblocks, hc⟩ := exists_build (hargument.bind hsteps) hforward hclosed
  refine ⟨_, synthesize_eq_ok isStatic_methodAccess hbuild, fun M hlinks x hx s => ?_⟩
  obtain ⟨c', hcode', hcode⟩ := hlinks.code _ List.mem_cons_self
  cases hcode'
  rw [hgrows.arguments, harguments] at hc
  have henv : Locals.ofArguments c.arguments [x] 0 = some x := by rw [hc]; rfl
  have hblock : Ends M (.block c none 0 (.ofArguments c.arguments [x])) (s.record []) (result x) := by
    rw [s.record_nil]
    exact hends M hlinks.library c hblocks none _ x s henv hx
  apply hblock.of_steps
  intro e s' hruns
  rw [s.record_nil] at hruns
  exact .run hcode (.body (by rw [hc]; rfl) hruns)

section

variable {α : Type} {as : List α}

theorem unboxedValue_ofNat (i : Nat) : unboxedValue (.ofNat i) = .ofNat (i + 1) := (Int32.ofNat_add i 1).symm

theorem find?_number {i : Nat} {a : α} (ha : as[i]? = some a) {number : Int32} (hnumber : number.toInt = i + 1) :
    as.zipIdx.find? (fun p => Val.int number == .int (unboxedValue (.ofNat p.2))) = some (a, i) := by
  obtain ⟨hi, rfl⟩ := List.getElem?_eq_some_iff.1 ha
  have hlt : i + 1 < 2147483648 := lt_of_toInt hnumber
  have heq : number = .ofNat (i + 1) := ofNat_of_toInt hnumber
  rw [List.find?_eq_some_iff_getElem]
  refine ⟨?_, i, by simpa using hi, by simp, fun j hj => ?_⟩
  · simp [heq, unboxedValue_ofNat]
  · have hne : Int32.ofNat (i + 1) ≠ .ofNat (j + 1) := by
      intro h
      have hint := congrArg Int32.toInt h
      rw [Int32.toInt_ofNat_of_lt hlt, Int32.toInt_ofNat_of_lt (by omega)] at hint
      omega
    simpa [heq, unboxedValue_ofNat] using hne

theorem find?_null (has : as.length ≤ 2147483648) : as.zipIdx.find? (fun p => Val.int 0 == .int (unboxedValue (.ofNat p.2))) = none := by
  rw [List.find?_eq_none]
  rintro ⟨a, i⟩ hmem h
  have hi := (List.getElem?_eq_some_iff.1 (List.mk_mem_zipIdx_iff_getElem?.1 hmem)).1
  have hzero : 0 = unboxedValue (.ofNat i) := Val.int.inj (beq_iff_eq.1 h)
  rw [unboxedValue_ofNat] at hzero
  have hint := congrArg Int32.toInt hzero
  rw [Int32.toInt_ofNat', Int.bmod] at hint
  split at hint <;> simp at hint <;> omega

/-- A method that does something for every constant. -/
theorem exists_onConstant {m : MethodRef} (hm : (m.argumentTypes true).length = 1) (as : List α) {case : α → Assembly Unit} {y : α → Val}
    (hcase : ∀ a, IsCase 0 (case a) (.answer (y a))) :
    ∃ d, synthesize m methodAccess (do onConstant (← argument 0) as case) = .ok d ∧ ∀ M, Links M [d] →
      (∀ (i : Nat) (a : α) (number : Int32), as[i]? = some a → number.toInt = i + 1 →
        ∀ s, Machine.Answers M (.call .static m [.int number]) s (y a)) ∧
      (as.length ≤ 2147483648 → ∀ s, Fails M (.call .static m [.int 0]) s .nullPointerException) := by
  have hladder := decides_ladder (P := fun x => ∃ i, x = .int i) (fun p : α × Nat => isTest_number (v := 0) (unboxedValue (.ofNat p.2))) (fun p => hcase p.1)
    (Decides.of_case (isCase_throwNew .nullPointerException none nofun)) as.zipIdx
  rw [← onConstantFrom_eq_ladder] at hladder
  obtain ⟨d, hd, hends⟩ := exists_synthesize hm (fun value => onConstant value as case) hladder
  refine ⟨d, hd, fun M hlinks => ⟨fun i a number ha hnumber s => ?_, fun has s => ?_⟩⟩
  · have h := hends M hlinks (.int number) ⟨number, rfl⟩ s
    rw [find?_number ha hnumber] at h
    exact h
  · have h := hends M hlinks (.int 0) ⟨0, rfl⟩ s
    rw [find?_null has] at h
    exact h

end

end Utility

/-! ### Local classes -/

/-- The value at run time. A number is a long if the type is or if it has to be, and null is zero where an enum became a number. -/
def StaticValue.atType (type : Descriptor) : StaticValue → Val
  | .int n => if n.toInt32.toInt64 = n && type != .long then .int n.toInt32 else .long n
  | .string t => .text t
  | .null => if type.isPrimitive then .int 0 else .null

namespace LocalUtility

open Utility

variable {l : LocalUtility}

theorem isCase_constant (v : ValueId) (type : Descriptor) (x : StaticValue) :
    IsCase v (do ret (some (← constant type x))) (.answer (x.atType type)) := by
  cases x with
  | int n =>
    by_cases h : (n.toInt32.toInt64 = n && type != .long) = true
    · rw [constant, if_pos h, StaticValue.atType, if_pos h]
      exact isCase_ret _ rfl (fun _ _ => rfl) type
    · rw [constant, if_neg h, StaticValue.atType, if_neg h]
      exact isCase_ret _ rfl (fun _ _ => rfl) type
  | string t => exact isCase_ret _ rfl (fun _ _ => rfl) .string
  | null =>
    by_cases h : type.isPrimitive = true
    · rw [constant, if_pos h, StaticValue.atType, if_pos h]
      exact isCase_ret _ rfl (fun _ _ => rfl) .int
    · rw [constant, if_neg h, StaticValue.atType, if_neg h]
      exact isCase_ret _ rfl (fun _ _ => rfl) type

/-- The number of a constant. -/
theorem unboxedValue_eq {ordinal number : Int32} (h : number.toInt = ordinal.toInt + 1) : unboxedValue ordinal = number := by
  have hlt := number.toInt_lt
  have hle := ordinal.le_toInt
  rw [← Int32.toInt_inj, unboxedValue, Int32.toInt_add, h]
  exact Int.bmod_eq_of_le (by simp; omega) (by simp; omega)

theorem decides_valueOf (cs : List EnumConstant) :
    Decides 0 (fun x => x = .null ∨ ∃ t, x = .text t) (do
      let first ← unlessHolds .ne .object 0 (pure none)
      throwNew .nullPointerException none
      switchTo first
      matchName 0 cs) fun x => if x == .null then .failure .nullPointerException else
        ((cs.find? (x == .text ·.name)).map fun c => .answer (.int (unboxedValue c.ordinal))).getD (.failure .illegalArgumentException) := by
  have hladder := decides_ladder (fun c : EnumConstant => isTest_text (v := 0) c.name)
    (fun c => isCase_ret (.constInt (unboxedValue c.ordinal)) rfl (fun _ _ => rfl) .int)
    (Decides.of_case (isCase_throwNew .illegalArgumentException (some 0) (by simp))) cs
  have hcase := isCase_throwNew (v := 0) .nullPointerException none nofun
  rw [matchName_eq_ladder]
  exact Decides.rung isTest_null hcase hladder fun x hx hnull => hx.resolve_left (by simpa using hnull)

/-- `$name` has the names of the constants, and `valueOf` finds a constant by its name. -/
structure Serves (l : LocalUtility) (d : EnumData) (M : Machine) : Prop where
  name : ∀ c ∈ d.constants, ∀ number : Int32, number.toInt = c.ordinal.toInt + 1 →
    ∀ s, Machine.Answers M (.call .static l.nameMethod [.int number]) s (.text c.name)
  name_null : ∀ s, Fails M (.call .static l.nameMethod [.int 0]) s .nullPointerException
  valueOf : ∀ c ∈ d.constants, ∀ number : Int32, number.toInt = c.ordinal.toInt + 1 →
    ∀ s, Machine.Answers M (.call .static l.valueOf [.text c.name]) s (.int number)
  valueOf_null : ∀ s, Fails M (.call .static l.valueOf [.null]) s .nullPointerException
  valueOf_other : ∀ t, (∀ c ∈ d.constants, c.name ≠ t) → ∀ s, Fails M (.call .static l.valueOf [.text t]) s .illegalArgumentException

/-- The getter has the value of the field in every constant. -/
structure Gets (l : LocalUtility) (f : FieldRef) (type : Descriptor) (values : List StaticValue) (M : Machine) : Prop where
  value : ∀ (i : Nat) (x : StaticValue) (number : Int32), values[i]? = some x → number.toInt = i + 1 →
    ∀ s, Machine.Answers M (.call .static (l.getter f type) [.int number]) s (x.atType type)
  null : values.length ≤ 2147483648 → ∀ s, Fails M (.call .static (l.getter f type) [.int 0]) s .nullPointerException

/-- There are at most as many ordinals as numbers that are not negative. -/
theorem length_le {d : EnumData} (hordinals : ∀ (i : Nat) (c : EnumConstant), d.constants[i]? = some c → c.ordinal.toInt = i) :
    d.constants.length ≤ 2147483648 := by
  by_contra hlt
  obtain ⟨c, hc⟩ : ∃ c, d.constants[2147483648]? = some c := ⟨_, List.getElem?_eq_getElem (by omega)⟩
  have htoInt := hordinals 2147483648 c hc
  have hlt := c.ordinal.toInt_lt
  omega

theorem exists_getterDef (f : FieldRef) (type : Descriptor) (values : List StaticValue) :
    ∃ d, l.getterDef f type values = .ok d ∧ ∀ M, Links M [d] → l.Gets f type values M := by
  obtain ⟨d, hd, hends⟩ := exists_onConstant (m := l.getter f type) rfl values (isCase_constant 0 type)
  refine ⟨d, hd, fun M hlinks => ?_⟩
  obtain ⟨hvalue, hnull⟩ := hends M hlinks
  exact ⟨hvalue, hnull⟩

theorem exists_serves {d : EnumData} (hordinals : ∀ (i : Nat) (c : EnumConstant), d.constants[i]? = some c → c.ordinal.toInt = i)
    (hnames : (d.constants.map EnumConstant.name).Nodup) :
    ∃ name valueOf, l.nameDef d = .ok name ∧ l.valueOfDef d = .ok valueOf ∧ ∀ M, Links M [name] → Links M [valueOf] → l.Serves d M := by
  obtain ⟨name, hname, hname'⟩ := exists_onConstant (m := l.nameMethod) rfl d.constants fun c : EnumConstant =>
    isCase_ret (v := 0) (.constString c.name) rfl (fun _ _ => rfl) .string
  obtain ⟨valueOf, hvalueOf, hvalueOf'⟩ := exists_synthesize (m := l.valueOf) rfl (fun name => do
    let first ← unlessHolds .ne .object name (pure none)
    throwNew .nullPointerException none
    switchTo first
    matchName name d.constants) (decides_valueOf d.constants)
  refine ⟨name, valueOf, hname, hvalueOf, fun M hlinks hlinks' => ?_⟩
  obtain ⟨hanswers, hfails⟩ := hname' M hlinks
  replace hvalueOf' := hvalueOf' M hlinks'
  constructor
  case name =>
    intro c hc number hnumber
    obtain ⟨i, hi⟩ := List.getElem?_of_mem hc
    exact hanswers i c number hi (hordinals i c hi ▸ hnumber)
  case name_null => exact hfails (length_le hordinals)
  case valueOf =>
    intro c hc number hnumber s
    have h := hvalueOf' (.text c.name) (.inr ⟨c.name, rfl⟩) s
    have hfind : d.constants.find? (Val.text c.name == .text ·.name) = some c := by
      rw [← find?_of_nodup hnames hc]
      congr 1
      funext c'
      rw [Bool.eq_iff_iff, beq_iff_eq, beq_iff_eq, Val.text.injEq, eq_comm]
    rw [hfind, if_neg (by simp)] at h
    rw [← unboxedValue_eq hnumber]
    exact h
  case valueOf_null =>
    intro s
    exact hvalueOf' .null (.inl rfl) s
  case valueOf_other =>
    intro t ht s
    have h := hvalueOf' (.text t) (.inr ⟨t, rfl⟩) s
    have hfind : d.constants.find? (Val.text t == .text ·.name) = none := by
      rw [List.find?_eq_none]
      intro c hc heq
      exact ht c hc (Val.text.inj (beq_iff_eq.1 heq)).symm
    rw [hfind, if_neg (by simp)] at h
    exact h

end LocalUtility

/-! ### All of it -/

namespace Utility

theorem Links.mono {M : Machine} {methods methods' : List MethodDef} (h : Links M methods) (hsub : ∀ d ∈ methods', d ∈ methods) : Links M methods' :=
  ⟨h.library, fun d hd => h.code d (hsub d hd)⟩

/-- Methods whose names differ can run. -/
theorem links_ofMethods {methods : List MethodDef} (hrefs : (methods.map MethodDef.ref).Nodup) (hcode : ∀ d ∈ methods, d.code.map Code.isPacked = some false)
    (hlibrary : ∀ d ∈ methods, d.ref.isInstanceInitializer = false ∧ d.ref ≠ LocalUtility.textEquals) : Links (ofMethods methods library) methods := by
  have hnone {m : MethodRef} (hm : ∀ d ∈ methods, d.ref ≠ m) : (ofMethods methods library).code m = none := by
    have hfind : methods.find? (·.ref == m) = none := List.find?_eq_none.2 fun d hd heq => hm d hd (beq_iff_eq.1 heq)
    simp [ofMethods, hfind]
  refine ⟨⟨fun m hm => ⟨hnone ?_, fun args => ?_⟩, hnone fun d hd => (hlibrary d hd).2, fun a b => ?_⟩, fun d hd => ?_⟩
  · rintro d hd rfl
    exact Bool.noConfusion ((hlibrary d hd).1.symm.trans hm)
  · simp [ofMethods, library, hm]
  · simp [ofMethods, library, LocalUtility.textEquals, MethodRef.isInstanceInitializer, MethodRef.initName]
  · obtain ⟨c, hc⟩ : ∃ c, d.code = some (.body c) := by
      obtain ⟨code, hcode, hpacked⟩ := Option.map_eq_some_iff.1 (hcode d hd)
      cases code with
      | body c => exact ⟨c, hcode⟩
      | packed _ => cases hpacked
    refine ⟨c, hc, ?_⟩
    simp [ofMethods, find?_of_nodup hrefs hd, hc]

namespace Suits

def suit (ordinal : Int32) (name : String) : EnumConstant := ⟨⟨⟨"LSuit;"⟩, name, ⟨"LSuit;"⟩⟩, ordinal, name⟩

def isRed : FieldRef := ⟨⟨"LSuit;"⟩, "isRed", .boolean⟩

def data : EnumData where
  constants := [suit 0 "HEARTS", suit 1 "SPADES"]
  fieldValues := (∅ : FieldMap (List StaticValue)).insert isRed [.int 1, .int 0]

/-- There is another enum with three constants. -/
def shared : SharedUtility := ⟨⟨"LShared;"⟩, 3⟩

def suits : LocalUtility := ⟨⟨"LSuits;"⟩⟩

def methods : List MethodDef :=
  match suits.nameDef data, suits.valueOfDef data, suits.getterDef isRed .boolean [.int 1, .int 0], shared.build with
  | .ok name, .ok valueOf, .ok getter, .ok c => getter :: name :: valueOf :: c.methods
  | _, _, _, _ => []

theorem links_methods : Links (ofMethods methods library) methods :=
  links_ofMethods (by decide +kernel) (by decide +kernel) (by decide +kernel)

end Suits

/-- **Utility classes have the operations of enums.** They are always put together, and whatever runs their methods runs the operations. -/
theorem implement_operations {u : SharedUtility} {l : LocalUtility} {d : EnumData} (hsize : d.size ≤ u.maxSize)
    (hordinals : ∀ (i : Nat) (c : EnumConstant), d.constants[i]? = some c → c.ordinal.toInt = i) (hnames : (d.constants.map EnumConstant.name).Nodup) :
    ∃ shared name valueOf, u.build = .ok shared ∧ l.nameDef d = .ok name ∧ l.valueOfDef d = .ok valueOf ∧
      (∀ M, Links M (name :: valueOf :: shared.methods) → u.Serves d.size M ∧ l.Serves d M) ∧
      ∀ (f : FieldRef) (values : List StaticValue), d.fieldValues[f]? = some values → ∀ type, ∃ getter, l.getterDef f type values = .ok getter ∧
        ∀ M, Links M [getter] → l.Gets f type values M := by
  obtain ⟨shared, hshared, hlinked⟩ := u.exists_linked
  obtain ⟨name, valueOf, hname, hvalueOf, hserves⟩ := LocalUtility.exists_serves (l := l) hordinals hnames
  refine ⟨shared, name, valueOf, hshared, hname, hvalueOf, fun M hlinks => ⟨?_, ?_⟩, fun f values hvalues type => ?_⟩
  · have hmethods : Links M shared.methods := hlinks.mono fun d hd => List.mem_cons_of_mem _ (List.mem_cons_of_mem _ hd)
    exact (hlinked M hmethods).serves hsize
  · exact hserves M (hlinks.mono (by simp)) (hlinks.mono (by simp))
  · exact LocalUtility.exists_getterDef f type values

/-- An enum with two constants and a field: the numbers after the class initializer, the constant with a name, and the value of the field. -/
theorem implement_operations_suits : Suits.data.size ≤ Suits.shared.maxSize ∧
    (∀ (i : Nat) (c : EnumConstant), Suits.data.constants[i]? = some c → c.ordinal.toInt = i) ∧
    (Suits.data.constants.map EnumConstant.name).Nodup ∧
    (∀ s, ∃ s', Runs (ofMethods Suits.methods library) (.call .static Suits.shared.clinit []) s (.returns none) s' ∧
      Runs (ofMethods Suits.methods library) (.call .static Suits.shared.values [.int 2]) s' (.returns (some (.ref s'.heap.length)))
        (s'.alloc (.array [1, 2]))) ∧
    (∀ s, Machine.Answers (ofMethods Suits.methods library) (.call .static Suits.suits.valueOf [.text "SPADES"]) s (.int 2)) ∧
    ∀ s, Machine.Answers (ofMethods Suits.methods library) (.call .static (Suits.suits.getter Suits.isRed .boolean) [.int 2]) s (.int 0) := by
  have hsize : Suits.data.size ≤ Suits.shared.maxSize := by decide
  have hordinals : ∀ (i : Nat) (c : EnumConstant), Suits.data.constants[i]? = some c → c.ordinal.toInt = i
    | 0, _, rfl => rfl
    | 1, _, rfl => rfl
  have hnames : (Suits.data.constants.map EnumConstant.name).Nodup := by decide
  have hfield : Suits.data.fieldValues[Suits.isRed]? = some [.int 1, .int 0] := by decide +kernel
  obtain ⟨c, name, valueOf, hc, hname, hvalueOf, hserves, hgetters⟩ := implement_operations (l := Suits.suits) hsize hordinals hnames
  obtain ⟨getter, hgetter, hgets⟩ := hgetters Suits.isRed _ hfield .boolean
  have hmethods : Suits.methods = getter :: name :: valueOf :: c.methods := by rw [Suits.methods, hname, hvalueOf, hgetter, hc]
  have hgetter' := hgets _ (Suits.links_methods.mono (by simp [hmethods]))
  obtain ⟨hshared, hlocal⟩ := hserves _ (Suits.links_methods.mono (by simp +contextual [hmethods]))
  refine ⟨hsize, hordinals, hnames, fun s => ?_, hlocal.valueOf (Suits.suit 1 "SPADES") (by decide) 2 rfl, hgetter'.value 1 (.int 0) 2 rfl rfl⟩
  obtain ⟨s', hruns⟩ := hshared.initializes (by decide) s
  exact ⟨s', hruns, hshared.values s' (hshared.ready s _ s' hruns).2 2 rfl⟩

end Utility

end DexShrinker
