/-
  DexShrinker/Proofs/Unboxing/Summaries.lean
  ==========================================
  **Summaries of initializers are exact.**

  An initializer that has a summary returns whenever it is called. On the way it calls the
  initializer of the base class once, with the name and the ordinal of the summary, and the last
  value that it stores to a field of the new object is the one the summary has for the field. It
  does nothing else.

  The proof goes through an initializer as `InitSummary.walk` does: what was found out so far
  describes the effects so far, and a value that the walk can trace is the value at run time
  (`Reached`). A call of another initializer adds the effects that the summary of the callee
  describes, read with the arguments of the call, and in single-assignment form every argument can
  be traced, so no write gets lost (`exists_compose`). Rounds keep that all summaries are exact.
-/
import DexShrinker.Proofs.Body.Machine
import DexShrinker.Proofs.Body.Verify
import DexShrinker.Proofs.Flow.Scan
import DexShrinker.Proofs.Packed.Pack
import DexShrinker.Proofs.Program
import DexShrinker.Unboxing.Initializers

namespace DexShrinker

open Std Machine

/-! ### What summaries say -/

/-- The value for a call with the given arguments. A number does not say how wide it is. -/
inductive InitValue.Denotes (args : List Val) : InitValue → Val → Prop
  | argument {i : Nat} {x : Val} (h : args[i]? = some x) : Denotes args (.argument i) x
  | int (n : Int32) : Denotes args (.int n.toInt64) (.int n)
  | long (n : Int64) : Denotes args (.int n) (.long n)
  | string (t : String) : Denotes args (.string t) (.text t)
  | null : Denotes args .null .null

theorem InitValue.Denotes.toInt64_eq {args : List Val} {n : Int64} {k : Int32} (h : Denotes args (.int n) (.int k)) : k.toInt64 = n := by
  cases h
  rfl

namespace Machine

def Effect.isCall : Effect → Bool
  | .call .. => true
  | .put .. => false

/-- The value that is stored to the field. -/
def Effect.put? (f : FieldRef) : Effect → Option Val
  | .put g _ x => if g = f then some x else none
  | .call .. => none

/-- The last value that is stored to the field. -/
def lastPut (f : FieldRef) (effects : List Effect) : Option Val := effects.reverse.findSome? (Effect.put? f)

theorem lastPut_append (f : FieldRef) (effects more : List Effect) : lastPut f (effects ++ more) = (lastPut f more).or (lastPut f effects) := by
  rw [lastPut, List.reverse_append, List.findSome?_append]
  rfl

end Machine

namespace InitSummary

/-- One call of the initializer of the base class, with this name and this ordinal. -/
def CallsBase (this : Nat) (args : List Val) (ordinal name : Option InitValue) (effects : List Effect) : Prop :=
  ∃ x y, Option.Rel (InitValue.Denotes args) name (some x) ∧ Option.Rel (InitValue.Denotes args) ordinal (some y) ∧
    effects.filter Effect.isCall = [.call .direct baseInitializer [.ref this, x, y]]

/-- The stores are to the object at `this`, and the last one to a field is that of the given writes. -/
structure Writes (this : Nat) (args : List Val) (writes : FieldMap InitValue) (effects : List Effect) : Prop where
  receiver : ∀ f object x, .put f object x ∈ effects → object = .ref this
  last : ∀ f, Option.Rel (InitValue.Denotes args) writes[f]? (lastPut f effects)

/-- The effects are what the summary says of a call for the object at `this`. -/
structure Describes (s : InitSummary) (this : Nat) (args : List Val) (effects : List Effect) : Prop where
  base : CallsBase this args s.ordinal s.name effects
  writes : Writes this args s.writes effects

/-- **Whatever it is called with, the initializer returns and does what the summary says.** -/
def IsExact (s : InitSummary) (M : Machine) (c : Body) : Prop :=
  ∀ this rest store, List.length rest + 1 = c.arguments.length → ∃ effects, s.Describes this (.ref this :: rest) effects ∧
    ∀ e store', Runs M (.body c (.ref this :: rest)) store e store' ↔
      e = .returns none ∧ store' = store.record effects

end InitSummary

/-! ### Initializers -/

/-- Every instruction reads what is there before: the given values, and those of earlier instructions. -/
def Instr.InOrder (there : List ValueId) : List Instr → Prop
  | [] => True
  | i :: is => (∀ v ∈ i.op.reads, v ∈ there) ∧ InOrder (i.dest.toList ++ there) is

instance Instr.decidableInOrder : (there : List ValueId) → (is : List Instr) → Decidable (InOrder there is)
  | _, [] => .isTrue trivial
  | there, i :: is =>
    have := decidableInOrder (i.dest.toList ++ there) is
    inferInstanceAs (Decidable ((∀ v ∈ i.op.reads, v ∈ there) ∧ InOrder (i.dest.toList ++ there) is))

/-- The body of the first initializer of the class with a reference. -/
def ClassDef.initializer? (c : ClassDef) (m : MethodRef) : Option Body :=
  match (c.instanceInitializers.find? (·.ref == m)).map MethodDef.decoded with
  | some (.ok body) => body
  | _ => none

namespace InitSummary

/-- A machine that runs the initializers of a class. That of the base class is not among them, and returns. -/
def machine (c : ClassDef) : Machine where
  code m := if m = baseInitializer then none else c.initializer? m
  answer _ _ := some none

theorem machine_code_base (c : ClassDef) : (machine c).code baseInitializer = none := by simp [machine]

theorem machine_code_own {c : ClassDef} {m : MethodRef} (hm : m ≠ baseInitializer) : (machine c).code m = c.initializer? m := by simp [machine, hm]

/-- The body of an initializer: well formed and in single-assignment form, its arguments are those of
    the method, nothing is read before its definition in the entry block, which has no phis, and calls of
    initializers have as many arguments as those take. -/
structure Regular (m : MethodRef) (c : Body) : Prop where
  verified : c.verify = .ok ()
  assignment : c.SingleAssignment
  arguments : ∀ v i, c.IsArgument v i ↔ c.arguments[i]? = some v
  arity : c.arguments.length = m.proto.arity + 1
  entry : ∀ b, c.blocks[0]? = some b → b.phis = [] ∧ Instr.InOrder c.arguments b.body
  calls : ∀ b ∈ c.blocks, ∀ i ∈ b.body, ∀ kind callee args itf, i.op = .invoke kind callee args itf →
    callee.isInstanceInitializer = true → args.length = callee.proto.arity + 1

/-! ### Where values come from -/

theorem Regular.wellFormed {m : MethodRef} {c : Body} (h : Regular m c) : c.WellFormed := Body.verify_eq_ok_iff.1 h.verified

end InitSummary

/-- The value of a constant. -/
def Op.initValue? : Op → Option InitValue
  | .constInt n => some (.int n.toInt64)
  | .constLong n => some (.int n)
  | .constString t => some (.string t)
  | .constNull => some .null
  | _ => none

theorem Op.exists_perform {op : Op} {n : InitValue} (h : op.initValue? = some n) (args : List Val) (env : Locals) (s : Store) :
    ∃ x, perform op env s = some (some x, s) ∧ n.Denotes args x := by
  cases op with
  | constInt k =>
    cases h
    exact ⟨.int k, rfl, .int k⟩
  | constLong k =>
    cases h
    exact ⟨.long k, rfl, .long k⟩
  | constString t =>
    cases h
    exact ⟨.text t, rfl, .string t⟩
  | constNull =>
    cases h
    exact ⟨.null, rfl, .null⟩
  | _ => cases h

namespace InitSummary

theorem trace_of_argument {m : MethodRef} {c : Body} (h : Regular m c) (defs : Definitions) {v : ValueId} {i : Nat}
    (hv : c.arguments[i]? = some v) : trace c defs v = .ok (some (.argument i)) := by
  obtain ⟨t, ht⟩ := (h.arguments v i).2 hv
  have hentry : entryOr c.values v (.valueOutOfRange v) = .ok ⟨t, .argument i⟩ := by rw [entryOr, ht]
  rw [trace, hentry]
  rfl

theorem trace_of_dest {m : MethodRef} {c : Body} (h : Regular m c) {i : Instr} (hi : i ∈ c.blocks.flatMap Block.body) {v : ValueId}
    (hdest : i.dest = some v) : v ∉ c.arguments ∧ trace c (.ofBody c) v = .ok i.op.initValue? := by
  have hblocks : v ∈ c.blocks.flatMap Block.defs := Body.Defines.mem_defs ⟨i, hi, hdest, rfl⟩
  have hnodup := h.assignment.nodup
  rw [Body.defs, List.nodup_append] at hnodup
  have hnot : v ∉ c.arguments := fun hmem => hnodup.2.2 v hmem v hblocks rfl
  refine ⟨hnot, ?_⟩
  have hlt : v < c.values.length := h.wellFormed.defsInRange v (List.mem_append_right _ hblocks)
  have hentry : entryOr c.values v (.valueOutOfRange v) = .ok c.values[v] := by rw [entryOr, List.getElem?_eq_getElem hlt]
  have hget : (Definitions.ofBody c)[v]? = some i.op := Scan.Site.getElem?_foldl_define (hnodup.2.1.sublist c.filterMap_dest_sublist) hi hdest
  rw [trace, hentry, ok_bind]
  split
  · next j horigin =>
    refine absurd (List.mem_of_getElem? ((h.arguments v j).1 ⟨c.values[v].type, ?_⟩)) hnot
    rw [List.getElem?_eq_getElem hlt, ← horigin]
  · rw [Definitions.constant?, hget]
    cases i.op <;> rfl

/-! ### Calls of other initializers -/

theorem exists_mapM_eq_some {α β : Type} {f : α → Option β} {P : α → β → Prop} {xs : List α} (h : ∀ x ∈ xs, ∃ y, f x = some y ∧ P x y) :
    ∃ ys, xs.mapM f = some ys ∧ List.Forall₂ P xs ys := by
  induction xs with
  | nil => exact ⟨[], rfl, .nil⟩
  | cons x xs ih =>
    obtain ⟨⟨y, hy, hp⟩, hrest⟩ := List.forall_mem_cons.1 h
    obtain ⟨ys, hys, hforall⟩ := ih hrest
    refine ⟨y :: ys, ?_, .cons hp hforall⟩
    rw [List.mapM_cons, hy, hys]
    rfl

section

variable {source : ValueId → Guarded (Option InitValue)} {vs : List ValueId} {data args : List Val} {env : Locals} {this : Nat}
  {effects : List Effect}

/-- The caller knows where each argument comes from, and what it is. -/
def Traced (source : ValueId → Guarded (Option InitValue)) (args : List Val) (v : ValueId) (x : Val) : Prop :=
  ∃ n, source v = .ok (some n) ∧ n.Denotes args x

/-- What the callee says of its arguments, the caller can say of its own. -/
theorem exists_passed (hvs : List.Forall₂ (Traced source args) vs data) {n : InitValue} {x : Val} (h : n.Denotes data x) :
    ∃ n', passed source vs n = .ok (some n') ∧ n'.Denotes args x := by
  cases h with
  | argument hget =>
    obtain ⟨v, hv, n', hn', hdenotes⟩ := exists_of_getElem?_right hvs hget
    refine ⟨n', ?_, hdenotes⟩
    simp only [passed, hv]
    exact hn'
  | int k => exact ⟨_, rfl, .int k⟩
  | long k => exact ⟨_, rfl, .long k⟩
  | string t => exact ⟨_, rfl, .string t⟩
  | null => exact ⟨_, rfl, .null⟩

theorem exists_passed? (hvs : List.Forall₂ (Traced source args) vs data) {n : Option InitValue} {x : Val}
    (h : Option.Rel (InitValue.Denotes data) n (some x)) :
    ∃ n', passed? source vs n = .ok (some n') ∧ n'.Denotes args x := by
  cases h with
  | some h => exact exists_passed hvs h

/-- A map denotes what its entries do, one by one. -/
theorem rel_ofList {R : InitValue → Val → Prop} {last : FieldRef → Option Val} {writes : FieldMap InitValue}
    {entries : List (FieldRef × InitValue)} (h : List.Forall₂ (fun x y => y.1 = x.1 ∧ Option.Rel R (some y.2) (last x.1)) writes.toList entries)
    (hnone : ∀ f, writes[f]? = none → last f = none) (f : FieldRef) : Option.Rel R (TreeMap.ofList entries : FieldMap InitValue)[f]? (last f) := by
  have hkeys : entries.map Prod.fst = writes.toList.map Prod.fst := by
    rw [← List.forall₂_eq_eq_eq, List.forall₂_map_left_iff, List.forall₂_map_right_iff]
    exact h.flip.imp fun x y hxy => hxy.1
  cases hf : writes[f]? with
  | none =>
    have hnot : (entries.map Prod.fst).contains f = false := by
      rw [hkeys, TreeMap.map_fst_toList_eq_keys]
      simpa using hf
    rw [TreeMap.getElem?_ofList_of_contains_eq_false hnot, hnone f hf]
    exact .none
  | some n =>
    obtain ⟨⟨g, n'⟩, hmem, heq, hrel⟩ := exists_of_mem_left h (TreeMap.mem_toList_iff_getElem?_eq_some.2 hf)
    dsimp only at heq hrel
    subst heq
    have hdistinct : entries.Pairwise fun a b => ¬ compare a.1 b.1 = .eq := by
      rw [← List.pairwise_map (f := Prod.fst) (R := fun a b => ¬ compare a b = .eq), hkeys, List.pairwise_map]
      exact TreeMap.distinct_keys_toList
    rw [TreeMap.getElem?_ofList_of_mem (compare_self (a := g)) hdistinct hmem]
    exact hrel

/-- **The composed summary describes the call of the callee, for the caller.** -/
theorem exists_compose {s : InitSummary} (hs : s.Describes this data effects)  (hvs : List.Forall₂ (Traced source args) vs data) :
    ∃ s', compose s vs source = .ok (some s') ∧ s'.Describes this args effects := by
  obtain ⟨x, y, hname, hordinal, hcalls⟩ := hs.base
  obtain ⟨name, hpassName, hx⟩ := exists_passed? hvs hname
  obtain ⟨ordinal, hpassOrdinal, hy⟩ := exists_passed? hvs hordinal
  have hwrites : ∀ w ∈ s.writes.toList, ∃ w', (do return (← passed source vs w.2).map fun n => (w.1, n) : Guarded _) = .ok (some w') ∧
      w'.1 = w.1 ∧ Option.Rel (InitValue.Denotes args) (some w'.2) (lastPut w.1 effects) := by
    rintro ⟨f, n⟩ hmem
    have hrel := hs.writes.last f
    rw [TreeMap.mem_toList_iff_getElem?_eq_some.1 hmem] at hrel
    generalize lastPut f effects = last at hrel ⊢
    cases hrel with
    | some hn =>
      obtain ⟨n', hn', hdenotes⟩ := exists_passed hvs hn
      refine ⟨(f, n'), ?_, rfl, .some hdenotes⟩
      rw [hn']
      rfl
  obtain ⟨entries, hentries, hforall⟩ := exists_filterMapM_eq_ok hwrites
  refine ⟨⟨some ordinal, some name, .ofList entries⟩, ?_, ⟨x, y, .some hx, .some hy, hcalls⟩, hs.writes.receiver, ?_⟩
  · unfold compose
    rw [hpassOrdinal, ok_bind]
    dsimp only
    rw [hpassName, ok_bind]
    dsimp only
    rw [hentries]
    rfl
  · apply rel_ofList hforall
    intro f hnone
    have hrel := hs.writes.last f
    rw [hnone] at hrel
    cases h : lastPut f effects with
    | none => rfl
    | some x =>
      rw [h] at hrel
      cases hrel

end

/-! ### One instruction -/

section

variable {source : ValueId → Guarded (Option InitValue)} {receiver : ValueId} {this : Nat} {args : List Val} {there : List ValueId}
  {env : Locals} {p p' : Progress} {effects more : List Effect} {writes writes' : FieldMap InitValue} {ordinal name : Option InitValue}

theorem CallsBase.append (h : effects.filter Effect.isCall = []) (hmore : CallsBase this args ordinal name more) :
    CallsBase this args ordinal name (effects ++ more) := by
  obtain ⟨x, y, hx, hy, hcalls⟩ := hmore
  refine ⟨x, y, hx, hy, ?_⟩
  rw [List.filter_append, h, hcalls]
  rfl

theorem rel_or {α β : Type} {R : α → β → Prop} {a a' : Option α} {b b' : Option β} (h : Option.Rel R a b) (h' : Option.Rel R a' b') :
    Option.Rel R (a.or a') (b.or b') := by
  cases h with
  | none => exact h'
  | some h => exact .some h

theorem getElem?_insertMany (writes writes' : FieldMap InitValue) (f : FieldRef) :
    (writes.insertMany writes'.toList)[f]? = writes'[f]?.or writes[f]? := by
  cases hf : writes'[f]? with
  | none =>
    have hnot : (writes'.toList.map Prod.fst).contains f = false := by
      rw [TreeMap.map_fst_toList_eq_keys]
      simpa using hf
    exact TreeMap.getElem?_insertMany_list_of_contains_eq_false hnot
  | some n =>
    exact TreeMap.getElem?_insertMany_list_of_mem (compare_self (a := f)) TreeMap.distinct_keys_toList
      (TreeMap.mem_toList_iff_getElem?_eq_some.2 hf)

/-- Later stores win. -/
theorem Writes.append (h : Writes this args writes effects) (hmore : Writes this args writes' more) :
    Writes this args (writes.insertMany writes'.toList) (effects ++ more) where
  receiver f object x hmem := by
    rcases List.mem_append.1 hmem with hmem | hmem
    · exact h.receiver f object x hmem
    · exact hmore.receiver f object x hmem
  last f := by
    rw [getElem?_insertMany, lastPut_append]
    exact rel_or (hmore.last f) (h.last f)

theorem Writes.put (h : Writes this args writes effects) {n : InitValue} {x : Val} (hn : n.Denotes args x) (f : FieldRef) :
    Writes this args (writes.insert f n) (effects ++ [.put f (.ref this) x]) where
  receiver g object y hmem := by
    rcases List.mem_append.1 hmem with hmem | hmem
    · exact h.receiver g object y hmem
    · cases List.mem_singleton.1 hmem
      rfl
  last g := by
    rw [lastPut_append, TreeMap.getElem?_insert]
    by_cases hg : f = g
    · subst hg
      rw [if_pos (compare_self (a := f))]
      simpa [lastPut, Effect.put?] using Option.Rel.some hn
    · rw [if_neg fun heq => hg (LawfulEqOrd.eq_of_compare heq)]
      simpa [lastPut, Effect.put?, hg] using h.last g

theorem Writes.call (h : Writes this args writes effects) (kind : InvokeKind) (m : MethodRef) (data : List Val) :
    Writes this args writes (effects ++ [.call kind m data]) where
  receiver f object x hmem := by
    rcases List.mem_append.1 hmem with hmem | hmem
    · exact h.receiver f object x hmem
    · cases List.mem_singleton.1 hmem
  last f := by
    rw [lastPut_append]
    exact h.last f

/-- What was found out so far describes the effects so far. -/
structure Progress.Describes (p : Progress) (this : Nat) (args : List Val) (effects : List Effect) : Prop where
  pending : p.head = none → effects.filter Effect.isCall = []
  settled : ∀ ordinal name, p.head = some (ordinal, name) → CallsBase this args ordinal name effects
  writes : Writes this args p.writes effects

/-- The receiver is the new object, and a value that can be traced is what it was traced to. -/
structure Agrees (source : ValueId → Guarded (Option InitValue)) (receiver : ValueId) (this : Nat) (args : List Val)
    (there : List ValueId) (env : Locals) : Prop where
  receiver_mem : receiver ∈ there
  receiver : env receiver = some (.ref this)
  sound : ∀ v ∈ there, ∀ n, source v = .ok (some n) → ∃ x, env v = some x ∧ n.Denotes args x

/-- How far a run has come, and the walk with it. Before the call of the other initializer every value
    can be traced. -/
structure Reached (source : ValueId → Guarded (Option InitValue)) (receiver : ValueId) (this : Nat) (args : List Val)
    (there : List ValueId) (env : Locals) (p : Progress) (effects : List Effect) : Prop where
  agrees : Agrees source receiver this args there env
  complete : p.head = none → ∀ v ∈ there, ∃ n, source v = .ok (some n)
  progress : p.Describes this args effects

theorem Agrees.assign (h : Agrees source receiver this args there env) {dest : Option ValueId} {x : Option Val}
    (hfresh : ∀ v, dest = some v → v ∉ there)
    (hsound : ∀ v, dest = some v → ∀ n, source v = .ok (some n) → ∃ y, x = some y ∧ n.Denotes args y) :
    Agrees source receiver this args (dest.toList ++ there) (env.assign dest x) := by
  cases dest with
  | none => exact h
  | some v =>
    have hold (w : ValueId) (hw : w ∈ there) : env.assign (some v) x w = env w := by
      cases x with
      | none => rfl
      | some x => exact env.define_of_ne (fun heq : w = v => hfresh v rfl (heq ▸ hw)) x
    refine ⟨List.mem_cons_of_mem v h.receiver_mem, (hold _ h.receiver_mem).trans h.receiver, fun w hw n hn => ?_⟩
    rcases List.mem_cons.1 hw with rfl | hw
    · obtain ⟨y, rfl, hy⟩ := hsound w rfl n hn
      exact ⟨y, env.define_self w y, hy⟩
    · rw [hold w hw]
      exact h.sound w hw n hn

/-- What is read before the call of the other initializer is known. -/
theorem Reached.exists_data (h : Reached source receiver this args there env p effects) (hhead : p.head = none) {vs : List ValueId}
    (hvs : ∀ v ∈ vs, v ∈ there) :
    ∃ data, vs.mapM env = some data ∧ List.Forall₂ (fun v x => env v = some x ∧ Traced source args v x) vs data := by
  apply exists_mapM_eq_some
  intro v hv
  obtain ⟨n, hn⟩ := h.complete hhead v (hvs v hv)
  obtain ⟨x, hx, hdenotes⟩ := h.agrees.sound v (hvs v hv) n hn
  exact ⟨x, hx, hx, n, hn, hdenotes⟩

/-- An instruction that stands in order, in single-assignment form. -/
structure Placed (source : ValueId → Guarded (Option InitValue)) (there : List ValueId) (i : Instr) : Prop where
  reads : ∀ v ∈ i.op.reads, v ∈ there
  fresh : ∀ v, i.dest = some v → v ∉ there
  source : ∀ v, i.dest = some v → source v = .ok i.op.initValue?
  results : i.dest.isSome = i.op.hasResult
  calls : ∀ kind m vs itf, i.op = .invoke kind m vs itf → m.isInstanceInitializer = true → vs.length = m.proto.arity + 1

/-- Every summary that is known so far is exact. -/
def Known (c : ClassDef) (known : MethodMap InitSummary) : Prop :=
  ∀ m s, known[m]? = some s → ∃ body, c.initializer? m = some body ∧ Regular m body ∧ s.IsExact (machine c) body

/-- Running the instruction leads from one state to the other. -/
def Leads (M : Machine) (i : Instr) (env : Locals) (store : Store) (env' : Locals) (store' : Store) : Prop :=
  ∀ c b t is e store'', Runs M (.code c b t is env') store' e store'' → Runs M (.code c b t (i :: is) env) store e store''

variable {c : ClassDef} {known : MethodMap InitSummary} {enum : Descriptor} {i : Instr}

/-- The call of an initializer. -/
theorem exists_delegate (hknown : Known c known) (h : Reached source receiver this args there env p effects) (hhead : p.head = none)
    {m : MethodRef} {vs : List ValueId} (hreads : ∀ v ∈ vs, v ∈ there) (hreceiver : vs.head? = some receiver)
    (harity : vs.length = m.proto.arity + 1) (hstep : delegate enum known source p m vs = .ok (.ok p')) (store : Store) :
    ∃ data more, vs.mapM env = some data ∧ Runs (machine c) (.call .direct m data) store (.returns none) (store.record more) ∧
      p'.head ≠ none ∧ p'.Describes this args (effects ++ more) := by
  obtain ⟨data, hdata, htraced⟩ := h.exists_data hhead hreads
  have hpending := h.progress.pending hhead
  unfold delegate at hstep
  split at hstep
  · next hbase =>
    subst hbase
    obtain ⟨v, w, rfl⟩ : ∃ v w, vs = [receiver, v, w] := by
      match vs, harity, hreceiver with
      | [_, v, w], _, rfl => exact ⟨v, w, rfl⟩
    obtain ⟨this', x, y, rfl, ⟨hthis, -⟩, ⟨-, name, hname, hx⟩, ⟨-, ordinal, hordinal, hy⟩⟩ : ∃ this' x y, data = [this', x, y] ∧
        (env receiver = some this' ∧ Traced source args receiver this') ∧ (env v = some x ∧ Traced source args v x) ∧
        (env w = some y ∧ Traced source args w y) := by
      cases htraced with
      | cons h₀ htraced =>
        cases htraced with
        | cons h₁ htraced =>
          cases htraced with
          | cons h₂ htraced =>
            cases htraced
            exact ⟨_, _, _, rfl, h₀, h₁, h₂⟩
    cases hthis.symm.trans h.agrees.receiver
    refine ⟨_, _, hdata, .answer (machine_code_base c) rfl, ?_⟩
    simp only [List.getElem?_cons_succ, List.getElem?_cons_zero, hname, hordinal, ok_bind] at hstep
    cases hstep
    refine ⟨nofun, nofun, ?_, h.progress.writes.call _ _ _⟩
    rintro _ _ heq
    cases heq
    exact .append hpending ⟨x, y, .some hx, .some hy, rfl⟩
  · next hbase =>
    split at hstep
    · split at hstep
      · cases hstep
      · next s hs =>
        obtain ⟨body, hbody, hregular, hexact⟩ := hknown m s hs
        obtain ⟨rest, rfl⟩ : ∃ rest, data = .ref this :: rest := by
          cases htraced with
          | nil => cases hreceiver
          | cons hx =>
            cases hreceiver
            cases hx.1.symm.trans h.agrees.receiver
            exact ⟨_, rfl⟩
        obtain ⟨more, hmore, hruns⟩ := hexact this rest store (by rw [hregular.arity, ← harity]; exact htraced.length_eq.symm)
        obtain ⟨s', hcompose, hs'⟩ := exists_compose hmore (htraced.imp fun _ _ hx => hx.2)
        rw [hcompose, ok_bind] at hstep
        cases hstep
        refine ⟨_, more, hdata, .run ((machine_code_own hbase).trans hbody) ((hruns _ _).2 ⟨rfl, rfl⟩), nofun, nofun, ?_,
          h.progress.writes.append hs'.writes⟩
        rintro _ _ heq
        cases heq
        exact .append hpending hs'.base
    · cases hstep

/-- What a step can be. -/
theorem step_cases {op : Op} (h : step enum known receiver source p op = .ok (.ok p')) :
    (∃ n, op.initValue? = some n ∧ p' = p) ∨ (op = .debugPosition ∧ p' = p) ∨
      (∃ m vs itf, op = .invoke .direct m vs itf ∧ m.isInstanceInitializer = true ∧ vs.head? = some receiver ∧ p.head = none ∧
        delegate enum known source p m vs = .ok (.ok p')) ∨
      ∃ f v n, op = .instancePut f receiver v ∧ source v = .ok (some n) ∧ p' = { p with writes := p.writes.insert f n } := by
  unfold step at h
  split at h
  · cases h
    exact .inr (.inl ⟨rfl, rfl⟩)
  · cases h
    exact .inl ⟨_, rfl, rfl⟩
  · cases h
    exact .inl ⟨_, rfl, rfl⟩
  · cases h
    exact .inl ⟨_, rfl, rfl⟩
  · cases h
    exact .inl ⟨_, rfl, rfl⟩
  · next m vs itf =>
    split at h
    · next hcond =>
      simp only [Bool.and_eq_true, beq_iff_eq, Option.isNone_iff_eq_none] at hcond
      exact .inr (.inr (.inl ⟨m, vs, itf, rfl, hcond.1.1, hcond.1.2, hcond.2, h⟩))
    · cases h
  · next f object v =>
    split at h
    · next hcond =>
      simp only [Bool.and_eq_true, beq_iff_eq] at hcond
      obtain ⟨rfl, -⟩ := hcond
      obtain ⟨n, hn, h⟩ := bind_eq_ok.1 h
      cases n with
      | none => cases h
      | some n =>
        cases h
        exact .inr (.inr (.inr ⟨f, v, n, rfl, hn, rfl⟩))
    · cases h
  · cases h

/-- No single step settles an initializer. -/
theorem step_ne_supported (op : Op) (s : InitSummary) : step enum known receiver source p op ≠ .ok (.error (.supported s)) := by
  intro h
  unfold step at h
  split at h
  case h_6 =>
    split at h
    · unfold delegate at h
      split at h
      · dsimp only at h
        split at h
        all_goals
          obtain ⟨name, -, h⟩ := bind_eq_ok.1 h
          split at h
          all_goals
            obtain ⟨ordinal, -, h⟩ := bind_eq_ok.1 h
            split at h <;> cases h
      · split at h
        · split at h
          · cases h
          · obtain ⟨r, -, h⟩ := bind_eq_ok.1 h
            cases r <;> cases h
        · cases h
    · cases h
  case h_7 =>
    split at h
    · obtain ⟨r, -, h⟩ := bind_eq_ok.1 h
      cases r <;> cases h
    · cases h
  all_goals cases h

/-- An instruction that shows others nothing leaves the effects as they are. -/
theorem Reached.silent (h : Reached source receiver this args there env p effects) (hi : Placed source there i) {x : Option Val}
    (hsound : ∀ n, i.op.initValue? = some n → ∃ y, x = some y ∧ n.Denotes args y)
    (hcomplete : ∀ v, i.dest = some v → i.op.initValue?.isSome = true) :
    Reached source receiver this args (i.dest.toList ++ there) (env.assign i.dest x) p effects := by
  refine ⟨h.agrees.assign hi.fresh fun v hv n hn => ?_, fun hhead v hv => ?_, h.progress⟩
  · have hsource := (hi.source v hv).symm.trans hn
    exact hsound n (Except.ok.inj hsource)
  · rcases List.mem_append.1 hv with hv | hv
    · obtain ⟨n, hn⟩ := Option.isSome_iff_exists.1 (hcomplete v (Option.mem_toList.1 hv))
      exact ⟨n, by rw [hi.source v (Option.mem_toList.1 hv), hn]⟩
    · exact h.complete hhead v hv

/-- **One instruction.** The walk and the run go on together. -/
theorem exists_step (hknown : Known c known) (h : Reached source receiver this args there env p effects) (hi : Placed source there i)
    (hstep : step enum known receiver source p i.op = .ok (.ok p')) (store : Store) :
    ∃ env' more, Reached source receiver this args (i.dest.toList ++ there) env' p' (effects ++ more) ∧
      Leads (machine c) i env store env' (store.record more) := by
  rcases step_cases hstep with ⟨n, hn, rfl⟩ | ⟨hop, rfl⟩ | ⟨m, vs, itf, hop, hinit, hreceiver, hhead, hdelegate⟩ | ⟨f, v, n, hop, hn, rfl⟩
  · -- A constant.
    obtain ⟨x, hx, hdenotes⟩ := Op.exists_perform hn args env store
    refine ⟨env.assign i.dest (some x), [], ?_, ?_⟩
    · rw [List.append_nil]
      refine h.silent hi (fun n' hn' => ?_) fun _ _ => by rw [hn]; rfl
      cases hn.symm.trans hn'
      exact ⟨x, rfl, hdenotes⟩
    · rw [Store.record_nil]
      exact fun _ _ _ _ _ _ hrest => .op hx hrest
  · -- A source position.
    have hdest : i.dest = none := by simpa [hop, Op.hasResult] using hi.results
    refine ⟨env, [], ?_, ?_⟩
    · rw [List.append_nil, hdest]
      exact h
    · rw [Store.record_nil]
      intro _ _ _ _ _ _ hrest
      refine .op (x := none) (by rw [hop]; rfl) ?_
      rwa [hdest]
  · -- The call of another initializer.
    have hreads : ∀ v ∈ vs, v ∈ there := fun v hv => hi.reads v (by rw [hop]; exact hv)
    obtain ⟨data, more, hdata, hcall, hsettled, hprogress⟩ := exists_delegate hknown h hhead hreads hreceiver (hi.calls _ _ _ _ hop hinit)
      hdelegate store
    refine ⟨env, more, ⟨?_, fun hnone => absurd hnone hsettled, hprogress⟩, ?_⟩
    · rw [← env.assign_nothing i.dest]
      refine h.agrees.assign hi.fresh fun v hv n hn => ?_
      have hsource := (hi.source v hv).symm.trans hn
      rw [hop] at hsource
      cases hsource
    · obtain ⟨dest, op, line⟩ := i
      subst hop
      intro _ _ _ _ _ _ hrest
      refine .invoke hdata hcall ?_
      rwa [Locals.assign_nothing]
  · -- A store to a field of the new object.
    have hdest : i.dest = none := by simpa [hop, Op.hasResult] using hi.results
    obtain ⟨x, hx, hdenotes⟩ := h.agrees.sound v (hi.reads v (by rw [hop]; simp [Op.reads])) n hn
    refine ⟨env, [.put f (.ref this) x], ?_, ?_⟩
    · rw [hdest]
      refine ⟨h.agrees, h.complete, fun hhead => ?_, fun ordinal name hhead => ?_, h.progress.writes.put hdenotes f⟩
      · rw [List.filter_append, h.progress.pending hhead]
        rfl
      · obtain ⟨a, b, ha, hb, hcalls⟩ := h.progress.settled ordinal name hhead
        refine ⟨a, b, ha, hb, ?_⟩
        rw [List.filter_append, hcalls]
        rfl
    · intro _ _ _ _ _ _ hrest
      refine .op (?_ : perform _ _ _ = some (none, store.record [.put f (.ref this) x])) ?_
      · rw [hop]
        simp only [perform, h.agrees.receiver, hx]
      · rwa [hdest]

/-! ### Whole initializers -/

/-- Instructions that stand in order, one after the other. -/
inductive AllPlaced (source : ValueId → Guarded (Option InitValue)) : List ValueId → List Instr → Prop
  | nil {there : List ValueId} : AllPlaced source there []
  | cons {there : List ValueId} {i : Instr} {is : List Instr} (hi : Placed source there i) (his : AllPlaced source (i.dest.toList ++ there) is) :
      AllPlaced source there (i :: is)

theorem allPlaced_of_regular {m : MethodRef} {body : Body} (h : Regular m body) {b : Block} (hb : body.blocks[0]? = some b) :
    AllPlaced (trace body (.ofBody body)) body.arguments b.body := by
  have hmem : b ∈ body.blocks := List.mem_of_getElem? hb
  have hfresh : ∀ i ∈ b.body, ∀ v, i.dest = some v → v ∉ body.arguments := fun i hi v hv =>
    (trace_of_dest h (List.mem_flatMap.2 ⟨b, hmem, hi⟩) hv).1
  have hnodup : (b.body.filterMap Instr.dest).Nodup := by
    have hdefs := h.assignment.nodup
    rw [Body.defs, List.nodup_append] at hdefs
    have hsub : (b.body.filterMap Instr.dest).Sublist b.defs := List.sublist_append_right _ _
    exact (List.nodup_flatMap.1 hdefs.2.1).1 b hmem |>.sublist hsub
  -- What is there at some place are the arguments and the values of the instructions before it.
  have hall (is : List Instr) (there : List ValueId) (his : is ⊆ b.body) (horder : Instr.InOrder there is)
      (hnodup : (is.filterMap Instr.dest).Nodup) (hfresh : ∀ i ∈ is, ∀ v, i.dest = some v → v ∉ there) :
      AllPlaced (trace body (.ofBody body)) there is := by
    induction is generalizing there with
    | nil => exact .nil
    | cons i is ih =>
      have hi : i ∈ b.body := his List.mem_cons_self
      refine .cons ⟨horder.1, hfresh i List.mem_cons_self, ?_, h.assignment.results b hmem i hi, h.calls b hmem i hi⟩ ?_
      · intro v hv
        exact (trace_of_dest h (List.mem_flatMap.2 ⟨b, hmem, hi⟩) hv).2
      · refine ih _ (fun j hj => his (List.mem_cons_of_mem i hj)) horder.2 (hnodup.sublist ((List.sublist_cons_self i is).filterMap _)) ?_
        intro j hj v hv hthere
        rcases List.mem_append.1 hthere with hthere | hthere
        · rw [List.filterMap_cons_some (Option.mem_toList.1 hthere), List.nodup_cons] at hnodup
          exact hnodup.1 (List.mem_filterMap.2 ⟨j, hj, hv⟩)
        · exact hfresh j (List.mem_cons_of_mem i hj) v hv hthere
  exact hall b.body body.arguments (fun _ hi => hi) (h.entry b hb).2 hnodup hfresh

/-- **The walk describes the run.** -/
theorem exists_walk (hknown : Known c known) {is : List Instr} (his : AllPlaced source there is)
    (h : Reached source receiver this args there env p effects) {s : InitSummary}
    (hwalk : walk enum known receiver source p (is.map Instr.op) = .ok (.supported s)) (store : Store) :
    ∃ more, s.Describes this args (effects ++ more) ∧
      ∀ body b, Runs (machine c) (.code body b (.ret none) is env) store (.returns none) (store.record more) := by
  induction his generalizing env p effects store with
  | nil =>
    rw [List.map_nil, walk] at hwalk
    split at hwalk
    · next ordinal name hhead =>
      cases hwalk
      refine ⟨[], ?_, fun body b => ?_⟩
      · rw [List.append_nil]
        exact ⟨h.progress.settled ordinal name hhead, h.progress.writes⟩
      · rw [Store.record_nil]
        exact .finish rfl
    · cases hwalk
  | cons hi _ ih =>
    rw [List.map_cons, walk] at hwalk
    obtain ⟨r, hstep, hwalk⟩ := bind_eq_ok.1 hwalk
    cases r with
    | error finding =>
      cases hwalk
      exact absurd hstep (step_ne_supported _ s)
    | ok p' =>
      obtain ⟨env', first, hreached, hleads⟩ := exists_step hknown h hi hstep store
      obtain ⟨more, hdescribes, hruns⟩ := ih hreached hwalk (store.record first)
      refine ⟨first ++ more, ?_, fun body b => ?_⟩
      · rw [← List.append_assoc]
        exact hdescribes
      · rw [Store.record_append]
        exact hleads _ _ _ _ _ _ (hruns body b)

theorem lookup_zip_of_nodup {α : Type} {vs : List ValueId} (hnodup : vs.Nodup) {xs : List α} {v : ValueId} {i : Nat} (hv : vs[i]? = some v) :
    (vs.zip xs).lookup v = xs[i]? := by
  induction vs generalizing xs i with
  | nil => cases hv
  | cons w ws ih =>
    obtain ⟨hw, hws⟩ := List.nodup_cons.1 hnodup
    cases xs with
    | nil => simp
    | cons x xs =>
      rw [List.zip_cons_cons, List.lookup_cons]
      cases i with
      | zero =>
        cases hv
        simp
      | succ i =>
        have hne : (v == w) = false := by
          rw [beq_eq_false_iff_ne]
          rintro rfl
          exact hw (List.mem_of_getElem? hv)
        rw [hne]
        exact ih hws hv

/-- The state at the beginning. -/
theorem reached_start {m : MethodRef} {body : Body} (h : Regular m body) (hreceiver : body.arguments.head? = some receiver)
    (hargs : args.length = body.arguments.length) (hthis : args.head? = some (.ref this)) :
    Reached (trace body (.ofBody body)) receiver this args body.arguments (.ofArguments body.arguments args) {} [] := by
  have hnodup : body.arguments.Nodup := (List.nodup_append.1 h.assignment.nodup).1
  rw [List.head?_eq_getElem?] at hreceiver hthis
  refine ⟨⟨List.mem_of_getElem? hreceiver, (lookup_zip_of_nodup hnodup hreceiver).trans hthis, ?_⟩, fun _ => ?_, fun _ => rfl, nofun, nofun, ?_⟩
  · intro v hv n hn
    obtain ⟨i, hi⟩ := List.getElem?_of_mem hv
    cases (trace_of_argument h _ hi).symm.trans hn
    obtain ⟨hlt, -⟩ := List.getElem?_eq_some_iff.1 hi
    have hx := List.getElem?_eq_getElem (hargs ▸ hlt)
    exact ⟨_, (lookup_zip_of_nodup hnodup hi).trans hx, .argument hx⟩
  · intro v hv
    obtain ⟨i, hi⟩ := List.getElem?_of_mem hv
    exact ⟨_, trace_of_argument h _ hi⟩
  · intro f
    rw [TreeMap.getElem?_emptyc]
    exact .none

/-- **A body whose summary uses exact summaries has an exact one.** -/
theorem isExact_of_ofBody (hknown : Known c known) {m : MethodRef} {body : Body} (h : Regular m body) {s : InitSummary}
    (hs : ofBody enum known body = .ok (.supported s)) : s.IsExact (machine c) body := by
  intro this rest store hlength
  unfold ofBody at hs
  split at hs
  · next b receiver _ hblocks harguments =>
    split at hs
    · next hcond =>
      simp only [Bool.and_eq_true, decide_eq_true_eq, List.isEmpty_iff] at hcond
      have hb : body.blocks[0]? = some b := by rw [hblocks]; rfl
      have hreceiver : body.arguments.head? = some receiver := by rw [harguments]; rfl
      have hthis : (Val.ref this :: rest).head? = some (.ref this) := rfl
      have hargs : (Val.ref this :: rest).length = body.arguments.length := hlength
      have henter : enter body none 0 b.phis (.ofArguments body.arguments (.ref this :: rest)) =
          some (.ofArguments body.arguments (.ref this :: rest)) := by
        rw [(h.entry b hb).1]
        rfl
      have hstart := reached_start h hreceiver hargs hthis
      obtain ⟨more, hdescribes, hruns⟩ := exists_walk hknown (allPlaced_of_regular h hb) hstart hs store
      refine ⟨more, hdescribes, Runs.iff (.body hlength (.block hb hcond.2 henter ?_))⟩
      rw [hcond.1]
      exact hruns body 0
    · cases hs
  · cases hs

/-! ### Rounds -/

theorem Known.insert (hknown : Known c known) {m : MethodRef} {s : InitSummary} {body : Body} (hbody : c.initializer? m = some body)
    (h : Regular m body) (hs : s.IsExact (machine c) body) : Known c (known.insert m s) := by
  intro m' s' hget
  rw [TreeMap.getElem?_insert] at hget
  split at hget
  · next heq =>
    cases hget
    cases LawfulEqOrd.eq_of_compare heq
    exact ⟨body, hbody, h, hs⟩
  · exact hknown m' s' hget

/-- What waits are bodies of initializers of the class. -/
def Waits (c : ClassDef) (waiting : List (MethodRef × Body)) : Prop := ∀ x ∈ waiting, c.initializer? x.1 = some x.2 ∧ Regular x.1 x.2

theorem known_of_round {waiting still : List (MethodRef × Body)} {known' : MethodMap InitSummary} (hwaits : Waits c waiting)
    (hknown : Known c known) (h : round enum waiting known = .ok (still, known')) : Waits c still ∧ Known c known' := by
  refine foldlM_preserves (P := fun r : Round => Waits c r.1 ∧ Known c r.2) ?_ ⟨fun x hx => absurd hx List.not_mem_nil, hknown⟩ h
  rintro ⟨still, known⟩ ⟨m, body⟩ hmem r ⟨hstill, hknown⟩ hstep
  obtain ⟨hbody, hregular⟩ := hwaits _ hmem
  obtain ⟨finding, hfinding, hstep⟩ := bind_eq_ok.1 hstep
  cases finding with
  | supported s =>
    cases hstep
    exact ⟨hstill, hknown.insert hbody hregular (isExact_of_ofBody hknown hregular hfinding)⟩
  | unsupported =>
    cases hstep
    exact ⟨hstill, hknown⟩
  | pending =>
    cases hstep
    refine ⟨fun x hx => ?_, hknown⟩
    rcases List.mem_append.1 hx with hx | hx
    · exact hstill x hx
    · cases List.mem_singleton.1 hx
      exact ⟨hbody, hregular⟩

theorem known_of_rounds {waiting : List (MethodRef × Body)} {known' : MethodMap InitSummary} (hwaits : Waits c waiting)
    (hknown : Known c known) (h : rounds enum waiting known = .ok known') : Known c known' := by
  induction hlength : waiting.length using Nat.strongRecOn generalizing waiting known with
  | ind n ih =>
    rw [rounds] at h
    obtain ⟨⟨still, more⟩, hround, h⟩ := bind_eq_ok.1 h
    obtain ⟨hstill, hmore⟩ := known_of_round hwaits hknown hround
    dsimp only at h
    split at h
    · next hlt => exact ih still.length (hlength ▸ hlt) hstill hmore h rfl
    · cases h
      exact hmore

theorem initializer?_of_decoded (hrefs : (c.instanceInitializers.map MethodDef.ref).Nodup) {d : MethodDef} (hd : d ∈ c.instanceInitializers)
    {body : Body} (hbody : d.decoded = .ok (some body)) : c.initializer? d.ref = some body := by
  rw [ClassDef.initializer?, find?_of_nodup hrefs hd, Option.map_some, hbody]

theorem exists_decoded {m : MethodRef} {body : Body} (h : c.initializer? m = some body) :
    ∃ d ∈ c.instanceInitializers, d.ref = m ∧ d.decoded = .ok (some body) := by
  unfold ClassDef.initializer? at h
  split at h
  · next r hr =>
    obtain ⟨d, hd, hdecoded⟩ := Option.map_eq_some_iff.1 hr
    exact ⟨d, List.mem_of_find?_eq_some hd, by simpa using List.find?_some hd, by rw [hdecoded, h]⟩
  · cases h

/-- **The summaries that are attached to the initializers of a class are exact.** -/
theorem known_of_ofClass (hrefs : (c.instanceInitializers.map MethodDef.ref).Nodup)
    (hregular : ∀ d ∈ c.instanceInitializers, ∀ body, d.decoded = .ok (some body) → Regular d.ref body) {c' : ClassDef}
    (h : ofClass c = .ok c') : ∃ known, c' = { c with methods := attach known c.methods } ∧ Known c known := by
  obtain ⟨bodies, hbodies, h⟩ := bind_eq_ok.1 h
  obtain ⟨known, hknown, h⟩ := bind_eq_ok.1 h
  cases h
  refine ⟨known, rfl, known_of_rounds ?_ ?_ (Outcome.lift_eq_ok.1 hknown)⟩
  · rintro ⟨m, body⟩ hmem
    obtain ⟨d, hd, hx⟩ := mem_of_filterMapM hbodies _ hmem
    obtain ⟨r, hr, hx⟩ := bind_eq_ok.1 hx
    obtain ⟨body', rfl, heq⟩ : ∃ body', r = some body' ∧ (d.ref, body') = (m, body) := by
      cases r with
      | none => cases hx
      | some body' => exact ⟨body', rfl, by cases hx; rfl⟩
    cases heq
    exact ⟨initializer?_of_decoded hrefs hd hr, hregular d hd body hr⟩
  · intro m s hs
    simp at hs

end

/-! ### Programs -/

/-- **Summaries of initializers are exact.** -/
theorem isExact_of_summarizeInitializers {p q : Program} (h : p.summarizeInitializers = .ok q) {c : ClassDef}
    (hc : c ∈ p.programClasses) (henum : c.isEnum = true) (hrefs : (c.instanceInitializers.map MethodDef.ref).Nodup)
    (hregular : ∀ d ∈ c.instanceInitializers, ∀ body, d.decoded = .ok (some body) → Regular d.ref body) :
    ∃ known, q.class? c.type = some { c with methods := attach known c.methods } ∧
      ∀ m s, known[m]? = some s → ∃ d ∈ c.instanceInitializers, d.ref = m ∧
        ∃ body, d.decoded = .ok (some body) ∧ s.IsExact (machine c) body := by
  have hstep (out out' : Program) (x : ClassDef) (hx : (do return out.insert (← ofClass x) : Outcome EnumError Program) = .ok out') :
      ∃ x', ofClass x = .ok x' ∧ x'.type = x.type ∧ out' = out.insert x' := by
    obtain ⟨x', hx', heq⟩ := bind_eq_ok.1 hx
    cases heq
    refine ⟨x', hx', ?_, rfl⟩
    obtain ⟨_, -, hx'⟩ := bind_eq_ok.1 hx'
    obtain ⟨_, -, hx'⟩ := bind_eq_ok.1 hx'
    cases hx'
    rfl
  obtain ⟨c', hc', hget⟩ : ∃ c', ofClass c = .ok c' ∧ q.class? c.type = some c' := by
    refine foldlM_establishes (P := fun out : Program => ∃ c', ofClass c = .ok c' ∧ out.class? c.type = some c')
      (List.mem_filter.2 ⟨hc, henum⟩) ?_ ?_ h
    · intro out out' hout
      obtain ⟨c', hc', htype, rfl⟩ := hstep out out' c hout
      exact ⟨c', hc', by rw [Program.class?_insert, if_pos htype]⟩
    · rintro out x hx out' ⟨c', hc', hget⟩ hout
      obtain ⟨x', hx', htype, rfl⟩ := hstep out out' x hout
      refine ⟨c', hc', ?_⟩
      rw [Program.class?_insert]
      split
      · next heq =>
        have hsame := Program.eq_of_type (Program.mem_classes_of_mem_programClasses (List.mem_filter.1 hx).1)
          (Program.mem_classes_of_mem_programClasses hc) (htype.symm.trans heq)
        subst hsame
        exact congrArg some (Except.ok.inj (hx'.symm.trans hc'))
      · exact hget
  obtain ⟨known, rfl, hknown⟩ := known_of_ofClass hrefs hregular hc'
  refine ⟨known, hget, fun m s hs => ?_⟩
  obtain ⟨body, hbody, -, hexact⟩ := hknown m s hs
  obtain ⟨d, hd, href, hdecoded⟩ := exists_decoded hbody
  exact ⟨d, hd, href, body, hdecoded, hexact⟩

/-! ### Two enums -/

namespace Sample

def enum : Descriptor := ⟨"Lp/E;"⟩

def f : FieldRef := ⟨enum, "f", .int⟩
def g : FieldRef := ⟨enum, "g", .int⟩

def init : MethodRef := ⟨enum, MethodRef.initName, .void, [.string, .int]⟩
def longInit : MethodRef := ⟨enum, MethodRef.initName, .void, [.string, .int, .int]⟩

/-- An initializer with two constants. -/
def body (method : MethodRef) (instrs : List Instr) : Body where
  method := method
  isStatic := false
  arguments := List.range (method.proto.arity + 1)
  values := (method.argumentTypes false).mapIdx (fun i t => ⟨t, .argument i⟩) ++ [⟨.int, .instruction⟩]
  blocks := [{ body := instrs, terminator := .ret none }]

/-- An initializer that stores a constant. -/
def storingBody (x : FieldRef) (n : Int32) : Body := body init [
  ⟨none, .invoke .direct baseInitializer [0, 1, 2] false, 0⟩,
  ⟨some 3, .constInt n, 0⟩,
  ⟨none, .instancePut x 0 3, 0⟩]

/-- The initializer with the short list hands on its arguments and stores `5` to `g`. -/
def shortBody : Body := body init [
  ⟨none, .invoke .direct baseInitializer [0, 1, 2] false, 0⟩,
  ⟨some 3, .constInt 5, 0⟩,
  ⟨none, .instancePut g 0 3, 0⟩]

/-- The one with the long list stores to both fields, then calls the short one, and stores to `f` again. -/
def longBody : Body := body longInit [
  ⟨some 4, .constInt 7, 0⟩,
  ⟨none, .instancePut f 0 4, 0⟩,
  ⟨none, .instancePut g 0 4, 0⟩,
  ⟨none, .invoke .direct init [0, 1, 2] false, 0⟩,
  ⟨none, .instancePut f 0 3, 0⟩]

/-- This initializer defines a value twice. -/
def redefiningBody : Body := body init [
  ⟨none, .invoke .direct baseInitializer [0, 1, 2] false, 0⟩,
  ⟨some 3, .constInt 1, 0⟩,
  ⟨none, .instancePut f 0 3, 0⟩,
  ⟨some 3, .constInt 2, 0⟩]

def classDef (bodies : List Body) : ClassDef where
  type := enum
  access := .enumFlag
  superclass := some .enumBase
  fields := [⟨f, .finalFlag, none⟩, ⟨g, .finalFlag, none⟩]
  methods := bodies.map fun body => { ref := body.method, access := .constructorFlag, code := some (.body body) }

/-- A summary with its writes in order. -/
structure Row where
  name : Option InitValue
  ordinal : Option InitValue
  writes : List (FieldRef × InitValue)
deriving DecidableEq

def row (s : InitSummary) : Row := ⟨s.name, s.ordinal, s.writes.toList⟩

/-- The summaries of the initializers. -/
def outcome (bodies : List Body) : Option (List (Option Row)) :=
  match (Program.ofList [classDef bodies]).summarizeInitializers with
  | .ok q => (q.class? enum).map fun c => c.methods.map fun m => m.initSummary.map row
  | _ => none

theorem exists_summaries {bodies : List Body} {rows : List (Option Row)} (h : outcome bodies = some rows) :
    ∃ q c, (Program.ofList [classDef bodies]).summarizeInitializers = .ok q ∧ q.class? enum = some c ∧
      (c.methods.map fun m => m.initSummary.map row) = rows := by
  unfold outcome at h
  split at h
  · next q hq =>
    obtain ⟨c, hc, hrows⟩ := Option.map_eq_some_iff.1 h
    exact ⟨q, c, hq, hc, hrows⟩
  · cases h

theorem regular_body {m : MethodRef} {is : List Instr} (hverified : (body m is).verify = .ok ()) (hnodup : (body m is).defs.Nodup)
    (hresults : ∀ i ∈ is, i.dest.isSome = i.op.hasResult) (horder : Instr.InOrder (body m is).arguments is)
    (hcalls : ∀ i ∈ is, ∀ kind callee args itf, i.op = .invoke kind callee args itf → callee.isInstanceInitializer = true →
      args.length = callee.proto.arity + 1) : Regular m (body m is) where
  verified := hverified
  assignment := ⟨hnodup, by simpa [body] using hresults⟩
  arguments v i := by
    have hlength : (m.argumentTypes false).length = m.proto.arity + 1 := by simp [MethodRef.argumentTypes, Prototype.arity]
    constructor
    · rintro ⟨t, ht⟩
      rcases Nat.lt_or_ge v (m.proto.arity + 1) with hlt | hge
      · rw [body, List.getElem?_append_left (by simpa [hlength] using hlt), List.getElem?_mapIdx] at ht
        obtain ⟨_, -, heq⟩ := Option.map_eq_some_iff.1 ht
        cases heq
        simp [body, hlt]
      · rw [body, List.getElem?_append_right (by simpa [hlength] using hge)] at ht
        simp [List.getElem?_singleton] at ht
    · intro hi
      obtain ⟨hlt, rfl⟩ : i < m.proto.arity + 1 ∧ i = v := by simpa [body, List.getElem?_eq_some_iff] using hi
      refine ⟨(m.argumentTypes false).get ⟨i, hlength ▸ hlt⟩, ?_⟩
      rw [body, List.getElem?_append_left (by simpa [hlength] using hlt)]
      simp [hlength, hlt]
  arity := by simp [body]
  entry b hb := by
    cases hb
    exact ⟨rfl, horder⟩
  calls b hb := by
    cases List.mem_singleton.1 hb
    exact hcalls

theorem regular_storingBody (x : FieldRef) (n : Int32) : Regular init (storingBody x n) := by
  refine regular_body rfl (by decide : [0, 1, 2, 3].Nodup) (by simp [Op.hasResult]; rfl) ?_ ?_
  · simp [Instr.InOrder, Op.reads, body]
    decide
  · rintro i hi kind callee args itf hop -
    simp only [List.mem_cons, List.not_mem_nil, or_false] at hi
    rcases hi with rfl | rfl | rfl
    · cases hop
      rfl
    all_goals cases hop

theorem regular_shortBody : Regular init shortBody := regular_storingBody g 5

theorem regular_longBody : Regular longInit longBody := by
  refine regular_body (by decide) (by decide) (by decide) (by decide) ?_
  rintro i hi kind callee args itf hop -
  simp only [List.mem_cons, List.not_mem_nil, or_false] at hi
  rcases hi with rfl | rfl | rfl | rfl | rfl
  case inr.inr.inr.inl =>
    cases hop
    rfl
  all_goals cases hop

def delegating : ClassDef := classDef [longBody, shortBody]

theorem mem_delegating {d : MethodDef} (hd : d ∈ delegating.instanceInitializers) :
    d.ref = longInit ∧ d.decoded = .ok (some longBody) ∨ d.ref = init ∧ d.decoded = .ok (some shortBody) := by
  have hmem := (List.mem_filter.1 hd).1
  rcases List.mem_cons.1 hmem with rfl | hmem
  · exact .inl ⟨rfl, rfl⟩
  · cases List.mem_singleton.1 hmem
    exact .inr ⟨rfl, rfl⟩

/-- This class declares an initializer twice. -/
def repeating : ClassDef := classDef [storingBody f 1, storingBody f 2]

end Sample

/-- An initializer that calls another one between its own stores. -/
theorem isExact_of_summarizeInitializers_delegating : ∃ q s, (Program.ofList [Sample.delegating]).summarizeInitializers = .ok q ∧
    Sample.row s = ⟨some (.argument 1), some (.argument 2), [(Sample.f, .argument 3), (Sample.g, .int 5)]⟩ ∧
    s.IsExact (machine Sample.delegating) Sample.longBody := by
  have houtcome : Sample.outcome [Sample.longBody, Sample.shortBody] =
      some [some ⟨some (.argument 1), some (.argument 2), [(Sample.f, .argument 3), (Sample.g, .int 5)]⟩,
        some ⟨some (.argument 1), some (.argument 2), [(Sample.g, .int 5)]⟩] := by decide +kernel
  obtain ⟨q, c, hq, hc, hrows⟩ := Sample.exists_summaries houtcome
  obtain ⟨known, hget, hexact⟩ := isExact_of_summarizeInitializers (c := Sample.delegating) hq
    (Program.mem_programClasses.2 ⟨Program.class?_ofList (by decide) (List.mem_singleton.2 rfl), rfl⟩) rfl
    (by decide) fun d hd body hbody => by
      rcases Sample.mem_delegating hd with ⟨href, hdecoded⟩ | ⟨href, hdecoded⟩
      · cases hdecoded.symm.trans hbody
        exact href ▸ Sample.regular_longBody
      · cases hdecoded.symm.trans hbody
        exact href ▸ Sample.regular_shortBody
  cases hc.symm.trans hget
  change (attach known (_ :: _)).map _ = _ at hrows
  rw [attach] at hrows
  split at hrows
  · next s hs =>
    obtain ⟨d, hd, href, body, hbody, hs⟩ := hexact _ s hs
    refine ⟨q, s, hq, Option.some.inj (List.cons.inj hrows).1, ?_⟩
    rcases Sample.mem_delegating hd with ⟨-, hdecoded⟩ | ⟨hother, -⟩
    · cases hdecoded.symm.trans hbody
      exact hs
    · exact absurd (hother.symm.trans href) (by decide)
  · cases (List.cons.inj hrows).1

section

variable {c : ClassDef} {b : Body} {s : InitSummary}

/-- The call of the initializer of all enums, and a store of one to `f`. -/
def Sample.effects : List Effect := [.call .direct baseInitializer [.ref 0, .text "A", .int 0], .put Sample.f (.ref 0) (.int 1)]

/-- A body that stores one does not have a summary with a two. -/
theorem not_isExact_of_runs (harguments : b.arguments.length = 3)
    (hrun : Runs (machine c) (.body b [.ref 0, .text "A", .int 0]) {} (.returns none) (Store.record {} Sample.effects))
    (hrow : Sample.row s = ⟨some (.argument 1), some (.argument 2), [(Sample.f, .int 2)]⟩) : ¬ s.IsExact (machine c) b := by
  intro hexact
  obtain ⟨effects, hdescribes, hruns⟩ := hexact 0 [.text "A", .int 0] {} harguments.symm
  obtain rfl : Sample.effects = effects := congrArg Store.trace ((hruns _ _).1 hrun).2
  have hlast := hdescribes.writes.last Sample.f
  have hwrite : s.writes[Sample.f]? = some (.int 2) := by
    have hlist : s.writes.toList = [(Sample.f, .int 2)] := congrArg Sample.Row.writes hrow
    rw [← TreeMap.mem_toList_iff_getElem?_eq_some, hlist]
    exact List.mem_cons_self
  rw [hwrite] at hlast
  have hdenotes : InitValue.Denotes [.ref 0, .text "A", .int 0] (.int 2) (.int 1) := by
    cases hlast with
    | some h => exact h
  exact absurd hdenotes.toInt64_eq (by decide)

end

theorem redefined_value_wrong : ∃ q c s, (Program.ofList [Sample.classDef [Sample.redefiningBody]]).summarizeInitializers = .ok q ∧
    q.class? Sample.enum = some c ∧ c.methods.map MethodDef.initSummary = [some s] ∧ Sample.redefiningBody.verify = .ok () ∧
    ¬ s.IsExact (machine (Sample.classDef [Sample.redefiningBody])) Sample.redefiningBody := by
  have houtcome : Sample.outcome [Sample.redefiningBody] = some [some ⟨some (.argument 1), some (.argument 2), [(Sample.f, .int 2)]⟩] := by
    decide +kernel
  obtain ⟨q, c, hq, hc, hrows⟩ := Sample.exists_summaries houtcome
  obtain ⟨d, hmethods, hd⟩ := List.map_eq_singleton_iff.1 hrows
  obtain ⟨s, hs, hrow⟩ := Option.map_eq_some_iff.1 hd
  refine ⟨q, c, s, hq, hc, by rw [hmethods, List.map_singleton, hs], by decide, ?_⟩
  apply not_isExact_of_runs rfl _ hrow
  exact .body rfl (.block rfl rfl rfl (.invoke rfl (.answer (machine_code_base _) rfl) (.op rfl (.op rfl (.op rfl (.finish rfl))))))

theorem repeated_initializer_wrong : ∃ q c s, (Program.ofList [Sample.repeating]).summarizeInitializers = .ok q ∧
    q.class? Sample.enum = some c ∧ c.methods.map MethodDef.initSummary = [some s, none] ∧
    (∀ d ∈ Sample.repeating.instanceInitializers, ∀ body, d.decoded = .ok (some body) → Regular d.ref body) ∧
    ¬ s.IsExact (machine Sample.repeating) (Sample.storingBody Sample.f 1) := by
  have houtcome : Sample.outcome [Sample.storingBody Sample.f 1, Sample.storingBody Sample.f 2] =
      some [some ⟨some (.argument 1), some (.argument 2), [(Sample.f, .int 2)]⟩, none] := by decide +kernel
  obtain ⟨q, c, hq, hc, hrows⟩ := Sample.exists_summaries houtcome
  obtain ⟨d, ds, hmethods, hd, hds⟩ := List.map_eq_cons_iff.1 hrows
  obtain ⟨e, rfl, he⟩ := List.map_eq_singleton_iff.1 hds
  obtain ⟨s, hs, hrow⟩ := Option.map_eq_some_iff.1 hd
  refine ⟨q, c, s, hq, hc, ?_, ?_, ?_⟩
  · rw [hmethods, List.map_cons, List.map_singleton, hs, Option.map_eq_none_iff.1 he]
  · intro d hd body hbody
    rcases List.mem_cons.1 (List.mem_filter.1 hd).1 with rfl | hd
    · cases hbody
      exact Sample.regular_storingBody Sample.f 1
    · cases List.mem_singleton.1 hd
      cases hbody
      exact Sample.regular_storingBody Sample.f 2
  · apply not_isExact_of_runs rfl _ hrow
    exact .body rfl (.block rfl rfl rfl (.invoke rfl (.answer (machine_code_base _) rfl) (.op rfl (.op rfl (.finish rfl)))))

/-- Where a value is defined twice, the summary has the second value and the field gets the first one. Where
    an initializer is declared twice, the first one gets the summary of the second. -/
theorem redefined_value : (∃ q c s, (Program.ofList [Sample.classDef [Sample.redefiningBody]]).summarizeInitializers = .ok q ∧
      q.class? Sample.enum = some c ∧ c.methods.map MethodDef.initSummary = [some s] ∧ Sample.redefiningBody.verify = .ok () ∧
      ¬ s.IsExact (machine (Sample.classDef [Sample.redefiningBody])) Sample.redefiningBody) ∧
    ∃ q c s, (Program.ofList [Sample.repeating]).summarizeInitializers = .ok q ∧
      q.class? Sample.enum = some c ∧ c.methods.map MethodDef.initSummary = [some s, none] ∧
      (∀ d ∈ Sample.repeating.instanceInitializers, ∀ body, d.decoded = .ok (some body) → Regular d.ref body) ∧
      ¬ s.IsExact (machine Sample.repeating) (Sample.storingBody Sample.f 1) :=
  ⟨redefined_value_wrong, repeated_initializer_wrong⟩

end InitSummary

end DexShrinker
