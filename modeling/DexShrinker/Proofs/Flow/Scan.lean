/-
  DexShrinker/Proofs/Flow/Scan.lean
  =================================
  **What the scan finds at calls and assignments.**

  In a body where every value is defined once, the scan knows the operation that defines a
  value. So the state of a place shows every constant that a body passes or assigns there,
  and every parameter or field that it passes on (`Scan.shows_run`). Nothing that comes later takes
  this back: not the other operations of the body, not the other methods and classes, and
  not the marks on what can be called from elsewhere.
-/
import DexShrinker.Flow.Scan
import DexShrinker.Proofs.Flow.ValueState

namespace DexShrinker

open Std

/-- A program class has the field. -/
def Program.HasOwnField (p : Program) (f : FieldRef) : Prop := (p.ownClass? f.holder).isSome ∧ (p.field? f).isSome

/-- The states allow for the evidence about a place. -/
def FlowStates.Shows (s : FlowStates) (e : Evidence) : FlowSource → Prop
  | .field f => (s.fields.state f).Shows e
  | .parameter a => (s.methods.state a.method).Shows a.index e

/-- The scan does not take back that states have the property. -/
structure FlowStates.Lasting (j : Joiner) (P : FlowStates → Prop) : Prop where
  addMethod : ∀ {s : FlowStates} {m : MethodRef} {t : MethodState} {methods : MethodStates},
    s.methods.add j m t = .ok methods → P s → P { s with methods := methods }
  addField : ∀ {s : FlowStates} {f : FieldRef} {t : ValueState} {fields : FieldStates},
    s.fields.add j f t = .ok fields → P s → P { s with fields := fields }
  addAll : ∀ {s more : FlowStates} {methods : MethodStates} {fields : FieldStates},
    s.methods.addAll j more.methods = .ok methods → s.fields.addAll j more.fields = .ok fields → P s ∨ P more → P ⟨methods, fields⟩
  insertMethod : ∀ {s : FlowStates} (m : MethodRef), P s → P { s with methods := s.methods.insert m .unknown }
  setField : ∀ {s : FlowStates} (f : FieldRef), P s → P { s with fields := s.fields.setState f .unknown }

theorem FlowStates.lasting_method {j : Joiner} {Q : MethodState → Prop} (hQ : MethodState.Lasting j Q) (m : MethodRef) :
    Lasting j fun s => Q (s.methods.state m) where
  addMethod h hs := hQ.of_add h hs
  addField _ hs := hs
  addAll h _ hs := hQ.addAll h hs
  insertMethod m' hs := by
    rw [MethodStates.state_insert]
    split
    · exact hQ.unknown
    · exact hs
  setField _ hs := hs

theorem FlowStates.lasting_shows (j : Joiner) (e : Evidence) (x : FlowSource) : Lasting j (Shows · e x) := by
  cases x with
  | parameter a => exact lasting_method (MethodState.lasting_shows j a.index e) a.method
  | field f =>
    refine ⟨fun _ hs => hs, fun h hs => FieldStates.shows_of_add h hs, fun _ h hs => FieldStates.shows_addAll h hs, fun _ hs => hs,
      fun {s} g hs => ?_⟩
    change ((s.fields.setState g .unknown).state f).Shows e
    rw [FieldStates.state_setState]
    split
    · trivial
    · exact hs

/-! ### Bodies in which every value is defined once -/

namespace Body

/-- The operations of a body, block by block. -/
def operations (b : Body) : List Op := (b.blocks.flatMap Block.body).map Instr.op

/-- Some instruction defines the value by this operation. -/
def Defines (b : Body) (v : ValueId) (op : Op) : Prop :=
  ∃ i ∈ b.blocks.flatMap Block.body, i.dest = some v ∧ i.op = op

/-- The value is an argument of the method. -/
def IsArgument (b : Body) (v : ValueId) (i : Nat) : Prop := ∃ t, b.values[v]? = some ⟨t, .argument i⟩

/-- Every value is defined once: as an argument, by a phi or by an instruction. -/
structure DefinedOnce (b : Body) : Prop where
  nodup : (b.blocks.flatMap Block.defs).Nodup
  not_argument : ∀ v ∈ b.blocks.flatMap Block.defs, ∀ i, ¬ b.IsArgument v i

/-- The value is this constant. -/
def IsInteger (b : Body) (v : ValueId) (n : Int64) : Prop :=
  b.Defines v (.constLong n) ∨ ∃ k : Int32, b.Defines v (.constInt k) ∧ k.toInt64 = n

/-- The value is the bitwise or of a parameter and a constant. -/
def IsOr (b : Body) (v : ValueId) (i : Nat) (c : Int64) : Prop :=
  ∃ t lhs rhs, b.Defines v (.binary .or t lhs rhs) ∧
    (b.IsArgument lhs i ∧ b.IsInteger rhs c ∨ b.IsArgument rhs i ∧ b.IsInteger lhs c)

/-- The body gives evidence about a value. -/
inductive Tells (p : Program) (b : Body) (v : ValueId) : Evidence → Prop
  | integer {n : Int64} (h : b.IsInteger v n) : Tells p b v (.value n)
  | argument {i : Nat} (h : b.IsArgument v i) : Tells p b v (.flow (.source (.parameter ⟨b.method, i⟩)))
  | read {f : FieldRef} (h : b.Defines v (.staticGet f)) (hf : p.HasOwnField f) : Tells p b v (.flow (.source (.field f)))
  | or {i : Nat} {c : Int64} (h : b.IsOr v i c) : Tells p b v (.flow (.function (.or (.parameter ⟨b.method, i⟩) c)))

/-- A call fits a method that it is not dispatched from: it passes as many arguments as the
    method has, and its receiver, if there is to be one, is not null. -/
structure Calls (p : Program) (b : Body) (kind : InvokeKind) (m : MethodRef) (args : List ValueId) (target : MethodDef) :
    Prop where
  notArray : m.holder.isArray = false
  resolves : p.resolveMethod m = .ok (some target)
  own : (p.ownClass? target.ref.holder).isSome
  notVirtual : target.isVirtual = false
  arity : target.argumentTypes.length = args.length
  isStatic : target.isStatic = (kind == .static)
  notNull : target.isStatic = false → ∀ v, args.head? = some v → ¬ b.Defines v .constNull

/-- An operation of the body sends a value to a place. -/
inductive Sends (p : Program) (b : Body) (v : ValueId) : Op → FlowSource → Prop
  | call {kind : InvokeKind} {m : MethodRef} {args : List ValueId} {itf : Bool} {target : MethodDef} {i : Nat}
      (h : b.Calls p kind m args target) (hv : args[i]? = some v) :
      Sends p b v (.invoke kind m args itf) (.parameter ⟨target.ref, i⟩)
  | staticPut {f : FieldRef} (h : p.HasOwnField f) : Sends p b v (.staticPut f v) (.field f)
  | instancePut {f : FieldRef} {object : ValueId} (h : p.HasOwnField f) : Sends p b v (.instancePut f object v) (.field f)

variable {b : Body} {v : ValueId} {op : Op}

theorem filterMap_dest_sublist (b : Body) :
    ((b.blocks.flatMap Block.body).filterMap Instr.dest).Sublist (b.blocks.flatMap Block.defs) := by
  rw [List.filterMap_flatMap]
  induction b.blocks with
  | nil => exact .slnil
  | cons block blocks ih => exact (List.sublist_append_right _ _).append ih

theorem Defines.mem_defs (h : b.Defines v op) : v ∈ b.blocks.flatMap Block.defs := by
  obtain ⟨i, hi, hdest, -⟩ := h
  exact b.filterMap_dest_sublist.subset (List.mem_filterMap.2 ⟨i, hi, hdest⟩)

theorem IsInteger.defines {n : Int64} (h : b.IsInteger v n) : ∃ op, b.Defines v op := by
  rcases h with h | ⟨k, h, -⟩
  · exact ⟨_, h⟩
  · exact ⟨_, h⟩

theorem DefinedOnce.not_isArgument (h : b.DefinedOnce) (hop : b.Defines v op) (i : Nat) : ¬ b.IsArgument v i :=
  h.not_argument v hop.mem_defs i

end Body

namespace Scan.Site

variable {j : Joiner} {b : Body} {v : ValueId} {op : Op}

/-- The table of definitions after one more instruction. -/
def define (defs : TreeMap ValueId Op) (i : Instr) : TreeMap ValueId Op :=
  match i.dest with
  | some v => defs.insert v i.op
  | none => defs

theorem getElem?_define (defs : TreeMap ValueId Op) (i : Instr) (v : ValueId) :
    (define defs i)[v]? = if i.dest = some v then some i.op else defs[v]? := by
  unfold define
  split
  · next w hw => simp [hw, TreeMap.getElem?_insert]
  · next hw => simp [hw]

/-- The table holds nothing but definitions. -/
theorem defines_of_definitions (h : (ofBody j b).definitions[v]? = some op) : b.Defines v op := by
  have hloop (is : List Instr) (defs : TreeMap ValueId Op) (h : (is.foldl define defs)[v]? = some op) :
      defs[v]? = some op ∨ ∃ i ∈ is, i.dest = some v ∧ i.op = op := by
    induction is generalizing defs with
    | nil => exact .inl h
    | cons i is ih =>
      rcases ih _ h with h | ⟨i', hi', h⟩
      · rw [getElem?_define] at h
        split at h
        · next hdest => exact .inr ⟨i, List.mem_cons_self, hdest, Option.some.inj h⟩
        · exact .inl h
      · exact .inr ⟨i', List.mem_cons_of_mem _ hi', h⟩
  rcases hloop _ _ h with h | h
  · simp at h
  · exact h

/-- A value that is defined once has its definition in the table. -/
theorem getElem?_foldl_define {is : List Instr} (hnodup : (is.filterMap Instr.dest).Nodup) {i : Instr} (hi : i ∈ is) (hdest : i.dest = some v) :
    (is.foldl define ∅)[v]? = some i.op := by
  have hkeep (is : List Instr) (defs : TreeMap ValueId Op) (hnot : v ∉ is.filterMap Instr.dest) :
      (is.foldl define defs)[v]? = defs[v]? := by
    induction is generalizing defs with
    | nil => rfl
    | cons i is ih =>
      have hi : i.dest ≠ some v := fun heq => hnot (List.mem_filterMap.2 ⟨i, List.mem_cons_self, heq⟩)
      have his : v ∉ is.filterMap Instr.dest := fun hmem => hnot (by
        obtain ⟨i', hi', heq⟩ := List.mem_filterMap.1 hmem
        exact List.mem_filterMap.2 ⟨i', List.mem_cons_of_mem _ hi', heq⟩)
      rw [List.foldl_cons, ih _ his, getElem?_define, if_neg hi]
  obtain ⟨before, after, rfl⟩ := List.append_of_mem hi
  rw [List.foldl_append, List.foldl_cons, hkeep, getElem?_define, if_pos hdest]
  rw [List.filterMap_append, List.filterMap_cons_some hdest] at hnodup
  exact (List.nodup_cons.1 (List.nodup_append.1 hnodup).2.1).1

theorem definitions_of_defines (hb : b.DefinedOnce) (h : b.Defines v op) : (ofBody j b).definitions[v]? = some op := by
  obtain ⟨i, hi, hdest, rfl⟩ := h
  exact getElem?_foldl_define (hb.nodup.sublist b.filterMap_dest_sublist) hi hdest

theorem parameter?_of_isArgument {i : Nat} (h : b.IsArgument v i) :
    (ofBody j b).parameter? v = .ok (some (.parameter ⟨b.method, i⟩)) := by
  obtain ⟨t, ht⟩ := h
  have hentry : entryOr b.values v (.valueOutOfRange v) = .ok ⟨t, .argument i⟩ := by rw [entryOr, ht]
  simp [parameter?, ofBody, hentry]
  rfl

theorem isArgument_of_parameter? {x : FlowSource} (h : (ofBody j b).parameter? v = .ok (some x)) :
    ∃ i, b.IsArgument v i := by
  obtain ⟨w, hw, h⟩ := bind_eq_ok.1 h
  obtain ⟨t, origin⟩ := w
  cases origin with
  | argument i =>
    refine ⟨i, t, ?_⟩
    unfold entryOr at hw
    split at hw
    · next hget =>
      cases hw
      exact hget
    · cases hw
  | _ => cases h

/-- A value that an instruction defines is not a parameter. -/
theorem parameter?_of_defines (hb : b.DefinedOnce) (hop : b.Defines v op) {r : Option FlowSource}
    (h : (ofBody j b).parameter? v = .ok r) : r = none := by
  cases r with
  | none => rfl
  | some x =>
    obtain ⟨i, hi⟩ := isArgument_of_parameter? h
    exact absurd hi (hb.not_isArgument hop i)

theorem integer?_of_isInteger (hb : b.DefinedOnce) {n : Int64} (h : b.IsInteger v n) :
    (ofBody j b).integer? v = some n := by
  rcases h with h | ⟨k, h, rfl⟩
  · rw [integer?, definitions_of_defines hb h]
  · rw [integer?, definitions_of_defines hb h]

theorem orWith_eq_some (hb : b.DefinedOnce) {w : ValueId} {i : Nat} {c : Int64} (hv : b.IsArgument v i)
    (hw : b.IsInteger w c) : (ofBody j b).orWith v w = .ok (some (.or (.parameter ⟨b.method, i⟩) c)) := by
  rw [orWith, parameter?_of_isArgument hv, ok_bind, integer?_of_isInteger hb hw]
  rfl

theorem definedState_or (s : Site) (static : Descriptor) (t : NumericType) (lhs rhs : ValueId) :
    s.definedState static (.binary .or t lhs rhs) = (do
      match ← s.orWith lhs rhs with
      | some f => return .ofInFlow static (.function f)
      | none =>
        match ← s.orWith rhs lhs with
        | some f => return .ofInFlow static (.function f)
        | none => return .unknown) := rfl

/-- The bitwise or of a parameter and a constant, whichever comes first. -/
theorem shows_definedState_or (hb : b.DefinedOnce) {t : NumericType} {lhs rhs : ValueId} {i : Nat} {c : Int64}
    (h : b.IsArgument lhs i ∧ b.IsInteger rhs c ∨ b.IsArgument rhs i ∧ b.IsInteger lhs c) {static : Descriptor}
    {state : ValueState} (hstate : (ofBody j b).definedState static (.binary .or t lhs rhs) = .ok state) :
    state.Shows (.flow (.function (.or (.parameter ⟨b.method, i⟩) c))) := by
  rcases h with ⟨hl, hr⟩ | ⟨hr, hl⟩
  · rw [definedState_or, orWith_eq_some hb hl hr, ok_bind] at hstate
    cases hstate
    exact ValueState.shows_ofInFlow _ _
  · -- The constant on the left is not a parameter, so the other order is tried.
    obtain ⟨op, hop⟩ := hl.defines
    rw [definedState_or] at hstate
    obtain ⟨first, hfirst, hstate⟩ := bind_eq_ok.1 hstate
    obtain ⟨x, hx, hnone⟩ := bind_eq_ok.1 hfirst
    obtain rfl := parameter?_of_defines hb hop hx
    cases hnone
    simp only [orWith_eq_some hb hr hl, ok_bind] at hstate
    cases hstate
    exact ValueState.shows_ofInFlow _ _

theorem argumentState_of_defines (hb : b.DefinedOnce) (hop : b.Defines v op) {static : Descriptor} {state : ValueState}
    (h : (ofBody j b).argumentState v static = .ok state) : (ofBody j b).definedState static op = .ok state := by
  obtain ⟨x, hx, h⟩ := bind_eq_ok.1 h
  obtain rfl := parameter?_of_defines hb hop hx
  simpa only [definitions_of_defines hb hop] using h

/-- **The state of an argument shows what the body tells about the value.** -/
theorem shows_argumentState (hb : b.DefinedOnce) {e : Evidence} (he : b.Tells j.program v e) {static : Descriptor}
    {state : ValueState} (h : (ofBody j b).argumentState v static = .ok state) : state.Shows e := by
  cases he with
  | integer hv =>
    rcases hv with hv | ⟨k, hv, rfl⟩ <;>
    · have hdefined := argumentState_of_defines hb hv h
      cases hdefined
      split
      · exact ValueState.shows_ofKnowledge (AbstractValue.admits_single.2 rfl)
      · trivial
  | argument hargument =>
    rw [argumentState, parameter?_of_isArgument hargument, ok_bind] at h
    cases h
    exact ValueState.shows_ofInFlow _ _
  | read hget hf =>
    have hdefined := argumentState_of_defines hb hget h
    cases hdefined
    rw [if_pos (by simpa [program, ofBody, Program.HasOwnField] using hf)]
    exact ValueState.shows_ofInFlow _ _
  | or hv =>
    obtain ⟨t, lhs, rhs, hop, hoperands⟩ := hv
    exact shows_definedState_or hb hoperands (argumentState_of_defines hb hop h)

theorem shows_argumentStates (hb : b.DefinedOnce) {e : Evidence} (he : b.Tells j.program v e) {target : MethodDef}
    {args : List ValueId} (harity : target.argumentTypes.length = args.length) {i : Nat} (hv : args[i]? = some v)
    {states : List ValueState} (h : (ofBody j b).argumentStates target args = .ok states) :
    ∃ state, states[i]? = some state ∧ state.Shows e := by
  obtain ⟨hi, -⟩ := List.getElem?_eq_some_iff.1 hv
  obtain ⟨t, ht⟩ : ∃ t, target.argumentTypes[i]? = some t := ⟨_, List.getElem?_eq_getElem (harity ▸ hi)⟩
  have hat : ((args.zip target.argumentTypes).zipIdx)[i]? = some ((v, t), i) := by
    have hpair : (args.zip target.argumentTypes)[i]? = some (v, t) := List.getElem?_zip_eq_some.2 ⟨hv, ht⟩
    simp [List.getElem?_zipIdx, hpair]
  obtain ⟨state, hstate, hmake⟩ := getElem?_of_mapM h hat
  obtain ⟨given, hgiven, hmake⟩ := bind_eq_ok.1 hmake
  have hshows := shows_argumentState hb he hgiven
  cases hmake
  refine ⟨_, hstate, ValueState.Shows.widen ?_ _ _⟩
  split
  · exact hshows.toReceiver
  · exact hshows

theorem shows_invoke (hb : b.DefinedOnce) {e : Evidence} (he : b.Tells j.program v e) {kind : InvokeKind} {m : MethodRef}
    {args : List ValueId} {target : MethodDef} (hcalls : b.Calls j.program kind m args target) {i : Nat}
    (hv : args[i]? = some v) {states states' : FlowStates} (h : (ofBody j b).invoke states kind m args = .ok states') :
    states'.Shows e (.parameter ⟨target.ref, i⟩) := by
  have hargs : args ≠ [] := by
    rintro rfl
    cases hv
  have htarget : (ofBody j b).ownTarget? m = .ok (some target) := by
    have hresolves : (ofBody j b).program.resolveMethod m = .ok (some target) := hcalls.resolves
    rw [ownTarget?, hresolves, ok_bind]
    exact congrArg Except.ok (Option.filter_some_pos hcalls.own)
  have hnull : (!target.isStatic && (args.head?.bind ((ofBody j b).definitions[·]?)) == some .constNull) = false := by
    cases hstatic : target.isStatic with
    | true => rfl
    | false =>
      rw [Bool.not_false, Bool.true_and, beq_eq_false_iff_ne]
      intro heq
      obtain ⟨v, hv, hop⟩ := Option.bind_eq_some_iff.1 heq
      exact hcalls.notNull hstatic v hv (defines_of_definitions hop)
  unfold invoke at h
  simp only [htarget, ok_bind] at h
  rw [if_neg (by simp [hargs, hcalls.notArray])] at h
  rw [if_neg (by simp only [hnull]; simp [hcalls.arity, hcalls.isStatic])] at h
  obtain ⟨arguments, harguments, h⟩ := bind_eq_ok.1 h
  rw [hcalls.notVirtual] at h
  obtain ⟨methods, hmethods, h⟩ := bind_eq_ok.1 h
  cases h
  exact (MethodState.lasting_shows j i e).add hmethods
    (MethodState.shows_ofArguments (shows_argumentStates hb he hcalls.arity hv harguments))

theorem shows_write (hb : b.DefinedOnce) {e : Evidence} (he : b.Tells j.program v e) {f : FieldRef}
    (hf : j.program.HasOwnField f) {states states' : FlowStates} (h : (ofBody j b).write states f v = .ok states') :
    states'.Shows e (.field f) := by
  have hown : (((ofBody j b).program.ownClass? f.holder).isNone || ((ofBody j b).program.field? f).isNone) = false := by
    simpa [program, ofBody, Program.HasOwnField] using hf
  unfold write at h
  rw [if_neg (by rw [hown]; simp)] at h
  obtain ⟨state, hstate, h⟩ := bind_eq_ok.1 h
  obtain ⟨fields, hfields, h⟩ := bind_eq_ok.1 h
  cases h
  exact FieldStates.shows_add hfields ((shows_argumentState hb he hstate).widen _ _)

/-- **Calls and assignments.** The state of the place that a value is sent to shows what the
    body tells about the value. -/
theorem shows_operation_of_sends (hb : b.DefinedOnce) {e : Evidence} (he : b.Tells j.program v e) {x : FlowSource}
    (hsends : b.Sends j.program v op x) {acc acc' : FlowStates × List MethodRef}
    (h : (ofBody j b).operation acc op = .ok acc') : acc'.1.Shows e x := by
  cases hsends with
  | call hcalls hv =>
    obtain ⟨states, hstates, h⟩ := bind_eq_ok.1 h
    cases h
    exact shows_invoke hb he hcalls hv hstates
  | staticPut hf | instancePut hf =>
    obtain ⟨states, hstates, h⟩ := bind_eq_ok.1 h
    cases h
    exact shows_write hb he hf hstates

/-! ### Nothing is taken back -/

variable {s : Site} {P : FlowStates → Prop} {states states' : FlowStates}

theorem lasts_invoke (hP : FlowStates.Lasting s.joiner P) {kind : InvokeKind} {m : MethodRef} {args : List ValueId}
    (h : s.invoke states kind m args = .ok states') (hs : P states) : P states' := by
  unfold invoke at h
  split at h
  · cases h
    exact hs
  · obtain ⟨target, -, h⟩ := bind_eq_ok.1 h
    split at h
    · cases h
      exact hs
    · dsimp only at h
      split at h
      · cases h
        exact hs
      · obtain ⟨arguments, -, h⟩ := bind_eq_ok.1 h
        obtain ⟨methods, hmethods, h⟩ := bind_eq_ok.1 h
        cases h
        exact hP.addMethod hmethods hs

theorem lasts_write (hP : FlowStates.Lasting s.joiner P) {f : FieldRef} (h : s.write states f v = .ok states') (hs : P states) :
    P states' := by
  unfold write at h
  split at h
  · cases h
    exact hs
  · obtain ⟨state, -, h⟩ := bind_eq_ok.1 h
    obtain ⟨fields, hfields, h⟩ := bind_eq_ok.1 h
    cases h
    exact hP.addField hfields hs

theorem lasts_operation (hP : FlowStates.Lasting s.joiner P) {acc acc' : FlowStates × List MethodRef}
    (h : s.operation acc op = .ok acc') (hs : P acc.1) : P acc'.1 := by
  unfold operation at h
  split at h
  · obtain ⟨states, hstates, h⟩ := bind_eq_ok.1 h
    cases h
    exact lasts_invoke hP hstates hs
  · obtain ⟨_, -, h⟩ := bind_eq_ok.1 h
    cases h
    exact hs
  · obtain ⟨_, -, h⟩ := bind_eq_ok.1 h
    cases h
    exact hs
  · obtain ⟨states, hstates, h⟩ := bind_eq_ok.1 h
    cases h
    exact lasts_write hP hstates hs
  · obtain ⟨states, hstates, h⟩ := bind_eq_ok.1 h
    cases h
    exact lasts_write hP hstates hs
  · cases h
    exact hs

end Scan.Site

/-! ### All bodies -/

namespace Scan

variable {j : Joiner} {P : FlowStates → Prop} {c : ClassDef} {m : MethodDef} {b : Body} {op : Op}

theorem lasts_method (hP : FlowStates.Lasting j P) {acc acc' : FlowStates × List MethodRef} (h : method j c acc m = .ok acc')
    (hs : P acc.1) : P acc'.1 := by
  obtain ⟨body, -, h⟩ := bind_eq_ok.1 h
  have hacc : P (if j.program.overridesLibrary c m then (acc.1, acc.2 ++ [m.ref]) else acc).1 := by
    split <;> exact hs
  cases body with
  | none =>
    cases h
    exact hacc
  | some body =>
    exact foldlM_preserves (P := fun acc => P acc.1) (fun _ _ _ _ hb hop => Site.lasts_operation hP hop hb) hacc
      (Outcome.lift_eq_ok.1 h)

theorem holds_method (hP : FlowStates.Lasting j P) (hbody : bodyOf m = .ok (some b)) (hop : op ∈ b.operations)
    (hthere : ∀ acc acc', (Site.ofBody j b).operation acc op = .ok acc' → P acc'.1)
    {acc acc' : FlowStates × List MethodRef} (h : method j c acc m = .ok acc') : P acc'.1 := by
  unfold method at h
  simp only [hbody, ok_bind] at h
  exact foldlM_establishes (P := fun acc => P acc.1) hop hthere (fun _ _ _ _ hb hop => Site.lasts_operation hP hop hb)
    (Outcome.lift_eq_ok.1 h)

theorem lasts_classDef (hP : FlowStates.Lasting j P) {acc acc' : FlowStates × List MethodRef} (h : classDef j acc c = .ok acc')
    (hs : P acc.1) : P acc'.1 := by
  obtain ⟨found, -, h⟩ := bind_eq_ok.1 h
  obtain ⟨methods, hmethods, h⟩ := bind_eq_ok.1 h
  obtain ⟨fields, hfields, h⟩ := bind_eq_ok.1 h
  cases h
  exact hP.addAll (Outcome.lift_eq_ok.1 hmethods) (Outcome.lift_eq_ok.1 hfields) (.inl hs)

theorem holds_classDef (hP : FlowStates.Lasting j P) (hm : m ∈ c.methods) (hbody : bodyOf m = .ok (some b))
    (hop : op ∈ b.operations) (hthere : ∀ acc acc', (Site.ofBody j b).operation acc op = .ok acc' → P acc'.1)
    {acc acc' : FlowStates × List MethodRef} (h : classDef j acc c = .ok acc') : P acc'.1 := by
  obtain ⟨found, hfound, h⟩ := bind_eq_ok.1 h
  have hs : P found.1 := foldlM_establishes (P := fun acc => P acc.1) hm (fun _ _ => holds_method hP hbody hop hthere)
    (fun _ _ _ _ hb hop => lasts_method hP hop hb) hfound
  obtain ⟨methods, hmethods, h⟩ := bind_eq_ok.1 h
  obtain ⟨fields, hfields, h⟩ := bind_eq_ok.1 h
  cases h
  exact hP.addAll (Outcome.lift_eq_ok.1 hmethods) (Outcome.lift_eq_ok.1 hfields) (.inr hs)

/-- **What one operation of some body brings about holds at the end of the scan.** -/
theorem holds_run {view : View} (hP : FlowStates.Lasting j P) (hc : c ∈ view.program.programClasses) (hm : m ∈ c.methods)
    (hbody : bodyOf m = .ok (some b)) (hop : op ∈ b.operations)
    (hthere : ∀ acc acc', (Site.ofBody j b).operation acc op = .ok acc' → P acc'.1) {states : FlowStates}
    (h : run view j = .ok states) : P states := by
  obtain ⟨found, hfound, h⟩ := bind_eq_ok.1 h
  have hs : P found.1 := foldlM_establishes (P := fun acc => P acc.1) hc (fun _ _ => holds_classDef hP hm hbody hop hthere)
    (fun _ _ _ _ hb hop => lasts_classDef hP hop hb) hfound
  cases h
  apply List.foldlRecOn _ _ (motive := fun fields => P ⟨_, fields⟩)
  · exact List.foldlRecOn _ _ (motive := fun methods => P ⟨methods, _⟩) hs fun _ hs m _ => hP.insertMethod m hs
  · exact fun _ hs f _ => hP.setField f hs

/-- **The scan shows whatever some body tells about a value that it sends to a place.** -/
theorem shows_run {view : View} (hc : c ∈ view.program.programClasses) (hm : m ∈ c.methods)
    (hbody : bodyOf m = .ok (some b)) (hb : b.DefinedOnce) {v : ValueId} (hop : op ∈ b.operations) {maxInFlow : Nat}
    {e : Evidence} {x : FlowSource} (he : b.Tells view.program v e) (hsends : b.Sends view.program v op x) {states : FlowStates}
    (h : run view ⟨view.program, maxInFlow⟩ = .ok states) : states.Shows e x :=
  holds_run (FlowStates.lasting_shows _ e x) hc hm hbody hop (fun _ _ => Site.shows_operation_of_sends hb he hsends) h

end Scan

end DexShrinker
