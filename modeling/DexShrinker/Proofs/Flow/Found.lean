/-
  DexShrinker/Proofs/Flow/Found.lean
  ==================================
  **What holds of all states that a scan finds.**

  States of methods and fields come about by joins only. A property that the states of calls
  and assignments have when they are made, and that joins keep (`Scan.Invariant`), is one of
  everything that a scan has found (`Scan.run_spec`); only pinned places and methods that may
  be called from elsewhere are made unknown afterwards.

  Canonical form is such a property: what is known of an operand on the spot has it, and joins,
  static types and dispatch keep it. So all states of a program have it before flow
  (`FlowStates.FoundIn.canonical`), and those of the nodes of its graph
  (`FlowGraph.plain_describe`).
-/
import DexShrinker.Flow.Propagation
import DexShrinker.Proofs.Flow.Retention
import DexShrinker.Proofs.Flow.Scan

namespace DexShrinker

open Std

/-! ### Collections -/

namespace MethodStates

variable {j : Joiner} {M : MethodRef → MethodState → Prop} {c c' more : MethodStates} {m : MethodRef} {s : MethodState}

/-- All states have a property. -/
def Each (M : MethodRef → MethodState → Prop) (c : MethodStates) : Prop := ∀ m, M m (c.state m)

/-- Joins keep a property, which methods without a state have. -/
structure Kept (j : Joiner) (M : MethodRef → MethodState → Prop) : Prop where
  bottom : ∀ m, M m .bottom
  join : ∀ {m : MethodRef} {a b c : MethodState}, a.join j b = .ok c → M m a → M m b → M m c

theorem Kept.empty (h : Kept j M) : Each M ∅ := by
  intro m
  have hempty : MethodStates.state ∅ m = .bottom := by simp [state]
  exact hempty ▸ h.bottom m

theorem Kept.add (h : Kept j M) (hadd : c.add j m s = .ok c') (hc : c.Each M) (hs : M m s) : c'.Each M := by
  obtain ⟨joined, hjoin, hstate⟩ := state_add hadd
  intro m'
  rw [hstate]
  split
  · next heq => exact heq ▸ h.join hjoin (hc m) hs
  · exact hc m'

theorem Each.of_mem_toList (hc : c.Each M) {x : MethodRef × MethodState} (hx : x ∈ c.toList) : M x.1 x.2 := by
  have hget := TreeMap.mem_toList_iff_getElem?_eq_some.1 hx
  have hstate : c.state x.1 = x.2 := by rw [state, TreeMap.getD_eq_getD_getElem?, hget, Option.getD_some]
  exact hstate ▸ hc x.1

theorem Kept.addAll (h : Kept j M) (hadd : c.addAll j more = .ok c') (hc : c.Each M) (hmore : more.Each M) : c'.Each M :=
  foldlM_preserves (P := Each M) (fun _ _ hx _ hb hstep => h.add hstep hb (hmore.of_mem_toList hx)) hc hadd

end MethodStates

namespace FieldStates

variable {j : Joiner} {F : FieldRef → ValueState → Prop} {c c' more : FieldStates} {f : FieldRef} {s : ValueState}

/-- All states have a property. -/
def Each (F : FieldRef → ValueState → Prop) (c : FieldStates) : Prop := ∀ f, F f (c.state f)

/-- Joins keep a property, which fields without a state have. -/
structure Kept (j : Joiner) (F : FieldRef → ValueState → Prop) : Prop where
  bottom : ∀ f, F f .bottom
  join : ∀ {f : FieldRef} {a b c : ValueState}, a.join j b = .ok c → F f a → F f b → F f c

theorem Kept.empty (h : Kept j F) : Each F ∅ := by
  intro f
  have hempty : FieldStates.state ∅ f = .bottom := by simp [state]
  exact hempty ▸ h.bottom f

theorem Kept.add (h : Kept j F) (hadd : c.add j f s = .ok c') (hc : c.Each F) (hs : F f s) : c'.Each F := by
  obtain ⟨joined, hjoin, hstate⟩ := state_add hadd
  intro f'
  rw [hstate]
  split
  · next heq => exact heq ▸ h.join hjoin (hc f) hs
  · exact hc f'

theorem Each.of_mem_toList (hc : c.Each F) {x : FieldRef × ValueState} (hx : x ∈ c.toList) : F x.1 x.2 := by
  have hget := TreeMap.mem_toList_iff_getElem?_eq_some.1 hx
  have hstate : c.state x.1 = x.2 := by rw [state, TreeMap.getD_eq_getD_getElem?, hget, Option.getD_some]
  exact hstate ▸ hc x.1

theorem Kept.addAll (h : Kept j F) (hadd : c.addAll j more = .ok c') (hc : c.Each F) (hmore : more.Each F) : c'.Each F :=
  foldlM_preserves (P := Each F) (fun _ _ hx _ hb hstep => h.add hstep hb (hmore.of_mem_toList hx)) hc hadd

end FieldStates

/-- All states of methods and all states of fields have a property. -/
structure FlowStates.Each (M : MethodRef → MethodState → Prop) (F : FieldRef → ValueState → Prop) (s : FlowStates) : Prop where
  methods : s.methods.Each M
  fields : s.fields.Each F

/-! ### The scan -/

namespace Scan

variable {j : Joiner} {M : MethodRef → MethodState → Prop} {F : FieldRef → ValueState → Prop} {b : Body} {c : ClassDef}
  {m : MethodDef} {states states' : FlowStates}

/-- The states that calls and assignments add have a property, and joins keep it. -/
structure Invariant (j : Joiner) (M : MethodRef → MethodState → Prop) (F : FieldRef → ValueState → Prop) : Prop where
  methods : MethodStates.Kept j M
  fields : FieldStates.Kept j F
  called : ∀ {b : Body} {m : MethodRef} {target : MethodDef} {args : List ValueId} {arguments : List ValueState},
    (Site.ofBody j b).ownTarget? m = .ok (some target) → (Site.ofBody j b).argumentStates target args = .ok arguments →
      M target.ref (.ofArguments arguments)
  dispatched : ∀ {b : Body} {m : MethodRef} {target : MethodDef} {args : List ValueId} {arguments : List ValueState},
    (Site.ofBody j b).ownTarget? m = .ok (some target) → (Site.ofBody j b).argumentStates target args = .ok arguments →
      target.isVirtual = true → ∀ bound, M target.ref (.ofBound bound (.ofArguments arguments))
  written : ∀ {b : Body} {f : FieldRef} {v : ValueId} {state : ValueState}, j.program.HasOwnField f →
    (Site.ofBody j b).argumentState v f.type = .ok state → F f (state.widen j.program f.type)

namespace Invariant

theorem invoke (h : Invariant j M F) {kind : InvokeKind} {m : MethodRef} {args : List ValueId}
    (hinvoke : (Site.ofBody j b).invoke states kind m args = .ok states') (hs : states.Each M F) : states'.Each M F := by
  unfold Site.invoke at hinvoke
  split at hinvoke
  · cases hinvoke
    exact hs
  · obtain ⟨target, htarget, hinvoke⟩ := bind_eq_ok.1 hinvoke
    split at hinvoke
    · cases hinvoke
      exact hs
    · dsimp only at hinvoke
      split at hinvoke
      · cases hinvoke
        exact hs
      · obtain ⟨arguments, harguments, hinvoke⟩ := bind_eq_ok.1 hinvoke
        obtain ⟨methods, hmethods, hinvoke⟩ := bind_eq_ok.1 hinvoke
        cases hinvoke
        refine ⟨h.methods.add hmethods hs.methods ?_, hs.fields⟩
        split
        · next hvirtual => exact h.dispatched htarget harguments (Bool.and_eq_true_iff.1 hvirtual).1 _
        · exact h.called htarget harguments

theorem write (h : Invariant j M F) {f : FieldRef} {v : ValueId} (hwrite : (Site.ofBody j b).write states f v = .ok states')
    (hs : states.Each M F) : states'.Each M F := by
  unfold Site.write at hwrite
  split at hwrite
  · cases hwrite
    exact hs
  · next hown =>
    obtain ⟨state, hstate, hwrite⟩ := bind_eq_ok.1 hwrite
    obtain ⟨fields, hfields, hwrite⟩ := bind_eq_ok.1 hwrite
    cases hwrite
    refine ⟨hs.methods, h.fields.add hfields hs.fields (h.written ?_ hstate)⟩
    simpa [Program.HasOwnField, Option.isSome_iff_ne_none, Site.program, Site.ofBody] using hown

theorem operation (h : Invariant j M F) {op : Op} {acc acc' : FlowStates × List MethodRef}
    (hop : (Site.ofBody j b).operation acc op = .ok acc') (hs : acc.1.Each M F) : acc'.1.Each M F := by
  unfold Site.operation at hop
  split at hop
  · obtain ⟨states, hstates, hop⟩ := bind_eq_ok.1 hop
    cases hop
    exact h.invoke hstates hs
  · obtain ⟨_, -, hop⟩ := bind_eq_ok.1 hop
    cases hop
    exact hs
  · obtain ⟨_, -, hop⟩ := bind_eq_ok.1 hop
    cases hop
    exact hs
  · obtain ⟨states, hstates, hop⟩ := bind_eq_ok.1 hop
    cases hop
    exact h.write hstates hs
  · obtain ⟨states, hstates, hop⟩ := bind_eq_ok.1 hop
    cases hop
    exact h.write hstates hs
  · cases hop
    exact hs

theorem method (h : Invariant j M F) {acc acc' : FlowStates × List MethodRef} (hmethod : Scan.method j c acc m = .ok acc')
    (hs : acc.1.Each M F) : acc'.1.Each M F := by
  obtain ⟨body, -, hmethod⟩ := bind_eq_ok.1 hmethod
  have hacc : (if j.program.overridesLibrary c m then (acc.1, acc.2 ++ [m.ref]) else acc).1.Each M F := by
    split <;> exact hs
  cases body with
  | none =>
    cases hmethod
    exact hacc
  | some body =>
    exact foldlM_preserves (P := fun acc => acc.1.Each M F) (fun _ _ _ _ hb hop => h.operation hop hb) hacc
      (Outcome.lift_eq_ok.1 hmethod)

theorem classDef (h : Invariant j M F) {acc acc' : FlowStates × List MethodRef} (hclass : Scan.classDef j acc c = .ok acc')
    (hs : acc.1.Each M F) : acc'.1.Each M F := by
  obtain ⟨found, hfound, hclass⟩ := bind_eq_ok.1 hclass
  have heach : found.1.Each M F := foldlM_preserves (P := fun acc => acc.1.Each M F)
    (fun _ _ _ _ hb hmethod => h.method hmethod hb) ⟨h.methods.empty, h.fields.empty⟩ hfound
  obtain ⟨methods, hmethods, hclass⟩ := bind_eq_ok.1 hclass
  obtain ⟨fields, hfields, hclass⟩ := bind_eq_ok.1 hclass
  cases hclass
  exact ⟨h.methods.addAll (Outcome.lift_eq_ok.1 hmethods) hs.methods heach.methods,
    h.fields.addAll (Outcome.lift_eq_ok.1 hfields) hs.fields heach.fields⟩

end Invariant

/-- Places that are overwritten one after the other. -/
theorem foldl_overwrite {σ α β : Type} [DecidableEq α] {put : σ → α → σ} {new : β} (get : σ → α → β)
    (hput : ∀ c a x, get (put c a) x = if a = x then new else get c x) (as : List α) (c : σ) (x : α) :
    get (as.foldl put c) x = if x ∈ as then new else get c x := by
  induction as generalizing c with
  | nil => simp
  | cons a as ih =>
    rw [List.foldl_cons, ih, hput]
    by_cases hmem : x ∈ as
    · rw [if_pos hmem, if_pos (List.mem_cons_of_mem a hmem)]
    · by_cases heq : a = x
      · rw [if_neg hmem, if_pos heq, if_pos (heq ▸ List.mem_cons_self)]
      · rw [if_neg hmem, if_neg heq, if_neg]
        exact fun hmem' => (List.mem_cons.1 hmem').elim (fun h => heq h.symm) hmem

/-- **After the scan** the states are those that were found, except that pinned places and
    methods that may be called from elsewhere are unknown. -/
theorem run_spec {v : View} (hrun : run v j = .ok states) : ∃ (found : FlowStates) (escaping : List MethodRef),
    (∀ {M F}, Invariant j M F → found.Each M F) ∧
      (∀ m, states.methods.state m = if m ∈ escaping ∨ m ∈ v.pins.methods then .unknown else found.methods.state m) ∧
      ∀ f, states.fields.state f = if f ∈ v.pins.fields then .unknown else found.fields.state f := by
  obtain ⟨found, hfound, hrun⟩ := bind_eq_ok.1 hrun
  cases hrun
  refine ⟨found.1, found.2, ?_, ?_, ?_⟩
  · intro M F h
    exact foldlM_preserves (P := fun acc => acc.1.Each M F) (fun _ _ _ _ hb hclass => h.classDef hclass hb)
      ⟨h.methods.empty, h.fields.empty⟩ hfound
  · intro m
    rw [foldl_overwrite MethodStates.state (fun c m' m => MethodStates.state_insert c m' m .unknown)]
    simp only [List.mem_append, TreeSet.mem_toList]
  · intro f
    rw [foldl_overwrite FieldStates.state (fun c f' f => FieldStates.state_setState c f' f .unknown)]
    simp only [TreeSet.mem_toList]

/-- **The states after the scan** have the property if unknown states do. -/
theorem each_run {v : View} (h : Invariant j M F) (hmethods : ∀ m, M m .unknown) (hfields : ∀ f, F f .unknown)
    (hrun : run v j = .ok states) : states.Each M F := by
  obtain ⟨found, escaping, hfound, hmethod, hfield⟩ := run_spec hrun
  constructor
  · intro m
    rw [hmethod]
    split
    · exact hmethods m
    · exact (hfound h).methods m
  · intro f
    rw [hfield]
    split
    · exact hfields f
    · exact (hfound h).fields f

end Scan

/-! ### States of methods and fields -/

namespace MethodState

/-- All states of arguments have canonical form, whatever the receiver is. -/
inductive Canonical : MethodState → Prop
  | bottom : Canonical bottom
  | unknown : Canonical unknown
  | monomorphic {arguments : List ValueState} (h : ∀ a ∈ arguments, a.Canonical) : Canonical (monomorphic arguments)
  | polymorphic {cases : List (DynamicType × MethodState)} (h : ∀ c ∈ cases, Canonical c.2) : Canonical (polymorphic cases)

theorem canonical_argument {s : MethodState} (hs : s.Canonical) (i : Nat) : (s.argument i).Canonical := by
  cases hs with
  | monomorphic h =>
    rw [argument, List.getD_eq_getElem?_getD]
    cases ha : (_ : List ValueState)[i]? with
    | none => trivial
    | some a => exact h a (List.mem_of_getElem? ha)
  | _ => trivial

theorem canonical_ofArguments {arguments : List ValueState} (h : ∀ a ∈ arguments, a.Canonical) :
    (ofArguments arguments).Canonical := by
  unfold ofArguments
  split
  · exact .unknown
  · exact .monomorphic h

theorem canonical_ofBound {s : MethodState} (hs : s.Canonical) (bound : DynamicType) : (ofBound bound s).Canonical := by
  unfold ofBound
  split
  · exact .unknown
  · exact .polymorphic fun c hc => List.mem_singleton.1 hc ▸ hs

variable {j : Joiner} {cases : List (DynamicType × MethodState)}

/-- What holds of a case holds of all cases, and of a bound without one. -/
theorem caseOf_of_forall {P : MethodState → Prop} (hbottom : P .bottom) (h : ∀ c ∈ cases, P c.2) (bound : DynamicType) :
    P (caseOf cases bound) := by
  unfold caseOf
  cases hlookup : cases.lookup bound with
  | none => exact hbottom
  | some s =>
    obtain ⟨before, after, rfl, -⟩ := List.lookup_eq_some_iff.1 hlookup
    exact h (bound, s) (by simp)

theorem forall_setCase {P : MethodState → Prop} {s : MethodState} (hs : P s) (h : ∀ c ∈ cases, P c.2) (bound : DynamicType) :
    ∀ c ∈ setCase bound s cases, P c.2 := by
  induction cases with
  | nil =>
    intro c hc
    exact List.mem_singleton.1 hc ▸ hs
  | cons first rest ih =>
    obtain ⟨b, t⟩ := first
    obtain ⟨ht, hrest⟩ := List.forall_mem_cons.1 h
    unfold setCase
    split
    · exact List.forall_mem_cons.2 ⟨hs, h⟩
    · exact List.forall_mem_cons.2 ⟨hs, hrest⟩
    · exact List.forall_mem_cons.2 ⟨ht, ih hrest⟩

theorem canonical_ofCases (h : ∀ c ∈ cases, c.2.Canonical) : (ofCases cases).Canonical := by
  unfold ofCases
  split
  · exact .unknown
  · exact .polymorphic h

theorem canonical_joinArguments {ours theirs : List ValueState} {s : MethodState} (h : joinArguments j ours theirs = .ok s)
    (hours : ∀ a ∈ ours, a.Canonical) (htheirs : ∀ a ∈ theirs, a.Canonical) : s.Canonical := by
  unfold joinArguments at h
  split at h
  · obtain ⟨joined, hjoined, h⟩ := bind_eq_ok.1 h
    cases h
    refine canonical_ofArguments fun a ha => ?_
    obtain ⟨x, hx, hjoin⟩ := exists_of_mem_left (mapM_eq_ok_iff.1 hjoined).flip ha
    obtain ⟨hfst, hsnd⟩ := List.of_mem_zip hx
    exact ValueState.canonical_join hjoin (hours _ hfst) (htheirs _ hsnd)
  · cases h
    exact .unknown

/-- The cases of a join that do not go into the cases of receivers. -/
theorem canonical_join_of_plain {a b c : MethodState} (h : a.join j b = .ok c) (ha : a.Canonical) (hb : b.Canonical)
    (hplain : ∀ theirs, b = polymorphic theirs → ∀ ours, a ≠ polymorphic ours) : c.Canonical := by
  cases ha with
  | bottom =>
    rw [join] at h
    cases h
    exact hb
  | unknown =>
    rw [join] at h
    cases h
    exact .unknown
  | monomorphic hours =>
    cases hb with
    | bottom =>
      cases h
      exact .monomorphic hours
    | monomorphic htheirs => exact canonical_joinArguments h hours htheirs
    | _ =>
      cases h
      exact .unknown
  | polymorphic hours =>
    cases hb with
    | bottom =>
      cases h
      exact .polymorphic hours
    | polymorphic => exact absurd rfl (hplain _ rfl _)
    | _ =>
      cases h
      exact .unknown

mutual

theorem canonical_join : ∀ {b a c : MethodState}, a.join j b = .ok c → a.Canonical → b.Canonical → c.Canonical
  | .polymorphic theirs, .polymorphic ours, _, h, .polymorphic hours, .polymorphic htheirs => by
    rw [join] at h
    obtain ⟨joined, hjoined, h⟩ := bind_eq_ok.1 h
    cases h
    exact canonical_ofCases (canonical_joinCases hjoined hours htheirs)
  | .polymorphic _, .bottom, _, h, ha, hb | .polymorphic _, .monomorphic _, _, h, ha, hb | .polymorphic _, .unknown, _, h, ha, hb =>
    canonical_join_of_plain h ha hb (by simp)
  | .bottom, _, _, h, ha, hb | .monomorphic _, _, _, h, ha, hb | .unknown, _, _, h, ha, hb =>
    canonical_join_of_plain h ha hb (by simp)

theorem canonical_joinCases : ∀ {theirs ours joined : List (DynamicType × MethodState)}, joinCases j ours theirs = .ok joined →
    (∀ c ∈ ours, c.2.Canonical) → (∀ c ∈ theirs, c.2.Canonical) → ∀ c ∈ joined, c.2.Canonical
  | [], _, _, h, hours, _ => by
    cases h
    exact hours
  | (bound, s) :: theirs, ours, _, h, hours, htheirs => by
    rw [joinCases] at h
    obtain ⟨t, ht, h⟩ := bind_eq_ok.1 h
    obtain ⟨hs, htheirs⟩ := List.forall_mem_cons.1 htheirs
    exact canonical_joinCases h (forall_setCase (canonical_join ht (caseOf_of_forall .bottom hours bound) hs) hours bound) htheirs

end

end MethodState

/-- All states of methods have canonical form. -/
def MethodStates.Canonical (c : MethodStates) : Prop := ∀ m, (c.state m).Canonical

/-- All states of fields have canonical form. -/
def FieldStates.Canonical (c : FieldStates) : Prop := ∀ f, (c.state f).Canonical

theorem MethodStates.kept_canonical (j : Joiner) : Kept j fun _ s => s.Canonical := ⟨fun _ => .bottom, MethodState.canonical_join⟩

theorem FieldStates.kept_canonical (j : Joiner) : Kept j fun _ s => s.Canonical := ⟨fun _ => trivial, ValueState.canonical_join⟩

namespace ValueState

theorem canonical_ofInFlow (static : Descriptor) (f : InFlow) : (ofInFlow static f).Canonical := by
  change (bottomKnowledge static).Canonical
  unfold bottomKnowledge
  split
  · trivial
  · split <;> trivial

theorem canonical_primitive {v : AbstractValue} (hv : v.Canonical) : (primitive v).Canonical :=
  canonical_ofKnowledge (k := .primitive v) hv []

theorem canonical_object {v : AbstractValue} (hv : v.Canonical) (d : DynamicType) : (object v d).Canonical :=
  canonical_ofKnowledge (k := .object v d) hv []

theorem canonical_array (n : Nullability) : (array n).Canonical := canonical_ofKnowledge (Knowledge.canonical_array n) []

theorem canonical_default (static : Descriptor) : (default static).Canonical := by
  unfold default
  split
  · exact canonical_primitive trivial
  · split
    · exact canonical_array _
    · exact canonical_object (by trivial) _

end ValueState

/-! ### The scan -/

namespace FlowStates

/-- All states have canonical form. -/
structure Canonical (s : FlowStates) : Prop where
  methods : s.methods.Canonical
  fields : s.fields.Canonical

end FlowStates

namespace Scan

namespace Site

variable {s : Site} {static : Descriptor} {op : Op} {v : ValueId} {state : ValueState}

theorem canonical_definedState (h : s.definedState static op = .ok state) : state.Canonical := by
  cases op with
  | constInt n =>
    cases h
    split
    · exact ValueState.canonical_primitive trivial
    · trivial
  | constLong n =>
    cases h
    split
    · exact ValueState.canonical_primitive trivial
    · trivial
  | constNull =>
    cases h
    split
    · exact ValueState.canonical_array _
    · split
      · exact ValueState.canonical_object (by trivial) _
      · trivial
  | constString t =>
    cases h
    exact ValueState.canonical_object (by trivial) _
  | newInstance t =>
    cases h
    exact ValueState.canonical_object (by trivial) _
  | newArray =>
    cases h
    exact ValueState.canonical_array _
  | checkCast t v =>
    obtain ⟨x, -, h⟩ := bind_eq_ok.1 h
    cases x <;> cases h
    · trivial
    · exact ValueState.canonical_ofInFlow _ _
  | binary operator t lhs rhs =>
    cases operator with
    | or =>
      rw [definedState_or] at h
      obtain ⟨x, -, h⟩ := bind_eq_ok.1 h
      cases x with
      | some f =>
        cases h
        exact ValueState.canonical_ofInFlow _ _
      | none =>
        obtain ⟨y, -, h⟩ := bind_eq_ok.1 h
        cases y <;> cases h
        · trivial
        · exact ValueState.canonical_ofInFlow _ _
    | _ =>
      cases h
      trivial
  | instanceGet f object =>
    change (if (s.program.field? f).isNone = true then pure .unknown else _) = Except.ok state at h
    split at h
    · cases h
      trivial
    · obtain ⟨x, -, h⟩ := bind_eq_ok.1 h
      cases x <;> cases h
      · trivial
      · exact ValueState.canonical_ofInFlow _ _
  | staticGet f =>
    cases h
    split
    · exact ValueState.canonical_ofInFlow _ _
    · trivial
  | _ =>
    cases h
    trivial

theorem canonical_argumentState (h : s.argumentState v static = .ok state) : state.Canonical := by
  obtain ⟨x, -, h⟩ := bind_eq_ok.1 h
  cases x with
  | some y =>
    cases h
    exact ValueState.canonical_ofInFlow _ _
  | none =>
    dsimp only at h
    split at h
    · exact canonical_definedState h
    · cases h
      trivial

theorem canonical_argumentStates {target : MethodDef} {args : List ValueId} {arguments : List ValueState}
    (h : s.argumentStates target args = .ok arguments) : ∀ a ∈ arguments, a.Canonical := by
  intro a ha
  obtain ⟨x, -, hmake⟩ := exists_of_mem_left (mapM_eq_ok_iff.1 h).flip ha
  obtain ⟨given, hgiven, hmake⟩ := bind_eq_ok.1 hmake
  have hcanonical := canonical_argumentState hgiven
  cases hmake
  refine ValueState.canonical_widen ?_ _ _
  split
  · exact ValueState.canonical_toReceiver hcanonical
  · exact hcanonical

end Site

theorem invariant_canonical (j : Joiner) : Invariant j (fun _ s => s.Canonical) (fun _ s => s.Canonical) where
  methods := MethodStates.kept_canonical j
  fields := FieldStates.kept_canonical j
  called _ harguments := MethodState.canonical_ofArguments (Site.canonical_argumentStates harguments)
  dispatched _ harguments _ bound :=
    MethodState.canonical_ofBound (MethodState.canonical_ofArguments (Site.canonical_argumentStates harguments)) bound
  written _ hstate := ValueState.canonical_widen (Site.canonical_argumentState hstate) _ _

theorem canonical_run {v : View} {j : Joiner} {states : FlowStates} (h : run v j = .ok states) : states.Canonical :=
  let ⟨hmethods, hfields⟩ := each_run (invariant_canonical j) (fun _ => .unknown) (fun _ => trivial) h
  ⟨hmethods, hfields⟩

end Scan

/-! ### Dispatch and defaults -/

namespace Dispatch

variable {j : Joiner} {out out' methods : MethodStates} {m : MethodRef} {s : MethodState}

theorem canonical_spread (h : spread j out m s = .ok out') (hout : out.Canonical) (hs : s.Canonical) : out'.Canonical := by
  unfold spread at h
  split at h
  · next d cases hd hcases =>
    cases hs with
    | polymorphic hcanonical =>
      refine foldlM_preserves (P := MethodStates.Canonical) (fun b x hx b' hb hsends => ?_) hout h
      refine foldlM_preserves (P := MethodStates.Canonical) (fun b t _ b' hb hsend => ?_) hb hsends
      obtain ⟨runs, -, hsend⟩ := bind_eq_ok.1 hsend
      split at hsend
      · exact (MethodStates.kept_canonical j).add hsend hb (hcanonical x hx)
      · cases hsend
        exact hb
  · exact foldlM_preserves (P := MethodStates.Canonical)
      (fun _ _ _ _ hb hadd => (MethodStates.kept_canonical j).add hadd hb .unknown) hout h
  · exact (MethodStates.kept_canonical j).add h hout hs

theorem canonical_run (h : run j methods = .ok out) (hmethods : methods.Canonical) : out.Canonical :=
  foldlM_preserves (P := MethodStates.Canonical)
    (fun _ _ hx _ hb hspread => canonical_spread hspread hb (MethodStates.Each.of_mem_toList hmethods hx))
    (MethodStates.kept_canonical j).empty h

end Dispatch

namespace FlowStates

/-- The states of a program before flow. -/
def FoundIn (v : View) (maxInFlow : Nat) (s : FlowStates) : Prop :=
  ∃ scanned, Scan.run v ⟨v.program, maxInFlow⟩ = .ok scanned ∧
    Dispatch.run ⟨v.program, maxInFlow⟩ scanned.methods = .ok s.methods ∧
    addDefaults v ⟨v.program, maxInFlow⟩ scanned.fields = .ok s.fields

theorem canonical_addDefaults {v : View} {j : Joiner} {fields fields' : FieldStates} (h : addDefaults v j fields = .ok fields')
    (hfields : fields.Canonical) : fields'.Canonical := by
  refine foldlM_preserves (P := FieldStates.Canonical) (fun _ _ _ _ hb hclass => ?_) hfields h
  refine foldlM_preserves (P := FieldStates.Canonical) (fun _ f _ _ hb hadd => ?_) hb hclass
  exact (FieldStates.kept_canonical j).add hadd hb (ValueState.canonical_widen (ValueState.canonical_default _) _ _)

theorem FoundIn.canonical {v : View} {maxInFlow : Nat} {s : FlowStates} (h : s.FoundIn v maxInFlow) : s.Canonical := by
  obtain ⟨scanned, hscanned, hmethods, hfields⟩ := h
  have hcanonical := Scan.canonical_run hscanned
  exact ⟨Dispatch.canonical_run hmethods hcanonical.methods, canonical_addDefaults hfields hcanonical.fields⟩

end FlowStates

/-- Before flow, the states of nodes have no sources, and canonical form. -/
theorem FlowGraph.plain_describe (p : Program) {states : FlowStates} (h : states.Canonical) (x : FlowSource) :
    (describe p states x).state.Plain := by
  unfold describe
  split
  · exact ValueState.plain_clearInFlow (h.fields _)
  · split
    · exact ⟨rfl, trivial⟩
    · exact ValueState.plain_clearInFlow (MethodState.canonical_argument (h.methods _) _)

end DexShrinker
