/-
  DexShrinker/Proofs/Flow/Reaching.lean
  =====================================
  **Argument propagation loses no integer.**

  `MayReach` says which integers may get to a parameter or field: constants that are passed or
  assigned, and whatever a parameter or static field holds that is passed on, as it is or
  combined with a constant. The states of a program allow for all of them
  (`FlowStates.stateOf_of_reaches`).

  The scan has told every state about the constants and sources of its place. Dispatch and
  defaults keep this. When the flow comes to rest, integers have gone along all edges, and
  the states of the nodes are written back to the places that they came from.

  Dispatch joins the states of one method into those of the methods that its calls may run, and
  no step takes back what the steps before it have put there. So what one method sends to
  another is still there at the end (`Dispatch.holds_run`).
-/
import DexShrinker.Flow.Propagation
import DexShrinker.Proofs.Flow.Graph
import DexShrinker.Proofs.Flow.Scan
import DexShrinker.Proofs.Flow.ValueState
import DexShrinker.Proofs.Flow.Worklist
import DexShrinker.Proofs.Program

namespace DexShrinker.Dispatch

/-! ### Where dispatch takes states -/

variable {j : Joiner} {Q : MethodState → Prop} {out out' methods : MethodStates} {m m' : MethodRef} {s : MethodState}

/-- The methods with a body that calls of `d` may run. -/
def targets (p : Program) (d : MethodDef) : List MethodDef := (if d.isAbstract then [] else [d]) ++ p.overrides d

/-- A case goes to a method that its receivers may run. -/
def send (j : Joiner) (x : DynamicType × MethodState) (out : MethodStates) (t : MethodDef) : Guarded MethodStates := do
  if ← mayRun j.program x.1 t then out.add j t.ref x.2 else return out

theorem spread_polymorphic {d : MethodDef} (hd : j.program.method? m = some d) (hvirtual : d.isVirtual = true)
    (cases : List (DynamicType × MethodState)) :
    spread j out m (.polymorphic cases) = cases.foldlM (fun out x => (targets j.program d).foldlM (send j x) out) out := by
  unfold spread
  rw [hd, Option.filter_some_pos hvirtual]
  rfl

theorem spread_unknown {d : MethodDef} (hd : j.program.method? m = some d) (hvirtual : d.isVirtual = true) :
    spread j out m .unknown = (m :: (j.program.overrides d).map MethodDef.ref).foldlM (fun out r => out.add j r .unknown) out := by
  unfold spread
  rw [hd, Option.filter_some_pos hvirtual]

theorem lasts_send (hQ : MethodState.Lasting j Q) {x : DynamicType × MethodState} {t : MethodDef} (h : send j x out t = .ok out')
    (hm : Q (out.state m')) : Q (out'.state m') := by
  obtain ⟨runs, -, h⟩ := bind_eq_ok.1 h
  split at h
  · exact hQ.of_add h hm
  · cases h
    exact hm

theorem lasts_sends (hQ : MethodState.Lasting j Q) {x : DynamicType × MethodState} {ds : List MethodDef}
    (h : ds.foldlM (send j x) out = .ok out') (hm : Q (out.state m')) : Q (out'.state m') :=
  foldlM_preserves (P := fun out => Q (MethodStates.state out m')) (fun _ _ _ _ hb hsend => lasts_send hQ hsend hb) hm h

theorem lasts_spread (hQ : MethodState.Lasting j Q) (h : spread j out m s = .ok out') (hm : Q (out.state m')) :
    Q (out'.state m') := by
  unfold spread at h
  split at h
  · exact foldlM_preserves (P := fun out => Q (MethodStates.state out m')) (fun _ _ _ _ hb hcase => lasts_sends hQ hcase hb) hm h
  · exact foldlM_preserves (P := fun out => Q (MethodStates.state out m')) (fun _ _ _ _ hb hadd => hQ.of_add hadd hb) hm h
  · exact hQ.of_add h hm

/-- A state in which calls are not kept apart goes to the method itself. -/
theorem holds_spread (hQ : MethodState.Lasting j Q) (h : spread j out m s = .ok out') (hcases : ∀ cases, s ≠ .polymorphic cases)
    (hs : Q s) : Q (out'.state m) := by
  unfold spread at h
  split at h
  · exact absurd rfl (hcases _)
  · exact foldlM_establishes (P := fun out => Q (MethodStates.state out m)) (x := m) List.mem_cons_self
      (fun _ _ hadd => hQ.add hadd hs) (fun _ _ _ _ hb hadd => hQ.of_add hadd hb) h
  · exact hQ.add h hs

/-- A method that may get anything passes this on to all that override it. -/
theorem holds_spread_unknown (hQ : MethodState.Lasting j Q) {d t : MethodDef} (hd : j.program.method? m = some d)
    (hvirtual : d.isVirtual = true) (ht : t ∈ j.program.overrides d) (h : spread j out m .unknown = .ok out') :
    Q (out'.state t.ref) := by
  rw [spread_unknown hd hvirtual] at h
  exact foldlM_establishes (P := fun out => Q (MethodStates.state out t.ref)) (x := t.ref)
    (List.mem_cons_of_mem _ (List.mem_map_of_mem ht)) (fun _ _ hadd => hQ.add hadd hQ.unknown)
    (fun _ _ _ _ hb hadd => hQ.of_add hadd hb) h

/-- A case goes to all methods that its receivers may run. -/
theorem holds_spread_case (hQ : MethodState.Lasting j Q) {d t : MethodDef} (hd : j.program.method? m = some d)
    (hvirtual : d.isVirtual = true) (ht : t ∈ targets j.program d) {cases : List (DynamicType × MethodState)} {bound : DynamicType}
    (hcase : (bound, s) ∈ cases) (hruns : mayRun j.program bound t = .ok true) (hs : Q s)
    (h : spread j out m (.polymorphic cases) = .ok out') : Q (out'.state t.ref) := by
  rw [spread_polymorphic hd hvirtual] at h
  refine foldlM_establishes (P := fun out => Q (MethodStates.state out t.ref)) hcase (fun b b' hsends => ?_)
    (fun _ _ _ _ hb hsends => lasts_sends hQ hsends hb) h
  refine foldlM_establishes (P := fun out => Q (MethodStates.state out t.ref)) ht (fun b b' hsend => ?_)
    (fun _ _ _ _ hb hsend => lasts_send hQ hsend hb) hsends
  rw [send, hruns, ok_bind, if_pos rfl] at hsend
  exact hQ.add hsend hs

/-- **What one method sends to another is there at the end.** -/
theorem holds_run (hQ : MethodState.Lasting j Q) (h : run j methods = .ok out) (hm : methods.state m ≠ .bottom)
    (hthere : ∀ out out', spread j out m (methods.state m) = .ok out' → Q (out'.state m')) : Q (out.state m') :=
  foldlM_establishes (P := fun out => Q (MethodStates.state out m')) (MethodStates.mem_toList_of_state hm) hthere
    (fun _ _ _ _ hb hspread => lasts_spread hQ hspread hb) h

end DexShrinker.Dispatch

namespace DexShrinker

open Std

/-! ### Between scan and flow -/

theorem Dispatch.shows_run {j : Joiner} {methods out : MethodStates} {m : MethodRef} {i : Nat} {e : Evidence}
    (h : run j methods = .ok out) (hm : (methods.state m).Shows i e) : (out.state m).Shows i e := by
  have hlasting := MethodState.lasting_shows j i e
  refine holds_run hlasting h (hlasting.ne_bottom hm) fun _ _ hspread => holds_spread hlasting hspread (fun cases heq => ?_) hm
  rw [heq] at hm
  exact hm

namespace FlowStates

theorem shows_addDefaults {v : View} {j : Joiner} {fields fields' : FieldStates} {f : FieldRef} {e : Evidence}
    (h : addDefaults v j fields = .ok fields') (hf : (fields.state f).Shows e) : (fields'.state f).Shows e := by
  refine foldlM_preserves (P := fun fields => (FieldStates.state fields f).Shows e) (fun _ c _ _ hb hclass => ?_) hf h
  exact foldlM_preserves (P := fun fields => (FieldStates.state fields f).Shows e)
    (fun _ _ _ _ hb hadd => FieldStates.shows_of_add hadd hb) hb hclass

/-! ### Writing back -/

/-- The state that is kept for a place. -/
def slot (s : FlowStates) : FlowSource → Option ValueState
  | .field f => some (s.fields.state f)
  | .parameter a => (s.methods.state a.method).arguments?.bind (·[a.index]?)

theorem state_setState (c : MethodStates) (m m' : MethodRef) (s : MethodState) :
    (c.setState m s).state m' = if m = m' then s else c.state m' := by
  unfold MethodStates.setState
  split
  · cases s <;> simp_all [MethodStates.state, TreeMap.getD_erase, MethodState.isBottom]
  · exact MethodStates.state_insert c m m' s

/-- A place shows something if its slot does, or if all arguments of its method may be anything. -/
theorem shows_iff {s : FlowStates} {e : Evidence} {x : FlowSource} :
    s.Shows e x ↔ (∃ v, s.slot x = some v ∧ v.Shows e) ∨ ∃ a, x = .parameter a ∧ s.methods.state a.method = .unknown := by
  cases x with
  | field f => simp [Shows, slot]
  | parameter a =>
    simp only [Shows, slot, FlowSource.parameter.injEq, exists_eq_left']
    cases s.methods.state a.method <;> simp [MethodState.Shows, MethodState.arguments?]

/-- The arguments of methods are kept one by one after a place is written exactly if they were
    before. -/
theorem state_put (s : FlowStates) (n : FlowNode) {m : MethodRef} (h : (s.methods.state m).arguments? = none) :
    (s.put n).methods.state m = s.methods.state m := by
  unfold put
  split
  · rfl
  · next a _ =>
    split
    · next arguments harguments =>
      have hne : a.method ≠ m := by
        rintro rfl
        rw [harguments] at h
        cases h
      rw [state_setState, if_neg hne]
    · rfl

/-- A write changes the slot of one place. -/
theorem slot_put (s : FlowStates) (n : FlowNode) (x : FlowSource) :
    (s.put n).slot x = if n.key = x then (s.slot x).map fun _ => n.state else s.slot x := by
  unfold put
  split
  · next f hkey =>
    cases x with
    | field f' => simp only [slot, FieldStates.state_setState, hkey, FlowSource.field.injEq, Option.map_some]; split <;> rfl
    | parameter a => simp [slot, hkey]
  · next a hkey =>
    split
    · next arguments harguments =>
      cases x with
      | field f => simp [slot, hkey]
      | parameter b =>
        simp only [slot, state_setState, hkey, FlowSource.parameter.injEq]
        by_cases hm : a.method = b.method
        · rw [if_pos hm, ← hm, harguments]
          simp only [MethodState.arguments?, Option.bind_some, List.getElem?_set]
          by_cases hi : a.index = b.index
          · rw [if_pos hi, if_pos (MethodParameter.ext hm hi), hi]
            by_cases hlt : b.index < arguments.length <;> simp [hlt]
          · rw [if_neg hi, if_neg fun heq => hi (congrArg MethodParameter.index heq)]
        · rw [if_neg hm, if_neg fun heq => hm (congrArg MethodParameter.method heq)]
    · next hnot =>
      split
      · next heq =>
        subst heq
        rw [hkey, slot]
        cases hs : s.methods.state a.method with
        | monomorphic arguments => exact absurd hs (hnot arguments)
        | _ => rfl
      · rfl

theorem slot_puts_of_notMem {ns : List FlowNode} {s : FlowStates} {x : FlowSource} (h : x ∉ ns.map FlowNode.key) :
    (ns.foldl put s).slot x = s.slot x := by
  refine List.foldlRecOn ns put (motive := fun s' => s'.slot x = s.slot x) rfl fun s' hs' n hn => ?_
  rw [slot_put, if_neg, hs']
  rintro rfl
  exact h (List.mem_map_of_mem hn)

/-- **With one node per place, every place has the state of its node in the end.** -/
theorem slot_puts {ns : List FlowNode} (hnodup : (ns.map FlowNode.key).Nodup) {n : FlowNode} (hn : n ∈ ns) (s : FlowStates) :
    (ns.foldl put s).slot n.key = (s.slot n.key).map fun _ => n.state := by
  obtain ⟨before, after, rfl⟩ := List.append_of_mem hn
  rw [List.map_append, List.map_cons] at hnodup
  obtain ⟨-, hafter, hdisjoint⟩ := List.nodup_append.1 hnodup
  have hbefore : n.key ∉ before.map FlowNode.key := fun hmem => hdisjoint _ hmem _ List.mem_cons_self rfl
  rw [List.foldl_append, List.foldl_cons, slot_puts_of_notMem (List.nodup_cons.1 hafter).1, slot_put, if_pos rfl,
    slot_puts_of_notMem hbefore]

theorem state_puts (ns : List FlowNode) {s : FlowStates} {m : MethodRef} (h : (s.methods.state m).arguments? = none) :
    (ns.foldl put s).methods.state m = s.methods.state m := by
  refine List.foldlRecOn ns put (motive := fun s' => s'.methods.state m = s.methods.state m) rfl fun s' hs' n _ => ?_
  rw [state_put _ _ (hs' ▸ h), hs']

/-- Settle every method. -/
def settleAll (c : MethodStates) : MethodStates :=
  c.toList.foldl (fun (c : MethodStates) (m, state) => c.setState m (settle state)) c

theorem state_settleAll (states : MethodStates) (m : MethodRef) : (settleAll states).state m = settle (states.state m) := by
  have hkeep (entries : List (MethodRef × MethodState)) (c : MethodStates) (hm : m ∉ entries.map Prod.fst) :
      MethodStates.state (entries.foldl (fun (c : MethodStates) (m, state) => c.setState m (settle state)) c) m = c.state m := by
    refine List.foldlRecOn entries _ (motive := fun c' => MethodStates.state c' m = c.state m) rfl fun c' hc' entry hentry => ?_
    rw [state_setState, if_neg, hc']
    rintro rfl
    exact hm (List.mem_map_of_mem hentry)
  have hdistinct : (states.toList.map Prod.fst).Nodup := by
    rw [List.nodup_iff_pairwise_ne, List.pairwise_map]
    refine (TreeMap.distinct_keys_toList (t := states)).imp fun {a b} hne heq => hne ?_
    rw [heq]
    exact compare_self
  cases hm : states[m]? with
  | none =>
    have hnot : m ∉ states.toList.map Prod.fst := by
      intro hmem
      obtain ⟨entry, hentry, rfl⟩ := List.mem_map.1 hmem
      rw [TreeMap.mem_toList_iff_getElem?_eq_some.1 hentry] at hm
      cases hm
    have hbottom : states.state m = .bottom := by simp [MethodStates.state, TreeMap.getD_eq_getD_getElem?, hm]
    rw [settleAll, hkeep _ _ hnot, hbottom]
    rfl
  | some s =>
    have hstate : states.state m = s := by simp [MethodStates.state, TreeMap.getD_eq_getD_getElem?, hm]
    obtain ⟨before, after, hsplit⟩ := List.append_of_mem (TreeMap.mem_toList_iff_getElem?_eq_some.2 hm)
    rw [hsplit, List.map_append, List.map_cons] at hdistinct
    obtain ⟨-, hafter, -⟩ := List.nodup_append.1 hdistinct
    rw [settleAll, hsplit, List.foldl_append, List.foldl_cons, hkeep after _ (List.nodup_cons.1 hafter).1, state_setState,
      if_pos rfl, hstate]

theorem shows_settle {s : MethodState} {i : Nat} {e : Evidence} (h : s.Shows i e) : (settle s).Shows i e := by
  cases s with
  | monomorphic arguments =>
    obtain ⟨a, ha, hshows⟩ := h
    simp only [settle]
    split
    · next hbottom =>
      have := List.all_eq_true.1 hbottom a (List.mem_of_getElem? ha)
      cases a with
      | bottom => exact hshows
      | _ => cases this
    · split
      · trivial
      · exact ⟨a, ha, hshows⟩
  | _ => exact h

/-- What a settled state shows about an argument that has a state, this state shows. -/
theorem shows_of_settle {arguments : List ValueState} {i : Nat} {e : Evidence} {a : ValueState}
    (h : (settle (.monomorphic arguments)).Shows i e) (ha : arguments[i]? = some a) : a.Shows e := by
  simp only [settle] at h
  split at h
  · exact h.elim
  · split at h
    · next hunknown =>
      have := List.all_eq_true.1 hunknown a (List.mem_of_getElem? ha)
      cases a with
      | unknown => trivial
      | _ => cases this
    · obtain ⟨a', ha', hshows⟩ := h
      rw [ha] at ha'
      cases ha'
      exact hshows

/-! ### The flow at rest -/

section

variable {j : Joiner} {visits : Nat} {s s' : FlowStates} {x y : FlowSource}

/-- The states after the flow are those of the solved components, written back and settled. -/
theorem resolve_cases (h : resolve j visits s = .ok s') :
    ∃ solved : List FlowGraph,
      List.Forall₂ (fun c c' => c.propagate j visits = .ok c') (FlowGraph.build j.program s).components solved ∧
        s'.fields = ((solved.flatMap FlowGraph.nodes).foldl put s).fields ∧
        ∀ m, s'.methods.state m = settle (((solved.flatMap FlowGraph.nodes).foldl put s).methods.state m) := by
  obtain ⟨solved, hsolved, h⟩ := bind_eq_ok.1 h
  cases h
  exact ⟨solved, mapM_eq_ok_iff.1 hsolved, rfl, state_settleAll _⟩

theorem resolve_mono (h : resolve j visits s = .ok s') {more : Nat} (hle : visits ≤ more) : resolve j more s = .ok s' := by
  obtain ⟨solved, hsolved, h⟩ := bind_eq_ok.1 h
  have hmore := (mapM_eq_ok_iff.1 hsolved).imp fun c c' hc => FlowGraph.propagate_mono hc hle
  exact bind_eq_ok.2 ⟨solved, mapM_eq_ok_iff.2 hmore, h⟩

theorem shows_written {s₁ : FlowStates} (hfields : s'.fields = s₁.fields)
    (hmethods : ∀ m, s'.methods.state m = settle (s₁.methods.state m)) {e : Evidence} (h : s₁.Shows e x) : s'.Shows e x := by
  cases x with
  | field f => simpa only [Shows, hfields] using h
  | parameter a => simpa only [Shows, hmethods] using shows_settle h

theorem keys_of_solved {cs solved : List FlowGraph} (h : List.Forall₂ (fun c c' => c.propagate j visits = .ok c') cs solved) :
    (solved.flatMap FlowGraph.nodes).map FlowNode.key = (cs.flatMap FlowGraph.nodes).map FlowNode.key := by
  induction h with
  | nil => rfl
  | @cons c c' _ _ hc _ ih =>
    have hplaces := congrArg (List.map Prod.fst) (FlowGraph.propagate_settles hc).1.places
    simp only [List.map_map] at hplaces
    simp only [List.flatMap_cons, List.map_append, ih]
    exact congrArg (· ++ _) hplaces

theorem nodup_solved {p : Program} {solved : List FlowGraph}
    (h : List.Forall₂ (fun c c' => c.propagate j visits = .ok c') (FlowGraph.build p s).components solved) :
    ((solved.flatMap FlowGraph.nodes).map FlowNode.key).Nodup := by
  rw [keys_of_solved h]
  exact FlowGraph.nodup_components (FlowGraph.built_build p s)

/-- A node that a component of the graph has before and after the flow. -/
theorem exists_described {p : Program} {c c' : FlowGraph} (hc : c ∈ (FlowGraph.build p s).components)
    (hgrows : FlowGraph.Grows c c') {i : Nat} {n : FlowNode} (hn : c'.nodes[i]? = some n) :
    c.nodes[i]? = some (FlowGraph.describe p s n.key) := by
  have hplace : (c.nodes.map FlowNode.place)[i]? = some n.place := by
    rw [← hgrows.places, List.getElem?_map, hn, Option.map_some]
  rw [List.getElem?_map] at hplace
  obtain ⟨n₀, hn₀, heq⟩ := Option.map_eq_some_iff.1 hplace
  have hkey : n₀.key = n.key := congrArg Prod.fst heq
  have hmem := FlowGraph.mem_nodes_of_mem_component hc (List.mem_of_getElem? hn₀)
  rw [hn₀, (FlowGraph.built_build p s).described n₀ hmem, hkey]

/-- A place of a component has its node after the flow. -/
theorem exists_solved {solved : List FlowGraph} {c c' : FlowGraph} (hc' : c' ∈ solved)
    (hplaces : c'.nodes.map FlowNode.place = c.nodes.map FlowNode.place) {i : Nat} {z : FlowSource} (hat : c.IsAt i z) :
    ∃ n, c'.nodes[i]? = some n ∧ n.key = z ∧ n ∈ solved.flatMap FlowGraph.nodes := by
  obtain ⟨n₀, hn₀, rfl⟩ := Option.map_eq_some_iff.1 hat
  have hplace : (c'.nodes.map FlowNode.place)[i]? = some n₀.place := by rw [hplaces, List.getElem?_map, hn₀, Option.map_some]
  rw [List.getElem?_map] at hplace
  obtain ⟨n, hn, heq⟩ := Option.map_eq_some_iff.1 hplace
  exact ⟨n, hn, congrArg Prod.fst heq, List.mem_flatMap.2 ⟨c', hc', List.mem_of_getElem? hn⟩⟩

theorem shows_describe (p : Program) {v : ValueState} (hv : s.slot x = some v) {n : Int64} (hn : v.Shows (.value n)) :
    (FlowGraph.describe p s x).state.Shows (.value n) := by
  cases x with
  | field f =>
    cases hv
    exact hn.clearInFlow
  | parameter a =>
    unfold FlowGraph.describe
    simp only
    split
    · trivial
    · obtain ⟨arguments, harguments, hget⟩ := Option.bind_eq_some_iff.1 hv
      have hstate : (s.methods.state a.method).argument a.index = v := by
        cases hs : s.methods.state a.method with
        | monomorphic arguments' =>
          rw [hs] at harguments
          cases harguments
          rw [MethodState.argument, List.getD_eq_getElem?_getD, hget, Option.getD_some]
        | _ =>
          rw [hs] at harguments
          cases harguments
      simp only [hstate]
      exact hn.clearInFlow

/-- **The flow takes no integer away.** -/
theorem shows_of_resolve (h : resolve j visits s = .ok s') {n : Int64} (hx : s.Shows (.value n) x) : s'.Shows (.value n) x := by
  obtain ⟨solved, hsolved, hfields, hmethods⟩ := resolve_cases h
  refine shows_written hfields hmethods (shows_iff.2 ?_)
  rcases shows_iff.1 hx with ⟨v, hv, hn⟩ | ⟨a, rfl, hunknown⟩
  · refine .inl ?_
    by_cases hkey : x ∈ (solved.flatMap FlowGraph.nodes).map FlowNode.key
    · obtain ⟨node, hnode, rfl⟩ := List.mem_map.1 hkey
      refine ⟨node.state, by rw [slot_puts (nodup_solved hsolved) hnode, hv]; rfl, ?_⟩
      obtain ⟨c', hc', hmem⟩ := List.mem_flatMap.1 hnode
      obtain ⟨c, hc, hsolve⟩ := exists_of_mem_left hsolved.flip hc'
      obtain ⟨i, hi⟩ := List.getElem?_of_mem hmem
      have hgrows := (FlowGraph.propagate_settles hsolve).1
      have hshows : (c.stateAt i).Shows (.value n) := by
        rw [FlowGraph.stateAt_eq (exists_described hc hgrows hi)]
        exact shows_describe _ hv hn
      rw [← FlowGraph.stateAt_eq hi]
      exact hgrows.shows hshows
    · exact ⟨v, by rw [slot_puts_of_notMem hkey, hv], hn⟩
  · refine .inr ⟨a, rfl, ?_⟩
    rw [state_puts _ (by rw [hunknown]; rfl), hunknown]

/-- A place whose state has a source is among those that wait. -/
theorem mem_waiting {state : ConcreteState} (hx : s.slot x = some (.concrete state)) {flow : InFlow} (hflow : flow ∈ state.inFlow) :
    (x, .concrete state) ∈ FlowGraph.waiting s := by
  have hwaits : (ValueState.concrete state).hasInFlow = true := by
    cases hf : state.inFlow with
    | nil => simp [hf] at hflow
    | cons => simp [ValueState.hasInFlow, ValueState.inFlow, ValueState.concrete?, hf]
  refine List.mem_filter.2 ⟨List.mem_append.2 ?_, hwaits⟩
  cases x with
  | field f =>
    have hstate : s.fields.state f = .concrete state := Option.some.inj hx
    have hbottom : s.fields.state f ≠ .bottom := by simp [hstate]
    exact .inr (List.mem_map.2 ⟨_, FieldStates.mem_toList_of_state hbottom, by rw [hstate]⟩)
  | parameter a =>
    obtain ⟨arguments, harguments, hget⟩ := Option.bind_eq_some_iff.1 hx
    have hbottom : s.methods.state a.method ≠ .bottom := by
      intro heq
      rw [heq] at harguments
      cases harguments
    refine .inl (List.mem_flatMap.2 ⟨_, MethodStates.mem_toList_of_state hbottom, ?_⟩)
    simp only [harguments, Option.getD_some]
    refine List.mem_of_getElem? (i := a.index) ?_
    rw [List.getElem?_mapIdx, hget, Option.map_some]

end

end FlowStates

/-- The type of a place. -/
def Program.placeType? (p : Program) : FlowSource → Option Descriptor
  | .field f => some f.type
  | .parameter a => (p.method? a.method).bind (·.argumentTypes[a.index]?)

/-- The place holds a number. -/
def Program.IsNumeric (p : Program) (x : FlowSource) : Prop := ∃ t, p.placeType? x = some t ∧ t.isPrimitive = true

namespace FlowStates

section

variable {j : Joiner} {visits : Nat} {s s' : FlowStates} {x y : FlowSource}

theorem static_describe {p : Program} (h : p.IsNumeric x) : (FlowGraph.describe p s x).static.isPrimitive = true := by
  obtain ⟨t, ht, hprimitive⟩ := h
  cases x with
  | field f =>
    cases ht
    exact hprimitive
  | parameter a =>
    obtain ⟨m, hm, hindex⟩ := Option.bind_eq_some_iff.1 ht
    simp only [FlowGraph.describe, hm, List.getD_eq_getElem?_getD, hindex, Option.getD_some, hprimitive]

/-- What is shown about a place after the flow, its node shows. -/
theorem shows_node {p : Program} (hy : p.IsNumeric y) {s₁ : FlowStates} {n : FlowNode} (hslot : s₁.slot y = (s.slot y).map fun _ => n.state)
    (hfields : s'.fields = s₁.fields) (hmethods : ∀ m, s'.methods.state m = settle (s₁.methods.state m))
    (hsame : ∀ m, (s.methods.state m).arguments? = none → s₁.methods.state m = s.methods.state m) {e : Evidence}
    (h : s'.Shows e y) : n.state.Shows e ∨ (FlowGraph.describe p s y).state = .unknown := by
  cases y with
  | field f =>
    have hstate : s₁.fields.state f = n.state := Option.some.inj hslot
    rw [Shows, hfields, hstate] at h
    exact .inl h
  | parameter a =>
    obtain ⟨t, ht, -⟩ := hy
    obtain ⟨m, hm, -⟩ := Option.bind_eq_some_iff.1 ht
    have hdescribe : (FlowGraph.describe p s (.parameter a)).state =
        ((s.methods.state a.method).argument a.index).clearInFlow := by
      simp only [FlowGraph.describe, hm]
    rw [Shows, hmethods] at h
    cases harguments : (s.methods.state a.method).arguments? with
    | none =>
      -- The method has no states of its arguments, so it is unknown throughout.
      rw [hsame _ harguments] at h
      refine .inr ?_
      cases hs : s.methods.state a.method with
      | unknown =>
        rw [hdescribe, hs]
        rfl
      | monomorphic arguments =>
        rw [hs] at harguments
        cases harguments
      | bottom | polymorphic _ =>
        rw [hs] at h
        exact h.elim
    | some arguments =>
      rw [slot, slot, harguments, Option.bind_some] at hslot
      cases hget : arguments[a.index]? with
      | none =>
        refine .inr ?_
        cases hs : s.methods.state a.method with
        | monomorphic arguments' =>
          rw [hs] at harguments
          cases harguments
          rw [hdescribe, hs, MethodState.argument, List.getD_eq_getElem?_getD, hget]
          rfl
        | _ =>
          rw [hs] at harguments
          cases harguments
      | some v =>
        rw [hget, Option.map_some] at hslot
        obtain ⟨arguments₁, harguments₁, hget₁⟩ := Option.bind_eq_some_iff.1 hslot
        cases hs : s₁.methods.state a.method with
        | monomorphic arguments' =>
          rw [hs] at harguments₁ h
          cases harguments₁
          exact .inl (shows_of_settle h hget₁)
        | _ =>
          rw [hs] at harguments₁
          cases harguments₁

/-- **The flow takes integers along.** What gets to a source of a place gets to the place. -/
theorem shows_resolve (h : resolve j visits s = .ok s') {flow : InFlow} (hx : s.Shows (.flow flow) x) {f : FlowFunction}
    (hentry : (y, f) ∈ FlowGraph.entries flow) (hnumeric : j.program.IsNumeric y) {n m : Int64} (hmaps : f.Maps n m)
    (hy : s'.Shows (.value n) y) : s'.Shows (.value m) x := by
  rcases shows_iff.1 hx with ⟨v, hv, hflow⟩ | ⟨a, rfl, hunknown⟩
  · cases v with
    | bottom => exact hflow.elim
    | unknown => exact shows_of_resolve h (shows_iff.2 (.inl ⟨_, hv, trivial⟩))
    | concrete state =>
      obtain ⟨solved, hsolved, hfields, hmethods⟩ := resolve_cases h
      have hnodup := nodup_solved hsolved
      obtain ⟨c, hc, e, he, rfl, hsource, htarget⟩ := FlowGraph.links_components (FlowGraph.built_build _ _)
        (FlowGraph.links_build (p := j.program) (mem_waiting hv hflow) hflow hentry)
      obtain ⟨c', hc', hsolve⟩ := exists_of_mem_left hsolved hc
      obtain ⟨hgrows, hsettles⟩ := FlowGraph.propagate_settles hsolve
      -- The nodes of both places after the flow.
      obtain ⟨ny, hny, rfl, hmemy⟩ := exists_solved hc' hgrows.places hsource
      obtain ⟨nx, hnx, rfl, hmemx⟩ := exists_solved hc' hgrows.places htarget
      have hdescribed := exists_described hc hgrows hny
      have hprimitive : c.PrimitiveAt e.source := by
        intro n hn
        rw [hdescribed] at hn
        cases hn
        exact static_describe hnumeric
      have hsettled := hsettles e he hsource.lt_length hprimitive
      have hshows : (c'.stateAt e.source).Shows (.value n) := by
        rcases shows_node hnumeric (slot_puts hnodup hmemy s) hfields hmethods (fun _ => state_puts _) hy with hshows | hunknown
        · rwa [FlowGraph.stateAt_eq hny]
        · rw [hgrows.unknown (by rw [FlowGraph.stateAt_eq hdescribed, hunknown])]
          trivial
      have harrived := hsettled n m hmaps hshows
      rw [FlowGraph.stateAt_eq hnx] at harrived
      refine shows_written hfields hmethods (shows_iff.2 (.inl ⟨nx.state, ?_, harrived⟩))
      rw [slot_puts hnodup hmemx, hv, Option.map_some]
  · exact shows_of_resolve h (shows_iff.2 (.inr ⟨a, rfl, hunknown⟩))

end

end FlowStates

/-! ### Integers that may get to a place -/

namespace Program

/-- A method of a program class has the body. -/
def HasBody (p : Program) (m : MethodDef) (b : Body) : Prop :=
  (∃ c ∈ p.programClasses, m ∈ c.methods) ∧ Scan.bodyOf m = .ok (some b)

/-- In the bodies of program classes every value is defined once, and they were built for the
    methods that have them. -/
def BodiesDefinedOnce (p : Program) : Prop := ∀ m b, p.HasBody m b → b.DefinedOnce ∧ b.method = m.ref

/-- The body of a method sends a value to a place that holds a number. -/
structure Delivers (p : Program) (m : MethodDef) (b : Body) (v : ValueId) (x : FlowSource) : Prop where
  body : p.HasBody m b
  sends : ∃ op ∈ b.operations, b.Sends p v op x
  numeric : p.IsNumeric x

/-- The integer may get to the place. -/
inductive MayReach (p : Program) : Int64 → FlowSource → Prop
  /-- A constant. -/
  | constant {m : MethodDef} {b : Body} {v : ValueId} {x : FlowSource} {n : Int64} (hx : p.Delivers m b v x)
      (hv : b.IsInteger v n) : MayReach p n x
  /-- Passed on by the method that has got it. -/
  | argument {m : MethodDef} {b : Body} {v : ValueId} {x : FlowSource} {n : Int64} {i : Nat} (hx : p.Delivers m b v x)
      (hv : b.IsArgument v i) (hn : MayReach p n (.parameter ⟨m.ref, i⟩)) : MayReach p n x
  /-- Read from a static field. -/
  | read {m : MethodDef} {b : Body} {v : ValueId} {x : FlowSource} {n : Int64} {f : FieldRef} (hx : p.Delivers m b v x)
      (hv : b.Defines v (.staticGet f)) (hf : p.HasOwnField f) (hn : MayReach p n (.field f)) : MayReach p n x
  /-- Combined with a constant by the method that has got it. -/
  | or {m : MethodDef} {b : Body} {v : ValueId} {x : FlowSource} {n c : Int64} {i : Nat} (hx : p.Delivers m b v x)
      (hv : b.IsOr v i c) (hn : MayReach p n (.parameter ⟨m.ref, i⟩)) : MayReach p (n ||| c) x

theorem MayReach.isNumeric {p : Program} {n : Int64} {x : FlowSource} (h : p.MayReach n x) : p.IsNumeric x := by
  cases h with
  | constant hx | argument hx | read hx | or hx => exact hx.numeric

end Program

namespace FlowStates

variable {view : View} {maxInFlow visits : Nat} {s : FlowStates}

/-- The states before the flow show what bodies tell about the values that they send. -/
theorem ofView_cases (h : ofView view maxInFlow visits = .ok s) : ∃ before : FlowStates,
    resolve ⟨view.program, maxInFlow⟩ visits before = .ok s ∧
      ∀ {m b v x e}, view.program.Delivers m b v x → b.DefinedOnce → b.Tells view.program v e → before.Shows e x := by
  obtain ⟨scanned, hscanned, h⟩ := bind_eq_ok.1 h
  obtain ⟨methods, hmethods, h⟩ := bind_eq_ok.1 h
  obtain ⟨fields, hfields, h⟩ := bind_eq_ok.1 h
  refine ⟨⟨methods, fields⟩, Outcome.lift_eq_ok.1 h, fun {m b v x e} hx hb he => ?_⟩
  obtain ⟨⟨c, hc, hm⟩, hbody⟩ := hx.body
  obtain ⟨op, hop, hsends⟩ := hx.sends
  have hshows : scanned.Shows e x := Scan.shows_run hc hm hbody hb hop he hsends hscanned
  cases x with
  | field f => exact shows_addDefaults (Outcome.lift_eq_ok.1 hfields) hshows
  | parameter a => exact Dispatch.shows_run (Outcome.lift_eq_ok.1 hmethods) hshows

/-- **A run that ends** ends in the same way when more visits are allowed. -/
theorem ofView_mono (h : ofView view maxInFlow visits = .ok s) {more : Nat} (hle : visits ≤ more) : ofView view maxInFlow more = .ok s := by
  obtain ⟨scanned, hscanned, h⟩ := bind_eq_ok.1 h
  obtain ⟨methods, hmethods, h⟩ := bind_eq_ok.1 h
  obtain ⟨fields, hfields, h⟩ := bind_eq_ok.1 h
  have hresolve := resolve_mono (Outcome.lift_eq_ok.1 h) hle
  refine bind_eq_ok.2 ⟨scanned, hscanned, bind_eq_ok.2 ⟨methods, hmethods, bind_eq_ok.2 ⟨fields, hfields, ?_⟩⟩⟩
  rw [hresolve]
  rfl

/-- Everything that may get to a place is shown by its state. -/
theorem shows_of_reaches (hbodies : view.program.BodiesDefinedOnce) (h : ofView view maxInFlow visits = .ok s) {n : Int64}
    {x : FlowSource} (hn : view.program.MayReach n x) : s.Shows (.value n) x := by
  obtain ⟨before, hresolve, hbefore⟩ := ofView_cases h
  induction hn with
  | constant hx hv => exact shows_of_resolve hresolve (hbefore hx (hbodies _ _ hx.body).1 (.integer hv))
  | argument hx hv hn ih =>
    obtain ⟨hb, hmethod⟩ := hbodies _ _ hx.body
    rw [← hmethod] at hn ih
    exact shows_resolve hresolve (hbefore hx hb (.argument hv)) (List.mem_singleton.2 rfl) hn.isNumeric (.identity _ _) ih
  | read hx hv hf hn ih =>
    obtain ⟨hb, -⟩ := hbodies _ _ hx.body
    exact shows_resolve hresolve (hbefore hx hb (.read hv hf)) (List.mem_singleton.2 rfl) hn.isNumeric (.identity _ _) ih
  | or hx hv hn ih =>
    obtain ⟨hb, hmethod⟩ := hbodies _ _ hx.body
    rw [← hmethod] at hn ih
    exact shows_resolve hresolve (hbefore hx hb (.or hv)) (List.mem_singleton.2 rfl) hn.isNumeric (.or _ _ _) ih

/-- The final state of a place. -/
def stateOf (s : FlowStates) : FlowSource → ValueState
  | .field f => s.fields.state f
  | .parameter a => s.parameter a.method a.index

theorem shows_stateOf {e : Evidence} {x : FlowSource} (h : s.Shows e x) : (s.stateOf x).Shows e := by
  cases x with
  | field f => exact h
  | parameter a =>
    simp only [stateOf, parameter]
    simp only [Shows] at h
    cases hs : s.methods.state a.method with
    | monomorphic arguments =>
      rw [hs] at h
      obtain ⟨v, hv, hshows⟩ := h
      rwa [MethodState.argument, List.getD_eq_getElem?_getD, hv, Option.getD_some]
    | unknown => trivial
    | bottom | polymorphic _ =>
      rw [hs] at h
      exact h.elim

/-- **No integer is lost.** The state of a place is unknown or admits every integer that may get
    there, so the constant of a parameter is the only integer that may. -/
theorem stateOf_of_reaches (hbodies : view.program.BodiesDefinedOnce) (h : ofView view maxInFlow visits = .ok s) {n : Int64}
    {x : FlowSource} (hn : view.program.MayReach n x) :
    (s.stateOf x = .unknown ∨ ∃ a flows, s.stateOf x = .concrete ⟨.primitive a, flows⟩ ∧ a.admits n = true) ∧
      ∀ a, x = .parameter a → ∀ w, s.constantParameter? a.method a.index = some w → w = n := by
  have hshows := shows_stateOf (shows_of_reaches hbodies h hn)
  constructor
  · cases hs : s.stateOf x with
    | bottom =>
      rw [hs] at hshows
      exact hshows.elim
    | unknown => exact .inl rfl
    | concrete state =>
      rw [hs] at hshows
      obtain ⟨known, flows⟩ := state
      cases known with
      | primitive a => exact .inr ⟨a, flows, rfl, hshows⟩
      | _ => exact hshows.elim
  · rintro a rfl w hw
    unfold constantParameter? at hw
    split at hw
    · next hs =>
      cases hw
      rw [stateOf, hs] at hshows
      exact AbstractValue.admits_single.1 hshows
    · cases hw

/-! A loop: `f` passes its argument with one bit set to `g`, which passes it back. -/

def sampleBody (name : String) (values : List Value) (instrs : List Instr) : Body where
  method := ⟨⟨"Lp/A;"⟩, name, ⟨.void, [.int]⟩⟩
  isStatic := true
  arguments := [0]
  values := ⟨.int, .argument 0⟩ :: values
  blocks := [{ body := instrs, terminator := .ret none }]

def sampleMethod (b : Body) : MethodDef := { ref := b.method, access := .staticFlag, code := some (.body b) }

def sampleG : Body := sampleBody "g" []
  [⟨none, .invoke .static ⟨⟨"Lp/A;"⟩, "f", ⟨.void, [.int]⟩⟩ [0] false, 3⟩]

def sampleF : Body := sampleBody "f" [⟨.int, .instruction⟩, ⟨.int, .instruction⟩]
  [⟨some 1, .constInt 4, 2⟩, ⟨some 2, .binary .or .int 1 0, 2⟩, ⟨none, .invoke .static sampleG.method [2] false, 2⟩]

def sampleMain : Body := sampleBody "main" [⟨.int, .instruction⟩]
  [⟨some 1, .constInt 3, 1⟩, ⟨none, .invoke .static sampleF.method [1] false, 1⟩]

def sampleClass : ClassDef where
  type := ⟨"Lp/A;"⟩
  superclass := none
  methods := [sampleMain, sampleF, sampleG].map sampleMethod

def sampleView : View where
  program := .ofList [sampleClass]

theorem sample_hasBody {m : MethodDef} {b : Body} :
    sampleView.program.HasBody m b ↔ b ∈ [sampleMain, sampleF, sampleG] ∧ m = sampleMethod b := by
  constructor
  · rintro ⟨⟨c, hc, hm⟩, hbody⟩
    obtain ⟨hget, -⟩ := Program.mem_programClasses.1 hc
    obtain rfl := List.mem_singleton.1 (Program.mem_of_class?_ofList hget)
    obtain ⟨b', hb', rfl⟩ := List.mem_map.1 hm
    cases hbody
    exact ⟨hb', rfl⟩
  · rintro ⟨hb, rfl⟩
    have hclass : sampleView.program.class? sampleClass.type = some sampleClass :=
      Program.class?_ofList (by decide) (List.mem_singleton.2 rfl)
    exact ⟨⟨sampleClass, Program.mem_programClasses.2 ⟨hclass, rfl⟩, List.mem_map_of_mem hb⟩, rfl⟩

theorem sample_definedOnce : sampleView.program.BodiesDefinedOnce := by
  intro m b h
  obtain ⟨hb, rfl⟩ := sample_hasBody.1 h
  simp only [List.mem_cons, List.not_mem_nil, or_false] at hb
  rcases hb with rfl | rfl | rfl <;>
  · refine ⟨⟨by decide, ?_⟩, rfl⟩
    simp [Body.IsArgument, Block.defs, sampleMain, sampleF, sampleG, sampleBody]

/-- A call between the methods delivers its argument. -/
theorem sample_delivers {b target : Body} {v : ValueId} (hb : b ∈ [sampleMain, sampleF, sampleG])
    (hop : .invoke .static target.method [v] false ∈ b.operations) (htarget : target = sampleF ∨ target = sampleG) :
    sampleView.program.Delivers (sampleMethod b) b v (.parameter ⟨target.method, 0⟩) := by
  have hcalls : b.Calls sampleView.program .static target.method [v] (sampleMethod target) := by
    rcases htarget with rfl | rfl <;>
    exact ⟨by decide, rfl, by decide, by decide, rfl, by decide, fun h => absurd h (by decide)⟩
  refine ⟨sample_hasBody.2 ⟨hb, rfl⟩, ⟨_, hop, .call hcalls rfl⟩, .int, ?_, by decide⟩
  rcases htarget with rfl | rfl <;> rfl

theorem sample_reaches : sampleView.program.MayReach 7 (.parameter ⟨sampleF.method, 0⟩) := by
  have hmain : sampleView.program.MayReach 3 (.parameter ⟨sampleF.method, 0⟩) :=
    .constant (sample_delivers (b := sampleMain) (v := 1) (by simp) (List.mem_of_getElem? (i := 1) rfl) (.inl rfl))
      (.inr ⟨3, ⟨_, List.mem_of_getElem? (i := 0) rfl, rfl, rfl⟩, rfl⟩)
  have hor : sampleF.IsOr 2 0 4 :=
    ⟨.int, 1, 0, ⟨_, List.mem_of_getElem? (i := 1) rfl, rfl, rfl⟩,
      .inr ⟨⟨.int, rfl⟩, .inr ⟨4, ⟨_, List.mem_of_getElem? (i := 0) rfl, rfl, rfl⟩, rfl⟩⟩⟩
  have hf : sampleView.program.MayReach (3 ||| 4) (.parameter ⟨sampleG.method, 0⟩) :=
    .or (sample_delivers (b := sampleF) (v := 2) (by simp) (List.mem_of_getElem? (i := 2) rfl) (.inr rfl)) hor hmain
  exact .argument (sample_delivers (b := sampleG) (v := 0) (by simp) (List.mem_of_getElem? (i := 0) rfl) (.inl rfl))
    ⟨.int, rfl⟩ hf

theorem stateOf_of_reaches_loop : ∃ s, ofView sampleView 16 100 = .ok s ∧ sampleView.program.BodiesDefinedOnce ∧
    sampleView.program.MayReach 7 (.parameter ⟨sampleF.method, 0⟩) ∧
    ((s.stateOf (.parameter ⟨sampleF.method, 0⟩) = .unknown ∨
      ∃ a flows, s.stateOf (.parameter ⟨sampleF.method, 0⟩) = .concrete ⟨.primitive a, flows⟩ ∧ a.admits 7 = true) ∧
      ∀ a, FlowSource.parameter ⟨sampleF.method, 0⟩ = .parameter a → ∀ w, s.constantParameter? a.method a.index = some w → w = 7) := by
  have hok : (ofView sampleView 16 100).isOk = true := by decide +kernel
  cases hrun : ofView sampleView 16 100 with
  | error e =>
    rw [hrun] at hok
    cases hok
  | ok s => exact ⟨s, rfl, sample_definedOnce, sample_reaches, stateOf_of_reaches sample_definedOnce hrun sample_reaches⟩

end FlowStates

end DexShrinker
