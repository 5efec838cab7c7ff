/-
  DexShrinker/Proofs/Flow/Worklist.lean
  =====================================
  **At rest, what goes out of a node has got to where its edges lead.**

  A visit of a node sends its state along its edges, and every state that arrives is joined
  into that of another node (`FlowGraph.receive_spec`). Nodes keep something of what has
  arrived at them: which integers there were, say, or that another arrival would change
  nothing. Whatever it is (`Keeping`), while the worklist is gone through every edge is
  accounted for (`FlowGraph.Accounted`): its target is unknown, or its source is still to be
  visited, or its target keeps what comes out of its source, or this is on its way. So when
  nothing is left to visit, targets keep it, also those of edges that were dropped
  (`FlowGraph.propagate_serves`).

  An edge that reads a field looks at the state of the field besides that of its source. The
  worklist follows its source only, so the two have to be the same (`FlowGraph.Own`).

  States only grow in the integers they show (`FlowGraph.Grows`): a node keeps the integers of
  the states that arrive at it (`FlowGraph.keeping_integers`). So at rest all integers at the
  source of an edge from a number are at its target (`FlowGraph.propagate_settles`).
-/
import DexShrinker.Flow.Graph
import DexShrinker.Proofs.Flow.ValueState
import DexShrinker.Proofs.Outcome

namespace DexShrinker

namespace FlowNode

/-- What of a node never changes. -/
def place (n : FlowNode) : FlowSource × Descriptor × Bool := (n.key, n.static, n.isReceiver)

/-- What goes into the functions of the edges from a node. -/
def input? (n : FlowNode) : Option ConcreteState :=
  match n.state with
  | .bottom => none
  | .unknown => some (FlowGraph.narrowedUnknown n.static)
  | .concrete s => some s

/-- A state as it arrives at a node. -/
def arriving (n : FlowNode) (s : ValueState) : ValueState := if n.isReceiver then s.toReceiver else s

/-- A node before and after a state arrives. -/
inductive Receives (j : Joiner) (n : FlowNode) (s : ValueState) : FlowNode → Prop
  | same (h : n.state.join j (n.arriving s) = .ok n.state) : Receives j n s n
  | changed {joined : ValueState} (h : n.state.join j (n.arriving s) = .ok joined) (hne : joined ≠ n.state) :
      Receives j n s { n with state := joined.widen j.program n.static }

variable {j : Joiner} {n n' : FlowNode} {s : ValueState}

theorem Receives.place_eq (h : n.Receives j s n') : n'.place = n.place := by
  cases h <;> rfl

/-- Nothing changes an unknown node. -/
theorem Receives.eq_of_unknown (h : n.Receives j s n') (hn : n.state = .unknown) : n' = n := by
  cases h with
  | same => rfl
  | changed h hne =>
    have hjoin (c : ValueState) : ValueState.unknown.join j c = .ok .unknown := by cases c <;> rfl
    rw [hn, hjoin] at h
    cases h
    exact absurd hn.symm hne

end FlowNode

/-- What nodes keep of the states that arrive at them, as long as all states fit. -/
structure Keeping (j : Joiner) (Fit : ValueState → Prop) (Keeps : FlowNode → ValueState → Prop) : Prop where
  fit : ∀ {n n' : FlowNode} {s : ValueState}, n.Receives j s n' → Fit n.state → Fit s → Fit n'.state
  takes : ∀ {n n' : FlowNode} {s : ValueState}, n.Receives j s n' → Fit n.state → Fit s → Keeps n' s
  keeps : ∀ {n n' : FlowNode} {s c : ValueState}, n.Receives j s n' → Fit n.state → Fit s → Keeps n c → Keeps n' c
  unknown : Fit .unknown
  apply : ∀ {n : FlowNode} {input : ConcreteState} {lookup : FlowSource → ValueState} {f : FlowFunction} {out : ValueState},
    n.input? = some input → Fit n.state → (∀ y, Fit (lookup y)) → f.apply j.program lookup input = .ok out → Fit out.clearInFlow

namespace FlowGraph

/-- The state of the node at a position. -/
def stateAt (g : FlowGraph) (i : Nat) : ValueState := (g.nodes[i]?.map FlowNode.state).getD .bottom

theorem stateAt_eq {g : FlowGraph} {i : Nat} {n : FlowNode} (h : g.nodes[i]? = some n) : g.stateAt i = n.state := by
  rw [stateAt, h]
  rfl

theorem exists_of_stateAt_ne {g : FlowGraph} {i : Nat} (h : g.stateAt i ≠ .bottom) : ∃ n, g.nodes[i]? = some n := by
  cases hn : g.nodes[i]? with
  | none => exact absurd (by rw [stateAt, hn]; rfl) h
  | some n => exact ⟨n, rfl⟩

variable {j : Joiner} {Fit : ValueState → Prop} {Keeps : FlowNode → ValueState → Prop} {g g' : FlowGraph} {work work' : List Nat}
  {t : Nat} {s : ValueState} {e : FlowEdge}

/-! ### A state arrives -/

/-- What a node has to do with a state that arrives at it. -/
theorem receive_cases (h : receive j (g, work) t s = .ok (g', work')) :
    ∃ n joined, g.nodes[t]? = some n ∧ n.state.join j (if n.isReceiver then s.toReceiver else s) = .ok joined ∧
      (joined = n.state ∧ g' = g ∧ work' = work ∨
        joined ≠ n.state ∧ work' = enqueue work t ∧
          g'.nodes = g.nodes.set t { n with state := joined.widen j.program n.static } ∧
          g'.edges = if (joined.widen j.program n.static).isUnknown then g.edges.filter (·.target != t) else g.edges) := by
  unfold receive at h
  dsimp only at h
  split at h
  · cases h
  · next n hn =>
    obtain ⟨joined, hjoined, h⟩ := bind_eq_ok.1 h
    refine ⟨n, joined, hn, hjoined, ?_⟩
    split at h
    · next heq =>
      cases h
      exact .inl ⟨heq, rfl, rfl⟩
    · next hne =>
      cases h
      refine .inr ⟨hne, rfl, ?_⟩
      split
      · exact ⟨rfl, rfl⟩
      · exact ⟨rfl, rfl⟩

theorem map_place_set {n n' : FlowNode} (hn : g.nodes[t]? = some n) (hnodes : g'.nodes = g.nodes.set t n')
    (hplace : n'.place = n.place) : g'.nodes.map FlowNode.place = g.nodes.map FlowNode.place := by
  have hget : (g.nodes.map FlowNode.place)[t]? = some n.place := by rw [List.getElem?_map, hn, Option.map_some]
  rw [hnodes, List.map_set, hplace]
  obtain ⟨hlt, heq⟩ := List.getElem?_eq_some_iff.1 hget
  rw [← heq, List.set_getElem_self]

theorem mem_enqueue {work : List Nat} {i k : Nat} : k ∈ enqueue work i ↔ k = i ∨ k ∈ work := by
  unfold enqueue
  split
  · next hi =>
    rw [List.contains_iff_mem] at hi
    exact ⟨.inr, fun h => h.elim (fun heq => heq ▸ hi) id⟩
  · exact List.mem_cons

/-- **One state arrives.** One node receives it, and is on the worklist afterwards if it has
    changed. Edges go only if their target is unknown. -/
theorem receive_spec (h : receive j (g, work) t s = .ok (g', work')) :
    ∃ n n', g.nodes[t]? = some n ∧ n.Receives j s n' ∧ g'.nodes = g.nodes.set t n' ∧ (∀ i ∈ work, i ∈ work') ∧
      (n' ≠ n → t ∈ work') ∧ ∀ e ∈ g.edges, e ∈ g'.edges ∨ g'.stateAt e.target = .unknown := by
  obtain ⟨n, joined, hn, hjoined, ⟨rfl, rfl, rfl⟩ | ⟨hne, rfl, hnodes, hedges⟩⟩ := receive_cases h
  · refine ⟨n, n, hn, .same hjoined, ?_, fun _ => id, fun hne => absurd rfl hne, fun _ => .inl⟩
    obtain ⟨hlt, rfl⟩ := List.getElem?_eq_some_iff.1 hn
    rw [List.set_getElem_self]
  · refine ⟨n, _, hn, .changed hjoined hne, hnodes, fun i hi => mem_enqueue.2 (.inr hi), fun _ => mem_enqueue.2 (.inl rfl),
      fun e he => ?_⟩
    rw [hedges]
    split
    · next hunknown =>
      by_cases ht : e.target = t
      · refine .inr ?_
        have hget := List.getElem?_set_self (a := { n with state := joined.widen j.program n.static })
          (List.getElem?_eq_some_iff.1 hn).1
        rw [ht, stateAt_eq (by rw [hnodes, hget])]
        cases hw : joined.widen j.program n.static with
        | unknown => rfl
        | _ =>
          rw [hw] at hunknown
          cases hunknown
      · exact .inl (List.mem_filter.2 ⟨he, by simpa using ht⟩)
    · exact .inl he

/-- The second graph has the same places. Its nodes keep what they keep in the first, and
    those that are unknown in the first are as they were. -/
structure Persists (Keeps : FlowNode → ValueState → Prop) (g g' : FlowGraph) : Prop where
  places : g'.nodes.map FlowNode.place = g.nodes.map FlowNode.place
  kept {i : Nat} {n : FlowNode} {c : ValueState} : g.nodes[i]? = some n → Keeps n c → ∃ n', g'.nodes[i]? = some n' ∧ Keeps n' c
  unknown {i : Nat} {n : FlowNode} : g.nodes[i]? = some n → n.state = .unknown → g'.nodes[i]? = some n

namespace Persists

variable {g'' : FlowGraph}

theorem refl (Keeps : FlowNode → ValueState → Prop) (g : FlowGraph) : Persists Keeps g g :=
  ⟨rfl, fun hn hc => ⟨_, hn, hc⟩, fun hn _ => hn⟩

theorem trans (h : Persists Keeps g g') (h' : Persists Keeps g' g'') : Persists Keeps g g'' where
  places := h'.places.trans h.places
  kept hn hc :=
    let ⟨_, hn', hc'⟩ := h.kept hn hc
    h'.kept hn' hc'
  unknown hn hu := h'.unknown (h.unknown hn hu) hu

/-- The same nodes, whatever the edges are. -/
theorem of_nodes_eq (h : g'.nodes = g.nodes) : Persists Keeps g g' :=
  ⟨by rw [h], fun hn hc => ⟨_, h ▸ hn, hc⟩, fun hn _ => h ▸ hn⟩

theorem stateAt_unknown (h : Persists Keeps g g') {i : Nat} (hi : g.stateAt i = .unknown) : g'.stateAt i = .unknown := by
  obtain ⟨n, hn⟩ := exists_of_stateAt_ne (g := g) (i := i) (by rw [hi]; simp)
  rw [stateAt_eq hn] at hi
  rw [stateAt_eq (h.unknown hn hi), hi]

end Persists

/-- The states of all nodes fit. -/
def Fits (Fit : ValueState → Prop) (g : FlowGraph) : Prop := ∀ n ∈ g.nodes, Fit n.state

theorem Fits.lookup (hg : g.Fits Fit) (hunknown : Fit .unknown) (y : FlowSource) : Fit (g.lookup y) := by
  unfold FlowGraph.lookup
  cases hfind : g.nodes.find? (·.key == y) with
  | none => exact hunknown
  | some n => exact hg n (List.mem_of_find?_eq_some hfind)

theorem persists_receive (hK : Keeping j Fit Keeps) (hg : g.Fits Fit) (hs : Fit s) (h : receive j (g, work) t s = .ok (g', work')) :
    Persists Keeps g g' ∧ g'.Fits Fit := by
  obtain ⟨n, n', hn, hreceives, hnodes, -⟩ := receive_spec h
  have hlt := (List.getElem?_eq_some_iff.1 hn).1
  have hfit := hg n (List.mem_of_getElem? hn)
  refine ⟨⟨map_place_set hn hnodes hreceives.place_eq, ?_, ?_⟩, ?_⟩
  · intro i m c hm hc
    rw [hnodes]
    by_cases hi : t = i
    · subst hi
      cases hn.symm.trans hm
      exact ⟨n', List.getElem?_set_self hlt, hK.keeps hreceives hfit hs hc⟩
    · exact ⟨m, by rw [List.getElem?_set_ne hi, hm], hc⟩
  · intro i m hm hu
    rw [hnodes]
    by_cases hi : t = i
    · subst hi
      cases hn.symm.trans hm
      rw [hreceives.eq_of_unknown hu, List.getElem?_set_self hlt]
    · rw [List.getElem?_set_ne hi, hm]
  · intro m hm
    rw [hnodes] at hm
    rcases List.mem_or_eq_of_mem_set hm with hm | rfl
    · exact hg m hm
    · exact hK.fit hreceives hfit hs

/-! ### Every edge is accounted for -/

/-- The function of the edge looks at no place but the source of the edge. -/
def Own (g : FlowGraph) (e : FlowEdge) : Prop := ∀ y f, e.function = .fieldRead y f → g.nodeOf? (.field f) = some e.source

theorem own_congr (h : g'.nodes.map FlowNode.place = g.nodes.map FlowNode.place) : g'.Own e ↔ g.Own e := by
  have hnode (key : FlowSource) : g'.nodeOf? key = g.nodeOf? key := by
    have hfind (g : FlowGraph) : g.nodeOf? key = (g.nodes.map FlowNode.place).findIdx? (·.1 == key) := by
      rw [nodeOf?, List.findIdx?_map]
      rfl
    rw [hfind, hfind, h]
  simp only [Own, hnode]

theorem lookup_of_nodeOf? {key : FlowSource} {i : Nat} {n : FlowNode} (h : g.nodeOf? key = some i) (hn : g.nodes[i]? = some n) :
    g.lookup key = n.state := by
  obtain ⟨hlt, hkey, hbefore⟩ := List.findIdx?_eq_some_iff_getElem.1 h
  obtain ⟨-, rfl⟩ := List.getElem?_eq_some_iff.1 hn
  have hfind : g.nodes.find? (·.key == key) = some g.nodes[i] :=
    List.find?_eq_some_iff_getElem.2 ⟨hkey, i, hlt, rfl, fun k hk => by simpa using hbefore k hk⟩
  rw [lookup, hfind]
  rfl

/-- What comes out of an own edge depends on the source only. -/
theorem Own.apply_eq (he : g.Own e) (hplaces : g'.nodes.map FlowNode.place = g.nodes.map FlowNode.place) {n : FlowNode}
    (hn : g.nodes[e.source]? = some n) (hn' : g'.nodes[e.source]? = some n) (p : Program) (input : ConcreteState) :
    e.function.apply p g'.lookup input = e.function.apply p g.lookup input := by
  have he' := (own_congr hplaces).2 he
  cases hf : e.function with
  | fieldRead y f =>
    simp only [FlowFunction.apply, lookup_of_nodeOf? (he y f hf) hn, lookup_of_nodeOf? (he' y f hf) hn']
  | _ => rfl

/-- The target of the edge keeps what comes out of the source. -/
def Served (j : Joiner) (Keeps : FlowNode → ValueState → Prop) (g : FlowGraph) (e : FlowEdge) : Prop :=
  ∀ n input, g.nodes[e.source]? = some n → n.input? = some input →
    ∃ out m, e.function.apply j.program g.lookup input = .ok out ∧ g.nodes[e.target]? = some m ∧ Keeps m out.clearInFlow

/-- The state is what comes out of the source along the edge. -/
def Carried (j : Joiner) (g : FlowGraph) (e : FlowEdge) (s : ValueState) : Prop :=
  ∀ n input, g.nodes[e.source]? = some n → n.input? = some input →
    ∃ out, e.function.apply j.program g.lookup input = .ok out ∧ out.clearInFlow = s

/-- Nothing is left to do for an edge, or it will be done: when its source is visited, or when
    the states on their way arrive. An edge that is gone has an end that never changes. -/
def Accounted (j : Joiner) (Keeps : FlowNode → ValueState → Prop) (g : FlowGraph) (work : List Nat)
    (pending : List (Nat × ValueState)) (e : FlowEdge) : Prop :=
  g.stateAt e.target = .unknown ∨ (e ∈ g.edges ∧ e.source ∈ work) ∨
    ((e ∈ g.edges ∨ g.stateAt e.source = .unknown) ∧
      (g.Served j Keeps e ∨ ∃ s, (e.target, s) ∈ pending ∧ g.Carried j e s))

theorem Served.of_persists (h : g.Served j Keeps e) (hown : g.Own e) (hpersists : Persists Keeps g g')
    (hsource : g'.nodes[e.source]? = g.nodes[e.source]?) : g'.Served j Keeps e := by
  intro n input hn hinput
  have hn₀ := hsource ▸ hn
  obtain ⟨out, m, hout, hm, hkeeps⟩ := h n input hn₀ hinput
  obtain ⟨m', hm', hkeeps'⟩ := hpersists.kept hm hkeeps
  exact ⟨out, m', (hown.apply_eq hpersists.places hn₀ hn j.program input).trans hout, hm', hkeeps'⟩

theorem Carried.of_persists {c : ValueState} (h : g.Carried j e c) (hown : g.Own e) (hpersists : Persists Keeps g g')
    (hsource : g'.nodes[e.source]? = g.nodes[e.source]?) : g'.Carried j e c := by
  intro n input hn hinput
  have hn₀ := hsource ▸ hn
  obtain ⟨out, hout, hc⟩ := h n input hn₀ hinput
  exact ⟨out, (hown.apply_eq hpersists.places hn₀ hn j.program input).trans hout, hc⟩

/-- **Step.** An arrival leaves every edge accounted for. -/
theorem accounted_receive (hK : Keeping j Fit Keeps) (hg : g.Fits Fit) (hs : Fit s) {pending : List (Nat × ValueState)}
    (hown : g.Own e) (h : receive j (g, work) t s = .ok (g', work')) (he : g.Accounted j Keeps work ((t, s) :: pending) e) :
    g'.Accounted j Keeps work' pending e := by
  obtain ⟨hpersists, -⟩ := persists_receive hK hg hs h
  obtain ⟨n, n', hn, hreceives, hnodes, hwork, hchanged, hedges⟩ := receive_spec h
  have hlt := (List.getElem?_eq_some_iff.1 hn).1
  rcases he with hunknown | ⟨hmem, hsource⟩ | ⟨hlive, hdone⟩
  · exact .inl (hpersists.stateAt_unknown hunknown)
  · rcases hedges e hmem with hmem | hunknown
    · exact .inr (.inl ⟨hmem, hwork _ hsource⟩)
    · exact .inl hunknown
  · by_cases hsame : g'.nodes[e.source]? = g.nodes[e.source]?
    · -- The source is as it was, so what is on its way is still all there is to carry.
      have hlive' : g'.stateAt e.target = .unknown ∨ e ∈ g'.edges ∨ g'.stateAt e.source = .unknown := by
        rcases hlive with hmem | hunknown
        · exact (hedges e hmem).elim (.inr ∘ .inl) .inl
        · exact .inr (.inr (hpersists.stateAt_unknown hunknown))
      rcases hlive' with hunknown | hlive'
      · exact .inl hunknown
      · refine .inr (.inr ⟨hlive', ?_⟩)
        rcases hdone with hserved | ⟨c, hpending, hcarried⟩
        · exact .inl (hserved.of_persists hown hpersists hsame)
        · have hcarried' := hcarried.of_persists hown hpersists hsame
          rcases List.mem_cons.1 hpending with heq | hpending
          · obtain ⟨rfl, rfl⟩ := Prod.mk.inj heq
            refine .inl fun m input hm hinput => ?_
            obtain ⟨out, hout, hc⟩ := hcarried' m input hm hinput
            exact ⟨out, n', hout, by rw [hnodes, List.getElem?_set_self hlt],
              hc ▸ hK.takes hreceives (hg n (List.mem_of_getElem? hn)) hs⟩
          · exact .inr ⟨c, hpending, hcarried'⟩
    · have heq : t = e.source ∧ n' ≠ n := by
        by_cases hi : t = e.source
        · refine ⟨hi, fun heq => hsame ?_⟩
          rw [hnodes, heq, ← hi, List.getElem?_set_self hlt, hn]
        · exact absurd (by rw [hnodes, List.getElem?_set_ne hi]) hsame
      rcases hlive with hmem | hunknown
      · rcases hedges e hmem with hmem | hunknown
        · exact .inr (.inl ⟨hmem, heq.1 ▸ hchanged heq.2⟩)
        · exact .inl hunknown
      · rw [← heq.1, stateAt_eq hn] at hunknown
        exact absurd (hreceives.eq_of_unknown hunknown) heq.2

theorem receiveAll_spec (hK : Keeping j Fit Keeps) (hg : g.Fits Fit) {pending : List (Nat × ValueState)}
    (hpending : ∀ x ∈ pending, Fit x.2) (h : pending.foldlM (fun acc (t, s) => receive j acc t s) (g, work) = .ok (g', work')) :
    Persists Keeps g g' ∧ g'.Fits Fit ∧
      ∀ e, g.Own e → g.Accounted j Keeps work pending e → g'.Accounted j Keeps work' [] e := by
  induction pending generalizing g work with
  | nil =>
    cases h
    exact ⟨.refl Keeps _, hg, fun _ _ => id⟩
  | cons first pending ih =>
    rw [List.foldlM_cons] at h
    obtain ⟨⟨g₁, work₁⟩, hfirst, h⟩ := bind_eq_ok.1 h
    obtain ⟨hs, hpending⟩ := List.forall_mem_cons.1 hpending
    obtain ⟨hpersists, hg₁⟩ := persists_receive hK hg hs hfirst
    obtain ⟨hpersists', hg', hrest⟩ := ih hg₁ hpending h
    refine ⟨hpersists.trans hpersists', hg', fun e hown he => ?_⟩
    exact hrest e ((own_congr hpersists.places).2 hown) (accounted_receive hK hg hs hown hfirst he)

/-! ### A node is visited -/

theorem mem_outputs {i : Nat} {input : ConcreteState} {outputs : List (Nat × ValueState)} (h : g.outputs j i input = .ok outputs)
    {x : Nat × ValueState} (hx : x ∈ outputs) :
    ∃ e ∈ g.edges, ∃ out, e.function.apply j.program g.lookup input = .ok out ∧ x = (e.target, out.clearInFlow) := by
  obtain ⟨e, he, hmake⟩ := exists_of_mem_left (mapM_eq_ok_iff.1 h).flip hx
  obtain ⟨out, hout, hmake⟩ := bind_eq_ok.1 hmake
  exact ⟨e, (List.mem_filter.1 he).1, out, hout, (pure_eq_ok.1 hmake).symm⟩

theorem carried_outputs {i : Nat} {n : FlowNode} {input : ConcreteState} {outputs : List (Nat × ValueState)}
    (h : g.outputs j i input = .ok outputs) (hn : g.nodes[i]? = some n) (hinput : n.input? = some input) (he : e ∈ g.edges)
    (hsource : e.source = i) : ∃ s, (e.target, s) ∈ outputs ∧ g.Carried j e s := by
  have hmem : e ∈ g.edges.filter (·.source == i) := List.mem_filter.2 ⟨he, by simp [hsource]⟩
  obtain ⟨x, hx, hmake⟩ := exists_of_mem_left (mapM_eq_ok_iff.1 h) hmem
  obtain ⟨out, hout, hmake⟩ := bind_eq_ok.1 hmake
  obtain rfl := pure_eq_ok.1 hmake
  refine ⟨_, hx, fun m input' hm hinput' => ⟨out, ?_, rfl⟩⟩
  rw [hsource] at hm
  cases hn.symm.trans hm
  cases hinput.symm.trans hinput'
  exact hout

/-- **Step.** A visit leaves every edge accounted for. -/
theorem visit_spec (hK : Keeping j Fit Keeps) (hg : g.Fits Fit) {i : Nat} (h : g.visit j work i = .ok (g', work')) :
    Persists Keeps g g' ∧ g'.Fits Fit ∧
      ∀ e, g.Own e → g.Accounted j Keeps (i :: work) [] e → g'.Accounted j Keeps work' [] e := by
  unfold visit at h
  split at h
  · cases h
  · next n hn =>
    have hfit {input : ConcreteState} (hinput : n.input? = some input) {outputs : List (Nat × ValueState)}
        (houtputs : g.outputs j i input = .ok outputs) : ∀ x ∈ outputs, Fit x.2 := by
      intro x hx
      obtain ⟨e, -, out, hout, rfl⟩ := mem_outputs houtputs hx
      exact hK.apply hinput (hg n (List.mem_of_getElem? hn)) (hg.lookup hK.unknown) hout
    split at h
    · next hbottom =>
      cases h
      refine ⟨.refl Keeps _, hg, fun e _ he => ?_⟩
      rcases he with hunknown | ⟨hmem, hsource⟩ | ⟨hlive, hdone⟩
      · exact .inl hunknown
      · rcases List.mem_cons.1 hsource with rfl | hsource
        · refine .inr (.inr ⟨.inl hmem, .inl fun m input hm hinput => ?_⟩)
          cases hn.symm.trans hm
          simp [FlowNode.input?, hbottom] at hinput
        · exact .inr (.inl ⟨hmem, hsource⟩)
      · exact .inr (.inr ⟨hlive, hdone.imp_right fun ⟨_, hpending, _⟩ => by cases hpending⟩)
    · next hunknown =>
      -- Its edges are dropped before anything arrives, but it stays unknown for good.
      obtain ⟨outputs, houtputs, h⟩ := bind_eq_ok.1 h
      have hinput : n.input? = some (narrowedUnknown n.static) := by rw [FlowNode.input?, hunknown]
      obtain ⟨hpersists, hg', hrest⟩ := receiveAll_spec (g := g.dropFrom i) hK hg (hfit hinput houtputs) h
      refine ⟨(Persists.of_nodes_eq rfl : Persists Keeps g (g.dropFrom i)).trans hpersists, hg', fun e hown he => hrest e hown ?_⟩
      have hi : (g.dropFrom i).stateAt i = .unknown := (stateAt_eq hn).trans hunknown
      have hlive : e ∈ g.edges → e ∈ (g.dropFrom i).edges ∨ (g.dropFrom i).stateAt e.source = .unknown := by
        intro hmem
        by_cases hsource : e.source = i
        · exact .inr (hsource ▸ hi)
        · exact .inl (List.mem_filter.2 ⟨hmem, by simpa using hsource⟩)
      rcases he with hunknown | ⟨hmem, hsource⟩ | ⟨hlive', hdone⟩
      · exact .inl hunknown
      · by_cases hi : e.source = i
        · have hcarried := carried_outputs houtputs hn hinput hmem hi
          exact .inr (.inr ⟨hlive hmem, .inr hcarried⟩)
        · refine .inr (.inl ⟨List.mem_filter.2 ⟨hmem, by simpa using hi⟩, ?_⟩)
          exact (List.mem_cons.1 hsource).resolve_left hi
      · exact .inr (.inr ⟨hlive'.elim hlive .inr, hdone.imp id fun ⟨_, hpending, _⟩ => by cases hpending⟩)
    · next input hconcrete =>
      obtain ⟨outputs, houtputs, h⟩ := bind_eq_ok.1 h
      have hinput : n.input? = some input := by rw [FlowNode.input?, hconcrete]
      obtain ⟨hpersists, hg', hrest⟩ := receiveAll_spec hK hg (hfit hinput houtputs) h
      refine ⟨hpersists, hg', fun e hown he => hrest e hown ?_⟩
      rcases he with hunknown | ⟨hmem, hsource⟩ | ⟨hlive, hdone⟩
      · exact .inl hunknown
      · rcases List.mem_cons.1 hsource with hi | hsource
        · exact .inr (.inr ⟨.inl hmem, .inr (carried_outputs houtputs hn hinput hmem hi)⟩)
        · exact .inr (.inl ⟨hmem, hsource⟩)
      · exact .inr (.inr ⟨hlive, hdone.imp_right fun ⟨_, hpending, _⟩ => by cases hpending⟩)

/-- With nothing left to visit and nothing on its way, an edge is served. -/
theorem Accounted.served (h : g.Accounted j Keeps [] [] e) : g.stateAt e.target = .unknown ∨ g.Served j Keeps e := by
  rcases h with hunknown | ⟨-, hsource⟩ | ⟨-, hserved | ⟨_, hpending, -⟩⟩
  · exact .inl hunknown
  · cases hsource
  · exact .inr hserved
  · cases hpending

theorem propagateFrom_succ {fuel : Nat} (h : propagateFrom j fuel g work = .ok g') : propagateFrom j (fuel + 1) g work = .ok g' := by
  induction fuel generalizing g work with
  | zero =>
    cases work with
    | nil => exact h
    | cons i work => cases h
  | succ fuel ih =>
    cases work with
    | nil => exact h
    | cons i work =>
      obtain ⟨⟨g₁, work₁⟩, hvisit, h⟩ := bind_eq_ok.1 h
      rw [propagateFrom, hvisit]
      exact ih h

/-- A graph that has come to rest stays as it is, however many visits are left. -/
theorem propagate_mono {visits more : Nat} (h : g.propagate j visits = .ok g') (hle : visits ≤ more) : g.propagate j more = .ok g' := by
  induction hle with
  | refl => exact h
  | step _ ih => exact propagateFrom_succ ih

/-- **Run.** When the worklist is empty, every edge is served. -/
theorem propagateFrom_spec (hK : Keeping j Fit Keeps) (hg : g.Fits Fit) {fuel : Nat} (h : propagateFrom j fuel g work = .ok g') :
    Persists Keeps g g' ∧
      ∀ e, g.Own e → g.Accounted j Keeps work [] e → g'.stateAt e.target = .unknown ∨ g'.Served j Keeps e := by
  induction fuel generalizing g work with
  | zero =>
    cases work with
    | nil =>
      cases h
      exact ⟨.refl Keeps _, fun _ _ he => he.served⟩
    | cons i work => cases h
  | succ fuel ih =>
    cases work with
    | nil =>
      cases h
      exact ⟨.refl Keeps _, fun _ _ he => he.served⟩
    | cons i work =>
      obtain ⟨⟨g₁, work₁⟩, hvisit, h⟩ := bind_eq_ok.1 h
      obtain ⟨hpersists, hg₁, hstep⟩ := visit_spec hK hg hvisit
      obtain ⟨hpersists', hrest⟩ := ih hg₁ h
      exact ⟨hpersists.trans hpersists', fun e hown he =>
        hrest e ((own_congr hpersists.places).2 hown) (hstep e hown he)⟩

/-- **At rest, the targets of edges keep what comes out of their sources.** -/
theorem propagate_serves (hK : Keeping j Fit Keeps) (hg : g.Fits Fit) {fuel : Nat} (h : g.propagate j fuel = .ok g') :
    Persists Keeps g g' ∧ ∀ e ∈ g.edges, e.source < g.nodes.length → g.Own e →
      g'.stateAt e.target = .unknown ∨ g'.Served j Keeps e := by
  obtain ⟨hpersists, hserves⟩ := propagateFrom_spec hK hg h
  exact ⟨hpersists, fun e he hlt hown => hserves e hown (.inr (.inl ⟨he, List.mem_range.2 hlt⟩))⟩

end FlowGraph

/-! ### Integers go along every edge -/

/-- The function makes the second integer of the first. -/
inductive FlowFunction.Maps : FlowFunction → Int64 → Int64 → Prop
  | identity (y : FlowSource) (n : Int64) : Maps (.identity y) n n
  | or (y : FlowSource) (c n : Int64) : Maps (.or y c) n (n ||| c)

namespace FlowGraph

variable {j : Joiner} {g g' : FlowGraph}

/-- The second graph has the same places, and their states show all integers that they show in
    the first. -/
structure Grows (g g' : FlowGraph) : Prop where
  places : g'.nodes.map FlowNode.place = g.nodes.map FlowNode.place
  shows {i : Nat} {n : Int64} : (g.stateAt i).Shows (.value n) → (g'.stateAt i).Shows (.value n)
  unknown {i : Nat} : g.stateAt i = .unknown → g'.stateAt i = .unknown

/-- The node shows all integers that the state shows. -/
def HasIntegers (n : FlowNode) (s : ValueState) : Prop := ∀ v, s.Shows (.value v) → n.state.Shows (.value v)

theorem exists_of_shows {i : Nat} {e : Evidence} (h : (g.stateAt i).Shows e) : ∃ n, g.nodes[i]? = some n ∧ n.state.Shows e := by
  obtain ⟨n, hn⟩ := exists_of_stateAt_ne (g := g) (i := i) fun heq => by simp [heq] at h
  exact ⟨n, hn, stateAt_eq hn ▸ h⟩

theorem Persists.grows (h : Persists HasIntegers g g') : Grows g g' where
  places := h.places
  shows {i v} hv := by
    obtain ⟨n, hn, hshows⟩ := exists_of_shows hv
    obtain ⟨n', hn', hkept⟩ := h.kept hn (c := n.state) fun _ => id
    exact stateAt_eq hn' ▸ hkept v hshows
  unknown := h.stateAt_unknown

/-- **One state arrives.** Nothing that was shown is lost, and what arrives is shown. -/
theorem shows_receives {n n' : FlowNode} {s : ValueState} {v : Int64} (h : n.Receives j s n')
    (hv : n.state.Shows (.value v) ∨ s.Shows (.value v)) : n'.state.Shows (.value v) := by
  have harriving : s.Shows (.value v) → (n.arriving s).Shows (.value v) := by
    intro hs
    unfold FlowNode.arriving
    split
    · exact hs.toReceiver
    · exact hs
  cases h with
  | same h => exact ValueState.shows_join h (hv.imp_right harriving)
  | changed h _ => exact (ValueState.shows_join h (hv.imp_right harriving)).widen _ _

theorem keeping_integers (j : Joiner) : Keeping j (fun _ => True) HasIntegers where
  fit _ _ _ := trivial
  takes h _ _ _ hv := shows_receives h (.inr hv)
  keeps h _ _ hc _ hv := shows_receives h (.inl (hc _ hv))
  unknown := trivial
  apply _ _ _ _ := trivial

/-- What comes out of a function has all integers that it makes of those that go in. -/
theorem shows_apply {p : Program} {lookup : FlowSource → ValueState} {f : FlowFunction} {state : ConcreteState} {out : ValueState}
    (h : f.apply p lookup state = .ok out) {n m : Int64} (hmaps : f.Maps n m) (hn : state.known.Admits n) :
    out.clearInFlow.Shows (.value m) := by
  refine ValueState.Shows.clearInFlow ?_
  cases hmaps with
  | identity y =>
    cases h
    exact hn
  | or y c =>
    unfold FlowFunction.apply at h
    cases hk : state.known with
    | primitive a =>
      rw [hk] at hn
      simp only [hk] at h
      obtain ⟨b, hb, h⟩ := bind_eq_ok.1 h
      cases h
      exact ValueState.shows_ofKnowledge (AbstractValue.admits_orInteger hb hn)
    | _ => simp [hk, Knowledge.Admits] at hn

/-- All integers at the source of an edge have gone along it. -/
def Settled (g : FlowGraph) (e : FlowEdge) : Prop :=
  ∀ n m, e.function.Maps n m → (g.stateAt e.source).Shows (.value n) → (g.stateAt e.target).Shows (.value m)

/-- The static type of the node at a position is primitive. -/
def PrimitiveAt (g : FlowGraph) (i : Nat) : Prop := ∀ n, g.nodes[i]? = some n → n.static.isPrimitive = true

theorem Grows.primitiveAt (h : Grows g g') {i : Nat} (hi : g.PrimitiveAt i) : g'.PrimitiveAt i := by
  intro n hn
  have hplace : (g.nodes.map FlowNode.place)[i]? = some n.place := by
    rw [← h.places, List.getElem?_map, hn, Option.map_some]
  rw [List.getElem?_map] at hplace
  obtain ⟨n₀, hn₀, heq⟩ := Option.map_eq_some_iff.1 hplace
  have hstatic : n₀.static = n.static := congrArg (fun place => place.2.1) heq
  exact hstatic ▸ hi n₀ hn₀

/-- What a number shows goes into its edges. -/
theorem exists_input {n : FlowNode} (hn : n.static.isPrimitive = true) {v : Int64} (hv : n.state.Shows (.value v)) :
    ∃ input, n.input? = some input ∧ input.known.Admits v := by
  unfold FlowNode.input?
  cases hs : n.state with
  | bottom =>
    rw [hs] at hv
    exact hv.elim
  | unknown =>
    refine ⟨_, rfl, ?_⟩
    rw [narrowedUnknown, if_pos hn]
    rfl
  | concrete s =>
    rw [hs] at hv
    exact ⟨s, rfl, hv⟩

/-- **At rest, all integers at the source of an edge from a number are at its target.** -/
theorem propagate_settles {fuel : Nat} (h : g.propagate j fuel = .ok g') :
    Grows g g' ∧ ∀ e ∈ g.edges, e.source < g.nodes.length → g.PrimitiveAt e.source → g'.Settled e := by
  obtain ⟨hpersists, hserves⟩ := propagate_serves (keeping_integers j) (fun _ _ => trivial) h
  refine ⟨hpersists.grows, fun e he hlt hprimitive n m hmaps hn => ?_⟩
  have hown : g.Own e := by
    intro y f hf
    rw [hf] at hmaps
    cases hmaps
  rcases hserves e he hlt hown with hunknown | hserved
  · rw [hunknown]
    trivial
  · obtain ⟨source, hsource, hshows⟩ := exists_of_shows hn
    obtain ⟨input, hinput, hadmits⟩ := exists_input (hpersists.grows.primitiveAt hprimitive source hsource) hshows
    obtain ⟨out, target, hout, htarget, hkeeps⟩ := hserved source input hsource hinput
    rw [stateAt_eq htarget]
    exact hkeeps m (shows_apply hout hmaps hadmits)

end FlowGraph

end DexShrinker
