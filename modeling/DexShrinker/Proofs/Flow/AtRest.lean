/-
  DexShrinker/Proofs/Flow/AtRest.lean
  ===================================
  **At rest, no edge has anything new to bring.**

  What comes out of an edge in the end makes no difference to its target: joining it changes
  nothing, or nothing that the static type of the target leaves (`FlowGraph.Rests`). This is
  so for all edges of the graph of a program, also for those that are dropped on the way
  (`FlowGraph.rests_of_propagate`). An edge that reads a field from some receiver need not be
  visited when the state of the field changes, but then the edge from the field is, and both
  bring the same.
-/
import DexShrinker.Proofs.Flow.Found
import DexShrinker.Proofs.Flow.Graph
import DexShrinker.Proofs.Flow.Termination
import DexShrinker.Proofs.Flow.Worklist

namespace DexShrinker

namespace FlowNode

variable {n : FlowNode} {s : ValueState}

theorem plain_arriving (hs : s.Plain) : (n.arriving s).Plain := by
  unfold arriving
  split
  · exact ValueState.plain_toReceiver hs
  · exact hs

theorem canonical_input {input : ConcreteState} (h : n.input? = some input) (hn : n.state.Canonical) : input.known.Canonical := by
  unfold input? at h
  cases hs : n.state with
  | bottom => simp [hs] at h
  | concrete s =>
    simp only [hs, Option.some.injEq] at h
    rw [hs] at hn
    exact h ▸ hn
  | unknown =>
    simp only [hs, Option.some.injEq] at h
    subst h
    unfold FlowGraph.narrowedUnknown
    split
    · trivial
    · split <;> trivial

end FlowNode

/-- Nodes keep the states that arrive at them, up to their static types. -/
theorem keeping_states {j : Joiner} (hp : j.program.Rooted) :
    Keeping j ValueState.Plain fun n c => c.Plain ∧ ValueState.Keeps j n.static n.state (n.arriving c) where
  fit h hn hs := by
    cases h with
    | same => exact hn
    | changed h => exact ValueState.plain_widen (ValueState.plain_join h hn (FlowNode.plain_arriving hs)) _ _
  takes h hn hs := by
    refine ⟨hs, ?_⟩
    cases h with
    | same h => exact .inl h
    | changed h => exact ValueState.keeps_of_join hp h hn (FlowNode.plain_arriving hs) _
  keeps h hn hs hc := by
    refine ⟨hc.1, ?_⟩
    cases h with
    | same => exact hc.2
    | changed h =>
      exact ValueState.keeps_join_widen hp h hn (FlowNode.plain_arriving hs) (FlowNode.plain_arriving hc.1) hc.2
  unknown := ⟨rfl, trivial⟩
  apply hinput hn hlookup h :=
    ValueState.plain_clearInFlow (ValueState.canonical_apply h (FlowNode.canonical_input hinput hn.2) fun y => (hlookup y).2)

namespace FlowGraph

variable {p : Program} {j : Joiner} {states : FlowStates} {g g' : FlowGraph} {e : FlowEdge}

/-! ### Reads of fields -/

/-- Every place has one node, edges lead between nodes, and where the field of some receiver
    is read there is also an edge from the field. -/
structure Wired (g : FlowGraph) : Prop where
  nodup : (g.nodes.map FlowNode.key).Nodup
  inRange : ∀ e ∈ g.edges, e.source < g.nodes.length ∧ e.target < g.nodes.length
  reads : ∀ e ∈ g.edges, ∀ y f, e.function = .fieldRead y f →
    ∃ e' ∈ g.edges, e'.function = e.function ∧ e'.target = e.target ∧ g.IsAt e'.source (.field f)

theorem nodeOf?_of_isAt (hnodup : (g.nodes.map FlowNode.key).Nodup) {i : Nat} {x : FlowSource} (h : g.IsAt i x) :
    g.nodeOf? x = some i := by
  obtain ⟨n, hn, hkey⟩ := Option.map_eq_some_iff.1 h
  obtain ⟨hlt, rfl⟩ := List.getElem?_eq_some_iff.1 hn
  refine List.findIdx?_eq_some_iff_getElem.2 ⟨hlt, by simpa using hkey, fun k hk => ?_⟩
  have hne := List.pairwise_iff_getElem.1 hnodup k i (by simpa using Nat.lt_trans hk hlt) (by simpa using hlt) hk
  simp only [List.getElem_map, hkey] at hne
  simpa using hne

theorem Built.isAt_inj (hg : g.Built p states) {i k : Nat} {x : FlowSource} (hi : g.IsAt i x) (hk : g.IsAt k x) : i = k :=
  Option.some.inj ((nodeOf?_of_isAt hg.nodup hi).symm.trans (nodeOf?_of_isAt hg.nodup hk))

theorem wired_build (p : Program) (states : FlowStates) : (build p states).Wired where
  nodup := (built_build p states).nodup
  inRange := (built_build p states).inRange
  reads e he y f hf := by
    obtain ⟨x, s, entry, hx, hentry, hfunction, -, htarget⟩ := standsFor_of_mem_build he
    obtain ⟨flow, hflow, hentry⟩ := List.mem_flatMap.1 hentry
    rw [hf] at hfunction
    have hfield : (.field f, .fieldRead y f) ∈ entries flow := by
      cases flow with
      | source z =>
        obtain rfl := List.mem_singleton.1 hentry
        cases hfunction
      | function k =>
        obtain ⟨z, -, rfl⟩ := List.mem_map.1 hentry
        obtain rfl : .fieldRead y f = k := hfunction
        exact List.mem_map.2 ⟨.field f, by simp [FlowFunction.sources], rfl⟩
    obtain ⟨e', he', hfunction', hsource', htarget'⟩ := links_build (p := p) hx hflow hfield
    exact ⟨e', he', hfunction'.trans hf.symm, (built_build p states).isAt_inj htarget' htarget, hsource'⟩

theorem nodes_component_sublist {labels : List Nat} (h : g.nodes.length ≤ labels.length) (root : Nat) :
    (g.component labels root).nodes.Sublist g.nodes := by
  have hsub : (((g.nodes.zip labels).filter (·.2 == root)).map Prod.fst).Sublist ((g.nodes.zip labels).map Prod.fst) :=
    List.filter_sublist.map _
  rwa [List.map_fst_zip h] at hsub

theorem wired_component (hg : g.Built p states) (hwired : g.Wired) {c : FlowGraph} (hc : c ∈ g.components) : c.Wired := by
  obtain ⟨root, -, rfl⟩ := List.mem_map.1 hc
  have hedge {e : FlowEdge} (he : e ∈ (g.component g.labels root).edges) : ∃ e₀ ∈ g.edges, g.labels[e₀.source]? = some root ∧
      e = { e₀ with source := (g.labels.take e₀.source).count root, target := (g.labels.take e₀.target).count root } := by
    obtain ⟨e₀, he₀, rfl⟩ := List.mem_map.1 he
    obtain ⟨hmem, hlabel⟩ := List.mem_filter.1 he₀
    exact ⟨e₀, hmem, eq_of_beq hlabel, rfl⟩
  have hsub := nodes_component_sublist (Nat.le_of_eq (length_labels g).symm) root
  refine ⟨hwired.nodup.sublist (hsub.map _), fun e he => ?_, fun e he y f hf => ?_⟩
  · obtain ⟨e₀, he₀, hlabel, rfl⟩ := hedge he
    have hlt {i : Nat} (hi : i < g.nodes.length) (hlabel : g.labels[i]? = some root) :
        (g.labels.take i).count root < (g.component g.labels root).nodes.length := by
      have hat : g.IsAt i g.nodes[i].key := by rw [IsAt, List.getElem?_eq_getElem hi, Option.map_some]
      exact ((isAt_component hlabel).2 hat).lt_length
    obtain ⟨hs, ht⟩ := hwired.inRange e₀ he₀
    exact ⟨hlt hs hlabel, hlt ht (labels_source_eq_target hg he₀ ▸ hlabel)⟩
  · obtain ⟨e₀, he₀, hlabel, rfl⟩ := hedge he
    obtain ⟨e', he', hfunction, htarget, hat⟩ := hwired.reads e₀ he₀ y f hf
    -- Both edges lead to one node, so their sources have one label.
    have hlabel' : g.labels[e'.source]? = some root := by
      rw [labels_source_eq_target hg he', htarget, ← labels_source_eq_target hg he₀, hlabel]
    refine ⟨_, List.mem_map.2 ⟨e', List.mem_filter.2 ⟨he', by rw [hlabel']; exact beq_self_eq_true _⟩, rfl⟩, hfunction, ?_,
      (isAt_component hlabel').2 hat⟩
    exact congrArg (fun i => (g.labels.take i).count root) htarget

/-! ### The graph at rest -/

/-- What the function of an edge makes of the state of its source makes no difference to its
    target, and the function makes something of it unless the target is unknown. -/
def Rests (j : Joiner) (g : FlowGraph) (e : FlowEdge) : Prop :=
  ∃ n m, g.nodes[e.source]? = some n ∧ g.nodes[e.target]? = some m ∧ ∀ input, n.input? = some input →
    (m.state ≠ .unknown → ∃ out, e.function.apply j.program g.lookup input = .ok out) ∧
    ∀ out, e.function.apply j.program g.lookup input = .ok out → m.state.Retains j m.static (m.arriving out.clearInFlow)

instance (j : Joiner) (g : FlowGraph) (e : FlowEdge) : Decidable (g.Rests j e) :=
  match hn : g.nodes[e.source]?, hm : g.nodes[e.target]? with
  | none, _ => isFalse fun ⟨_, _, hn', _⟩ => by cases hn.symm.trans hn'
  | some _, none => isFalse fun ⟨_, _, _, hm', _⟩ => by cases hm.symm.trans hm'
  | some n, some m =>
    match hinput : n.input? with
    | none => isTrue ⟨n, m, hn, hm, by simp [hinput]⟩
    | some input =>
      match hout : e.function.apply j.program g.lookup input with
      | .error _ => decidable_of_iff (m.state = .unknown) (by simp [Rests, hn, hm, hinput, hout])
      | .ok out =>
        decidable_of_iff (m.state.Retains j m.static (m.arriving out.clearInFlow)) (by simp [Rests, hn, hm, hinput, hout])

theorem retains_unknown (j : Joiner) (static : Descriptor) (c : ValueState) : ValueState.unknown.Retains j static c :=
  ⟨_, ValueState.unknown_join j c, .inl rfl⟩

theorem retains_bottom (j : Joiner) (m : FlowNode) : m.state.Retains j m.static (m.arriving .bottom) := by
  have harriving : m.arriving .bottom = .bottom := by
    unfold FlowNode.arriving
    split <;> rfl
  rw [harriving]
  exact ⟨_, ValueState.join_bottom j m.state, .inl rfl⟩

/-- What the function of an edge makes of a state makes no difference to the node `m`. -/
def Brings (j : Joiner) (g : FlowGraph) (f : FlowFunction) (input : ConcreteState) (m : FlowNode) : Prop :=
  ∃ out, f.apply j.program g.lookup input = .ok out ∧ m.state.Retains j m.static (m.arriving out.clearInFlow)

theorem Served.brings (hp : j.program.Rooted)
    (h : g.Served j (fun n c => c.Plain ∧ ValueState.Keeps j n.static n.state (n.arriving c)) e) {n m : FlowNode} {input : ConcreteState}
    (hn : g.nodes[e.source]? = some n) (hm : g.nodes[e.target]? = some m) (hinput : n.input? = some input) :
    g.Brings j e.function input m := by
  obtain ⟨out, m', hout, hm', -, hkeeps⟩ := h n input hn hinput
  cases hm.symm.trans hm'
  exact ⟨out, hout, hkeeps.retains hp⟩

theorem state_of_input? {n : FlowNode} (h : n.input? = none) : n.state = .bottom := by
  unfold FlowNode.input? at h
  split at h
  · assumption
  · cases h
  · cases h

theorem exists_node (hplaces : g'.nodes.map FlowNode.place = g.nodes.map FlowNode.place) {i : Nat} (hi : i < g.nodes.length) :
    ∃ n, g'.nodes[i]? = some n := by
  have hlength := congrArg List.length hplaces
  simp only [List.length_map] at hlength
  exact ⟨_, List.getElem?_eq_getElem (hlength ▸ hi)⟩

/-- The edge from a field brings what the edges bring that read the field. -/
theorem brings_of_read (hplaces : g'.nodes.map FlowNode.place = g.nodes.map FlowNode.place) {y : FlowSource} {f : FieldRef}
    (hfunction : e.function = .fieldRead y f) (hown : g.Own e) {n m : FlowNode} (hn : g'.nodes[e.source]? = some n)
    (hserved : ∀ input, n.input? = some input → g'.Brings j e.function input m) (input : ConcreteState) :
    g'.Brings j e.function input m := by
  have hlookup : g'.lookup (.field f) = n.state := lookup_of_nodeOf? ((own_congr hplaces).2 hown y f hfunction) hn
  have happly (input : ConcreteState) : e.function.apply j.program g'.lookup input = .ok n.state := by
    rw [hfunction, FlowFunction.apply, hlookup]
  cases hinput : n.input? with
  | none =>
    refine ⟨_, happly input, ?_⟩
    rw [state_of_input? hinput]
    exact retains_bottom j m
  | some input' =>
    obtain ⟨out, hout, hretains⟩ := hserved input' hinput
    cases (happly input').symm.trans hout
    exact ⟨_, happly input, hretains⟩

/-- **At rest**, on any graph that is built like those of programs. -/
theorem propagate_rests (hp : j.program.Rooted) (hg : g.Wired) (hplain : g.Fits ValueState.Plain) {fuel : Nat}
    (h : g.propagate j fuel = .ok g') :
    g'.nodes.map FlowNode.place = g.nodes.map FlowNode.place ∧ ∀ e ∈ g.edges, g'.Rests j e := by
  obtain ⟨⟨hplaces, -, -⟩, hserves⟩ := propagate_serves (keeping_states hp) hplain h
  refine ⟨hplaces, fun e he => ?_⟩
  obtain ⟨n, hn⟩ := exists_node hplaces (hg.inRange e he).1
  obtain ⟨m, hm⟩ := exists_node hplaces (hg.inRange e he).2
  have hbrings {e' : FlowEdge} (he' : e' ∈ g.edges) (hown : g.Own e') (htarget : e'.target = e.target) (hne : m.state ≠ .unknown)
      {n' : FlowNode} (hn' : g'.nodes[e'.source]? = some n') (input : ConcreteState) (hinput : n'.input? = some input) :
      g'.Brings j e'.function input m := by
    rcases hserves e' he' (hg.inRange e' he').1 hown with hunknown | hserved
    · exact absurd ((stateAt_eq hm).symm.trans (htarget ▸ hunknown)) hne
    · exact hserved.brings hp hn' (htarget ▸ hm) hinput
  have hall (hne : m.state ≠ .unknown) (input : ConcreteState) (hinput : n.input? = some input) :
      g'.Brings j e.function input m := by
    by_cases hread : ∃ y f, e.function = .fieldRead y f
    · obtain ⟨y, f, hf⟩ := hread
      obtain ⟨e', he', hfunction, htarget, hat⟩ := hg.reads e he y f hf
      obtain ⟨n', hn'⟩ := exists_node hplaces (hg.inRange e' he').1
      have hown : g.Own e' := by
        intro y' f' hf'
        rw [hfunction, hf] at hf'
        cases hf'
        exact nodeOf?_of_isAt hg.nodup hat
      rw [← hfunction]
      exact brings_of_read hplaces (hfunction.trans hf) hown hn' (hbrings he' hown htarget hne hn') input
    · exact hbrings he (fun y f hf => absurd ⟨y, f, hf⟩ hread) rfl hne hn input hinput
  refine ⟨n, m, hn, hm, fun input hinput => ?_⟩
  by_cases hunknown : m.state = .unknown
  · exact ⟨fun hne => absurd hunknown hne, fun out _ => hunknown ▸ retains_unknown j _ _⟩
  · obtain ⟨out, hout, hretains⟩ := hall hunknown input hinput
    refine ⟨fun _ => ⟨out, hout⟩, fun out' hout' => ?_⟩
    cases hout.symm.trans hout'
    exact hretains

/-- **Propagation ends in a post-fixpoint.** When it comes to an end on the graph of the states
    of a program, or on a component of it, all edges that the graph had at first rest. -/
theorem rests_of_propagate {v : View} (hp : v.program.Rooted) {maxInFlow : Nat} (hstates : states.FoundIn v maxInFlow)
    (hg : g = build v.program states ∨ g ∈ (build v.program states).components) {fuel : Nat}
    (h : g.propagate ⟨v.program, maxInFlow⟩ fuel = .ok g') :
    g'.nodes.map FlowNode.place = g.nodes.map FlowNode.place ∧ ∀ e ∈ g.edges, g'.Rests ⟨v.program, maxInFlow⟩ e := by
  have hbuilt := built_build v.program states
  have hplain : (build v.program states).Fits ValueState.Plain := by
    intro n hn
    rw [hbuilt.described n hn]
    exact plain_describe v.program hstates.canonical n.key
  have hwired := wired_build v.program states
  rcases hg with rfl | hc
  · exact propagate_rests hp hwired hplain h
  · exact propagate_rests hp (wired_component hbuilt hwired hc) (fun n hn => hplain n (mem_nodes_of_mem_component hc hn)) h

/-! One method takes the arguments of two others, which are called with new objects of different
    classes. -/

namespace Meeting

open Exchange (type method passing joiner graph)

def receiving (t : Descriptor) : Body where
  method := method "f" [t]
  isStatic := true
  arguments := [0]
  values := [⟨t, .argument 0⟩]
  blocks := [{ terminator := .ret none }]

def main (x y : Descriptor) : Body where
  method := method "main" []
  isStatic := true
  arguments := []
  values := [⟨x, .instruction⟩, ⟨y, .instruction⟩]
  blocks := [{
    body := [⟨some 0, .newInstance x, 1⟩, ⟨none, .invoke .static (method "g" [x]) [0] false, 1⟩,
      ⟨some 1, .newInstance y, 1⟩, ⟨none, .invoke .static (method "h" [y]) [1] false, 1⟩]
    terminator := .ret none }]

def view (t x y : Descriptor) (classes : List ClassDef) : View :=
  let bodies := [receiving t, passing "g" x (method "f" [t]), passing "h" y (method "f" [t]), main x y]
  let callers : ClassDef := { type := type "A", superclass := some .object
                              methods := bodies.map fun c => { ref := c.method, access := .staticFlag, code := some (.body c) } }
  { program := .ofList ({ type := .object, kind := .library, superclass := none } :: callers :: classes) }

/-- The method takes an `I`, which both classes are. -/
def overInterface : View := view (type "I") (type "X") (type "Y")
  [{ type := type "I", access := .interfaceFlag ||| .abstractFlag, superclass := some .object },
    { type := type "X", superclass := some .object, interfaces := [type "I"] },
    { type := type "Y", superclass := some .object, interfaces := [type "I"] }]

/-- One of the classes has an array type. -/
def overArray : View := view .object (type "E").toArray (type "D")
  [{ type := type "C", superclass := some .object }, { type := type "D", superclass := some (type "C") },
    { type := (type "E").toArray, superclass := some (type "C") }]

def depth (t : Descriptor) : Nat :=
  if t = .object then 0 else if t = type "X" ∨ t = type "Y" ∨ t = type "D" ∨ t = (type "E").toArray then 2 else 1

theorem rooted : overInterface.program.Rooted where
  isClass := by decide
  acyclic := ⟨depth, by unfold Program.Ranked; decide⟩
  isClass_of_mem_supertypes := by decide
  top := by decide

/-- The states of a view and its graph at rest, where a test of the graph tells that there are any. -/
theorem exists_propagate (v : View) (test : FlowGraph → Bool)
    (h : ((graph v).propagate (joiner v) 100).toOption.any test = true) (hnodes : (graph v).nodes ≠ []) :
    ∃ states g', states.FoundIn v FlowStates.defaultMaxInFlow ∧ graph v = build v.program states ∧
      (build v.program states).propagate (joiner v) 100 = .ok g' ∧ test g' = true := by
  cases hstates : Exchange.states v with
  | error e => exact absurd (by rw [graph, hstates]) hnodes
  | ok states =>
    have hgraph : graph v = build v.program states := by rw [graph, hstates]
    obtain ⟨scanned, hscanned, h'⟩ := bind_eq_ok.1 hstates
    obtain ⟨methods, hmethods, h'⟩ := bind_eq_ok.1 h'
    obtain ⟨fields, hfields, h'⟩ := bind_eq_ok.1 h'
    obtain rfl := pure_eq_ok.1 h'
    cases hpropagate : (graph v).propagate (joiner v) 100 with
    | error e =>
      rw [hpropagate] at h
      cases h
    | ok g' =>
      rw [hpropagate] at h
      exact ⟨⟨methods, fields⟩, g', ⟨scanned, hscanned, Outcome.lift_eq_ok.1 hmethods, Outcome.lift_eq_ok.1 hfields⟩, hgraph,
        hgraph ▸ hpropagate, h⟩

end Meeting

/-- Objects of two classes meet in an interface, which their join is cut back to. -/
theorem rests_of_propagate_overInterface :
    ∃ states g', Meeting.overInterface.program.Rooted ∧ states.FoundIn Meeting.overInterface FlowStates.defaultMaxInFlow ∧
      (build Meeting.overInterface.program states).propagate (Exchange.joiner Meeting.overInterface) 100 = .ok g' ∧
      (build Meeting.overInterface.program states).edges.length = 2 ∧
      g'.nodes.map FlowNode.place = (build Meeting.overInterface.program states).nodes.map FlowNode.place ∧
      ∀ e ∈ (build Meeting.overInterface.program states).edges, g'.Rests (Exchange.joiner Meeting.overInterface) e := by
  obtain ⟨states, g', hstates, hgraph, hpropagate, -⟩ := Meeting.exists_propagate Meeting.overInterface
    (fun _ => true) (by decide +kernel) (by decide +kernel)
  have hlength : (build Meeting.overInterface.program states).edges.length = 2 := by
    rw [← hgraph]
    decide +kernel
  exact ⟨states, g', Meeting.rooted, hstates, hpropagate, hlength, rests_of_propagate Meeting.rooted hstates (.inl rfl) hpropagate⟩

/-- Where a class has an array type, the bound of a join need not be above both sides, and what
    has arrived may bring something new again. -/
theorem not_rests_of_array_class :
    ∃ v : View, v.program.Acyclic ∧ (∀ c ∈ v.program.classes, c.type = .object → c.supertypes = []) ∧
      ∃ states g', states.FoundIn v FlowStates.defaultMaxInFlow ∧
        (build v.program states).propagate ⟨v.program, FlowStates.defaultMaxInFlow⟩ 100 = .ok g' ∧
        ∃ e ∈ (build v.program states).edges, ¬ g'.Rests ⟨v.program, FlowStates.defaultMaxInFlow⟩ e := by
  have hranked : Program.Ranked Meeting.overArray.program.classes Meeting.depth := by
    unfold Program.Ranked
    decide
  refine ⟨Meeting.overArray, Program.acyclic_iff.2 ⟨_, hranked⟩, by decide +kernel, ?_⟩
  obtain ⟨states, g', hstates, hgraph, hpropagate, htest⟩ := Meeting.exists_propagate Meeting.overArray
    (fun g' => (Exchange.graph Meeting.overArray).edges.any fun e => !decide (g'.Rests (Exchange.joiner Meeting.overArray) e))
    (by decide +kernel) (by decide +kernel)
  obtain ⟨e, he, hnot⟩ := List.any_eq_true.1 htest
  have hnot : ¬ g'.Rests (Exchange.joiner Meeting.overArray) e := by simpa using hnot
  exact ⟨states, g', hstates, hpropagate, e, hgraph ▸ he, hnot⟩

end FlowGraph

end DexShrinker
