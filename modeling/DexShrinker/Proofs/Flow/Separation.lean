/-
  DexShrinker/Proofs/Flow/Separation.lean
  =======================================
  **Components come to rest by themselves.**

  Joins depend on the order in which states arrive, so solving the components of a graph one
  by one is the same as solving the graph only because each component sees the same visits in
  the same order. Nothing that a visit looks at or changes is outside the component of the
  node: edges stay inside, and so does the field that an edge reads, since the field has an
  edge to the same place. So the worklist of the whole graph, with all other nodes left out,
  is the worklist of the component: a visit in the component makes one step there
  (`FlowGraph.visit_component`), and a visit elsewhere makes none (`FlowGraph.visit_elsewhere`).
-/
import DexShrinker.Proofs.Flow.AtRest
import DexShrinker.Proofs.Flow.Components
import Mathlib.Algebra.Order.BigOperators.Group.Finset

namespace DexShrinker

namespace FlowGraph

variable {p : Program} {j : Joiner} {states : FlowStates} {g g' : FlowGraph} {work work' : List Nat} {labels : List Nat}
  {root i k t : Nat} {s : ValueState} {x : FlowSource}

/-! ### Graphs that can be cut -/

/-- A graph can be cut by labels: both ends of an edge have the same label, and so does a
    field that is read on the way. -/
structure Divided (labels : List Nat) (g : FlowGraph) : Prop where
  length : g.nodes.length = labels.length
  nodup : (g.nodes.map FlowNode.key).Nodup
  joined : ∀ e ∈ g.edges, labels[e.target]? = labels[e.source]?
  reads : ∀ e ∈ g.edges, ∀ y f, e.function = .fieldRead y f → ∃ k, g.IsAt k (.field f) ∧ labels[k]? = labels[e.source]?

theorem divided_build (p : Program) (states : FlowStates) : (build p states).Divided (build p states).labels where
  length := (length_labels _).symm
  nodup := (built_build p states).nodup
  joined e he := (labels_source_eq_target (built_build p states) he).symm
  reads e he y f hf := by
    obtain ⟨e', he', -, htarget, hat⟩ := (wired_build p states).reads e he y f hf
    refine ⟨e'.source, hat, ?_⟩
    rw [labels_source_eq_target (built_build p states) he', htarget, ← labels_source_eq_target (built_build p states) he]

/-- The graph can still be cut when edges are gone and states have changed. -/
theorem Divided.mono (h : g.Divided labels) (hkeys : g'.nodes.map FlowNode.key = g.nodes.map FlowNode.key)
    (hedges : ∀ e ∈ g'.edges, e ∈ g.edges) : g'.Divided labels where
  length := by rw [← h.length, ← List.length_map (f := FlowNode.key), hkeys, List.length_map]
  nodup := hkeys ▸ h.nodup
  joined e he := h.joined e (hedges e he)
  reads e he y f hf := by
    obtain ⟨k, hat, hlabel⟩ := h.reads e (hedges e he) y f hf
    refine ⟨k, ?_, hlabel⟩
    rwa [IsAt, ← List.getElem?_map, hkeys, List.getElem?_map]

theorem Divided.lookup_component (h : g.Divided labels) (hk : labels[k]? = some root) (hat : g.IsAt k x) :
    (g.component labels root).lookup x = g.lookup x := by
  have hnodup : ((g.component labels root).nodes.map FlowNode.key).Nodup :=
    h.nodup.sublist ((nodes_component_sublist (Nat.le_of_eq h.length) root).map _)
  obtain ⟨n, hn, -⟩ := Option.map_eq_some_iff.1 hat
  rw [lookup_of_nodeOf? (nodeOf?_of_isAt h.nodup hat) hn,
    lookup_of_nodeOf? (nodeOf?_of_isAt hnodup ((isAt_component hk).2 hat)) ((getElem?_component hk).trans hn)]

/-- The functions of edges look at nothing outside of a component. -/
theorem Divided.apply_component (h : g.Divided labels) {e : FlowEdge} (he : e ∈ g.edges) (hs : labels[e.source]? = some root)
    (p : Program) (input : ConcreteState) :
    e.function.apply p (g.component labels root).lookup input = e.function.apply p g.lookup input := by
  cases hf : e.function with
  | fieldRead y f =>
    obtain ⟨k, hat, hlabel⟩ := h.reads e he y f hf
    simp only [FlowFunction.apply, h.lookup_component (hlabel.trans hs) hat]
  | _ => rfl

/-! ### Edges, nodes and the worklist in a component -/

theorem mem_restrict (ht : labels[t]? = some root) : renumber labels root t ∈ restrict labels root work ↔ t ∈ work := by
  constructor
  · intro h
    obtain ⟨i, hi, heq⟩ := List.mem_map.1 h
    obtain ⟨hmem, hlabel⟩ := List.mem_filter.1 hi
    exact renumber_inj (eq_of_beq hlabel) ht heq ▸ hmem
  · intro h
    exact List.mem_map.2 ⟨t, List.mem_filter.2 ⟨h, beq_iff_eq.2 ht⟩, rfl⟩

theorem restrict_enqueue (ht : labels[t]? = some root) :
    restrict labels root (enqueue work t) = enqueue (restrict labels root work) (renumber labels root t) := by
  simp only [enqueue, List.contains_iff_mem, mem_restrict ht]
  split
  · rfl
  · rw [restrict_cons, if_pos ht]

theorem restrict_enqueue_elsewhere (ht : labels[t]? ≠ some root) :
    restrict labels root (enqueue work t) = restrict labels root work := by
  unfold enqueue
  split
  · rfl
  · rw [restrict_cons, if_neg ht]

/-- Picking edges of a component is picking the same edges of the graph. -/
theorem component_filter (inGraph inPart : FlowEdge → Bool)
    (h : ∀ e ∈ g.edges, labels[e.source]? = some root →
      inPart { e with source := renumber labels root e.source, target := renumber labels root e.target } = inGraph e) :
    ({ g with edges := g.edges.filter inGraph } : FlowGraph).component labels root =
      { g.component labels root with edges := (g.component labels root).edges.filter inPart } := by
  simp only [component, List.filter_map, List.filter_filter, mk.injEq, true_and]
  congr 1
  apply List.filter_congr
  intro e he
  by_cases hs : labels[e.source]? = some root
  · have heq := h e he hs
    simp only [renumber] at heq
    simp [hs, heq]
  · simp [beq_eq_false_iff_ne.2 hs]

theorem component_filter_elsewhere (inGraph : FlowEdge → Bool) (h : ∀ e ∈ g.edges, labels[e.source]? = some root → inGraph e = true) :
    ({ g with edges := g.edges.filter inGraph } : FlowGraph).component labels root = g.component labels root := by
  rw [component_filter inGraph (fun _ => true) (fun e he hs => (h e he hs).symm), List.filter_true]

theorem renumber_beq (hi : labels[i]? = some root) (hk : labels[k]? = some root) :
    (renumber labels root k == renumber labels root i) = (k == i) := by
  rw [Bool.eq_iff_iff, beq_iff_eq, beq_iff_eq]
  exact ⟨renumber_inj hk hi, fun h => h ▸ rfl⟩

theorem Divided.dropInto_component (h : g.Divided labels) (ht : labels[t]? = some root) :
    (g.dropInto t).component labels root = (g.component labels root).dropInto (renumber labels root t) :=
  component_filter _ _ fun e he hs => congrArg (!·) (renumber_beq ht ((h.joined e he).trans hs))

theorem Divided.dropInto_elsewhere (h : g.Divided labels) (ht : labels[t]? ≠ some root) :
    (g.dropInto t).component labels root = g.component labels root := by
  apply component_filter_elsewhere
  intro e he hs
  refine bne_iff_ne.2 ?_
  rintro rfl
  exact ht ((h.joined e he).trans hs)

theorem dropFrom_component (hi : labels[i]? = some root) :
    (g.dropFrom i).component labels root = (g.component labels root).dropFrom (renumber labels root i) :=
  component_filter _ _ fun _ _ hs => congrArg (!·) (renumber_beq hi hs)

theorem dropFrom_elsewhere (hi : labels[i]? ≠ some root) : (g.dropFrom i).component labels root = g.component labels root := by
  apply component_filter_elsewhere
  intro e _ hs
  refine bne_iff_ne.2 ?_
  rintro rfl
  exact hi hs

/-- A new element among those with one label, or elsewhere. -/
theorem filter_zip_set {α : Type} (xs : List α) (labels : List Nat) (root t : Nat) (x : α) :
    (((xs.set t x).zip labels).filter (·.2 == root)).map Prod.fst =
      if labels[t]? = some root then (((xs.zip labels).filter (·.2 == root)).map Prod.fst).set (renumber labels root t) x
      else ((xs.zip labels).filter (·.2 == root)).map Prod.fst := by
  induction labels generalizing xs t with
  | nil => simp
  | cons l labels ih =>
    cases xs with
    | nil => simp
    | cons y xs =>
      cases t with
      | zero =>
        by_cases hl : l = root
        · simp [hl, renumber]
        · simp [hl]
      | succ t =>
        have ht := ih xs t
        by_cases hl : l = root
        · by_cases hlabel : labels[t]? = some root
          · simpa [hl, hlabel, renumber] using ht
          · simpa [hl, hlabel] using ht
        · by_cases hlabel : labels[t]? = some root
          · simpa [hl, hlabel, renumber] using ht
          · simpa [hl, hlabel] using ht

theorem set_component (n : FlowNode) (ht : labels[t]? = some root) :
    ({ g with nodes := g.nodes.set t n } : FlowGraph).component labels root =
      { g.component labels root with nodes := (g.component labels root).nodes.set (renumber labels root t) n } := by
  simp only [component, filter_zip_set, if_pos ht]

theorem set_elsewhere (n : FlowNode) (ht : labels[t]? ≠ some root) :
    ({ g with nodes := g.nodes.set t n } : FlowGraph).component labels root = g.component labels root := by
  simp only [component, filter_zip_set, if_neg ht]

/-! ### A state arrives -/

/-- The graph and the worklist of a component. -/
def project (labels : List Nat) (root : Nat) (acc : FlowGraph × List Nat) : FlowGraph × List Nat :=
  (acc.1.component labels root, restrict labels root acc.2)

theorem Divided.set (h : g.Divided labels) {n : FlowNode} (hn : g.nodes[t]? = some n) (s : ValueState) :
    ({ g with nodes := g.nodes.set t { n with state := s } } : FlowGraph).Divided labels := by
  refine h.mono ?_ fun _ => id
  obtain ⟨hlt, rfl⟩ := List.getElem?_eq_some_iff.1 hn
  rw [List.map_set, ← List.getElem_map FlowNode.key (h := by simpa using hlt), List.set_getElem_self]

/-- A run over a graph that can be cut. -/
structure Running (labels : List Nat) (acc : FlowGraph × List Nat) : Prop extends Divided labels acc.1 where
  inRange : ∀ i ∈ acc.2, i < labels.length

/-- **Step.** An arrival in the component is an arrival in the graph. -/
theorem Divided.receive_component (h : g.Divided labels) (ht : labels[t]? = some root) (s : ValueState) :
    receive j (project labels root (g, work)) (renumber labels root t) s = project labels root <$> receive j (g, work) t s := by
  unfold receive
  simp only [project, getElem?_component ht]
  cases hn : g.nodes[t]? with
  | none =>
    have hlt := (List.getElem?_eq_some_iff.1 ht).1
    rw [List.getElem?_eq_none_iff, h.length] at hn
    omega
  | some n =>
    dsimp only
    cases n.state.join j (if n.isReceiver then s.toReceiver else s) with
    | error e => rfl
    | ok joined =>
      rw [ok_bind, ok_bind]
      by_cases hsame : joined = n.state
      · rw [if_pos hsame, if_pos hsame]
        rfl
      · rw [if_neg hsame, if_neg hsame, ← set_component _ ht, ← (h.set hn _).dropInto_component ht, ← restrict_enqueue ht]
        split
        · rfl
        · rfl

/-- **Step.** An arrival elsewhere leaves the component alone. -/
theorem Divided.receive_elsewhere (h : g.Divided labels) (ht : labels[t]? ≠ some root)
    (hreceive : receive j (g, work) t s = .ok (g', work')) : project labels root (g', work') = project labels root (g, work) := by
  unfold receive at hreceive
  dsimp only at hreceive
  split at hreceive
  · cases hreceive
  · next n hn =>
    obtain ⟨joined, -, hreceive⟩ := bind_eq_ok.1 hreceive
    split at hreceive
    · cases hreceive
      rfl
    · cases hreceive
      simp only [project, restrict_enqueue_elsewhere ht]
      split
      · rw [(h.set hn _).dropInto_elsewhere ht, set_elsewhere _ ht]
      · rw [set_elsewhere _ ht]

theorem Running.receive (h : Running labels (g, work)) (hreceive : receive j (g, work) t s = .ok (g', work')) :
    Running labels (g', work') := by
  obtain ⟨n, joined, hn, -, ⟨-, rfl, rfl⟩ | ⟨-, rfl, hnodes, hedges⟩⟩ := receive_cases hreceive
  · exact h
  · refine ⟨(h.toDivided.set hn (joined.widen j.program n.static)).mono (by rw [hnodes]) ?_, ?_⟩
    · intro e he
      rw [hedges] at he
      split at he
      · exact (List.mem_filter.1 he).1
      · exact he
    · intro i hi
      rcases mem_enqueue.1 hi with rfl | hi
      · exact h.length ▸ (List.getElem?_eq_some_iff.1 hn).1
      · exact h.inRange i hi

theorem Running.receiveAll (h : Running labels (g, work)) {arriving : List (Nat × ValueState)}
    (hreceive : arriving.foldlM (fun acc (t, s) => FlowGraph.receive j acc t s) (g, work) = .ok (g', work')) :
    Running labels (g', work') :=
  foldlM_preserves (fun _ _ _ _ hacc hstep => hacc.receive hstep) h hreceive

theorem Running.receiveAll_component (h : Running labels (g, work)) {arriving : List (Nat × ValueState)}
    (htargets : ∀ x ∈ arriving, labels[x.1]? = some root) :
    (arriving.map (Prod.map (renumber labels root) id)).foldlM (fun acc (t, s) => FlowGraph.receive j acc t s)
        (project labels root (g, work)) =
      project labels root <$> arriving.foldlM (fun acc (t, s) => FlowGraph.receive j acc t s) (g, work) := by
  induction arriving generalizing g work with
  | nil => rfl
  | cons first arriving ih =>
    obtain ⟨hfirst, hrest⟩ := List.forall_mem_cons.1 htargets
    rw [List.map_cons, List.foldlM_cons, List.foldlM_cons]
    simp only [Prod.map_apply', id_eq, h.receive_component hfirst]
    cases hreceive : FlowGraph.receive j (g, work) first.1 first.2 with
    | error e => rfl
    | ok acc => exact ih (h.receive hreceive) hrest

theorem Running.receiveAll_elsewhere (h : Running labels (g, work)) {arriving : List (Nat × ValueState)}
    (htargets : ∀ x ∈ arriving, labels[x.1]? ≠ some root)
    (hreceive : arriving.foldlM (fun acc (t, s) => FlowGraph.receive j acc t s) (g, work) = .ok (g', work')) :
    project labels root (g', work') = project labels root (g, work) := by
  refine (foldlM_preserves (P := fun acc => Running labels acc ∧ project labels root acc = project labels root (g, work))
    ?_ ⟨h, rfl⟩ hreceive).2
  rintro acc x hx acc' ⟨hacc, hsame⟩ hstep
  exact ⟨hacc.receive hstep, (hacc.receive_elsewhere (htargets x hx) hstep).trans hsame⟩

/-! ### A node is visited -/

/-- What goes out of a node in its component. -/
theorem Divided.outputs_component (h : g.Divided labels) (hi : labels[i]? = some root) (input : ConcreteState) :
    (g.component labels root).outputs j (renumber labels root i) input =
      List.map (Prod.map (renumber labels root) id) <$> g.outputs j i input := by
  have hpicked : (g.component labels root).edges.filter (·.source == renumber labels root i) =
      (g.edges.filter (·.source == i)).map
        fun e => { e with source := renumber labels root e.source, target := renumber labels root e.target } := by
    refine (congrArg FlowGraph.edges (component_filter (·.source == i) (·.source == renumber labels root i)
      fun e _ hs => renumber_beq hi hs)).symm.trans ?_
    have hall : (g.edges.filter (·.source == i)).filter (fun e => labels[e.source]? == some root) = g.edges.filter (·.source == i) := by
      apply List.filter_eq_self.2
      intro e he
      rw [eq_of_beq (List.mem_filter.1 he).2]
      exact beq_iff_eq.2 hi
    exact congrArg (List.map _) hall
  rw [outputs, hpicked, outputs]
  apply mapM_map_eq
  intro e he
  obtain ⟨hmem, hsource⟩ := List.mem_filter.1 he
  simp only [h.apply_component hmem ((eq_of_beq hsource).symm ▸ hi)]
  cases e.function.apply j.program g.lookup input with
  | error e => rfl
  | ok out => rfl

theorem Divided.target_outputs (h : g.Divided labels) {input : ConcreteState} {outputs : List (Nat × ValueState)}
    (houtputs : g.outputs j i input = .ok outputs) {x : Nat × ValueState} (hx : x ∈ outputs) : labels[x.1]? = labels[i]? := by
  obtain ⟨e, he, hmake⟩ := exists_of_mem_left (mapM_eq_ok_iff.1 houtputs).flip hx
  obtain ⟨hmem, hsource⟩ := List.mem_filter.1 he
  obtain ⟨out, -, hmake⟩ := bind_eq_ok.1 hmake
  obtain rfl := pure_eq_ok.1 hmake
  rw [← eq_of_beq hsource]
  exact h.joined e hmem

theorem Running.dropFrom (h : Running labels (g, work)) (i : Nat) : Running labels (g.dropFrom i, work) :=
  ⟨h.toDivided.mono rfl fun _ he => (List.mem_filter.1 he).1, h.inRange⟩

/-- What goes out of a node in the component arrives there as it does in the graph. -/
theorem Divided.send_component (h : g.Divided labels) (hi : labels[i]? = some root) (input : ConcreteState) {g' : FlowGraph}
    (h' : Running labels (g', work)) :
    ((g.component labels root).outputs j (renumber labels root i) input >>= fun outputs =>
        outputs.foldlM (fun acc (t, s) => FlowGraph.receive j acc t s) (project labels root (g', work))) =
      project labels root <$> (g.outputs j i input >>= fun outputs =>
        outputs.foldlM (fun acc (t, s) => FlowGraph.receive j acc t s) (g', work)) := by
  rw [h.outputs_component hi]
  cases houtputs : g.outputs j i input with
  | error e => rfl
  | ok outputs => exact h'.receiveAll_component fun x hx => (h.target_outputs houtputs hx).trans hi

/-- **Step.** A visit in the component is a visit in the graph. -/
theorem Running.visit_component (h : Running labels (g, work)) (hi : labels[i]? = some root) :
    (g.component labels root).visit j (restrict labels root work) (renumber labels root i) =
      project labels root <$> g.visit j work i := by
  unfold visit
  rw [getElem?_component hi]
  cases hn : g.nodes[i]? with
  | none =>
    have hlt := (List.getElem?_eq_some_iff.1 hi).1
    rw [List.getElem?_eq_none_iff, h.length] at hn
    omega
  | some n =>
    dsimp only
    cases n.state with
    | bottom => rfl
    | unknown =>
      rw [← dropFrom_component hi]
      exact h.toDivided.send_component hi _ (h.dropFrom i)
    | concrete s => exact h.toDivided.send_component hi s h

/-- **Step.** A visit elsewhere leaves the component alone. -/
theorem Running.visit_elsewhere (h : Running labels (g, work)) (hi : labels[i]? ≠ some root)
    (hvisit : g.visit j work i = .ok (g', work')) : project labels root (g', work') = project labels root (g, work) := by
  unfold visit at hvisit
  split at hvisit
  · cases hvisit
  · split at hvisit
    · cases hvisit
      rfl
    · obtain ⟨outputs, houtputs, hvisit⟩ := bind_eq_ok.1 hvisit
      have htargets : ∀ x ∈ outputs, labels[x.1]? ≠ some root := fun x hx => h.target_outputs houtputs hx ▸ hi
      rw [(h.dropFrom i).receiveAll_elsewhere htargets hvisit, project, dropFrom_elsewhere hi, project]
    · obtain ⟨outputs, houtputs, hvisit⟩ := bind_eq_ok.1 hvisit
      exact h.receiveAll_elsewhere (fun x hx => h.target_outputs houtputs hx ▸ hi) hvisit

theorem Running.visit (h : Running labels (g, work)) (hvisit : g.visit j work i = .ok (g', work')) : Running labels (g', work') := by
  unfold FlowGraph.visit at hvisit
  split at hvisit
  · cases hvisit
  · split at hvisit
    · cases hvisit
      exact h
    · obtain ⟨outputs, -, hvisit⟩ := bind_eq_ok.1 hvisit
      exact (h.dropFrom i).receiveAll hvisit
    · obtain ⟨outputs, -, hvisit⟩ := bind_eq_ok.1 hvisit
      exact h.receiveAll hvisit

/-! ### Runs -/

theorem Running.tail (h : Running labels (g, i :: work)) : Running labels (g, work) :=
  ⟨h.toDivided, fun k hk => h.inRange k (List.mem_cons_of_mem i hk)⟩

/-- **Run.** When the graph comes to rest, the component does, with the same states. -/
theorem Running.propagateFrom_component (h : Running labels (g, work)) (root : Nat) {fuel : Nat}
    (hrun : propagateFrom j fuel g work = .ok g') :
    propagateFrom j fuel (g.component labels root) (restrict labels root work) = .ok (g'.component labels root) := by
  induction fuel generalizing g work with
  | zero =>
    cases work with
    | nil =>
      cases hrun
      rfl
    | cons i work => cases hrun
  | succ fuel ih =>
    cases work with
    | nil =>
      cases hrun
      rfl
    | cons i work =>
      obtain ⟨⟨g₁, work₁⟩, hvisit, hrun⟩ := bind_eq_ok.1 hrun
      have hrest := ih (h.tail.visit hvisit) hrun
      by_cases hi : labels[i]? = some root
      · rw [restrict_cons, if_pos hi, propagateFrom, h.tail.visit_component hi, hvisit]
        exact hrest
      · obtain ⟨hgraph, hwork⟩ := Prod.mk.inj (h.tail.visit_elsewhere hi hvisit)
        rw [restrict_cons, if_neg hi, ← hgraph, ← hwork]
        exact propagateFrom_succ hrest

/-- **Run.** When all components come to rest, the graph does. -/
theorem Running.exists_propagateFrom (h : Running labels (g, work)) {fuel : Nat → Nat}
    (hruns : ∀ root ∈ labels, ∃ c, propagateFrom j (fuel root) (g.component labels root) (restrict labels root work) = .ok c) :
    ∃ n g', propagateFrom j n g work = .ok g' := by
  -- Every visit uses up one of those that are left for its component.
  generalize htotal : ∑ root ∈ labels.toFinset, fuel root = total
  induction total using Nat.strongRecOn generalizing g work fuel with
  | _ total ih =>
    cases work with
    | nil => exact ⟨0, g, rfl⟩
    | cons i work =>
      obtain ⟨root, hi⟩ : ∃ root, labels[i]? = some root := ⟨_, List.getElem?_eq_getElem (h.inRange i List.mem_cons_self)⟩
      have hroot := List.mem_of_getElem? hi
      obtain ⟨c, hc⟩ := hruns root hroot
      rw [restrict_cons, if_pos hi] at hc
      cases hfuel : fuel root with
      | zero =>
        rw [hfuel] at hc
        cases hc
      | succ left =>
        rw [hfuel, propagateFrom, h.tail.visit_component hi] at hc
        obtain ⟨acc, hacc, hc⟩ := bind_eq_ok.1 hc
        obtain ⟨⟨g₁, work₁⟩, hvisit, rfl⟩ := map_eq_ok.1 hacc
        have hlt : ∑ r ∈ labels.toFinset, Function.update fuel root left r < total := by
          rw [← htotal]
          refine Finset.sum_lt_sum ?_ ⟨root, List.mem_toFinset.2 hroot, ?_⟩
          · intro r _
            by_cases hr : r = root
            · rw [hr, Function.update_self]
              omega
            · rw [Function.update_of_ne hr]
          · rw [Function.update_self]
            omega
        have hleft : ∀ r ∈ labels, ∃ c, propagateFrom j (Function.update fuel root left r) (g₁.component labels r)
            (restrict labels r work₁) = .ok c := by
          intro r hr
          by_cases heq : r = root
          · rw [heq, Function.update_self]
            exact ⟨c, hc⟩
          · obtain ⟨c', hc'⟩ := hruns r hr
            have hne : labels[i]? ≠ some r := by
              rw [hi]
              exact fun hsome => heq (Option.some.inj hsome).symm
            obtain ⟨hgraph, hwork⟩ := Prod.mk.inj (h.tail.visit_elsewhere hne hvisit)
            rw [restrict_cons, if_neg hne] at hc'
            rw [Function.update_of_ne heq, hgraph, hwork]
            exact ⟨c', hc'⟩
        obtain ⟨n, g', hg'⟩ := ih _ hlt (h.tail.visit hvisit) hleft rfl
        refine ⟨n + 1, g', ?_⟩
        rw [propagateFrom, hvisit]
        exact hg'

theorem running_build (p : Program) (states : FlowStates) :
    Running (build p states).labels (build p states, List.range (build p states).nodes.length) where
  toDivided := divided_build p states
  inRange i hi := by
    rw [length_labels]
    exact List.mem_range.1 hi

theorem restrict_nodes (h : g.Divided labels) (root : Nat) :
    restrict labels root (List.range g.nodes.length) = List.range (g.component labels root).nodes.length := by
  rw [length_component h.length, h.length, restrict_range (Nat.le_refl _)]

/-- **Solving components is solving the graph.** Every node and every edge of a graph is in
    exactly one component. When the graph comes to rest, all its components do, each within
    the same number of visits and with the states that the graph ends with; and when all
    components come to rest, the graph does. -/
theorem propagate_components (p : Program) (states : FlowStates) :
    (build p states).PartedInto (build p states).components (build p states).place ∧ ∀ j : Joiner,
      (∀ fuel g', (build p states).propagate j fuel = .ok g' →
        ∀ (c : Nat) (part : FlowGraph), (build p states).components[c]? = some part →
          ∃ part', part.propagate j fuel = .ok part' ∧
            ∀ i k, i < (build p states).nodes.length → (build p states).place i = (c, k) → part'.nodes[k]? = g'.nodes[i]?) ∧
      ((∀ part ∈ (build p states).components, ∃ fuel part', part.propagate j fuel = .ok part') →
        ∃ fuel g', (build p states).propagate j fuel = .ok g') := by
  have hdivided := divided_build p states
  have hrunning := running_build p states
  refine ⟨parted_components (built_build p states), fun j => ⟨?_, ?_⟩⟩
  · intro fuel g' hrun c part hpart
    obtain ⟨root, hc, rfl⟩ := getElem?_components.1 hpart
    have hpart' := hrunning.propagateFrom_component root hrun
    rw [restrict_nodes hdivided] at hpart'
    refine ⟨_, hpart', ?_⟩
    intro i k hi hplace
    have hlabel := getElem?_labels hi
    obtain ⟨hc', rfl⟩ := (place_eq_iff hlabel).1 hplace
    cases hc.symm.trans hc'
    exact getElem?_component hlabel
  · intro hparts
    have hruns (root : Nat) (hroot : root ∈ (build p states).labels) : ∃ fuel c,
        propagateFrom j fuel ((build p states).component (build p states).labels root)
          (restrict (build p states).labels root (List.range (build p states).nodes.length)) = .ok c := by
      rw [restrict_nodes hdivided]
      exact hparts _ (List.mem_map.2 ⟨root, mem_roots.2 hroot, rfl⟩)
    choose! fuel hfuel using hruns
    exact hrunning.exists_propagateFrom hfuel

/-! Five methods that pass on numbers: `b` gets what `a` gets, and `e` what `d` makes of what
    `c` gets. -/

namespace Chains

def method (name : String) : MethodRef := ⟨.ofBinaryName "p/Main", name, ⟨.void, [.int]⟩⟩

def parameter (name : String) : FlowSource := .parameter ⟨method name, 0⟩

def program : Program := .ofList [{
  type := .ofBinaryName "p/Main"
  superclass := some .object
  methods := ["a", "b", "c", "d", "e"].map fun name => { ref := method name, access := .staticFlag, code := none } }]

def joiner : Joiner := ⟨program, FlowStates.defaultMaxInFlow⟩

def scanned : FlowStates where
  methods := [("a", .primitive (.single 1)), ("b", .ofInFlow .int (.source (parameter "a"))), ("c", .primitive (.single 2)),
      ("d", .ofInFlow .int (.function (.or (parameter "c") 1))), ("e", .ofInFlow .int (.source (parameter "d")))].foldl
    (fun c (name, s) => c.setState (method name) (.monomorphic [s])) (∅ : MethodStates)

end Chains

/-- The chains are two components, and `e` ends with the same state in its component and in the
    whole graph. -/
theorem propagate_components_chains :
    ∃ g' part part', (build Chains.program Chains.scanned).propagate Chains.joiner 100 = .ok g' ∧
      (build Chains.program Chains.scanned).components.length = 2 ∧
      (build Chains.program Chains.scanned).components[1]? = some part ∧ part.propagate Chains.joiner 100 = .ok part' ∧
      (build Chains.program Chains.scanned).place 4 = (1, 2) ∧ part'.nodes[2]? = g'.nodes[4]? ∧
      part'.nodes[2]?.map FlowNode.state = some (.primitive (.single 3)) := by
  have hstate : ((build Chains.program Chains.scanned).propagate Chains.joiner 100).toOption.bind
      (fun g' => g'.nodes[4]?.map FlowNode.state) = some (.primitive (.single 3)) := by decide +kernel
  have hlength : (build Chains.program Chains.scanned).components.length = 2 := by decide +kernel
  obtain ⟨g', hg', hstate⟩ := Option.bind_eq_some_iff.1 hstate
  have hrun := toOption_eq_some.1 hg'
  obtain ⟨part, hpart⟩ : ∃ part, (build Chains.program Chains.scanned).components[1]? = some part :=
    ⟨_, List.getElem?_eq_getElem (by omega)⟩
  have hplace : (build Chains.program Chains.scanned).place 4 = (1, 2) := by decide +kernel
  obtain ⟨part', hpart', hnodes⟩ := ((propagate_components Chains.program Chains.scanned).2 Chains.joiner).1 100 g' hrun 1 part hpart
  have hsame := hnodes 4 2 (by decide +kernel) hplace
  exact ⟨g', part, part', hrun, hlength, hpart, hpart', hplace, hsame, hsame ▸ hstate⟩

end FlowGraph

end DexShrinker
