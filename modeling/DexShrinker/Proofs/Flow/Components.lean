/-
  DexShrinker/Proofs/Flow/Components.lean
  =======================================
  **A graph is cut where nothing is connected.**

  Two nodes have the same label exactly if edges connect them, in whichever direction they
  lead (`FlowGraph.labels_eq_iff`): labels are roots of the forest, every node is connected
  with its root, and a union makes the roots of both ends of an edge the same. The part with
  a label numbers its nodes without gaps (`FlowGraph.restrict_range`), so cutting the graph
  moves every node and every edge to one place, with nothing else there
  (`FlowGraph.parted_components`).
-/
import DexShrinker.Proofs.Flow.Graph
import Mathlib.Logic.Relation

namespace DexShrinker

open Std

namespace FlowGraph

variable {p : Program} {states : FlowStates} {g : FlowGraph} {labels : List Nat} {root i k : Nat}

/-! ### Labels -/

/-- There is an edge from one node to another. -/
def Joined (g : FlowGraph) (i k : Nat) : Prop := ∃ e ∈ g.edges, e.source = i ∧ e.target = k

/-- Edges lead from one node to another, each in either direction. -/
def Connected (g : FlowGraph) : Nat → Nat → Prop := Relation.EqvGen g.Joined

/-- Every node is connected with the root of its tree. -/
theorem connected_rootOf (hg : g.Built p states) (hk : k < g.nodes.length) : g.Connected (g.forest.rootOf k) k := by
  have hall : g.forest.parents.length = g.nodes.length ∧ ∀ k < g.nodes.length, g.Connected (g.forest.rootOf k) k := by
    refine List.foldlRecOn (motive := fun f : Forest => f.parents.length = g.nodes.length ∧
      ∀ k < g.nodes.length, g.Connected (f.rootOf k) k) _ _ ?_ ?_
    · refine ⟨by simp [Forest.singletons], ?_⟩
      intro k _
      rw [Forest.rootOf_singletons]
      exact .refl k
    · rintro f ⟨hlength, hf⟩ e he
      refine ⟨by rw [Forest.length_union, hlength], ?_⟩
      intro k hk
      obtain ⟨hs, ht⟩ := hg.inRange e he
      rw [f.rootOf_union _ _ (hlength ▸ hk)]
      split
      · next hmax =>
        -- The node was under one of the two roots, and both are connected by way of the edge.
        have hends : g.Connected (f.rootOf e.source) (f.rootOf e.target) :=
          ((hf _ hs).trans _ _ _ (.rel _ _ ⟨e, he, rfl, rfl⟩)).trans _ _ _ ((hf _ ht).symm _ _)
        have hk := hf k hk
        rw [hmax] at hk
        rcases Nat.le_total (f.rootOf e.source) (f.rootOf e.target) with hle | hle
        · rw [Nat.max_eq_right hle] at hk
          rw [Nat.min_eq_left hle]
          exact hends.trans _ _ _ hk
        · rw [Nat.max_eq_left hle] at hk
          rw [Nat.min_eq_right hle]
          exact (hends.symm _ _).trans _ _ _ hk
      · exact hf k hk
  exact hall.2 k hk

theorem getElem?_labels (hi : i < g.nodes.length) : g.labels[i]? = some (g.forest.rootOf i) := by
  have hlt : i < g.forest.parents.length := by
    have := length_labels g
    rw [labels, Forest.roots_eq, List.length_map, List.length_range] at this
    omega
  rw [labels, Forest.roots_eq, List.getElem?_map, List.getElem?_range hlt]
  rfl

theorem labels_eq_of_connected (hg : g.Built p states) (h : g.Connected i k) : g.labels[i]? = g.labels[k]? := by
  induction h with
  | rel i k hik =>
    obtain ⟨e, he, rfl, rfl⟩ := hik
    exact labels_source_eq_target hg he
  | refl i => rfl
  | symm i k _ ih => exact ih.symm
  | trans i l k _ _ ih ih' => exact ih.trans ih'

/-- **Labels tell which nodes are connected.** -/
theorem labels_eq_iff (hg : g.Built p states) (hi : i < g.nodes.length) (hk : k < g.nodes.length) :
    g.labels[i]? = g.labels[k]? ↔ g.Connected i k := by
  refine ⟨?_, labels_eq_of_connected hg⟩
  intro h
  rw [getElem?_labels hi, getElem?_labels hk, Option.some.injEq] at h
  exact ((connected_rootOf hg hi).symm _ _).trans _ _ _ (h ▸ connected_rootOf hg hk)

/-! ### Numbers in a part -/

/-- The number that a node gets in the part with a label. -/
def renumber (labels : List Nat) (root i : Nat) : Nat := (labels.take i).count root

/-- The nodes that are in the part with a label, by their numbers there. -/
def restrict (labels : List Nat) (root : Nat) (work : List Nat) : List Nat :=
  (work.filter fun i => labels[i]? == some root).map (renumber labels root)

theorem restrict_cons (labels : List Nat) (root i : Nat) (work : List Nat) : restrict labels root (i :: work) =
    if labels[i]? = some root then renumber labels root i :: restrict labels root work else restrict labels root work := by
  by_cases h : labels[i]? = some root
  · simp [restrict, h]
  · simp [restrict, h]

/-- **The numbers in a part have no gaps.** -/
theorem restrict_range {m : Nat} (hm : m ≤ labels.length) : restrict labels root (List.range m) = List.range (renumber labels root m) := by
  induction m with
  | zero => simp [restrict, renumber]
  | succ m ih =>
    have hlabel := List.getElem?_eq_getElem (Nat.lt_of_succ_le hm)
    have hstep : restrict labels root (List.range (m + 1)) =
        restrict labels root (List.range m) ++ restrict labels root [m] := by
      simp [restrict, List.range_succ]
    rw [hstep, ih (Nat.le_of_succ_le hm), restrict_cons, renumber, renumber, List.take_add_one, hlabel, List.count_append]
    by_cases h : labels[m] = root
    · simp [h, restrict, List.range_succ]
    · simp [h, restrict]

theorem getElem?_component (h : labels[i]? = some root) :
    (g.component labels root).nodes[renumber labels root i]? = g.nodes[i]? :=
  getElem?_filter_zip g.nodes labels h

theorem length_component (h : g.nodes.length = labels.length) :
    (g.component labels root).nodes.length = renumber labels root labels.length := by
  have hlabels : (g.nodes.zip labels).map Prod.snd = labels := List.map_snd_zip (Nat.le_of_eq h.symm)
  conv_rhs => rw [renumber, List.take_length, ← hlabels, List.count, List.countP_map]
  rw [component, List.length_map, ← List.countP_eq_length_filter]
  rfl

theorem renumber_inj (hi : labels[i]? = some root) (hk : labels[k]? = some root)
    (h : renumber labels root i = renumber labels root k) : i = k := by
  have hnumbers {i : Nat} (hi : labels[i]? = some root) := getElem?_filter_zip (List.range labels.length) labels hi
  have hsome := (hnumbers hi).symm.trans ((congrArg _ h).trans (hnumbers hk))
  rw [List.getElem?_range (List.getElem?_eq_some_iff.1 hi).1, List.getElem?_range (List.getElem?_eq_some_iff.1 hk).1] at hsome
  exact Option.some.inj hsome

theorem exists_renumber (h : k < renumber labels root labels.length) :
    ∃ i, labels[i]? = some root ∧ renumber labels root i = k := by
  have hmem : k ∈ restrict labels root (List.range labels.length) := by
    rw [restrict_range (Nat.le_refl _)]
    exact List.mem_range.2 h
  obtain ⟨i, hi, rfl⟩ := List.mem_map.1 hmem
  exact ⟨i, eq_of_beq (List.mem_filter.1 hi).2, rfl⟩

/-! ### Parts -/

/-- The graph is cut into parts. Every node is at its place in one of them, and every edge is
    in the part that both its ends are in; parts hold nothing else, and a part does not fall
    apart any further. -/
structure PartedInto (g : FlowGraph) (parts : List FlowGraph) (place : Nat → Nat × Nat) : Prop where
  node : ∀ i n, g.nodes[i]? = some n → ∃ part, parts[(place i).1]? = some part ∧ part.nodes[(place i).2]? = some n
  edge : ∀ e ∈ g.edges, ∃ c s t part, parts[c]? = some part ∧ place e.source = (c, s) ∧ place e.target = (c, t) ∧
    ⟨s, t, e.function⟩ ∈ part.edges
  apart : ∀ i k, i < g.nodes.length → k < g.nodes.length → place i = place k → i = k
  nodeOfPart : ∀ c k part n, parts[c]? = some part → part.nodes[k]? = some n → ∃ i, place i = (c, k) ∧ g.nodes[i]? = some n
  edgeOfPart : ∀ c part e', parts[c]? = some part → e' ∈ part.edges →
    ∃ e ∈ g.edges, place e.source = (c, e'.source) ∧ place e.target = (c, e'.target) ∧ e'.function = e.function
  connected : ∀ i k, i < g.nodes.length → k < g.nodes.length → ((place i).1 = (place k).1 ↔ g.Connected i k)

/-- The part and the number there that a node gets. -/
def place (g : FlowGraph) (i : Nat) : Nat × Nat :=
  let root := g.labels.getD i i
  (g.roots.idxOf root, renumber g.labels root i)

theorem getElem?_components {c : Nat} {part : FlowGraph} :
    g.components[c]? = some part ↔ ∃ root, g.roots[c]? = some root ∧ g.component g.labels root = part := by
  rw [components, List.getElem?_map, Option.map_eq_some_iff]
  rfl

theorem place_eq_iff {c : Nat} (hi : g.labels[i]? = some root) :
    g.place i = (c, k) ↔ g.roots[c]? = some root ∧ renumber g.labels root i = k := by
  have hmem : root ∈ g.roots := mem_roots.2 (List.mem_of_getElem? hi)
  rw [place, List.getD_eq_getElem?_getD, hi, Option.getD_some, Prod.mk.injEq]
  refine and_congr_left fun _ => ⟨?_, ?_⟩
  · rintro rfl
    exact List.getElem?_idxOf hmem
  · intro hc
    obtain ⟨hlt, rfl⟩ := List.getElem?_eq_some_iff.1 hc
    exact g.nodup_roots.idxOf_getElem c hlt

/-- **Components are the parts of a graph.** -/
theorem parted_components (hg : g.Built p states) : g.PartedInto g.components g.place := by
  have hlength := length_labels g
  have hlabel {i : Nat} (hi : i < g.nodes.length) : ∃ root, g.labels[i]? = some root := ⟨_, getElem?_labels hi⟩
  have hplace {i root : Nat} (hi : g.labels[i]? = some root) :
      g.roots[(g.place i).1]? = some root ∧ renumber g.labels root i = (g.place i).2 := (place_eq_iff hi).1 rfl
  refine ⟨?_, ?_, ?_, ?_, ?_, ?_⟩
  · intro i n hn
    obtain ⟨root, hi⟩ := hlabel (List.getElem?_eq_some_iff.1 hn).1
    obtain ⟨hc, hk⟩ := hplace hi
    refine ⟨_, getElem?_components.2 ⟨root, hc, rfl⟩, ?_⟩
    rw [← hk, getElem?_component hi, hn]
  · intro e he
    obtain ⟨root, hs⟩ := hlabel (hg.inRange e he).1
    have ht : g.labels[e.target]? = some root := labels_source_eq_target hg he ▸ hs
    obtain ⟨hc, -⟩ := hplace hs
    exact ⟨_, _, _, _, getElem?_components.2 ⟨root, hc, rfl⟩, (place_eq_iff hs).2 ⟨hc, rfl⟩, (place_eq_iff ht).2 ⟨hc, rfl⟩,
      List.mem_map.2 ⟨e, List.mem_filter.2 ⟨he, beq_iff_eq.2 hs⟩, rfl⟩⟩
  · intro i k hi hk heq
    obtain ⟨root, hroot⟩ := hlabel hi
    obtain ⟨root', hroot'⟩ := hlabel hk
    obtain ⟨hc, hnumber⟩ := hplace hroot
    obtain ⟨hc', hnumber'⟩ := hplace hroot'
    rw [heq, hc', Option.some.injEq] at hc
    rw [heq] at hnumber
    subst hc
    exact renumber_inj hroot hroot' (hnumber.trans hnumber'.symm)
  · intro c k part n hpart hn
    obtain ⟨root, hc, rfl⟩ := getElem?_components.1 hpart
    have hk := (List.getElem?_eq_some_iff.1 hn).1
    rw [length_component hlength.symm] at hk
    obtain ⟨i, hi, rfl⟩ := exists_renumber hk
    rw [getElem?_component hi] at hn
    exact ⟨i, (place_eq_iff hi).2 ⟨hc, rfl⟩, hn⟩
  · intro c part e' hpart he'
    obtain ⟨root, hc, rfl⟩ := getElem?_components.1 hpart
    obtain ⟨e, he, rfl⟩ := List.mem_map.1 he'
    obtain ⟨hmem, hs⟩ := List.mem_filter.1 he
    have hs : g.labels[e.source]? = some root := eq_of_beq hs
    have ht : g.labels[e.target]? = some root := labels_source_eq_target hg hmem ▸ hs
    exact ⟨e, hmem, (place_eq_iff hs).2 ⟨hc, rfl⟩, (place_eq_iff ht).2 ⟨hc, rfl⟩, rfl⟩
  · intro i k hi hk
    rw [← labels_eq_iff hg hi hk]
    obtain ⟨root, hroot⟩ := hlabel hi
    obtain ⟨root', hroot'⟩ := hlabel hk
    obtain ⟨hc, -⟩ := hplace hroot
    obtain ⟨hc', -⟩ := hplace hroot'
    constructor
    · intro heq
      rw [hroot, hroot', ← hc, ← hc', heq]
    · intro heq
      rw [hroot, hroot', Option.some.injEq] at heq
      subst heq
      exact (List.getElem?_inj (List.getElem?_eq_some_iff.1 hc).1 g.nodup_roots).1 (hc.trans hc'.symm)

end FlowGraph

end DexShrinker
