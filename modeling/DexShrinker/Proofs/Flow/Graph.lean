/-
  DexShrinker/Proofs/Flow/Graph.lean
  ==================================
  **The graph has an edge for every source.**

  A graph links two places by a function if it has an edge between their nodes. Building
  links every place to all its sources, under one node per place (`FlowGraph.links_build`).
  Both ends of an edge get the same label, so cutting the graph into components loses no
  link and makes no second node for a place (`FlowGraph.links_components`,
  `FlowGraph.nodup_components`).

  Components are kept as a forest. The root of a node is where the path from it ends
  (`Forest.rootOf`). A forest has one such function only: whatever is the same at a node and its
  parent, and is the node itself at a root, is it (`Forest.rootOf_eq_of`). So a new parent with
  the same root makes no difference, and looking for a root makes none (`Forest.find_spec`).
  After a union the nodes under the later of two roots are under the earlier one, and all others
  are where they were (`Forest.rootOf_union`).
-/
import DexShrinker.Flow.Forest
import DexShrinker.Flow.Graph
import DexShrinker.Proofs.Flow.ValueState
import Mathlib.Data.List.Nodup

namespace DexShrinker

/-! ### Halving paths moves no root, and a union moves one -/

namespace Forest

/-- The end of the path from a node. -/
def rootOf (f : Forest) (i : Nat) : Nat := if f.parent i = i then i else f.rootOf (f.parent i)
termination_by i
decreasing_by exact Nat.lt_of_le_of_ne (f.parent_le i) ‹_›

variable {f f' : Forest} {i k p : Nat}

theorem rootOf_of_parent_eq (h : f.parent i = i) : f.rootOf i = i := by
  rw [rootOf, if_pos h]

@[simp] theorem rootOf_parent (f : Forest) (i : Nat) : f.rootOf (f.parent i) = f.rootOf i := by
  by_cases h : f.parent i = i
  · rw [h]
  · rw [rootOf.eq_def f i, if_neg h]

/-- The root is the only node on the path that is its own parent. -/
theorem parent_rootOf (f : Forest) (i : Nat) : f.parent (f.rootOf i) = f.rootOf i := by
  induction i using Nat.strongRecOn with
  | _ i ih =>
    by_cases h : f.parent i = i
    · rw [rootOf_of_parent_eq h, h]
    · rw [← rootOf_parent]
      exact ih _ (Nat.lt_of_le_of_ne (f.parent_le i) h)

theorem rootOf_le (f : Forest) (i : Nat) : f.rootOf i ≤ i := by
  induction i using Nat.strongRecOn with
  | _ i ih =>
    by_cases h : f.parent i = i
    · exact Nat.le_of_eq (rootOf_of_parent_eq h)
    · have hlt := Nat.lt_of_le_of_ne (f.parent_le i) h
      rw [← rootOf_parent]
      exact Nat.le_trans (ih _ hlt) (Nat.le_of_lt hlt)

/-- What does not change along paths and names the roots is the root. -/
theorem rootOf_eq_of (root : Nat → Nat) (hroot : ∀ i, f.parent i = i → root i = i) (hparent : ∀ i, root (f.parent i) = root i)
    (i : Nat) : f.rootOf i = root i := by
  induction i using Nat.strongRecOn with
  | _ i ih =>
    by_cases h : f.parent i = i
    · rw [rootOf_of_parent_eq h, hroot i h]
    · rw [← rootOf_parent, ← hparent]
      exact ih _ (Nat.lt_of_le_of_ne (f.parent_le i) h)

theorem lt_length_of_parent_ne (h : f.parent i ≠ i) : i < f.parents.length := by
  apply Nat.lt_of_not_le
  intro hle
  exact h (by rw [parent, List.getD_eq_getElem?_getD, List.getElem?_eq_none hle, Option.getD_none])

@[simp] theorem length_link (f : Forest) (h : p ≤ i) : (f.link i p h).parents.length = f.parents.length :=
  List.length_set

theorem parent_link (h : p ≤ i) (hi : i < f.parents.length) (k : Nat) :
    (f.link i p h).parent k = if k = i then p else f.parent k := by
  simp only [parent, link, List.getD_eq_getElem?_getD]
  by_cases hk : k = i
  · subst hk
    rw [if_pos rfl, List.getElem?_set_self hi, Option.getD_some]
  · rw [if_neg hk, List.getElem?_set_ne (Ne.symm hk)]

/-- A node that is not a root may get any node of its tree as its parent. -/
theorem rootOf_link_of_rootOf_eq (h : p < i) (hi : i < f.parents.length) (hp : f.rootOf p = f.rootOf i) (k : Nat) :
    (f.link i p (Nat.le_of_lt h)).rootOf k = f.rootOf k := by
  apply rootOf_eq_of
  · intro k hk
    rw [parent_link _ hi] at hk
    split at hk
    · omega
    · exact rootOf_of_parent_eq hk
  · intro k
    rw [parent_link _ hi]
    split
    · next hk => rw [hk, hp]
    · exact rootOf_parent f k

/-- **Looking for a root** finds it and moves no root. -/
theorem find_spec (f : Forest) (i : Nat) : (f.find i).1 = f.rootOf i ∧ (∀ k, (f.find i).2.rootOf k = f.rootOf k) ∧
    (f.find i).2.parents.length = f.parents.length := by
  fun_induction find f i with
  | case1 f i h => exact ⟨(rootOf_of_parent_eq h).symm, fun _ => rfl, rfl⟩
  | case2 f i h ih =>
    obtain ⟨hfound, hroots, hlength⟩ := ih
    have hlink := rootOf_link_of_rootOf_eq (parent_parent_lt h) (lt_length_of_parent_ne h) (by simp)
    refine ⟨?_, ?_, ?_⟩
    · rw [hfound, hlink, rootOf_parent, rootOf_parent]
    · intro k
      rw [hroots, hlink]
    · rw [hlength, length_link]

/-- A root that is put under another root takes its tree along. -/
theorem rootOf_link (h : p ≤ i) (hroot : f.parent i = i) (hp : f.parent p = p) (hk : k < f.parents.length) :
    (f.link i p h).rootOf k = if f.rootOf k = i then p else f.rootOf k := by
  by_cases hi : i < f.parents.length
  · refine rootOf_eq_of (fun k => if f.rootOf k = i then p else f.rootOf k) ?_ ?_ k
    · intro k hk
      rw [parent_link h hi] at hk
      split at hk
      · next heq => rw [heq, rootOf_of_parent_eq hroot, if_pos rfl, hk, heq]
      · next hne => rw [rootOf_of_parent_eq hk, if_neg hne]
    · intro k
      rw [parent_link h hi]
      split
      · next heq => rw [heq, rootOf_of_parent_eq hroot, rootOf_of_parent_eq hp, if_pos rfl, ite_self]
      · rw [rootOf_parent]
  · -- There is no such node, so there is nothing under it either.
    have hsame : f.link i p h = f := by
      rw [link, mk.injEq]
      exact List.set_eq_of_length_le (Nat.le_of_not_lt hi)
    have hlt := Nat.lt_of_le_of_lt (f.rootOf_le k) hk
    rw [hsame, if_neg (by omega)]

/-- **A union** moves the nodes under the later of the two roots. -/
theorem rootOf_union (f : Forest) (a b : Nat) (hk : k < f.parents.length) : (f.union a b).rootOf k =
    if f.rootOf k = max (f.rootOf a) (f.rootOf b) then min (f.rootOf a) (f.rootOf b) else f.rootOf k := by
  obtain ⟨ha, hroots, hlength⟩ := f.find_spec a
  obtain ⟨hb, hroots', hlength'⟩ := (f.find a).2.find_spec b
  have hroot (c : Nat) : ((f.find a).2.find b).2.parent (f.rootOf c) = f.rootOf c := by
    rw [← hroots, ← hroots', parent_rootOf]
  rw [hroots] at hb
  simp only [union, ha, hb]
  rw [rootOf_link, hroots', hroots]
  · rw [Nat.max_def]
    split <;> rw [hroot]
  · rw [Nat.min_def]
    split <;> rw [hroot]
  · rwa [hlength', hlength]

@[simp] theorem length_union (f : Forest) (a b : Nat) : (f.union a b).parents.length = f.parents.length := by
  simp only [union, length_link, (find_spec _ _).2.2]

theorem findAll_eq (f : Forest) (is : List Nat) : f.findAll is = is.map f.rootOf := by
  induction is generalizing f with
  | nil => rfl
  | cons i is ih =>
    obtain ⟨hfound, hroots, -⟩ := f.find_spec i
    simp only [findAll, ih, hfound, List.map_cons, funext hroots]

theorem roots_eq (f : Forest) : f.roots = (List.range f.parents.length).map f.rootOf := findAll_eq f _

@[simp] theorem rootOf_singletons (n i : Nat) : (singletons n).rootOf i = i := by
  apply rootOf_of_parent_eq
  rw [parent, singletons, List.getD_eq_getElem?_getD]
  by_cases h : i < n
  · simp [h]
  · rw [List.getElem?_eq_none (by simpa using h)]
    rfl

end Forest

open Std

theorem FlowEdge.ext {a b : FlowEdge} (hs : a.source = b.source) (ht : a.target = b.target) (hf : a.function = b.function) :
    a = b := by
  cases a
  cases b
  simp_all

instance : LawfulEqOrd FlowEdge where
  eq_of_compare h :=
    let ⟨hs, h⟩ := compareLex_eq_eq.1 h
    let ⟨ht, hf⟩ := compareLex_eq_eq.1 h
    FlowEdge.ext (eq_of_compareOn hs) (eq_of_compareOn ht) (eq_of_compareOn hf)

namespace FlowGraph

/-- The node at a position is the node of a place. -/
def IsAt (g : FlowGraph) (i : Nat) (x : FlowSource) : Prop := g.nodes[i]?.map FlowNode.key = some x

/-- Values flow from `y` through a function to `x`. -/
def Links (g : FlowGraph) (y : FlowSource) (f : FlowFunction) (x : FlowSource) : Prop :=
  ∃ e ∈ g.edges, e.function = f ∧ g.IsAt e.source y ∧ g.IsAt e.target x

/-! ### Building -/

@[simp] theorem key_describe (p : Program) (states : FlowStates) (x : FlowSource) : (describe p states x).key = x := by
  unfold describe
  split
  · rfl
  · split <;> rfl

/-- A graph under construction: one node per place, and edges between nodes. -/
structure Built (p : Program) (states : FlowStates) (g : FlowGraph) : Prop where
  nodup : (g.nodes.map FlowNode.key).Nodup
  described : ∀ n ∈ g.nodes, n = describe p states n.key
  inRange : ∀ e ∈ g.edges, e.source < g.nodes.length ∧ e.target < g.nodes.length

/-- The second graph has more nodes behind those of the first, and its edges. -/
structure Extends (g g' : FlowGraph) : Prop where
  nodes : g.nodes <+: g'.nodes
  edges : ∀ e ∈ g.edges, e ∈ g'.edges

namespace Extends

variable {g g' g'' : FlowGraph} {i : Nat} {x y : FlowSource} {f : FlowFunction}

theorem refl (g : FlowGraph) : Extends g g := ⟨List.prefix_rfl, fun _ => id⟩

theorem trans (h : Extends g g') (h' : Extends g' g'') : Extends g g'' :=
  ⟨h.nodes.trans h'.nodes, fun e he => h'.edges e (h.edges e he)⟩

theorem isAt (h : Extends g g') (hi : g.IsAt i x) : g'.IsAt i x := by
  obtain ⟨n, hn, rfl⟩ := Option.map_eq_some_iff.1 hi
  obtain ⟨more, hmore⟩ := h.nodes
  rw [IsAt, ← hmore, List.getElem?_append_left (List.getElem?_eq_some_iff.1 hn).1, hn]
  rfl

theorem links (h : Extends g g') (hl : g.Links y f x) : g'.Links y f x := by
  obtain ⟨e, he, hf, hy, hx⟩ := hl
  exact ⟨e, h.edges e he, hf, h.isAt hy, h.isAt hx⟩

end Extends

variable {p : Program} {states : FlowStates} {g : FlowGraph} {x y : FlowSource} {f : FlowFunction}

theorem IsAt.lt_length {i : Nat} (h : g.IsAt i x) : i < g.nodes.length := by
  obtain ⟨n, hn, -⟩ := Option.map_eq_some_iff.1 h
  exact (List.getElem?_eq_some_iff.1 hn).1

/-- Getting the node of a place. -/
theorem obtain_spec (hg : g.Built p states) (x : FlowSource) :
    (g.obtain p states x).2.Built p states ∧ Extends g (g.obtain p states x).2 ∧
      (g.obtain p states x).2.IsAt (g.obtain p states x).1 x := by
  unfold obtain
  split
  · next k hk =>
    refine ⟨hg, .refl g, ?_⟩
    obtain ⟨hlt, hkey, -⟩ := List.findIdx?_eq_some_iff_getElem.1 hk
    rw [IsAt, List.getElem?_eq_getElem hlt, Option.map_some, eq_of_beq hkey]
  · next hnone =>
    have hfresh : x ∉ g.nodes.map FlowNode.key := by
      intro hmem
      obtain ⟨n, hn, hkey⟩ := List.mem_map.1 hmem
      have := List.findIdx?_eq_none_iff.1 hnone n hn
      simp [hkey] at this
    refine ⟨⟨?_, ?_, ?_⟩, ⟨List.prefix_append _ _, fun _ => id⟩, ?_⟩
    · simp only [List.map_append, List.map_cons, List.map_nil, key_describe]
      exact List.nodup_append.2 ⟨hg.nodup, List.nodup_singleton x, fun a ha b hb => by
        obtain rfl := List.mem_singleton.1 hb
        rintro rfl
        exact hfresh ha⟩
    · intro n hn
      rcases List.mem_append.1 hn with hn | hn
      · exact hg.described n hn
      · obtain rfl := List.mem_singleton.1 hn
        rw [key_describe]
    · intro e he
      have := hg.inRange e he
      simp only [List.length_append, List.length_singleton]
      omega
    · simp [IsAt]

/-- Add an edge from a place, which gets a node. -/
def addEdge (p : Program) (states : FlowStates) (target : Nat) (g : FlowGraph) (entry : FlowSource × FlowFunction) : FlowGraph :=
  let (i, g) := g.obtain p states entry.1
  { g with edges := g.edges ++ [⟨i, target, entry.2⟩] }

theorem addEdge_spec (hg : g.Built p states) {target : Nat} (ht : g.IsAt target x) (entry : FlowSource × FlowFunction) :
    (g.addEdge p states target entry).Built p states ∧ Extends g (g.addEdge p states target entry) ∧
      (g.addEdge p states target entry).Links entry.1 entry.2 x := by
  obtain ⟨hbuilt, hextends, hat⟩ := obtain_spec hg entry.1
  have htarget := hextends.isAt ht
  refine ⟨⟨hbuilt.nodup, hbuilt.described, ?_⟩, ⟨hextends.nodes, ?_⟩, ?_⟩
  · intro e he
    rcases List.mem_append.1 he with he | he
    · exact hbuilt.inRange e he
    · obtain rfl := List.mem_singleton.1 he
      exact ⟨hat.lt_length, htarget.lt_length⟩
  · intro e he
    exact List.mem_append_left _ (hextends.edges e he)
  · exact ⟨_, List.mem_append_right _ (List.mem_singleton.2 rfl), rfl, hat, htarget⟩

theorem addEdges_spec (hg : g.Built p states) {target : Nat} (ht : g.IsAt target x)
    (es : List (FlowSource × FlowFunction)) :
    (es.foldl (addEdge p states target) g).Built p states ∧ Extends g (es.foldl (addEdge p states target) g) ∧
      ∀ entry ∈ es, (es.foldl (addEdge p states target) g).Links entry.1 entry.2 x := by
  induction es generalizing g with
  | nil => exact ⟨hg, .refl g, by simp⟩
  | cons entry es ih =>
    obtain ⟨hbuilt, hextends, hlinks⟩ := addEdge_spec hg ht entry
    obtain ⟨hbuilt', hextends', hlinks'⟩ := ih hbuilt (hextends.isAt ht)
    refine ⟨hbuilt', hextends.trans hextends', ?_⟩
    intro other hother
    rcases List.mem_cons.1 hother with rfl | hother
    · exact hextends'.links hlinks
    · exact hlinks' other hother

theorem addPlace_spec (hg : g.Built p states) (x : FlowSource) (s : ValueState) :
    (g.addPlace p states x s).Built p states ∧ Extends g (g.addPlace p states x s) ∧
      ∀ entry ∈ s.inFlow.flatMap entries, (g.addPlace p states x s).Links entry.1 entry.2 x := by
  obtain ⟨hbuilt, hextends, hat⟩ := obtain_spec hg x
  obtain ⟨hbuilt', hextends', hlinks⟩ := addEdges_spec hbuilt hat (s.inFlow.flatMap entries)
  exact ⟨hbuilt', hextends.trans hextends', hlinks⟩

/-- The graph before its edges are put in order. -/
theorem addPlaces_spec (hg : g.Built p states) (places : List (FlowSource × ValueState)) :
    let g' := places.foldl (fun (g : FlowGraph) (key, s) => g.addPlace p states key s) g
    g'.Built p states ∧ Extends g g' ∧
      ∀ place ∈ places, ∀ entry ∈ place.2.inFlow.flatMap entries, g'.Links entry.1 entry.2 place.1 := by
  induction places generalizing g with
  | nil => exact ⟨hg, .refl g, by simp⟩
  | cons place places ih =>
    obtain ⟨hbuilt, hextends, hlinks⟩ := addPlace_spec hg place.1 place.2
    obtain ⟨hbuilt', hextends', hlinks'⟩ := ih hbuilt
    refine ⟨hbuilt', hextends.trans hextends', ?_⟩
    intro other hother entry hentry
    rcases List.mem_cons.1 hother with rfl | hother
    · exact hextends'.links (hlinks entry hentry)
    · exact hlinks' other hother entry hentry

theorem mem_edges_build {e : FlowEdge} : e ∈ (build p states).edges ↔
    e ∈ ((waiting states).foldl (fun (g : FlowGraph) (key, s) => g.addPlace p states key s) {}).edges := by
  simp [build, TreeSet.mem_toList, TreeSet.mem_ofList]

theorem built_build (p : Program) (states : FlowStates) : (build p states).Built p states := by
  have hempty : Built p states {} := ⟨List.nodup_nil, by simp, by simp⟩
  obtain ⟨hbuilt, -, -⟩ := addPlaces_spec hempty (waiting states)
  exact ⟨hbuilt.nodup, hbuilt.described, fun e he => hbuilt.inRange e (mem_edges_build.1 he)⟩

/-- **Every source of a place has an edge to it.** -/
theorem links_build {s : ValueState} (hx : (x, s) ∈ waiting states) {flow : InFlow} (hflow : flow ∈ s.inFlow)
    (hentry : (y, f) ∈ entries flow) : (build p states).Links y f x := by
  have hempty : Built p states {} := ⟨List.nodup_nil, by simp, by simp⟩
  obtain ⟨-, -, hlinks⟩ := addPlaces_spec hempty (waiting states)
  obtain ⟨e, he, hrest⟩ := hlinks (x, s) hx (y, f) (List.mem_flatMap.2 ⟨flow, hflow, hentry⟩)
  exact ⟨e, mem_edges_build.2 he, hrest⟩

theorem exists_isAt_addPlace (hg : g.Built p states) (x : FlowSource) (s : ValueState) : ∃ i, (g.addPlace p states x s).IsAt i x := by
  obtain ⟨hbuilt, -, hat⟩ := obtain_spec hg x
  obtain ⟨-, hextends, -⟩ := addEdges_spec hbuilt hat (s.inFlow.flatMap entries)
  exact ⟨_, hextends.isAt hat⟩

/-- **Every place whose state has a source has a node.** -/
theorem exists_isAt_build {s : ValueState} (hx : (x, s) ∈ waiting states) : ∃ i, (build p states).IsAt i x := by
  have hempty : Built p states {} := ⟨List.nodup_nil, by simp, by simp⟩
  obtain ⟨before, after, hsplit⟩ := List.append_of_mem hx
  obtain ⟨hbefore, -, -⟩ := addPlaces_spec hempty before
  obtain ⟨i, hat⟩ := exists_isAt_addPlace hbefore x s
  obtain ⟨hplaced, -, -⟩ := addPlace_spec hbefore x s
  obtain ⟨-, hextends, -⟩ := addPlaces_spec hplaced after
  have hend := hextends.isAt hat
  refine ⟨i, ?_⟩
  rw [IsAt, build, hsplit, List.foldl_append, List.foldl_cons]
  exact hend

/-! ### Every edge stands for a source -/

/-- The edge stands for an entry among the sources of `x`. -/
def StandsFor (g : FlowGraph) (e : FlowEdge) (entry : FlowSource × FlowFunction) (x : FlowSource) : Prop :=
  e.function = entry.2 ∧ g.IsAt e.source entry.1 ∧ g.IsAt e.target x

theorem Extends.standsFor {g' : FlowGraph} {e : FlowEdge} {entry : FlowSource × FlowFunction} (h : Extends g g')
    (he : g.StandsFor e entry x) : g'.StandsFor e entry x :=
  ⟨he.1, h.isAt he.2.1, h.isAt he.2.2⟩

theorem edges_addEdges (hg : g.Built p states) {target : Nat} (ht : g.IsAt target x) (es : List (FlowSource × FlowFunction)) :
    ∀ e ∈ (es.foldl (addEdge p states target) g).edges,
      e ∈ g.edges ∨ ∃ entry ∈ es, (es.foldl (addEdge p states target) g).StandsFor e entry x := by
  induction es generalizing g with
  | nil => exact fun e he => .inl he
  | cons entry es ih =>
    intro e he
    obtain ⟨hbuilt, hextends, -⟩ := addEdge_spec hg ht entry
    obtain ⟨-, hextends', -⟩ := addEdges_spec hbuilt (hextends.isAt ht) es
    rcases ih hbuilt (hextends.isAt ht) e he with he | ⟨other, hother, hstands⟩
    · have hgiven : e ∈ (g.obtain p states entry.1).2.edges ++ [⟨(g.obtain p states entry.1).1, target, entry.2⟩] := he
      rcases List.mem_append.1 hgiven with he | he
      · refine .inl ?_
        unfold obtain at he
        split at he <;> exact he
      · obtain rfl := List.mem_singleton.1 he
        obtain ⟨-, -, hat⟩ := obtain_spec hg entry.1
        have hstands : (g.addEdge p states target entry).StandsFor ⟨(g.obtain p states entry.1).1, target, entry.2⟩ entry x :=
          ⟨rfl, hat, hextends.isAt ht⟩
        exact .inr ⟨entry, List.mem_cons_self, hextends'.standsFor hstands⟩
    · exact .inr ⟨other, List.mem_cons_of_mem _ hother, hstands⟩

theorem edges_addPlaces (hg : g.Built p states) (places : List (FlowSource × ValueState)) :
    let g' := places.foldl (fun (g : FlowGraph) (key, s) => g.addPlace p states key s) g
    ∀ e ∈ g'.edges, e ∈ g.edges ∨ ∃ place ∈ places, ∃ entry ∈ place.2.inFlow.flatMap entries, g'.StandsFor e entry place.1 := by
  induction places generalizing g with
  | nil => exact fun e he => .inl he
  | cons place places ih =>
    intro g' e he
    obtain ⟨hbuilt, hextends, -⟩ := addPlace_spec hg place.1 place.2
    obtain ⟨-, hextends', -⟩ := addPlaces_spec hbuilt places
    rcases ih hbuilt e he with he | ⟨other, hother, hstands⟩
    · obtain ⟨hbuilt', -, hat⟩ := obtain_spec hg place.1
      rcases edges_addEdges hbuilt' hat _ e he with he | ⟨entry, hentry, hstands⟩
      · refine .inl ?_
        unfold obtain at he
        split at he <;> exact he
      · exact .inr ⟨place, List.mem_cons_self, entry, hentry, hextends'.standsFor hstands⟩
    · exact .inr ⟨other, List.mem_cons_of_mem _ hother, hstands⟩

/-- **Every edge stands for a source of a place.** -/
theorem standsFor_of_mem_build {e : FlowEdge} (he : e ∈ (build p states).edges) :
    ∃ x s entry, (x, s) ∈ waiting states ∧ entry ∈ s.inFlow.flatMap entries ∧ (build p states).StandsFor e entry x := by
  have hempty : Built p states {} := ⟨List.nodup_nil, by simp, by simp⟩
  rcases edges_addPlaces hempty (waiting states) e (mem_edges_build.1 he) with he | ⟨⟨x, s⟩, hplace, entry, hentry, hstands⟩
  · cases he
  · exact ⟨x, s, entry, hplace, hentry, hstands⟩

/-! ### Components -/

/-- Give both ends of an edge the smaller of their labels. -/
def merge (labels : List Nat) (e : FlowEdge) : List Nat :=
  let a := labels.getD e.source e.source
  let b := labels.getD e.target e.target
  labels.map fun l => if l = max a b then min a b else l

theorem getD_roots (f : Forest) (i : Nat) : f.roots.getD i i = f.rootOf i := by
  rw [Forest.roots_eq, List.getD_eq_getElem?_getD, List.getElem?_map]
  by_cases hi : i < f.parents.length
  · rw [List.getElem?_range hi]
    rfl
  · rw [List.getElem?_eq_none (by simpa using hi), Forest.rootOf_of_parent_eq]
    · rfl
    · by_contra hne
      exact hi (Forest.lt_length_of_parent_ne hne)

/-- A union in the forest is a merge of labels. -/
theorem roots_union (f : Forest) (e : FlowEdge) : (f.union e.source e.target).roots = merge f.roots e := by
  simp only [merge, getD_roots]
  rw [Forest.roots_eq, Forest.roots_eq, List.map_map, Forest.length_union]
  apply List.map_congr_left
  intro k hk
  exact f.rootOf_union _ _ (List.mem_range.1 hk)

theorem labels_eq (g : FlowGraph) : g.labels = g.edges.foldl merge (List.range g.nodes.length) := by
  have hroots (edges : List FlowEdge) (f : Forest) :
      (edges.foldl (fun f e => f.union e.source e.target) f).roots = edges.foldl merge f.roots := by
    induction edges generalizing f with
    | nil => rfl
    | cons e edges ih => rw [List.foldl_cons, List.foldl_cons, ih, roots_union]
  have hstart : (Forest.singletons g.nodes.length).roots = List.range g.nodes.length := by
    rw [Forest.roots_eq, funext (Forest.rootOf_singletons _), List.map_id']
    simp [Forest.singletons]
  rw [labels, forest, hroots, hstart]

@[simp] theorem length_merge (labels : List Nat) (e : FlowEdge) : (merge labels e).length = labels.length := by
  simp [merge]

/-- A merge keeps equal labels equal. -/
theorem merge_preserves {labels : List Nat} {i k : Nat} (e : FlowEdge) (h : labels[i]? = labels[k]?) :
    (merge labels e)[i]? = (merge labels e)[k]? := by
  simp only [merge, List.getElem?_map, h]

/-- A merge makes the labels of both ends equal. -/
theorem merge_joins {labels : List Nat} {e : FlowEdge} (hs : e.source < labels.length) (ht : e.target < labels.length) :
    (merge labels e)[e.source]? = (merge labels e)[e.target]? := by
  simp only [merge, List.getElem?_map, List.getElem?_eq_getElem hs, List.getElem?_eq_getElem ht, List.getD_eq_getElem?_getD,
    Option.getD_some, Option.map_some]
  grind

@[simp] theorem length_foldl_merge (edges : List FlowEdge) (labels : List Nat) :
    (edges.foldl merge labels).length = labels.length :=
  List.foldlRecOn _ _ (motive := fun labels' => labels'.length = labels.length) rfl
    fun labels hlabels e _ => (length_merge labels e).trans hlabels

theorem length_labels (g : FlowGraph) : g.labels.length = g.nodes.length := by
  rw [labels_eq, length_foldl_merge, List.length_range]

theorem labels_source_eq_target (hg : g.Built p states) {e : FlowEdge} (he : e ∈ g.edges) :
    g.labels[e.source]? = g.labels[e.target]? := by
  obtain ⟨hs, ht⟩ := hg.inRange e he
  obtain ⟨before, after, hsplit⟩ := List.append_of_mem he
  rw [labels_eq, hsplit, List.foldl_append, List.foldl_cons]
  exact List.foldlRecOn _ _ (motive := fun labels => labels[e.source]? = labels[e.target]?)
    (merge_joins (by simpa using hs) (by simpa using ht)) fun _ h e' _ => merge_preserves e' h

/-- The labels of the parts, in order. -/
def roots (g : FlowGraph) : List Nat := (.ofList g.labels : TreeSet Nat).toList

theorem nodup_roots (g : FlowGraph) : g.roots.Nodup := by
  refine List.Pairwise.imp (fun {a b} hne => ?_) (TreeSet.distinct_toList (t := (.ofList g.labels : TreeSet Nat)))
  rintro rfl
  exact hne compare_self

theorem mem_roots {root : Nat} : root ∈ g.roots ↔ root ∈ g.labels := by
  rw [roots, TreeSet.mem_toList, TreeSet.mem_ofList, List.contains_iff_mem]

/-- Numbering anew the elements with one label finds them again. -/
theorem getElem?_filter_zip {α : Type} (xs : List α) (labels : List Nat) {i root : Nat} (h : labels[i]? = some root) :
    (((xs.zip labels).filter (·.2 == root)).map Prod.fst)[(labels.take i).count root]? = xs[i]? := by
  induction labels generalizing xs i with
  | nil => simp at h
  | cons l labels ih =>
    cases xs with
    | nil => simp
    | cons x xs =>
      cases i with
      | zero =>
        obtain rfl : l = root := by simpa using h
        simp
      | succ i =>
        have hi := ih xs (by simpa using h)
        by_cases hl : l = root
        · simpa [hl] using hi
        · simpa [hl, List.count_cons] using hi

theorem isAt_component {labels : List Nat} {i root : Nat} (h : labels[i]? = some root) :
    (g.component labels root).IsAt ((labels.take i).count root) x ↔ g.IsAt i x := by
  simp only [IsAt, component, getElem?_filter_zip g.nodes labels h]

/-- **Cutting into components keeps every link.** -/
theorem links_components (hg : g.Built p states) (h : g.Links y f x) : ∃ c ∈ g.components, c.Links y f x := by
  obtain ⟨e, he, hf, hy, hx⟩ := h
  have hlt : e.source < g.labels.length := length_labels g ▸ hy.lt_length
  obtain ⟨root, hroot⟩ : ∃ root, g.labels[e.source]? = some root := ⟨_, List.getElem?_eq_getElem hlt⟩
  have htarget : g.labels[e.target]? = some root := labels_source_eq_target hg he ▸ hroot
  refine ⟨g.component g.labels root, ?_, _, List.mem_map.2 ⟨e, List.mem_filter.2 ⟨he, ?_⟩, rfl⟩, hf, ?_, ?_⟩
  · exact List.mem_map.2 ⟨root, mem_roots.2 (List.mem_of_getElem? hroot), rfl⟩
  · rw [hroot]
    exact beq_self_eq_true _
  · exact (isAt_component hroot).2 hy
  · exact (isAt_component htarget).2 hx

theorem mem_nodes_of_mem_component {c : FlowGraph} (hc : c ∈ g.components) {n : FlowNode} (hn : n ∈ c.nodes) :
    n ∈ g.nodes := by
  obtain ⟨root, -, rfl⟩ := List.mem_map.1 hc
  obtain ⟨pair, hpair, rfl⟩ := List.mem_map.1 hn
  exact (List.of_mem_zip (List.mem_filter.1 hpair).1).1

/-- **Every place has one node among all components.** -/
theorem nodup_components (hg : g.Built p states) : ((g.components.flatMap FlowGraph.nodes).map FlowNode.key).Nodup := by
  have hzip : ((g.nodes.zip g.labels).map fun pair => pair.1.key).Nodup := by
    have hfst : (g.nodes.zip g.labels).map Prod.fst = g.nodes := List.map_fst_zip (Nat.le_of_eq (length_labels g).symm)
    have := hg.nodup
    rw [← hfst, List.map_map] at this
    exact this
  rw [components, List.flatMap_map, List.map_flatMap]
  refine List.nodup_flatMap.2 ⟨fun root _ => ?_, ?_⟩
  · simp only [component, List.map_map]
    exact hzip.sublist (List.filter_sublist.map _)
  · refine g.nodup_roots.imp fun {root root'} hne => ?_
    simp only [Function.onFun, component, List.map_map]
    intro key hkey hkey'
    obtain ⟨a, ha, rfl⟩ := List.mem_map.1 hkey
    obtain ⟨b, hb, hab⟩ := List.mem_map.1 hkey'
    obtain ⟨hza, hra⟩ := List.mem_filter.1 ha
    obtain ⟨hzb, hrb⟩ := List.mem_filter.1 hb
    obtain rfl := List.inj_on_of_nodup_map hzip hzb hza hab
    exact hne ((eq_of_beq hra).symm.trans (eq_of_beq hrb))

end FlowGraph

end DexShrinker
