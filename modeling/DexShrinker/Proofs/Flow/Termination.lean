/-
  DexShrinker/Proofs/Flow/Termination.lean
  ========================================
  **Where types are kept, propagation comes to rest.**

  A node is put on the worklist when a join changes its state, before the state is cut back
  by the static type of the node. So a node whose state is put back where it was is visited
  again. Two such nodes that send their states to each other keep the worklist busy for good
  (`FlowGraph.propagate_diverges_of_interfaces`).

  In a well-typed graph no state is cut back: flow goes from types to supertypes, states fit
  the types of their nodes, and joins stay below them, as they do for classes. There every
  change takes the states of the graph, all taken together, closer to the top, so the
  worklist gets empty (`FlowGraph.propagate_terminates`).
-/
import DexShrinker.Flow.Propagation
import DexShrinker.Proofs.Flow.Ascent
import DexShrinker.Proofs.Flow.Graph
import DexShrinker.Proofs.Flow.Worklist

namespace DexShrinker

/-- Numbers go where numbers are declared, and references where a supertype is. -/
def Program.conforms (p : Program) (source target : Descriptor) : Bool :=
  if target.isPrimitive then source.isPrimitive else p.isSubtype source target

/-- What comes out of the function may go to a place of type `target`. -/
def FlowFunction.conforms (p : Program) (source target : Descriptor) : FlowFunction → Bool
  | identity _ => p.conforms source target
  | cast _ t => !target.isPrimitive && p.isSubtype t target
  | fieldRead _ f => p.conforms f.type target
  | or _ _ | unknown => true

namespace FlowGraph

/-- Flow keeps to types: it goes to supertypes, and what is known of a place is below the type
    of the place, as are all joins of such types. -/
structure WellTyped (p : Program) (g : FlowGraph) : Prop where
  conforms : ∀ e ∈ g.edges, ∀ n ∈ g.nodes[e.source]?, ∀ n' ∈ g.nodes[e.target]?,
    e.function.conforms p n.static n'.static = true
  joinable : ∀ n ∈ g.nodes, p.Joinable n.static
  fits : ∀ n ∈ g.nodes, n.state.Fits p n.static

/-- A well-typed graph as building makes it: states have no sources, and the nodes of fields
    have the types of the fields. -/
structure Steady (p : Program) (g : FlowGraph) : Prop extends WellTyped p g where
  noFlow : ∀ n ∈ g.nodes, n.state.inFlow = []
  fieldType : ∀ n ∈ g.nodes, ∀ f, n.key = .field f → n.static = f.type

variable {p : Program} {j : Joiner} {rank : Descriptor → Nat} {g g' : FlowGraph} {work work' : List Nat} {t : Nat} {s : ValueState}

/-- The nodes of a graph start without sources. -/
theorem inFlow_describe (p : Program) (states : FlowStates) (x : FlowSource) : (describe p states x).state.inFlow = [] := by
  unfold describe
  split
  · exact ValueState.inFlow_clearInFlow _
  · split
    · rfl
    · exact ValueState.inFlow_clearInFlow _

theorem steady_build {states : FlowStates} (h : (build p states).WellTyped p) : (build p states).Steady p where
  toWellTyped := h
  noFlow := by
    intro n hn
    rw [(built_build p states).described n hn]
    exact inFlow_describe p states n.key
  fieldType := by
    intro n hn f hf
    rw [(built_build p states).described n hn, hf]
    rfl

/-- Steadiness is a matter of the nodes; edges may go. -/
theorem Steady.of_edges (h : g.Steady p) (hnodes : g'.nodes = g.nodes) (hedges : ∀ e ∈ g'.edges, e ∈ g.edges) : g'.Steady p where
  conforms := by
    rw [hnodes]
    intro e he
    exact h.conforms e (hedges e he)
  joinable := hnodes ▸ h.joinable
  fits := hnodes ▸ h.fits
  noFlow := hnodes ▸ h.noFlow
  fieldType := hnodes ▸ h.fieldType

/-- A node may get a new state that fits. -/
theorem Steady.set (h : g.Steady p) {n : FlowNode} (hn : g.nodes[t]? = some n) (hfits : s.Fits p n.static) (hflow : s.inFlow = []) :
    ({ g with nodes := g.nodes.set t { n with state := s } } : FlowGraph).Steady p := by
  have hold {i : Nat} {m : FlowNode} (hm : (g.nodes.set t { n with state := s })[i]? = some m) :
      ∃ m₀, g.nodes[i]? = some m₀ ∧ m.static = m₀.static := by
    by_cases hi : t = i
    · subst hi
      rw [List.getElem?_set_self (List.getElem?_eq_some_iff.1 hn).1] at hm
      cases hm
      exact ⟨n, hn, rfl⟩
    · rw [List.getElem?_set_ne hi] at hm
      exact ⟨m, hm, rfl⟩
  have hmem {m : FlowNode} (hm : m ∈ g.nodes.set t { n with state := s }) : m ∈ g.nodes ∨ m = { n with state := s } :=
    List.mem_or_eq_of_mem_set hm
  have hn := List.mem_of_getElem? hn
  constructor
  · constructor
    · intro e he m hm m' hm'
      obtain ⟨m₀, hm₀, hstatic⟩ := hold hm
      obtain ⟨m₀', hm₀', hstatic'⟩ := hold hm'
      rw [hstatic, hstatic']
      exact h.conforms e he m₀ hm₀ m₀' hm₀'
    · intro m hm
      rcases hmem hm with hm | rfl
      · exact h.joinable m hm
      · exact h.joinable n hn
    · intro m hm
      rcases hmem hm with hm | rfl
      · exact h.fits m hm
      · exact hfits
  · intro m hm
    rcases hmem hm with hm | rfl
    · exact h.noFlow m hm
    · exact hflow
  · intro m hm
    rcases hmem hm with hm | rfl
    · exact h.fieldType m hm
    · exact h.fieldType n hn

/-! ### The standing of a graph -/

/-- How far the states of all nodes are from the top, taken together. -/
def standing (rank : Descriptor → Nat) (g : FlowGraph) : Standing := .total (g.nodes.map fun n => n.state.standing rank)

theorem standing_eq_of_nodes (h : g'.nodes = g.nodes) : g'.standing rank = g.standing rank := by
  rw [standing, h, standing]

theorem standing_set_lt {n : FlowNode} (hn : g.nodes[t]? = some n) (hnodes : g'.nodes = g.nodes.set t { n with state := s })
    (hlt : s.standing rank < n.state.standing rank) : g'.standing rank < g.standing rank := by
  rw [standing, hnodes, List.map_set]
  exact Standing.total_set_lt (by rw [List.getElem?_map, hn, Option.map_some]) hlt

/-! ### Steps -/

/-- A state may arrive at the node at a position. -/
def Accepts (p : Program) (g : FlowGraph) (t : Nat) (s : ValueState) : Prop :=
  s.inFlow = [] ∧ ∀ n, g.nodes[t]? = some n → s.Fits p n.static

/-- Nodes keep their static types. -/
def SameTypes (g g' : FlowGraph) : Prop := g'.nodes.map FlowNode.static = g.nodes.map FlowNode.static

theorem SameTypes.accepts (h : SameTypes g g') (hs : g.Accepts p t s) : g'.Accepts p t s := by
  refine ⟨hs.1, ?_⟩
  intro n hn
  have hget : (g.nodes.map FlowNode.static)[t]? = some n.static := by
    rw [← h, List.getElem?_map, hn, Option.map_some]
  rw [List.getElem?_map] at hget
  obtain ⟨n₀, hn₀, heq⟩ := Option.map_eq_some_iff.1 hget
  exact heq ▸ hs.2 n₀ hn₀

/-- Nothing has happened to the nodes and the worklist, or the states are closer to the top. -/
def Advances (rank : Descriptor → Nat) (g : FlowGraph) (work : List Nat) (g' : FlowGraph) (work' : List Nat) : Prop :=
  g'.nodes = g.nodes ∧ work' = work ∨ g'.standing rank < g.standing rank

theorem Advances.trans {g'' : FlowGraph} {work'' : List Nat} (h : Advances rank g work g' work')
    (h' : Advances rank g' work' g'' work'') : Advances rank g work g'' work'' := by
  rcases h with ⟨hnodes, rfl⟩ | hlt
  · rcases h' with ⟨hnodes', rfl⟩ | hlt'
    · exact .inl ⟨hnodes'.trans hnodes, rfl⟩
    · refine .inr ?_
      rwa [standing_eq_of_nodes hnodes] at hlt'
  · refine .inr ?_
    rcases h' with ⟨hnodes', -⟩ | hlt'
    · rwa [standing_eq_of_nodes hnodes']
    · exact Standing.lt_trans hlt' hlt

/-- **Step.** A state that arrives leaves the graph steady and does not set it back. -/
theorem receive_advances (hp : j.program.Rooted) (hrank : Program.Ranked j.program.classes rank) (hg : g.Steady j.program)
    (hs : g.Accepts j.program t s) (h : receive j (g, work) t s = .ok (g', work')) :
    g'.Steady j.program ∧ SameTypes g g' ∧ Advances rank g work g' work' := by
  obtain ⟨n, joined, hn, hjoined, ⟨-, rfl, rfl⟩ | ⟨hne, -, hnodes, hedges⟩⟩ := receive_cases h
  · exact ⟨hg, rfl, .inl ⟨rfl, rfl⟩⟩
  · have hmem := List.mem_of_getElem? hn
    have hfits : (if n.isReceiver then s.toReceiver else s).Fits j.program n.static := by
      split
      · exact ValueState.fits_toReceiver (hs.2 n hn)
      · exact hs.2 n hn
    have hflow : (if n.isReceiver then s.toReceiver else s).inFlow = [] := by
      split
      · exact ValueState.inFlow_toReceiver hs.1
      · exact hs.1
    have hjoinedFits := ValueState.fits_join (hg.joinable n hmem) hjoined (hg.fits n hmem) hfits
    have hlt : (joined.widen j.program n.static).standing rank < n.state.standing rank :=
      Standing.lt_of_le_of_lt (ValueState.standing_widen_le hjoinedFits)
        (ValueState.standing_join_lt hp hrank hjoined (hg.noFlow n hmem) hflow hne)
    refine ⟨?_, ?_, .inr (standing_set_lt hn hnodes hlt)⟩
    · refine Steady.of_edges (hg.set hn (ValueState.fits_widen hjoinedFits) ?_) hnodes ?_
      · exact ValueState.inFlow_widen (ValueState.inFlow_join hjoined (hg.noFlow n hmem) hflow)
      · intro e he
        rw [hedges] at he
        split at he
        · exact (List.mem_filter.1 he).1
        · exact he
    · have hplaces := congrArg (List.map fun place => place.2.1) (map_place_set hn hnodes rfl)
      simpa [SameTypes, FlowNode.place, Function.comp_def] using hplaces

theorem receiveAll_advances (hp : j.program.Rooted) (hrank : Program.Ranked j.program.classes rank)
    {pending : List (Nat × ValueState)} (hg : g.Steady j.program) (hpending : ∀ x ∈ pending, g.Accepts j.program x.1 x.2)
    (h : pending.foldlM (fun acc (t, s) => receive j acc t s) (g, work) = .ok (g', work')) :
    g'.Steady j.program ∧ Advances rank g work g' work' := by
  induction pending generalizing g work with
  | nil =>
    cases h
    exact ⟨hg, .inl ⟨rfl, rfl⟩⟩
  | cons first pending ih =>
    rw [List.foldlM_cons] at h
    obtain ⟨⟨g₁, work₁⟩, hfirst, h⟩ := bind_eq_ok.1 h
    obtain ⟨hfirst', hrest'⟩ := List.forall_mem_cons.1 hpending
    obtain ⟨hsteady, htypes, hadvances⟩ := receive_advances hp hrank hg hfirst' hfirst
    obtain ⟨hsteady', hadvances'⟩ := ih hsteady (fun x hx => htypes.accepts (hrest' x hx)) h
    exact ⟨hsteady', hadvances.trans hadvances'⟩

theorem fits_lookup (hg : g.Steady p) (f : FieldRef) : (g.lookup (.field f)).Fits p f.type := by
  unfold lookup
  cases hfind : g.nodes.find? (·.key == .field f) with
  | none => trivial
  | some n =>
    have hmem := List.mem_of_find?_eq_some hfind
    have hkey : n.key = .field f := by simpa using List.find?_some hfind
    exact hg.fieldType n hmem f hkey ▸ hg.fits n hmem

theorem fits_of_conforms (hp : p.Rooted) {source target : Descriptor} (h : p.conforms source target = true)
    (hs : s.Fits p source) : s.Fits p target := by
  cases s with
  | concrete s =>
    intro b hb
    obtain ⟨hsource, hbelow⟩ := hs b hb
    unfold Program.conforms at h
    split at h
    · rw [hsource] at h
      cases h
    · next htarget =>
      rw [Program.isSubtype_iff] at h hbelow
      exact ⟨by simpa using htarget, Program.isSubtype_iff.2 (hbelow.trans hp h)⟩
  | _ => trivial

theorem fits_narrowedUnknown (static : Descriptor) : (narrowedUnknown static).known.Fits p static := by
  unfold narrowedUnknown
  split
  · exact DynamicType.fits_unknown
  · next hprimitive =>
    split
    · exact DynamicType.fits_unknown
    · exact DynamicType.fits_bounded.2 ⟨by simpa using hprimitive, .refl static⟩

/-- What comes out of a function fits where it may go. -/
theorem fits_apply (hp : p.Rooted) (hg : g.Steady p) {f : FlowFunction} {source target : Descriptor}
    (hf : f.conforms p source target = true) {state : ConcreteState} (hstate : state.known.Fits p source) {out : ValueState}
    (h : f.apply p g.lookup state = .ok out) : out.Fits p target := by
  cases f with
  | identity y =>
    cases h
    exact fits_of_conforms hp (s := .concrete state) hf hstate
  | cast y t =>
    cases h
    simp only [FlowFunction.conforms, Bool.and_eq_true, Bool.not_eq_true', Program.isSubtype_iff] at hf
    obtain ⟨k, flows⟩ := state
    cases k with
    | object v d | receiver d => exact DynamicType.fits_cast hp hf.1 hf.2 d
    | _ => exact DynamicType.fits_unknown
  | or y c =>
    rw [FlowFunction.apply] at h
    split at h
    · obtain ⟨v, -, h⟩ := bind_eq_ok.1 h
      cases h
      exact ValueState.fits_ofKnowledge (k := .primitive v) DynamicType.fits_unknown _
    · cases h
  | fieldRead y f =>
    cases h
    exact fits_of_conforms hp hf (fits_lookup hg f)
  | unknown =>
    cases h
    trivial

theorem accepts_outputs (hp : j.program.Rooted) (hg : g.Steady j.program) {i : Nat} {n : FlowNode} (hn : g.nodes[i]? = some n)
    {state : ConcreteState} (hstate : state.known.Fits j.program n.static) {outputs : List (Nat × ValueState)}
    (h : g.outputs j i state = .ok outputs) : ∀ x ∈ outputs, g.Accepts j.program x.1 x.2 := by
  intro x hx
  have hforall := mapM_eq_ok_iff.1 h
  obtain ⟨e, he, hmake⟩ := exists_of_mem_left hforall.flip hx
  obtain ⟨out, hout, hmake⟩ := bind_eq_ok.1 hmake
  obtain ⟨he, hsource⟩ := List.mem_filter.1 he
  cases hmake
  refine ⟨ValueState.inFlow_clearInFlow out, ?_⟩
  intro n' hn'
  have hconforms := hg.conforms e he n (by rw [eq_of_beq hsource]; exact hn) n' hn'
  exact ValueState.fits_clearInFlow (fits_apply hp hg hconforms hstate hout)

/-- **Step.** A visit leaves the graph steady and does not set it back. -/
theorem visit_advances (hp : j.program.Rooted) (hrank : Program.Ranked j.program.classes rank) (hg : g.Steady j.program) {i : Nat}
    (h : g.visit j work i = .ok (g', work')) : g'.Steady j.program ∧ Advances rank g work g' work' := by
  unfold visit at h
  split at h
  · cases h
  · next n hn =>
    split at h
    · cases h
      exact ⟨hg, .inl ⟨rfl, rfl⟩⟩
    · obtain ⟨outputs, houtputs, h⟩ := bind_eq_ok.1 h
      have haccepts := accepts_outputs hp hg hn (fits_narrowedUnknown _) houtputs
      have hdrop : (g.dropFrom i).Steady j.program := hg.of_edges rfl fun e he => (List.mem_filter.1 he).1
      exact receiveAll_advances (g := g.dropFrom i) hp hrank hdrop haccepts h
    · next state hstate =>
      obtain ⟨outputs, houtputs, h⟩ := bind_eq_ok.1 h
      have hfits : state.known.Fits j.program n.static := by
        have hfits := hg.fits n (List.mem_of_getElem? hn)
        rwa [hstate] at hfits
      exact receiveAll_advances hp hrank hg (accepts_outputs hp hg hn hfits houtputs) h

/-! ### Only the bound on visits makes a run diverge -/

theorem ok_ne_diverges {α : Type} (a : α) : (.ok a : Guarded α) ≠ .error .diverges := by
  simp

theorem bind_ne_diverges {α β : Type} {x : Guarded α} {f : α → Guarded β} (hx : x ≠ .error .diverges)
    (hf : ∀ a, f a ≠ .error .diverges) : (x >>= f) ≠ .error .diverges := by
  cases x with
  | error e =>
    intro heq
    cases heq
    exact hx rfl
  | ok a => exact hf a

theorem mapM_ne_diverges {α β : Type} {f : α → Guarded β} (hf : ∀ a, f a ≠ .error .diverges) (xs : List α) :
    xs.mapM f ≠ .error .diverges := by
  induction xs with
  | nil => exact ok_ne_diverges []
  | cons x xs ih =>
    rw [List.mapM_cons]
    exact bind_ne_diverges (hf x) fun y => bind_ne_diverges ih fun ys => ok_ne_diverges (y :: ys)

theorem foldlM_ne_diverges {α β : Type} {f : β → α → Guarded β} (hf : ∀ b a, f b a ≠ .error .diverges) (xs : List α) (b : β) :
    xs.foldlM f b ≠ .error .diverges := by
  induction xs generalizing b with
  | nil => exact ok_ne_diverges b
  | cons x xs ih =>
    rw [List.foldlM_cons]
    exact bind_ne_diverges (hf b x) ih

theorem join_ne_diverges (j : Joiner) (a b : ValueState) : a.join j b ≠ .error .diverges := by
  have hknown (k l : Knowledge) : k.join j.program l ≠ .error .diverges := by
    unfold Knowledge.join
    split <;> simp
  unfold ValueState.join
  split
  · exact ok_ne_diverges _
  · exact ok_ne_diverges _
  · exact ok_ne_diverges _
  · exact ok_ne_diverges _
  · exact bind_ne_diverges (hknown _ _) fun _ => ok_ne_diverges _

theorem apply_ne_diverges (p : Program) (lookup : FlowSource → ValueState) (s : ConcreteState) (f : FlowFunction) :
    f.apply p lookup s ≠ .error .diverges := by
  have hor (v : AbstractValue) (c : Int64) : v.orInteger c ≠ .error .diverges := by
    cases v <;> simp [AbstractValue.orInteger]
  unfold FlowFunction.apply
  split
  · exact ok_ne_diverges _
  · exact ok_ne_diverges _
  · split
    · exact bind_ne_diverges (hor _ _) fun _ => ok_ne_diverges _
    · simp
  · exact ok_ne_diverges _
  · exact ok_ne_diverges _

theorem receive_ne_diverges (j : Joiner) (acc : FlowGraph × List Nat) (t : Nat) (s : ValueState) :
    receive j acc t s ≠ .error .diverges := by
  unfold receive
  dsimp only
  split
  · simp [throw, throwThe, MonadExceptOf.throw]
  · refine bind_ne_diverges (join_ne_diverges _ _ _) fun joined => ?_
    split <;> exact ok_ne_diverges _

theorem visit_ne_diverges (j : Joiner) (g : FlowGraph) (work : List Nat) (i : Nat) : g.visit j work i ≠ .error .diverges := by
  have houtputs (s : ConcreteState) : g.outputs j i s ≠ .error .diverges := by
    apply mapM_ne_diverges
    intro e
    exact bind_ne_diverges (apply_ne_diverges _ _ _ _) fun out => ok_ne_diverges (e.target, out.clearInFlow)
  unfold visit
  split
  · simp [throw, throwThe, MonadExceptOf.throw]
  · split
    · exact ok_ne_diverges _
    · exact bind_ne_diverges (houtputs _) fun outputs => foldlM_ne_diverges (fun acc x => receive_ne_diverges j acc x.1 x.2) outputs _
    · exact bind_ne_diverges (houtputs _) fun outputs => foldlM_ne_diverges (fun acc x => receive_ne_diverges j acc x.1 x.2) outputs _

/-! ### Runs -/

/-- **Run.** The worklist of a steady graph gets empty. -/
theorem propagateFrom_terminates (hp : j.program.Rooted) (hg : g.Steady j.program) (work : List Nat) :
    ∃ n, ∀ fuel, n ≤ fuel → propagateFrom j fuel g work = propagateFrom j n g work ∧
      propagateFrom j fuel g work ≠ .error .diverges := by
  obtain ⟨rank, hrank⟩ := hp.acyclic
  -- Every visit takes the states closer to the top, or else leaves only the rest of the worklist.
  generalize hm : g.standing rank = m
  induction m using Standing.wellFounded_lt.induction generalizing g work with
  | _ m ihStanding =>
    induction work generalizing g with
    | nil =>
      refine ⟨0, fun fuel _ => ?_⟩
      have hdone (fuel : Nat) : propagateFrom j fuel g [] = .ok g := by cases fuel <;> rfl
      rw [hdone, hdone]
      exact ⟨rfl, by simp⟩
    | cons i work ihWork =>
      cases hvisit : g.visit j work i with
      | error e =>
        have hstep (fuel : Nat) : propagateFrom j (fuel + 1) g (i :: work) = .error e := by
          rw [propagateFrom, hvisit]
          rfl
        have hne := visit_ne_diverges j g work i
        refine ⟨1, fun fuel hfuel => ?_⟩
        obtain ⟨fuel, rfl⟩ := Nat.exists_eq_add_of_le' hfuel
        rw [hvisit] at hne
        rw [hstep, hstep]
        exact ⟨rfl, by simpa using hne⟩
      | ok acc =>
        obtain ⟨g', work'⟩ := acc
        have hstep (fuel : Nat) : propagateFrom j (fuel + 1) g (i :: work) = propagateFrom j fuel g' work' := by
          rw [propagateFrom, hvisit]
          rfl
        obtain ⟨hsteady, hadvances⟩ := visit_advances hp hrank hg hvisit
        obtain ⟨n, hn⟩ : ∃ n, ∀ fuel, n ≤ fuel → propagateFrom j fuel g' work' = propagateFrom j n g' work' ∧
            propagateFrom j fuel g' work' ≠ .error .diverges := by
          rcases hadvances with ⟨hnodes, rfl⟩ | hlt
          · exact ihWork hsteady ((standing_eq_of_nodes hnodes).trans hm)
          · exact ihStanding _ (hm ▸ hlt) hsteady work' rfl
        refine ⟨n + 1, fun fuel hfuel => ?_⟩
        obtain ⟨fuel, rfl⟩ := Nat.exists_eq_succ_of_ne_zero (show fuel ≠ 0 by omega)
        rw [hstep, hstep]
        exact hn fuel (by omega)

/-! ### Runs that never end -/

/-- One visit, with the graph and the worklist as the state of the run. -/
def turn (j : Joiner) : FlowGraph × List Nat → Guarded (FlowGraph × List Nat)
  | (g, []) => .ok (g, [])
  | (g, i :: work) => g.visit j work i

/-- A run that stays within states whose worklists are not empty never ends. -/
theorem propagateFrom_eq_diverges {states : List (FlowGraph × List Nat)}
    (h : ∀ x ∈ states, x.2 ≠ [] ∧ ∃ y ∈ states, turn j x = .ok y) (fuel : Nat) :
    ∀ x ∈ states, propagateFrom j fuel x.1 x.2 = .error .diverges := by
  induction fuel with
  | zero =>
    rintro ⟨g, work⟩ hx
    cases work with
    | nil => exact absurd rfl (h _ hx).1
    | cons i work => rfl
  | succ fuel ih =>
    rintro ⟨g, work⟩ hx
    obtain ⟨hwork, y, hy, hturn⟩ := h _ hx
    cases work with
    | nil => exact absurd rfl hwork
    | cons i work =>
      rw [turn] at hturn
      rw [propagateFrom, hturn, ok_bind]
      exact ih y hy

/-! Two methods pass their arguments on to each other. Both are called with an object of a
    class below `B`, `I` and `J`. -/

namespace Exchange

def type (name : String) : Descriptor := .ofBinaryName ("p/" ++ name)

def method (name : String) (parameters : List Descriptor) : MethodRef := ⟨type "A", name, ⟨.void, parameters⟩⟩

def passing (name : String) (t : Descriptor) (callee : MethodRef) : Body where
  method := method name [t]
  isStatic := true
  arguments := [0]
  values := [⟨t, .argument 0⟩]
  blocks := [{ body := [⟨none, .invoke .static callee [0] false, 1⟩], terminator := .ret none }]

def main (a b : Descriptor) : Body where
  method := method "main" []
  isStatic := true
  arguments := []
  values := [⟨type "X", .instruction⟩, ⟨type "Y", .instruction⟩]
  blocks := [{
    body := [⟨some 0, .newInstance (type "X"), 1⟩, ⟨none, .invoke .static (method "f" [a]) [0] false, 1⟩,
      ⟨some 1, .newInstance (type "Y"), 1⟩, ⟨none, .invoke .static (method "g" [b]) [1] false, 1⟩]
    terminator := .ret none }]

def classes (a b : Descriptor) : List ClassDef :=
  let bodies := [main a b, passing "f" a (method "g" [b]), passing "g" b (method "f" [a])]
  [{ type := .object, kind := .library, superclass := none },
    { type := type "B", superclass := some .object },
    { type := type "I", access := .interfaceFlag ||| .abstractFlag, superclass := some .object },
    { type := type "J", access := .interfaceFlag ||| .abstractFlag, superclass := some .object },
    { type := type "X", superclass := some (type "B"), interfaces := [type "I", type "J"] },
    { type := type "Y", superclass := some (type "B"), interfaces := [type "I", type "J"] },
    { type := type "A", superclass := some .object
      methods := bodies.map fun c => { ref := c.method, access := .staticFlag, code := some (.body c) } }]

/-- The first method takes an `I`, the second a `J`. -/
def overInterfaces : View := { program := .ofList (classes (type "I") (type "J")) }

/-- Both methods take a `B`. -/
def overClass : View := { program := .ofList (classes (type "B") (type "B")) }

def joiner (v : View) : Joiner := ⟨v.program, FlowStates.defaultMaxInFlow⟩

/-- The states before flow. -/
def states (v : View) : Outcome FlowError FlowStates := do
  let scanned ← Scan.run v (joiner v)
  return ⟨← Dispatch.run (joiner v) scanned.methods, ← FlowStates.addDefaults v (joiner v) scanned.fields⟩

def graph (v : View) : FlowGraph :=
  match states v with
  | .ok s => build v.program s
  | .error _ => {}

/-- The states of a run, from the start. -/
def turns (j : Joiner) : Nat → FlowGraph × List Nat → List (FlowGraph × List Nat)
  | 0, _ => []
  | n + 1, x => x :: ((turn j x).toOption.elim [] (turns j n))

def depth (t : Descriptor) : Nat :=
  if t = .object then 0 else if t = type "X" ∨ t = type "Y" then 2 else 1

theorem rooted : overClass.program.Rooted where
  isClass := by decide
  acyclic := ⟨depth, by unfold Program.Ranked; decide⟩
  isClass_of_mem_supertypes := by decide
  top := by decide

theorem joinable : overClass.program.Joinable (type "B") := by
  apply Program.joinable_of_isClass rooted (by decide)
  have hno : ∀ c ∈ overClass.program.classes, ∀ i ∈ c.interfaces, overClass.program.isSubtype i (type "B") = false := by
    decide +kernel
  intro c hc i hi hbelow
  rw [← Program.isSubtype_iff, hno c hc i hi] at hbelow
  cases hbelow

theorem wellTyped : (graph overClass).WellTyped overClass.program where
  conforms := by decide +kernel
  joinable := by
    have hstatic : ∀ n ∈ (graph overClass).nodes, n.static = type "B" := by decide +kernel
    intro n hn
    exact hstatic n hn ▸ joinable
  fits := by decide +kernel

end Exchange

/-- Two places whose types are interfaces that are not related send each other their states:
    every join goes to the top, and the static types take it back. -/
theorem propagate_diverges_of_interfaces :
    ∃ scanned methods fields, Scan.run Exchange.overInterfaces (Exchange.joiner Exchange.overInterfaces) = .ok scanned ∧
      Dispatch.run (Exchange.joiner Exchange.overInterfaces) scanned.methods = .ok methods ∧
      FlowStates.addDefaults Exchange.overInterfaces (Exchange.joiner Exchange.overInterfaces) scanned.fields = .ok fields ∧
      ∀ fuel, (build Exchange.overInterfaces.program ⟨methods, fields⟩).propagate (Exchange.joiner Exchange.overInterfaces) fuel =
        .error .diverges := by
  have hclosed : ∀ x ∈ Exchange.turns (Exchange.joiner Exchange.overInterfaces) 4 (Exchange.graph Exchange.overInterfaces, [0, 1]),
      x.2 ≠ [] ∧ ∃ y ∈ Exchange.turns (Exchange.joiner Exchange.overInterfaces) 4 (Exchange.graph Exchange.overInterfaces, [0, 1]),
        turn (Exchange.joiner Exchange.overInterfaces) x = .ok y := by
    decide +kernel
  have hlength : (Exchange.graph Exchange.overInterfaces).nodes.length = 2 := by decide +kernel
  cases hstates : Exchange.states Exchange.overInterfaces with
  | error e =>
    rw [Exchange.graph, hstates] at hlength
    cases hlength
  | ok s =>
    have hgraph : Exchange.graph Exchange.overInterfaces = build Exchange.overInterfaces.program s := by
      rw [Exchange.graph, hstates]
    obtain ⟨scanned, hscanned, h⟩ := bind_eq_ok.1 hstates
    obtain ⟨methods, hmethods, h⟩ := bind_eq_ok.1 h
    obtain ⟨fields, hfields, h⟩ := bind_eq_ok.1 h
    cases h
    refine ⟨scanned, methods, fields, hscanned, Outcome.lift_eq_ok.1 hmethods, Outcome.lift_eq_ok.1 hfields, ?_⟩
    intro fuel
    rw [← hgraph, propagate, hlength]
    exact propagateFrom_eq_diverges hclosed fuel _ List.mem_cons_self

/-- **Propagation terminates.** On the graph of any states, if it is well-typed, all bounds on
    the number of visits from some one on give the same result, and it is reached. -/
theorem propagate_terminates (hp : j.program.Rooted) (states : FlowStates)
    (h : (build j.program states).WellTyped j.program) :
    ∃ n, ∀ fuel, n ≤ fuel → (build j.program states).propagate j fuel = (build j.program states).propagate j n ∧
      (build j.program states).propagate j fuel ≠ .error .diverges :=
  propagateFrom_terminates hp (steady_build h) _

/-- The two methods take a class, and their places come to rest. -/
theorem propagate_terminates_overClass :
    ∃ states, Exchange.states Exchange.overClass = .ok states ∧ Exchange.overClass.program.Rooted ∧
      (build Exchange.overClass.program states).WellTyped Exchange.overClass.program ∧
      ∃ n, ∀ fuel, n ≤ fuel →
        (build Exchange.overClass.program states).propagate (Exchange.joiner Exchange.overClass) fuel =
          (build Exchange.overClass.program states).propagate (Exchange.joiner Exchange.overClass) n ∧
        (build Exchange.overClass.program states).propagate (Exchange.joiner Exchange.overClass) fuel ≠ .error .diverges := by
  have hok : (Exchange.states Exchange.overClass).isOk = true := by decide +kernel
  cases hstates : Exchange.states Exchange.overClass with
  | error e =>
    rw [hstates] at hok
    cases hok
  | ok states =>
    have hgraph : Exchange.graph Exchange.overClass = build Exchange.overClass.program states := by
      rw [Exchange.graph, hstates]
    have hwellTyped := hgraph ▸ Exchange.wellTyped
    exact ⟨states, rfl, Exchange.rooted, hwellTyped,
      propagate_terminates (j := Exchange.joiner Exchange.overClass) Exchange.rooted states hwellTyped⟩

end FlowGraph

end DexShrinker
