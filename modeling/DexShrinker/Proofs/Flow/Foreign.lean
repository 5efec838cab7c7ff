/-
  DexShrinker/Proofs/Flow/Foreign.lean
  ====================================
  **Fields that no program class declares.**

  An assignment counts only if its field is one of a program class, and only such fields hold
  their default. A read of a field of some receiver counts for every declared field, though,
  those of library classes too. Nothing is known to be assigned to these, and nothing flows to
  them: they are unknown if they are pinned, and otherwise as if they never held a value, before
  the flow and at its end (`FlowStates.foreign_of_foundIn`). So the read of such a field makes
  its target unknown only if the field is pinned, and otherwise gets lost
  (`FlowStates.library_read_lost`).
-/
import DexShrinker.Proofs.Flow.AtRest
import DexShrinker.Proofs.Flow.Components
import DexShrinker.Proofs.Flow.Found
import DexShrinker.Proofs.Flow.Reaching

namespace DexShrinker

open Std

namespace Program

/-- A program class declares the field. -/
def OwnsField (p : Program) (f : FieldRef) : Prop := ∃ c ∈ p.programClasses, ∃ d ∈ c.fields, d.ref = f

theorem mem_classes_of_class? {p : Program} {t : Descriptor} {c : ClassDef} (h : p.class? t = some c) : c ∈ p.classes := by
  rw [classes_eq_map]
  exact List.mem_map.2 ⟨(t, c), TreeMap.mem_toList_iff_getElem?_eq_some.2 h, rfl⟩

theorem HasOwnField.ownsField {p : Program} {f : FieldRef} (h : p.HasOwnField f) : p.OwnsField f := by
  obtain ⟨hclass, hfield⟩ := h
  obtain ⟨c, hc⟩ := Option.isSome_iff_exists.1 hclass
  obtain ⟨hget, hprogram⟩ := Option.filter_eq_some_iff.1 hc
  obtain ⟨d, hd⟩ := Option.isSome_iff_exists.1 hfield
  rw [field?, hget, Option.bind_some] at hd
  refine ⟨c, List.mem_filter.2 ⟨mem_classes_of_class? hget, hprogram⟩, d, List.mem_of_find?_eq_some hd, ?_⟩
  simpa using List.find?_some (p := fun d : FieldDef => d.ref == f) hd

end Program

/-! ### Before the flow -/

theorem FieldStates.kept_owned (j : Joiner) : Kept j fun f s => s ≠ .bottom → j.program.OwnsField f := by
  refine ⟨fun f hne => absurd rfl hne, ?_⟩
  intro f a b c hjoin ha hb hc
  by_cases hbottom : a = .bottom
  · apply hb
    rintro rfl
    rw [hbottom] at hjoin
    cases hjoin
    exact hc rfl
  · exact ha hbottom

/-- Only fields of program classes are assigned. -/
theorem Scan.invariant_owned (j : Joiner) : Invariant j (fun _ _ => True) (fun f s => s ≠ .bottom → j.program.OwnsField f) where
  methods := ⟨fun _ => trivial, fun _ _ _ => trivial⟩
  fields := FieldStates.kept_owned j
  called _ _ := trivial
  dispatched _ _ _ _ := trivial
  written hown _ _ := hown.ownsField

namespace FlowStates

variable {v : View} {j : Joiner} {s s' : FlowStates} {f : FieldRef} {maxInFlow : Nat}

/-- Only fields of program classes get a default. -/
theorem state_addDefaults {fields fields' : FieldStates} (h : addDefaults v j fields = .ok fields') (hf : ¬ v.program.OwnsField f) :
    fields'.state f = fields.state f := by
  refine foldlM_preserves (P := fun fields' => FieldStates.state fields' f = fields.state f) (fun b c hc b' hb hclass => ?_) rfl h
  refine foldlM_preserves (P := fun fields' => FieldStates.state fields' f = fields.state f) (fun b d hd b' hb hadd => ?_) hb hclass
  obtain ⟨joined, -, hstate⟩ := FieldStates.state_add hadd
  rw [hstate, if_neg, hb]
  intro heq
  exact hf ⟨c, hc, d, (List.mem_filter.1 hd).1, heq⟩

/-- Before the flow, a field that no program class declares is unknown if it is pinned, and has
    no value otherwise. -/
theorem FoundIn.foreign (h : s.FoundIn v maxInFlow) (hf : ¬ v.program.OwnsField f) :
    s.fields.state f = if f ∈ v.pins.fields then .unknown else .bottom := by
  obtain ⟨scanned, hscanned, -, hfields⟩ := h
  obtain ⟨found, escaping, heach, -, hstate⟩ := Scan.run_spec hscanned
  have hbottom : found.fields.state f = .bottom :=
    Classical.byContradiction fun hne => hf ((heach (Scan.invariant_owned _)).fields f hne)
  rw [state_addDefaults hfields hf, hstate, hbottom]

end FlowStates

/-! ### Nodes that nothing flows to -/

namespace FlowGraph

variable {j : Joiner} {g g' : FlowGraph} {work work' : List Nat} {i : Nat}

/-- No edge leads to the node. -/
def Unreached (g : FlowGraph) (i : Nat) : Prop := ∀ e ∈ g.edges, e.target ≠ i

theorem unreached_receive {t : Nat} {s : ValueState} (h : receive j (g, work) t s = .ok (g', work')) (ht : t ≠ i)
    (hi : g.Unreached i) : g'.Unreached i ∧ g'.nodes[i]? = g.nodes[i]? := by
  obtain ⟨n, joined, -, -, ⟨-, rfl, -⟩ | ⟨-, -, hnodes, hedges⟩⟩ := receive_cases h
  · exact ⟨hi, rfl⟩
  · refine ⟨fun e he => hi e ?_, ?_⟩
    · rw [hedges] at he
      split at he
      · exact (List.mem_filter.1 he).1
      · exact he
    · rw [hnodes, List.getElem?_set_ne ht]

theorem unreached_receiveAll {pending : List (Nat × ValueState)} (hpending : ∀ x ∈ pending, x.1 ≠ i)
    (h : pending.foldlM (fun acc (t, s) => receive j acc t s) (g, work) = .ok (g', work')) (hi : g.Unreached i) :
    g'.Unreached i ∧ g'.nodes[i]? = g.nodes[i]? :=
  foldlM_preserves (P := fun acc => acc.1.Unreached i ∧ acc.1.nodes[i]? = g.nodes[i]?)
    (fun _ x hx _ hb hstep =>
      let ⟨hi', hsame⟩ := unreached_receive hstep (hpending x hx) hb.1
      ⟨hi', hsame.trans hb.2⟩) ⟨hi, rfl⟩ h

theorem unreached_visit {k : Nat} (h : g.visit j work k = .ok (g', work')) (hi : g.Unreached i) :
    g'.Unreached i ∧ g'.nodes[i]? = g.nodes[i]? := by
  have htargets {input : ConcreteState} {outputs : List (Nat × ValueState)} (houtputs : g.outputs j k input = .ok outputs) :
      ∀ x ∈ outputs, x.1 ≠ i := by
    intro x hx
    obtain ⟨e, he, out, -, rfl⟩ := mem_outputs houtputs hx
    exact hi e he
  unfold visit at h
  split at h
  · cases h
  · split at h
    · cases h
      exact ⟨hi, rfl⟩
    · obtain ⟨outputs, houtputs, h⟩ := bind_eq_ok.1 h
      exact unreached_receiveAll (g := g.dropFrom k) (htargets houtputs) h fun e he => hi e (List.mem_filter.1 he).1
    · obtain ⟨outputs, houtputs, h⟩ := bind_eq_ok.1 h
      exact unreached_receiveAll (htargets houtputs) h hi

theorem unreached_propagateFrom {fuel : Nat} (h : propagateFrom j fuel g work = .ok g') (hi : g.Unreached i) :
    g'.nodes[i]? = g.nodes[i]? := by
  induction fuel generalizing g work with
  | zero =>
    cases work with
    | nil =>
      cases h
      rfl
    | cons k work => cases h
  | succ fuel ih =>
    cases work with
    | nil =>
      cases h
      rfl
    | cons k work =>
      obtain ⟨⟨g₁, work₁⟩, hvisit, h⟩ := bind_eq_ok.1 h
      obtain ⟨hi₁, hsame⟩ := unreached_visit hvisit hi
      exact (ih h hi₁).trans hsame

/-- In a component, too, edges lead only to places that wait for sources. -/
theorem unreached_component {p : Program} {states : FlowStates} {c : FlowGraph} (hc : c ∈ (build p states).components)
    {k : Nat} {x : FlowSource} (hk : c.IsAt k x) (hx : ∀ s, (x, s) ∉ waiting states) : c.Unreached k := by
  have hbuilt := built_build p states
  have hparted := parted_components hbuilt
  obtain ⟨i, hi⟩ := List.getElem?_of_mem hc
  obtain ⟨n, hn, hkey⟩ := Option.map_eq_some_iff.1 hk
  obtain ⟨l, hplace, hl⟩ := hparted.nodeOfPart i k c n hi hn
  rintro e' he' rfl
  obtain ⟨e, he, -, htarget, -⟩ := hparted.edgeOfPart i c e' hi he'
  obtain ⟨z, s, -, hz, -, -, -, hat⟩ := standsFor_of_mem_build he
  obtain rfl : e.target = l :=
    hparted.apart _ _ (hbuilt.inRange e he).2 (List.getElem?_eq_some_iff.1 hl).1 (htarget.trans hplace.symm)
  rw [IsAt, hl, Option.map_some, hkey, Option.some.injEq] at hat
  exact hx s (hat ▸ hz)

/-! ### What unknown places pass on -/

/-- A node is unknown for good once something unknown has arrived. -/
theorem keeping_unknown (j : Joiner) : Keeping j (fun _ => True) (fun n c => c = .unknown → n.state = .unknown) where
  fit _ _ _ := trivial
  takes := by
    rintro n n' s h - - rfl
    have harriving : n.arriving .unknown = .unknown := by
      unfold FlowNode.arriving
      split <;> rfl
    cases h with
    | same h =>
      rw [harriving, ValueState.join_unknown, Except.ok.injEq] at h
      exact h.symm
    | changed h =>
      rw [harriving, ValueState.join_unknown] at h
      cases h
      rfl
  keeps := by
    intro n n' s c h _ _ hc hunknown
    rw [h.eq_of_unknown (hc hunknown)]
    exact hc hunknown
  unknown := trivial
  apply _ _ _ _ := trivial

end FlowGraph

namespace FlowStates

variable {v : View} {j : Joiner} {s s' : FlowStates} {x y : FlowSource} {f : FieldRef} {maxInFlow visits : Nat}

theorem slot_of_mem_waiting {state : ValueState} (h : (.field f, state) ∈ FlowGraph.waiting s) : s.fields.state f = state := by
  rcases List.mem_append.1 (List.mem_filter.1 h).1 with h | h
  · obtain ⟨⟨m, state⟩, -, h⟩ := List.mem_flatMap.1 h
    simp at h
  · obtain ⟨entry, hentry, heq⟩ := List.mem_map.1 h
    cases heq
    exact FieldStates.Each.of_mem_toList (F := fun f state => s.fields.state f = state) (fun _ => rfl) hentry

/-- A field without sources keeps its state. -/
theorem state_resolve (h : resolve j visits s = .ok s') (hf : (s.fields.state f).hasInFlow = false)
    (hclear : (s.fields.state f).clearInFlow = s.fields.state f) : s'.fields.state f = s.fields.state f := by
  obtain ⟨solved, hsolved, hfields, -⟩ := resolve_cases h
  have hslot : ((solved.flatMap FlowGraph.nodes).foldl put s).slot (.field f) = some (s.fields.state f) := by
    by_cases hkey : .field f ∈ (solved.flatMap FlowGraph.nodes).map FlowNode.key
    · obtain ⟨n, hn, hkey⟩ := List.mem_map.1 hkey
      obtain ⟨c', hc', hmem⟩ := List.mem_flatMap.1 hn
      obtain ⟨c, hc, hsolve⟩ := exists_of_mem_left hsolved.flip hc'
      obtain ⟨i, hi⟩ := List.getElem?_of_mem hmem
      have hstart := exists_described hc (FlowGraph.propagate_settles hsolve).1 hi
      have hunreached : c.Unreached i := by
        refine FlowGraph.unreached_component hc (x := .field f) ?_ ?_
        · rw [FlowGraph.IsAt, hstart, Option.map_some, FlowGraph.key_describe, hkey]
        · intro state hwaiting
          have hflow := (List.mem_filter.1 hwaiting).2
          rw [← slot_of_mem_waiting hwaiting, hf] at hflow
          cases hflow
      have hend := FlowGraph.unreached_propagateFrom hsolve hunreached
      rw [hi, hstart, Option.some.injEq] at hend
      rw [← hkey, slot_puts (nodup_solved hsolved) hn, hend, hkey, FlowGraph.describe, hclear]
      rfl
    · exact slot_puts_of_notMem hkey
  rw [hfields]
  exact Option.some.inj hslot

/-- A place that is unknown in the graph at rest is unknown in the end. -/
theorem stateOf_of_unknown {s₁ : FlowStates} (hfields : s'.fields = s₁.fields)
    (hmethods : ∀ m, s'.methods.state m = settle (s₁.methods.state m)) (h : s₁.slot x = some .unknown) :
    s'.stateOf x = .unknown := by
  cases x with
  | field f =>
    rw [stateOf, hfields]
    exact Option.some.inj h
  | parameter a =>
    rw [stateOf, parameter, hmethods]
    cases hs : s₁.methods.state a.method with
    | monomorphic arguments =>
      rw [slot, hs] at h
      have hget : arguments[a.index]? = some .unknown := h
      have hbottom : arguments.all ValueState.isBottom = false := by
        rw [List.all_eq_false]
        exact ⟨.unknown, List.mem_of_getElem? hget, by decide⟩
      rw [settle, hbottom, if_neg Bool.false_ne_true]
      split
      · rfl
      · rw [MethodState.argument, List.getD_eq_getElem?_getD, hget]
        rfl
    | _ =>
      rw [slot, hs] at h
      cases h

/-- What is read of an unknown field is unknown. -/
theorem stateOf_of_read (h : resolve j visits s = .ok s') (hf : s.fields.state f = .unknown) {state : ValueState}
    (hx : s.slot x = some state) (hread : .function (.fieldRead y f) ∈ state.inFlow) : s'.stateOf x = .unknown := by
  obtain ⟨solved, hsolved, hfields, hmethods⟩ := resolve_cases h
  have hbuilt := FlowGraph.built_build j.program s
  have hwaiting : (x, state) ∈ FlowGraph.waiting s := by
    cases state with
    | concrete state => exact mem_waiting hx hread
    | _ => cases hread
  have hentry : (.field f, .fieldRead y f) ∈ FlowGraph.entries (.function (.fieldRead y f)) := by
    simp [FlowGraph.entries, FlowFunction.sources]
  obtain ⟨c, hc, e, he, hfunction, hsource, htarget⟩ :=
    FlowGraph.links_components hbuilt (FlowGraph.links_build hwaiting hread hentry)
  obtain ⟨c', hc', hsolve⟩ := exists_of_mem_left hsolved hc
  have hnodup := (FlowGraph.wired_component hbuilt (FlowGraph.wired_build _ _) hc).nodup
  have hown : c.Own e := by
    intro y' f' hf'
    rw [hfunction] at hf'
    cases hf'
    exact FlowGraph.nodeOf?_of_isAt hnodup hsource
  obtain ⟨hpersists, hserves⟩ := FlowGraph.propagate_serves (FlowGraph.keeping_unknown j) (fun _ _ => trivial) hsolve
  obtain ⟨nf, hnf, hkeyf, -⟩ := exists_solved hc' hpersists.places hsource
  obtain ⟨nx, hnx, rfl, hmemx⟩ := exists_solved hc' hpersists.places htarget
  have hunknown : nx.state = .unknown := by
    rcases hserves e he hsource.lt_length hown with hunknown | hserved
    · rwa [FlowGraph.stateAt_eq hnx] at hunknown
    · -- The field is unknown from the start, and what is read of it is its state.
      have hstart := exists_described hc (FlowGraph.propagate_settles hsolve).1 hnf
      have hstate : nf.state = .unknown := by
        have hdescribe : c.stateAt e.source = .unknown := by
          rw [FlowGraph.stateAt_eq hstart, hkeyf, FlowGraph.describe, hf]
          rfl
        rw [← FlowGraph.stateAt_eq hnf]
        exact hpersists.stateAt_unknown hdescribe
      obtain ⟨out, m, hout, hm, hkeeps⟩ := hserved nf (FlowGraph.narrowedUnknown nf.static) hnf (by rw [FlowNode.input?, hstate])
      have hlookup : c'.lookup (.field f) = nf.state :=
        FlowGraph.lookup_of_nodeOf? ((FlowGraph.own_congr hpersists.places).2 hown y f hfunction) hnf
      rw [hfunction, FlowFunction.apply, hlookup, hstate] at hout
      cases hnx.symm.trans hm
      cases hout
      exact hkeeps rfl
  refine stateOf_of_unknown hfields hmethods ?_
  rw [slot_puts (nodup_solved hsolved) hmemx, hx, hunknown]
  rfl

/-- **The state of a field that no program class declares** is that of a pinned place if the field
    is pinned, and then all that is read of it is unknown. Otherwise it has none, in the graph and
    at the end of the flow. -/
theorem foreign_of_foundIn (h : s.FoundIn v maxInFlow) (hf : ¬ v.program.OwnsField f) :
    (∀ n ∈ (FlowGraph.build v.program s).nodes, n.key = .field f →
      n.state = if f ∈ v.pins.fields then .unknown else .bottom) ∧
    ∀ visits s', resolve ⟨v.program, maxInFlow⟩ visits s = .ok s' →
      s'.fields.state f = (if f ∈ v.pins.fields then .unknown else .bottom) ∧
        (f ∈ v.pins.fields → ∀ x y state, s.slot x = some state → .function (.fieldRead y f) ∈ state.inFlow →
          s'.stateOf x = .unknown) := by
  have hstate := h.foreign hf
  have hplain : (s.fields.state f).hasInFlow = false ∧ (s.fields.state f).clearInFlow = s.fields.state f := by
    rw [hstate]
    split <;> exact ⟨rfl, rfl⟩
  refine ⟨?_, fun visits s' hresolve => ⟨?_, ?_⟩⟩
  · intro n hn hkey
    rw [(FlowGraph.built_build _ _).described n hn, hkey, FlowGraph.describe, hplain.2, hstate]
  · rw [state_resolve hresolve hplain.1 hplain.2, hstate]
  · intro hpinned x y state hx hread
    exact stateOf_of_read hresolve (hstate.trans (if_pos hpinned)) hx hread

/-! A method reads a field of a library class from its argument and passes it on. -/

namespace Reading

open FlowGraph.Exchange (type method joiner)

def point : Descriptor := .ofBinaryName "java/awt/Point"

def coordinate : FieldRef := ⟨point, "x", .int⟩

def taker : Body where
  method := method "g" [.int]
  isStatic := true
  arguments := [0]
  values := [⟨.int, .argument 0⟩]
  blocks := [{ terminator := .ret none }]

def reader : Body where
  method := method "f" [point]
  isStatic := true
  arguments := [0]
  values := [⟨point, .argument 0⟩, ⟨.int, .instruction⟩]
  blocks := [{
    body := [⟨some 1, .instanceGet coordinate 0, 1⟩, ⟨none, .invoke .static taker.method [1] false, 1⟩]
    terminator := .ret none }]

def main : Body where
  method := method "main" []
  isStatic := true
  arguments := []
  values := [⟨point, .instruction⟩]
  blocks := [{
    body := [⟨some 0, .newInstance point, 1⟩, ⟨none, .invoke .static reader.method [0] false, 1⟩]
    terminator := .ret none }]

def program : Program := .ofList [
  { type := .object, kind := .library, superclass := none },
  { type := point, kind := .library, superclass := some .object, fields := [{ ref := coordinate, access := .publicFlag }] },
  { type := type "A"
    superclass := some .object
    methods := [reader, taker, main].map fun c => { ref := c.method, access := .staticFlag, code := some (.body c) } }]

def view (pinned : FieldSet) : View where
  program := program
  pins := { fields := pinned }

theorem not_ownsField : ¬ program.OwnsField coordinate := by
  unfold Program.OwnsField
  decide

/-- The states before and after the flow pass a test. -/
def passes (pinned : FieldSet) (test : FlowStates → FlowStates → Bool) : Bool :=
  match FlowGraph.Exchange.states (view pinned) with
  | .ok s => (resolve (joiner (view pinned)) 100 s).toOption.any (test s)
  | .error _ => false

theorem exists_of_passes {pinned : FieldSet} {test : FlowStates → FlowStates → Bool} (h : passes pinned test = true) :
    ∃ s s', s.FoundIn (view pinned) defaultMaxInFlow ∧ resolve (joiner (view pinned)) 100 s = .ok s' ∧ test s s' = true := by
  unfold passes at h
  split at h
  · next s hs =>
    obtain ⟨s', hs', htest⟩ := (Option.any_eq_true _ _).1 h
    obtain ⟨scanned, hscanned, hs⟩ := bind_eq_ok.1 hs
    obtain ⟨methods, hmethods, hs⟩ := bind_eq_ok.1 hs
    obtain ⟨fields, hfields, hs⟩ := bind_eq_ok.1 hs
    obtain rfl := pure_eq_ok.1 hs
    exact ⟨⟨methods, fields⟩, s', ⟨scanned, hscanned, Outcome.lift_eq_ok.1 hmethods, Outcome.lift_eq_ok.1 hfields⟩, toOption_eq_some.1 hs', htest⟩
  · cases h

/-- The argument of `taker` waits for the field, and has got a state in the end. -/
def waits (final : ValueState) (s s' : FlowStates) : Bool :=
  (s.slot (.parameter ⟨taker.method, 0⟩)).any (fun state =>
    state.inFlow.contains (.function (.fieldRead (.parameter ⟨reader.method, 0⟩) coordinate))) &&
    decide (s'.stateOf (.parameter ⟨taker.method, 0⟩) = final)

end Reading

/-- If the field is pinned, what is read of it may be anything. -/
theorem foreign_of_foundIn_pinned : ∃ s s' : FlowStates, s.FoundIn (Reading.view {Reading.coordinate}) defaultMaxInFlow ∧
    ¬ Reading.program.OwnsField Reading.coordinate ∧
    resolve ⟨Reading.program, defaultMaxInFlow⟩ 100 s = .ok s' ∧
    s'.fields.state Reading.coordinate = .unknown ∧ s'.stateOf (.parameter ⟨Reading.taker.method, 0⟩) = .unknown := by
  have hpasses : Reading.passes {Reading.coordinate} (Reading.waits .unknown) = true := by decide +kernel
  obtain ⟨s, s', hfound, hresolve, htest⟩ := Reading.exists_of_passes hpasses
  have hpinned : Reading.coordinate ∈ (Reading.view {Reading.coordinate}).pins.fields := by decide +kernel
  obtain ⟨state, hslot, hread⟩ := (Option.any_eq_true _ _).1 (Bool.and_eq_true_iff.1 htest).1
  obtain ⟨-, hflow⟩ := foreign_of_foundIn hfound Reading.not_ownsField
  obtain ⟨hfield, hreads⟩ := hflow 100 s' hresolve
  exact ⟨s, s', hfound, Reading.not_ownsField, hresolve, hfield.trans (if_pos hpinned),
    hreads hpinned _ _ state hslot (List.contains_iff_mem.1 hread)⟩

/-- The node of a library field that is read is not unknown, so the only argument of a method that
    is called with what is read is reported as if it never got a value. -/
theorem library_read_lost : ∃ s s' : FlowStates, s.FoundIn (Reading.view ∅) defaultMaxInFlow ∧
    resolve ⟨Reading.program, defaultMaxInFlow⟩ 100 s = .ok s' ∧
    ¬ Reading.program.OwnsField Reading.coordinate ∧
    (∃ state, s.slot (.parameter ⟨Reading.taker.method, 0⟩) = some state ∧
      .function (.fieldRead (.parameter ⟨Reading.reader.method, 0⟩) Reading.coordinate) ∈ state.inFlow) ∧
    (∃ n ∈ (FlowGraph.build Reading.program s).nodes, n.key = .field Reading.coordinate ∧ n.state = .bottom) ∧
    s'.stateOf (.parameter ⟨Reading.taker.method, 0⟩) = .bottom := by
  have hpasses : Reading.passes ∅ (fun s s' => Reading.waits .bottom s s' &&
      (FlowGraph.build Reading.program s).nodes.any
        fun n => decide (n.key = .field Reading.coordinate ∧ n.state = .bottom)) = true := by
    decide +kernel
  obtain ⟨s, s', hfound, hresolve, htest⟩ := Reading.exists_of_passes hpasses
  obtain ⟨hwaits, hnode⟩ := Bool.and_eq_true_iff.1 htest
  obtain ⟨hwaits, hfinal⟩ := Bool.and_eq_true_iff.1 hwaits
  obtain ⟨state, hslot, hread⟩ := (Option.any_eq_true _ _).1 hwaits
  obtain ⟨n, hn, hbottom⟩ := List.any_eq_true.1 hnode
  exact ⟨s, s', hfound, hresolve, Reading.not_ownsField, ⟨state, hslot, List.contains_iff_mem.1 hread⟩,
    ⟨n, hn, of_decide_eq_true hbottom⟩, of_decide_eq_true hfinal⟩

end FlowStates

end DexShrinker
