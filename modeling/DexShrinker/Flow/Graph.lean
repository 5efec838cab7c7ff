/-
  DexShrinker/Flow/Graph.lean
  ===========================
  **The graph of places between which values flow.**

  Every parameter or field whose state has a source, or that is one, is a node. Edges lead
  from sources to the places that get their values, with the function that is applied on
  the way. The states of nodes have no sources any more, since the edges stand for them.

  A worklist brings the graph to rest: the state of a node goes along its edges and is
  joined into the states of other nodes, which have to be looked at again if they change.
  The state of a node is cut back by the static type after a join, so it need not have
  grown, and the worklist need not get empty. `propagate` therefore has a bound on its
  steps, and stops with the fault `diverges` when it is used up.
-/
import DexShrinker.Flow.Forest
import DexShrinker.Flow.Scan

namespace DexShrinker

open Std

/-- A place with its state. -/
structure FlowNode where
  key : FlowSource
  static : Descriptor
  isReceiver : Bool
  state : ValueState
deriving DecidableEq

/-- Values flow from node `source` through a function to node `target`. -/
structure FlowEdge where
  source : Nat
  target : Nat
  function : FlowFunction
deriving DecidableEq

namespace FlowEdge

/-- Edges are listed by source, target and function. -/
instance : Ord FlowEdge := ⟨compareLex (compareOn source) (compareLex (compareOn target) (compareOn function))⟩

instance : TransOrd FlowEdge :=
  inferInstanceAs (TransCmp (compareLex (compareOn source) (compareLex (compareOn target) (compareOn function))))

end FlowEdge

/-- Places and the flow between them. Nodes are named by position. -/
structure FlowGraph where
  nodes : List FlowNode := []
  /-- The edges, in order and without repetitions. -/
  edges : List FlowEdge := []
deriving DecidableEq

namespace FlowGraph

/-- The position of the node of a place. -/
def nodeOf? (g : FlowGraph) (key : FlowSource) : Option Nat := g.nodes.findIdx? (·.key == key)

/-- The state of a place; one without a node may hold anything. -/
def lookup (g : FlowGraph) (key : FlowSource) : ValueState :=
  ((g.nodes.find? (·.key == key)).map FlowNode.state).getD .unknown

/-! ### Building -/

/-- The type of a place, whether it is a receiver, and its state before flow. -/
def describe (p : Program) (states : FlowStates) : FlowSource → FlowNode
  | .field f => ⟨.field f, f.type, false, (states.fields.state f).clearInFlow⟩
  | .parameter a =>
    match p.method? a.method with
    | none => ⟨.parameter a, .object, false, .unknown⟩
    | some m =>
      ⟨.parameter a, m.argumentTypes.getD a.index .object, a.index == 0 && !m.isStatic,
        ((states.methods.state a.method).argument a.index).clearInFlow⟩

/-- The node of a place, which is made if there is none. -/
def obtain (p : Program) (states : FlowStates) (g : FlowGraph) (key : FlowSource) : Nat × FlowGraph :=
  match g.nodeOf? key with
  | some i => (i, g)
  | none => (g.nodes.length, { g with nodes := g.nodes ++ [describe p states key] })

/-- The places that a source looks at, each with the function that leads from there. -/
def entries : InFlow → List (FlowSource × FlowFunction)
  | .source s => [(s, .identity s)]
  | .function f => f.sources.map fun s => (s, f)

/-- Add a place and the edges from its sources. -/
def addPlace (p : Program) (states : FlowStates) (g : FlowGraph) (key : FlowSource) (s : ValueState) : FlowGraph :=
  let (target, g) := g.obtain p states key
  (s.inFlow.flatMap entries).foldl (fun g (source, function) =>
    let (i, g) := g.obtain p states source
    { g with edges := g.edges ++ [⟨i, target, function⟩] }) g

/-- The places whose states have sources: parameters, then fields. -/
def waiting (states : FlowStates) : List (FlowSource × ValueState) :=
  let parameters := states.methods.toList.flatMap fun (m, s) =>
    (s.arguments?.getD []).mapIdx fun i a => (FlowSource.parameter ⟨m, i⟩, a)
  let fields := states.fields.toList.map fun (f, s) => (FlowSource.field f, s)
  (parameters ++ fields).filter (·.2.hasInFlow)

/-- The graph of all places whose states have sources. -/
def build (p : Program) (states : FlowStates) : FlowGraph :=
  let g := (waiting states).foldl (fun (g : FlowGraph) (key, s) => g.addPlace p states key s) {}
  { g with edges := (.ofList g.edges : TreeSet FlowEdge).toList }

/-! ### Components -/

/-- Nodes that an edge connects are in one tree. -/
def forest (g : FlowGraph) : Forest :=
  g.edges.foldl (fun f e => f.union e.source e.target) (.singletons g.nodes.length)

/-- For every node the first node that it is connected with. -/
def labels (g : FlowGraph) : List Nat := g.forest.roots

/-- The part of the graph with one label. Its nodes are numbered anew, in the same order. -/
def component (g : FlowGraph) (labels : List Nat) (root : Nat) : FlowGraph :=
  let renumber (i : Nat) : Nat := (labels.take i).count root
  { nodes := ((g.nodes.zip labels).filter (·.2 == root)).map Prod.fst
    edges := (g.edges.filter fun e => labels[e.source]? == some root).map fun e =>
      { e with source := renumber e.source, target := renumber e.target } }

/-- The parts of the graph between which nothing flows. -/
def components (g : FlowGraph) : List FlowGraph :=
  let labels := g.labels
  (.ofList labels : TreeSet Nat).toList.map (g.component labels)

/-! ### Propagation -/

/-- What an unknown place of a type still says. -/
def narrowedUnknown (static : Descriptor) : ConcreteState :=
  if static.isPrimitive then ⟨.primitive .unknown, []⟩
  else if static.isArray then ⟨.array .maybeNull, []⟩
  else ⟨.object .unknown (.below static .maybeNull), []⟩

/-- What flows out of node `i` along its edges when its state is `s`. -/
def outputs (j : Joiner) (g : FlowGraph) (i : Nat) (s : ConcreteState) : Guarded (List (Nat × ValueState)) :=
  (g.edges.filter (·.source == i)).mapM fun e => do
    return (e.target, (← e.function.apply j.program g.lookup s).clearInFlow)

/-- Nothing that gets to an unknown node can change it. -/
def dropInto (g : FlowGraph) (i : Nat) : FlowGraph := { g with edges := g.edges.filter (·.target != i) }

/-- An unknown node has passed on all it can. -/
def dropFrom (g : FlowGraph) (i : Nat) : FlowGraph := { g with edges := g.edges.filter (·.source != i) }

/-- Put a node on the worklist unless it is there. -/
def enqueue (work : List Nat) (i : Nat) : List Nat := if work.contains i then work else i :: work

/-- Join a state into a node, and put the node on the worklist if it changes. -/
def receive (j : Joiner) (acc : FlowGraph × List Nat) (i : Nat) (s : ValueState) : Guarded (FlowGraph × List Nat) := do
  let (g, work) := acc
  match g.nodes[i]? with
  | none => throw (.indexOutOfRange i)
  | some n =>
    let joined ← n.state.join j (if n.isReceiver then s.toReceiver else s)
    if joined = n.state then return (g, work)
    else
      let state := joined.widen j.program n.static
      let g := { g with nodes := g.nodes.set i { n with state := state } }
      return (if state.isUnknown then g.dropInto i else g, enqueue work i)

/-- Look at node `i`: its state goes along its edges. -/
def visit (j : Joiner) (g : FlowGraph) (work : List Nat) (i : Nat) : Guarded (FlowGraph × List Nat) := do
  match g.nodes[i]? with
  | none => throw (.indexOutOfRange i)
  | some n =>
    match n.state with
    | .bottom => return (g, work)
    | .unknown =>
      let outputs ← g.outputs j i (narrowedUnknown n.static)
      outputs.foldlM (fun acc (t, s) => receive j acc t s) (g.dropFrom i, work)
    | .concrete s =>
      let outputs ← g.outputs j i s
      outputs.foldlM (fun acc (t, s) => receive j acc t s) (g, work)

/-- Look at the nodes on the worklist until it is empty, which has to be the case after
    `fuel` visits. -/
def propagateFrom (j : Joiner) : (fuel : Nat) → FlowGraph → List Nat → Guarded FlowGraph
  | _, g, [] => .ok g
  | 0, _, _ :: _ => .error .diverges
  | fuel + 1, g, i :: work => do
    let (g, work) ← g.visit j work i
    propagateFrom j fuel g work

/-- Bring the graph to rest within a number of visits. -/
def propagate (j : Joiner) (fuel : Nat) (g : FlowGraph) : Guarded FlowGraph :=
  propagateFrom j fuel g (List.range g.nodes.length)

end FlowGraph

end DexShrinker
