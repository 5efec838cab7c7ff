/-
  DexShrinker/Flow/Propagation.lean
  =================================
  **Which values parameters and fields may hold.**

  The states found at calls and assignments go to the methods that are run. A call of a
  virtual method may run the method or one that overrides it: what is passed to receivers
  with a bound goes to every method that such a receiver may run, and a method that may
  get anything passes this on to all that override it. A field that may be read before it is assigned also holds its default. Then the flow between places
  is brought to rest, and what it gives takes the place of the states that had sources.
-/
import DexShrinker.Flow.Graph
import DexShrinker.Flow.Scan

namespace DexShrinker

/-! ### From calls to the methods that they run -/

namespace Dispatch

/-- A receiver with a bound may run the method `m`. -/
def mayRun (p : Program) (bound : DynamicType) (m : MethodDef) : Guarded Bool := do
  match bound with
  | .bottom => return false
  | .unknown => return true
  | .bounded t isExact _ =>
    let resolved ← p.resolveMethod { m.ref with holder := t }
    return resolved.any (·.ref == m.ref) || (!isExact && p.isSubtype m.ref.holder t)

/-- The states of one method go to all methods that its calls may run. -/
def spread (j : Joiner) (out : MethodStates) (m : MethodRef) (s : MethodState) : Guarded MethodStates := do
  match (j.program.method? m).filter (·.isVirtual), s with
  | some d, .polymorphic cases =>
    let targets := (if d.isAbstract then [] else [d]) ++ j.program.overrides d
    cases.foldlM (fun (out : MethodStates) (bound, s) =>
      targets.foldlM (fun (out : MethodStates) t => do
        if ← mayRun j.program bound t then out.add j t.ref s else return out) out) out
  | some d, .unknown =>
    (m :: (j.program.overrides d).map MethodDef.ref).foldlM (fun (out : MethodStates) r => out.add j r .unknown) out
  | _, s => out.add j m s

/-- The states of all methods go to the methods that are run. -/
def run (j : Joiner) (methods : MethodStates) : Guarded MethodStates :=
  methods.toList.foldlM (fun (out : MethodStates) (m, s) => spread j out m s) ∅

end Dispatch

/-! ### All places -/

namespace FlowStates

/-- The number of sources up to which a state is not given up on, unless another is given. -/
def defaultMaxInFlow : Nat := 16

/-- A final field that all initializers which can run first assign, and nobody else does. -/
def isInitialized (v : View) (c : ClassDef) (f : FieldDef) : Bool :=
  f.access.isFinal && (v.fieldAccess[f.ref]?).any fun accessors =>
    let writes (m : MethodDef) := accessors.writers.contains m.ref
    accessors.writtenOnlyInInitializers f.ref &&
      if f.isStatic then c.classInitializer?.any writes
      else !c.instanceInitializers.isEmpty && c.instanceInitializers.all writes

/-- Add the defaults of fields that may be read before they are assigned. -/
def addDefaults (v : View) (j : Joiner) (fields : FieldStates) : Guarded FieldStates :=
  v.program.programClasses.foldlM (fun fields c =>
    (c.fields.filter (!isInitialized v c ·)).foldlM (fun (fields : FieldStates) f =>
      fields.add j f.ref ((ValueState.default f.ref.type).widen v.program f.ref.type)) fields) fields

/-- Replace the state of a place. -/
def put (s : FlowStates) (n : FlowNode) : FlowStates :=
  match n.key with
  | .field f => { s with fields := s.fields.setState f n.state }
  | .parameter a =>
    match s.methods.state a.method with
    | .monomorphic arguments =>
      { s with methods := s.methods.setState a.method (.monomorphic (arguments.set a.index n.state)) }
    | _ => s

/-- A method none of whose arguments gets a value is not called, and one whose arguments may
    all be anything is unknown. -/
def settle : MethodState → MethodState
  | .monomorphic arguments =>
    if arguments.all ValueState.isBottom then .bottom
    else if arguments.all ValueState.isUnknown then .unknown
    else .monomorphic arguments
  | s => s

/-- The states after the flow between places has come to rest, which takes at most `visits` visits in each component. -/
def resolve (j : Joiner) (visits : Nat) (s : FlowStates) : Guarded FlowStates := do
  let solved ← (FlowGraph.build j.program s).components.mapM (·.propagate j visits)
  let s := (solved.flatMap FlowGraph.nodes).foldl put s
  return { s with methods := s.methods.toList.foldl (fun (c : MethodStates) (m, state) =>
    c.setState m (settle state)) s.methods }

/-- The states of all parameters and fields of a program. The flow need not come to rest, so a run is given a number of
    visits; one that ends ends in the same way for every greater number. -/
def ofView (v : View) (maxInFlow visits : Nat) : Outcome FlowError FlowStates := do
  let j : Joiner := ⟨v.program, maxInFlow⟩
  let scanned ← Scan.run v j
  let methods ← Dispatch.run j scanned.methods
  let fields ← addDefaults v j scanned.fields
  FlowStates.resolve j visits ⟨methods, fields⟩

/-- The state of an argument of a method. -/
def parameter (s : FlowStates) (m : MethodRef) (i : Nat) : ValueState := (s.methods.state m).argument i

/-- The integer that all calls pass for an argument, if there is one. -/
def constantParameter? (s : FlowStates) (m : MethodRef) (i : Nat) : Option Int64 :=
  match s.parameter m i with
  | .concrete ⟨.primitive (.single v), _⟩ => some v
  | _ => none

end FlowStates

end DexShrinker
