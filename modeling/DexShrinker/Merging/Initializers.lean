/-
  DexShrinker/Merging/Initializers.lean
  =====================================
  **One initializer for the instances of several classes.**

  In a group with a class id every initializer becomes a private method of the target,
  its *helper*, that has to be inlined later. The initializers are brought together by
  their prototype after the merge. Every prototype gets one dispatching initializer,
  which stores the class id and calls the helper of the class that is being made:

  - a prototype of several classes takes two parameters more, a null that tells the
    new initializer apart and the class id, both of which the callers add;
  - a prototype of one class stays as it is, and the class id is a constant.

  Two initializers of one class may come to have the same prototype. The later one is
  padded with null parameters until its prototype is free.

  In a group without a class id the initializers are placed like other methods.
-/
import DexShrinker.Body.Assembly
import DexShrinker.Merging.Policy

namespace DexShrinker

/-- An initializer of a class of a group. -/
structure MemberInit where
  classId : Nat
  method : MethodDef
  /-- The prototype after the merge, with the padding. -/
  proto : Prototype
  /-- The number of null parameters added to it. -/
  padding : Nat

/-- What becomes of the initializers of a group. -/
structure InitMerge where
  /-- Helpers and dispatching initializers, under their new names. -/
  placed : List MethodDef := []
  /-- Initializers that are placed later, under their old names. -/
  pending : List MethodDef := []
  /-- The dispatching initializers. -/
  synthesized : List MethodRef := []
  /-- The parameter type that tells initializers apart is needed. -/
  usesArgument : Bool := false
  recorder : Recorder

namespace InitMerge

/-- The initializers of a group with the ids of their classes. -/
def initializers (p : Program) (g : MergeGroup) : List (Nat × MethodDef) :=
  g.classes.flatMap fun t =>
    ((p.class? t).toList.flatMap ClassDef.instanceInitializers).map fun d => ((g.classId? t).getD 0, d)

/-- The prototype with `n` more parameters of type `argument`. -/
def pad (proto : Prototype) (argument : Descriptor) (n : Nat) : Prototype :=
  proto.append (List.replicate n argument)

/-- Give every initializer a prototype that no earlier one of its class has. -/
def assignProtos (m : MergeMap) (argument : Descriptor) (inits : List (Nat × MethodDef)) : List MemberInit :=
  inits.foldl (fun assigned (id, d) =>
    let proto := m.proto d.ref.proto
    let taken := (assigned.filter (·.classId == id)).map MemberInit.proto
    let n := firstFree (pad proto argument) taken
    assigned ++ [⟨id, d, pad proto argument n, n⟩]) []

/-- The initializers by prototype, in the order of prototypes. -/
def byProto (inits : List MemberInit) : List (Prototype × List MemberInit) :=
  let protos : Std.TreeSet Prototype := .ofList (inits.map MemberInit.proto)
  protos.toList.map fun proto => (proto, inits.filter (·.proto == proto))

/-- Call a helper and return. Padding is not passed on. -/
def callHelper (receiver : ValueId) (parameters : List ValueId) (helper : MethodRef) : Assembly Unit := do
  let _ ← Assembly.invoke .direct helper (receiver :: parameters.take helper.proto.arity)
  Assembly.ret none

/-- Call the helper whose number is `classId`; the last one needs no test. -/
def dispatch (receiver classId : ValueId) (parameters : List ValueId) : List (Nat × MethodRef) → Assembly Unit
  | [] => Assembly.ret none
  | [(_, helper)] => callHelper receiver parameters helper
  | (id, helper) :: rest => do
    let constant ← Assembly.constInt (.ofNat id)
    let callBlock ← Assembly.newBlock
    let next ← Assembly.newBlock
    Assembly.terminate (.branch .ne .int classId (some constant) next)
    Assembly.switchTo callBlock
    callHelper receiver parameters helper
    Assembly.switchTo next
    dispatch receiver classId parameters rest

/-- Store the class id, then call the helper of the class. If callers pass the class id, it
    is the last parameter, behind a null. -/
def dispatchSteps (method : MethodRef) (classIdField : FieldRef) (helpers : List (Nat × MethodRef))
    (passesId : Bool) : Assembly Unit := do
  let receiver ← Assembly.argument 0
  let arity := if passesId then method.proto.arity - 2 else method.proto.arity
  let parameters ← (List.range arity).mapM fun i => Assembly.argument (i + 1)
  let classId ← if passesId then Assembly.argument (arity + 2)
    else Assembly.constInt (.ofNat ((helpers.head?.map Prod.fst).getD 0))
  Assembly.instancePut classIdField receiver classId
  dispatch receiver classId parameters helpers

/-- The flags of helpers. -/
def helperAccess : AccessFlags := .privateFlag ||| .syntheticFlag

/-- The flags of dispatching initializers. -/
def dispatchAccess : AccessFlags := .publicFlag ||| .constructorFlag ||| .syntheticFlag

/-- The name of the helper with a number. -/
def helperName (n : Nat) : String := numbered "constructor" n

/-- Names for helpers with the given prototypes, none of which are taken, starting with
    number `next`. -/
def nameHelpers (target : Descriptor) (taken : List Signature) : (next : Nat) → List Prototype → List MethodRef × Nat
  | next, [] => ([], next)
  | next, proto :: protos =>
    let n := next + firstFree (fun i => (⟨helperName (next + i), proto⟩ : Signature)) taken
    let (helpers, next) := nameHelpers target taken (n + 1) protos
    (⟨target, helperName n, proto⟩ :: helpers, next)

/-- What callers of an initializer have to add. -/
def callChanges (argument : Descriptor) (i : MemberInit) (isShared : Bool) : ProtoChanges :=
  let nulls := List.replicate (if isShared then i.padding + 1 else i.padding) (ExtraParameter.unusedNull argument)
  let id := if isShared then [ExtraParameter.constantInt (.ofNat i.classId)] else []
  (nulls ++ id).foldl ProtoChanges.addParameter .none

/-- The helper definition of an initializer. -/
def helperDef (helper : MethodRef) (i : MemberInit) : MethodDef :=
  { i.method with ref := helper, access := helperAccess, forceInline := true }

/-- Merge the initializers `inits` of one prototype, with the helpers numbered from
    `next`. -/
def mergeProto (m : MergeMap) (target : Descriptor) (classIdField : FieldRef) (argument : Descriptor)
    (taken : List Signature) (acc : InitMerge × Nat) (proto : Prototype) (inits : List MemberInit) :
    Outcome MergeError (InitMerge × Nat) := do
  let (merge, next) := acc
  let (helpers, next) := nameHelpers target taken next (inits.map fun i => m.proto i.method.ref.proto)
  let isShared := inits.length > 1
  let dispatcher : MethodRef :=
    ⟨target, MethodRef.initName, if isShared then proto.append [argument, .int] else proto⟩
  let recorder := (helpers.zip inits).foldl (fun (r : Recorder) (h, i) => r.representMethod h i.method.ref) merge.recorder
  let recorder := inits.foldl (fun (r : Recorder) i =>
    (r.moveMethod i.method.ref dispatcher).recordCall i.method.ref (callChanges argument i isShared)) recorder
  let recorder := (inits.head?.map fun i => recorder.representMethod dispatcher i.method.ref).getD recorder
  let steps := dispatchSteps dispatcher classIdField ((inits.map MemberInit.classId).zip helpers) isShared
  let body ← Outcome.mapError (.synthesize dispatcher) (Assembly.build dispatcher false steps)
  return ({ merge with
    placed := merge.placed ++ (helpers.zip inits).map (fun (h, i) => helperDef h i)
      ++ [{ ref := dispatcher, access := dispatchAccess, code := some (.body body) }]
    synthesized := merge.synthesized ++ [dispatcher]
    usesArgument := merge.usesArgument || isShared || inits.any (·.padding > 0)
    recorder := recorder }, next)

/-- The signatures of all methods of a group after the merge. -/
def takenSignatures (p : Program) (m : MergeMap) (g : MergeGroup) : List Signature :=
  ((g.classes.filterMap p.class?).flatMap ClassDef.methods).map fun d => m.signature d.ref.signature

/-- Merge the initializers of a group. -/
def ofGroup (p : Program) (m : MergeMap) (argument : Descriptor) (g : MergeGroup) (recorder : Recorder) :
    Outcome MergeError InitMerge := do
  match g.target, g.classIdField with
  | some target, some classIdField =>
    let inits := assignProtos m argument (initializers p g)
    let (merge, _) ← (byProto inits).foldlM (fun acc (proto, inits) =>
      mergeProto m target classIdField argument (takenSignatures p m g) acc proto inits) ({ recorder := recorder }, 0)
    return merge
  | _, _ => return { pending := (initializers p g).map Prod.snd, recorder := recorder }

end InitMerge

end DexShrinker
