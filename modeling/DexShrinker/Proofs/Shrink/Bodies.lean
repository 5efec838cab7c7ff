/-
  DexShrinker/Proofs/Shrink/Bodies.lean
  =====================================
  **Every body of a shrunken program can be read.**

  Packing the bodies, merging classes and unboxing enums each leave a program whose bodies
  fit their methods (`Shrink.fit_start`, `Shrink.fit_mergeClasses`,
  `Shrink.ready_unboxEnums`). So if shrinking ends well, every body is packed and unpacks
  against the signature that its method has in the end (`Shrink.unpacks_of_run`). It takes
  bodies that are well formed to begin with: what a body that cannot be read is packed to
  cannot be read either.
-/
import DexShrinker.Proofs.Merging.Bodies
import DexShrinker.Proofs.Unboxing.Bodies
import DexShrinker.Proofs.Unboxing.Resolution
import DexShrinker.Shrink.Run

namespace DexShrinker

/-- The code of the method is well formed: a body that verifies, has blocks and the arguments of its
    method, and names a result only where an operation has one, or a packed body that unpacks to
    some block. -/
def MethodDef.Decodes (m : MethodDef) : Prop :=
  ∀ code, m.code = some code →
    match code with
    | .body c => c.verify = .ok () ∧ c.blocks ≠ [] ∧ c.Each Instr.IsSound ∧ c.arguments.length = m.argumentTypes.length
    | .packed p => p.bytes ≠ [] ∧ ∃ c, p.unpack m.ref m.isStatic m.argumentTypes = .ok c

instance : DecidablePred MethodDef.Decodes := fun m =>
  match h : m.code with
  | none => isTrue fun code hcode => by rw [h] at hcode; cases hcode
  | some (.body c) =>
    decidable_of_iff (c.verify = .ok () ∧ c.blocks ≠ [] ∧ (∀ b ∈ c.blocks, ∀ i ∈ b.body, i.dest.isSome = true → i.op.hasResult = true) ∧
        c.arguments.length = m.argumentTypes.length)
      ⟨fun hc code hcode => by rw [h] at hcode; cases hcode; exact hc, fun hm => hm _ h⟩
  | some (.packed p) =>
    decidable_of_iff (p.bytes ≠ [] ∧ (p.unpack m.ref m.isStatic m.argumentTypes).toOption.isSome = true)
      ⟨fun ⟨hbytes, hp⟩ code hcode => by
        rw [h] at hcode
        cases hcode
        cases hunpack : p.unpack m.ref m.isStatic m.argumentTypes with
        | ok c => exact ⟨hbytes, c, hunpack⟩
        | error e => simp [hunpack, Except.toOption] at hp,
      fun hm => by
        obtain ⟨hbytes, c, hc⟩ := hm _ h
        exact ⟨hbytes, by rw [hc]; rfl⟩⟩

/-- The view of a program whose bodies are written under the present names and fit their methods. -/
structure View.Fit (v : View) : Prop where
  lens : v.codeLens = v.lens
  orderly : v.program.Orderly
  ready : v.program.Each MethodDef.Ready

namespace Shrink

variable {hash : HashOrder} {visits : Nat} {o : Options} {v : View}

/-! ### Packing -/

theorem ready_packMethod {m m' : MethodDef} (h : packMethod m = .ok m') : m'.ref = m.ref ∧ m'.access = m.access ∧ (m.Decodes → m'.Ready) := by
  unfold packMethod at h
  split at h
  · next c hcode =>
    obtain ⟨p, hp, h⟩ := bind_eq_ok.1 h
    cases h
    refine ⟨rfl, rfl, fun hm code hsome => ?_⟩
    cases hsome
    obtain ⟨hverify, hne, hsound, harguments⟩ := hm _ hcode
    exact ⟨rfl, Code.fits_of_pack ⟨(Body.verify_eq_ok_iff.1 hverify).shaped hne, hsound, harguments⟩ (Outcome.mapError_eq_ok.1 hp)⟩
  · next hno =>
    cases h
    refine ⟨rfl, rfl, fun hm code hsome => ?_⟩
    cases code with
    | body c => exact absurd hsome (hno c)
    | packed p =>
      obtain ⟨hbytes, c, hc⟩ := hm _ hsome
      exact ⟨rfl, PackedBody.readable_of_unpack hbytes hc, (PackedBody.unpack_eq_ok_iff.1 hc).1.symm⟩

theorem maps_packAll {p q : Program} (h : packAll p = .ok q) :
    Program.Maps (fun m m' => m'.ref = m.ref ∧ m'.access = m.access ∧ (m.Decodes → m'.Ready)) p q := by
  obtain ⟨⟨q', s⟩, hrun, rfl⟩ := map_eq_ok.1 h
  refine Program.maps_of_mapMethodsM (fun m s m' s' hstep => ?_) hrun
  obtain ⟨d, hd, hstep⟩ := bind_eq_ok.1 hstep
  cases hstep
  exact ready_packMethod hd

/-- The program that passes start from. -/
theorem fit_start {p : Program} {pins : Pins} (hp : p.Orderly) (hcode : p.Each MethodDef.Decodes) (h : start p pins = .ok v) :
    v.Fit ∧ Program.Maps (fun m m' => m'.ref = m.ref ∧ m'.access = m.access ∧ (m.Decodes → m'.Ready)) p v.program := by
  obtain ⟨packed, hpacked, h⟩ := bind_eq_ok.1 h
  obtain ⟨access, -, h⟩ := bind_eq_ok.1 h
  cases h
  have hmaps := maps_packAll hpacked
  exact ⟨⟨rfl, hmaps.orderly (fun _ _ hm => hm.1) hp, hmaps.each (fun _ _ hm => hm.2.2) hcode⟩, hmaps⟩

/-! ### Passes -/

theorem install_spec {p : Program} {lens : Lens} {more : FieldAccess} {w : View} (h : v.install p lens more = .ok w) :
    w.program = p ∧ w.lens = lens ∧ w.codeLens = v.codeLens := by
  obtain ⟨w', hw', h⟩ := bind_eq_ok.1 h
  cases h
  obtain ⟨pins, -, hw'⟩ := bind_eq_ok.1 hw'
  obtain ⟨access, -, hw'⟩ := bind_eq_ok.1 hw'
  cases hw'
  exact ⟨rfl, rfl, rfl⟩

/-- **Merging classes.** -/
theorem fit_mergeClasses (hv : v.program.Regular) (hinit : v.program.InitializersOfInstances) (hfit : v.Fit) {w : View} {report : MergeReport}
    (h : mergeClasses hash o v = .ok (w, report)) : w.Fit := by
  unfold mergeClasses at h
  obtain ⟨r, hr, h⟩ := bind_eq_ok.1 h
  split at h
  · cases h
    exact hfit
  · next hne =>
    obtain ⟨v', hv', h⟩ := bind_eq_ok.1 h
    obtain ⟨⟨q, stats⟩, hq, h⟩ := bind_eq_ok.1 h
    cases h
    obtain ⟨n, hcrosses, horderly, hawaits⟩ := Merging.awaits_of_run hv hfit.orderly hinit hfit.ready (Outcome.mapError_eq_ok.1 hr)
      (Bool.eq_false_iff.2 hne)
    obtain ⟨hprogram, hlens, hcodeLens⟩ := install_spec (Outcome.lift_eq_ok.1 hv')
    have hmaps := View.maps_of_updateCode (by rw [hlens, hcodeLens, hfit.lens]; exact hcrosses) (Outcome.mapError_eq_ok.1 hq)
    rw [hprogram] at hmaps
    exact ⟨rfl, hmaps.orderly (fun _ _ hm => hm.1) horderly, hmaps.each (fun _ _ hm => hm.2.2) hawaits⟩

theorem forall₂_attach (known : MethodMap InitSummary) (ms : List MethodDef) :
    List.Forall₂ (fun m m' => m'.ref = m.ref ∧ m'.access = m.access ∧ m'.code = m.code) ms (InitSummary.attach known ms) := by
  induction ms generalizing known with
  | nil => exact .nil
  | cons m ms ih =>
    unfold InitSummary.attach
    split
    · exact .cons ⟨rfl, rfl, rfl⟩ (ih _)
    · exact .cons ⟨rfl, rfl, rfl⟩ (ih _)

/-- Summaries leave the methods as they are. -/
theorem maps_summarizeInitializers {p q : Program} (h : p.summarizeInitializers = .ok q) :
    Program.Maps (fun m m' => m'.ref = m.ref ∧ m'.access = m.access ∧ m'.code = m.code) p q := by
  have hself (c : ClassDef) : Program.MapsClass (fun m m' => m'.ref = m.ref ∧ m'.access = m.access ∧ m'.code = m.code) c c :=
    ⟨rfl, rfl, rfl, rfl, fun _ => rfl, fun _ => List.forall₂_same.2 fun _ _ => ⟨rfl, rfl, rfl⟩⟩
  refine foldlM_preserves (P := Program.Maps (fun m m' => m'.ref = m.ref ∧ m'.access = m.access ∧ m'.code = m.code) p)
    (fun out c hc out' hout hstep => ?_) (fun d hd => ⟨d, hd, hself d⟩) h
  obtain ⟨d, hd, hstep⟩ := bind_eq_ok.1 hstep
  cases hstep
  obtain ⟨bodies, -, hd⟩ := bind_eq_ok.1 hd
  obtain ⟨known, -, hd⟩ := bind_eq_ok.1 hd
  cases hd
  obtain ⟨hc, hprogram⟩ := List.mem_filter.1 (List.mem_filter.1 hc).1
  intro e he
  rw [Program.mem_classes, Program.class?_insert] at he
  split at he
  · cases he
    refine ⟨c, hc, rfl, rfl, rfl, rfl, fun hlib => ?_, fun _ => forall₂_attach known c.methods⟩
    rw [Program.isLibrary_eq, hprogram] at hlib
    cases hlib
  · exact hout e (Program.mem_classes.2 he)

/-- **Unboxing enums.** -/
theorem ready_unboxEnums (hfit : v.Fit) {w : View} {report : UnboxingReport} (h : unboxEnums o v = .ok (w, report)) :
    w.program.Each MethodDef.Ready := by
  replace h := Outcome.mapError_eq_ok.1 h
  obtain ⟨p, hp, h⟩ := bind_eq_ok.1 h
  have hsummarized := maps_summarizeInitializers hp
  have hready : p.Each MethodDef.Ready := hsummarized.each (fun m m' ⟨href, haccess, hcode⟩ hm code hsome => by
    rw [MethodDef.argumentTypes, MethodDef.isStatic, href, haccess]
    exact hm code (hcode ▸ hsome)) hfit.ready
  have horderly := hsummarized.orderly (fun _ _ hm => hm.1) hfit.orderly
  obtain ⟨r, hr, h⟩ := bind_eq_ok.1 h
  split at h
  · cases h
    exact hready
  · next hne =>
    obtain ⟨v', hv', h⟩ := bind_eq_ok.1 h
    obtain ⟨⟨q, stats⟩, hq, h⟩ := bind_eq_ok.1 h
    cases h
    obtain ⟨n, u, hcrosses, hu, hawaits⟩ := Unboxing.awaits_of_run (v := { v with program := p }) horderly hready hr (Bool.eq_false_iff.2 hne)
    obtain ⟨hprogram, hlens, hcodeLens⟩ := install_spec (Outcome.lift_eq_ok.1 hv')
    have hcrosses : (⟨v'.lens, v'.codeLens⟩ : Update).Crosses n := by
      rw [hlens, hcodeLens]
      change (⟨r.lens, v.codeLens⟩ : Update).Crosses n
      rw [hfit.lens]
      exact hcrosses
    have hmaps := UnboxingResult.maps_of_updateCode hu hcrosses hq
    rw [hprogram] at hmaps
    exact hmaps.each (fun _ _ hm => hm.2.2) hawaits

/-- What a pass that is switched on or off preserves. -/
theorem runPass_preserves {ρ : Type} {P Q : View → Prop} {input : Program} {isOn : Bool} {pass : Pass}
    {step : Options → View → Outcome ShrinkError (View × ρ)} {nothing report : ρ} (hstep : ∀ v w report, P v → step o v = .ok (w, report) → Q w)
    (hskip : ∀ v, P v → Q v) (hv : P v) {w : View} (h : runPass o input isOn pass step nothing v = .ok (w, report)) : Q w := by
  unfold runPass at h
  split at h
  · obtain ⟨⟨w', report'⟩, hw', h⟩ := bind_eq_ok.1 h
    obtain ⟨-, h⟩ := check_bind_eq_ok.1 h
    cases h
    exact hstep v w report hv hw'
  · cases h
    exact hskip v hv

/-- **Every body of a shrunken program can be read.** -/
theorem unpacks_of_run {p : Program} {pins : Pins} (hp : p.Regular) (hhoused : p.Housed)
    (hinit : p.Each fun m => m.isInstanceInitializer = true → m.isStatic = false)
    (hclinit : p.Each fun m => m.isClassInitializer = true → m.ref.proto = .void) (hcode : p.Each MethodDef.Decodes)
    {s : Shrunk} (h : run hash visits o p pins = .ok s) {c : ClassDef} (hc : c ∈ s.program.programClasses) {m : MethodDef} (hm : m ∈ c.methods) {code : Code}
    (hsome : m.code = some code) :
    ∃ q, code = .packed q ∧ q.argumentCount = m.argumentTypes.length ∧ (q.argumentCount + q.instructionCount ≤ UInt32.size →
      ∃ b, q.unpack m.ref m.isStatic m.argumentTypes = .ok b) := by
  have horderly : p.Orderly := ⟨fun c hc => hp.isClass c (Program.mem_classes_of_mem_programClasses hc), hhoused, hclinit⟩
  obtain ⟨v, hv, h⟩ := bind_eq_ok.1 h
  obtain ⟨⟨v₁, merging⟩, hmerge, h⟩ := bind_eq_ok.1 h
  obtain ⟨⟨v₂, unboxing⟩, hunbox, h⟩ := bind_eq_ok.1 h
  have hs : s.program = v₂.program := by
    dsimp only at h
    split at h <;> (obtain ⟨states, -, h⟩ := bind_eq_ok.1 h; cases h; rfl)
  rw [hs] at hc
  obtain ⟨hfit, hmaps⟩ := fit_start horderly hcode (Outcome.mapError_eq_ok.1 hv)
  have hinit' : v.program.InitializersOfInstances := hmaps.each (fun m m' hm hold hyes => by
    rw [MethodDef.isStatic, hm.2.1]
    refine hold ?_
    rwa [MethodDef.isInstanceInitializer, hm.1] at hyes) hinit
  have hmerged : v₁.Fit := runPass_preserves (P := fun v => v.program.Regular ∧ v.program.InitializersOfInstances ∧ v.Fit)
    (fun _ _ _ hv hstep => fit_mergeClasses hv.1 hv.2.1 hv.2.2 hstep) (fun _ hv => hv.2.2) ⟨hmaps.regular hp, hinit', hfit⟩ hmerge
  have hready : v₂.program.Each MethodDef.Ready := runPass_preserves (P := View.Fit) (fun _ _ _ hv hstep => ready_unboxEnums hv hstep)
    (fun _ hv => hv.ready) hmerged hunbox
  obtain ⟨hpacked, hfits⟩ := hready c hc m hm code hsome
  cases code with
  | body b => cases hpacked
  | packed q =>
    obtain ⟨hreadable, hcount⟩ := hfits
    exact ⟨q, rfl, hcount, fun hsize => hreadable.unpacks hsize m.ref m.isStatic m.argumentTypes hcount.symm⟩

/-! ### Merging two classes

`A` and `B` become one class, whose initializer calls that of `A` or that of `B`. -/

namespace Pair

def type (name : String) : Descriptor := .ofBinaryName ("p/" ++ name)

def object : ClassDef := { type := .object, kind := .library, superclass := none }

def initializer (holder : String) : MethodRef := ⟨type holder, MethodRef.initName, .void⟩

def initializerBody (holder : String) : Body where
  method := initializer holder
  isStatic := false
  arguments := [0]
  values := [⟨type holder, .argument 0⟩]
  blocks := [{
    body := [⟨none, .invoke .direct ⟨.object, MethodRef.initName, .void⟩ [0] false, 1⟩]
    terminator := .ret none }]

def maker : MethodRef := ⟨type "C", "make", ⟨type "B", []⟩⟩

def makerBody : Body where
  method := maker
  isStatic := true
  arguments := []
  values := [⟨type "B", .instruction⟩]
  blocks := [{
    body := [⟨some 0, .newInstance (type "B"), 1⟩, ⟨none, .invoke .direct (initializer "B") [0] false, 1⟩]
    terminator := .ret (some 0) }]

def classWith (name : String) (method : MethodRef) (access : AccessFlags) (body : Body) : ClassDef where
  type := type name
  superclass := some .object
  methods := [{ ref := method, access := access, code := some (.body body) }]

def program : Program :=
  .ofList [object, classWith "A" (initializer "A") (.publicFlag ||| .constructorFlag) (initializerBody "A"),
    classWith "B" (initializer "B") (.publicFlag ||| .constructorFlag) (initializerBody "B"),
    classWith "C" maker (.publicFlag ||| .staticFlag) makerBody]

theorem regular : program.Regular where
  isClass := by decide

theorem housed : program.Housed := by
  unfold Program.Housed
  decide

theorem decodes : program.Each MethodDef.Decodes := by
  unfold Program.Each
  decide

def isShort (m : MethodDef) : Bool :=
  match m.code with
  | some (.packed q) => q.argumentCount + q.instructionCount ≤ UInt32.size
  | _ => true

/-- The methods after shrinking, and whether all of them are short. -/
def outcome : Option (List String × Bool) :=
  (run .inserted 100 {} program {}).toOption.map fun s =>
    let methods := s.program.programClasses.flatMap ClassDef.methods
    (methods.map (·.ref.name), methods.all isShort)

end Pair

theorem unpacks_of_run_pair :
    ∃ s, run .inserted 100 {} Pair.program {} = .ok s ∧
      (s.program.programClasses.flatMap ClassDef.methods).map (·.ref.name) = ["constructor$0", "constructor$1", "<init>", "make"] ∧
      ∀ c ∈ s.program.programClasses, ∀ m ∈ c.methods, ∀ code, m.code = some code →
        ∃ q b, code = .packed q ∧ q.unpack m.ref m.isStatic m.argumentTypes = .ok b := by
  have houtcome : Pair.outcome = some (["constructor$0", "constructor$1", "<init>", "make"], true) := by decide +kernel
  obtain ⟨s, hs, houtcome⟩ := Option.map_eq_some_iff.1 houtcome
  obtain ⟨hnames, hshort⟩ := Prod.mk.inj houtcome
  have hrun := toOption_eq_some.1 hs
  refine ⟨s, hrun, hnames, fun c hc m hm code hcode => ?_⟩
  obtain ⟨q, rfl, -, hunpack⟩ := unpacks_of_run Pair.regular Pair.housed (by unfold Program.Each; decide +kernel)
    (by unfold Program.Each; decide +kernel) Pair.decodes hrun hc hm hcode
  have hm' := List.all_eq_true.1 hshort m (List.mem_flatMap.2 ⟨c, hc, hm⟩)
  rw [Pair.isShort, hcode] at hm'
  obtain ⟨b, hb⟩ := hunpack (of_decide_eq_true hm')
  exact ⟨q, b, rfl, hb⟩

/-! ### Bodies that cannot be read

Packing drops the result of a call that has none, and says nothing of a body without blocks. The method that
takes the place of an initializer belongs to instances, even if the initializer did not, and the class
initializer of an enum that becomes a number has no arguments, even if it used to have some. The bodies of
library classes are not packed at all. If a class is called like the type of no value, a method that returned
something may come to return nothing, and if classes list initializers of others, two of them may get one name,
so that the parameters that one was padded with go to the body of the other. -/

namespace Unreadable

/-- The call passes the arguments of the signature it names. -/
def passesAll : Op → Bool
  | .invoke kind m args _ => args.length == (m.argumentTypes (kind == .static)).length
  | _ => true

/-- The instructions, and the terminator after them, read only what is defined before, and define nothing again. -/
def isOrdered (terminator : Terminator) (defined : List ValueId) : List Instr → Bool
  | [] => terminator.reads.all defined.contains
  | i :: is =>
    i.op.reads.all defined.contains && i.dest.all (!defined.contains ·) && isOrdered terminator (i.dest.toList ++ defined) is

/-- The body verifies, has as many arguments, is at most one block in single-assignment form and calls methods with all arguments. -/
def isPlainBody (arity : Nat) (c : Body) : Bool :=
  decide (c.verify = .ok ()) && c.arguments.length == arity && decide (c.blocks.length ≤ 1) &&
    c.blocks.all fun b => b.phis.isEmpty && b.body.all (passesAll ·.op) && isOrdered b.terminator c.arguments b.body

/-- The body, if there is one, is plain or can be unpacked to a plain one. -/
def isPlain (m : MethodDef) : Bool :=
  match m.code with
  | some (.body c) => isPlainBody m.argumentTypes.length c
  | some (.packed q) => (q.unpack m.ref m.isStatic m.argumentTypes).toOption.any (isPlainBody m.argumentTypes.length)
  | none => true

/-- The body is packed and can be unpacked. -/
def isReadable (m : MethodDef) : Bool :=
  match m.code with
  | some (.packed q) => (q.unpack m.ref m.isStatic m.argumentTypes).toOption.isSome
  | some (.body _) => false
  | none => true

/-- Shrinking ends well and leaves a body that is not packed or cannot be unpacked. -/
def Left (p : Program) : Prop :=
  ∃ s, run .inserted 100 { propagatesArguments := false } p {} = .ok s ∧ ∃ c ∈ s.program.classes, ∃ m ∈ c.methods, ∃ code, m.code = some code ∧
    ∀ q, code = .packed q → ¬ ∃ b, q.unpack m.ref m.isStatic m.argumentTypes = .ok b

def isLeft (p : Program) : Bool :=
  (run .inserted 100 { propagatesArguments := false } p {}).toOption.any fun s => s.program.classes.any fun c => c.methods.any fun m => !isReadable m

theorem left_of_isLeft {p : Program} (h : isLeft p = true) : Left p := by
  obtain ⟨s, hs, h⟩ := (Option.any_eq_true _ _).1 h
  obtain ⟨c, hc, h⟩ := List.any_eq_true.1 h
  obtain ⟨m, hm, h⟩ := List.any_eq_true.1 h
  refine ⟨s, toOption_eq_some.1 hs, c, hc, m, hm, ?_⟩
  rw [isReadable, Bool.not_eq_true'] at h
  split at h
  · next q hcode =>
    refine ⟨_, hcode, fun q' hq' ⟨b, hb⟩ => ?_⟩
    cases hq'
    rw [hb] at h
    cases h
  · next body hcode => exact ⟨_, hcode, fun q hq => by cases hq⟩
  · cases h

/-- A call without a result defines a value. -/
def valued : Body where
  method := ⟨Pair.type "A", "f", .int, []⟩
  isStatic := true
  arguments := []
  values := [⟨.int, .instruction⟩]
  blocks := [{
    body := [⟨some 0, .invoke .static ⟨Pair.type "A", "g", .void⟩ [] false, 1⟩]
    terminator := .ret (some 0) }]

def blockless : Body where
  method := ⟨Pair.type "A", "f", .void⟩
  isStatic := true
  arguments := []
  values := []
  blocks := []

/-- A body that returns at once. -/
def returning (method : MethodRef) : Body where
  method := method
  isStatic := true
  arguments := []
  values := []
  blocks := [{ terminator := .ret none }]

/-- A static method of `A`. -/
def alone (body : Body) : Program :=
  .ofList [Pair.object, Pair.classWith "A" body.method (.publicFlag ||| .staticFlag) body]

/-- Two classes with static initializers. -/
def staticInitializers : Program :=
  .ofList [Pair.object, Pair.classWith "A" (Pair.initializer "A") (.publicFlag ||| .staticFlag) (returning (Pair.initializer "A")),
    Pair.classWith "B" (Pair.initializer "B") (.publicFlag ||| .staticFlag) (returning (Pair.initializer "B"))]

/-- A library class with a body. -/
def library : Program :=
  .ofList [Pair.object, { Pair.classWith "A" ⟨Pair.type "A", "f", .void⟩ (.publicFlag ||| .staticFlag) (returning ⟨Pair.type "A", "f", .void⟩) with
    kind := .library }]

def counter : FieldRef := ⟨Pair.type "E", "x", .int⟩

/-- The class initializer of an enum, with an argument that it stores. -/
def storing : Body where
  method := ⟨Pair.type "E", MethodRef.clinitName, .void, [.int]⟩
  isStatic := true
  arguments := [0]
  values := [⟨.int, .argument 0⟩, ⟨Pair.type "E", .instruction⟩, ⟨.string, .instruction⟩, ⟨.int, .instruction⟩]
  blocks := [{
    body := [⟨some 1, .newInstance (Pair.type "E"), 1⟩, ⟨some 2, .constString "A", 1⟩, ⟨some 3, .constInt 0, 1⟩,
      ⟨none, .invoke .direct Unboxing.Inherited.initializer [1, 2, 3] false, 1⟩,
      ⟨none, .staticPut Unboxing.Inherited.constantField 1, 1⟩, ⟨none, .staticPut counter 0, 1⟩]
    terminator := .ret none }]

/-- The library classes, an enum with the given class initializer, and other classes. -/
def withEnum (classInitializer : Body) (classes : List ClassDef) : Program :=
  .ofList (Pair.object :: { type := .enumBase, kind := .library, access := .publicFlag ||| .abstractFlag, superclass := some .object } ::
    { type := Pair.type "E"
      access := .publicFlag ||| .finalFlag ||| .enumFlag
      superclass := some .enumBase
      fields := [{ ref := Unboxing.Inherited.constantField, access := .publicFlag ||| .staticFlag ||| .finalFlag ||| .enumFlag },
        { ref := counter, access := .publicFlag ||| .staticFlag }]
      methods := [{ ref := classInitializer.method, access := .staticFlag, code := some (.body classInitializer) },
        { ref := Unboxing.Inherited.initializer
          access := .privateFlag ||| .constructorFlag
          code := some (.body Unboxing.Inherited.initializerBody) }] } :: classes)

def storingEnum : Program := withEnum storing []

/-- A packed body without instructions, of a method that gets another signature. -/
def emptied : Program :=
  withEnum Unboxing.Inherited.classInitializerBody [
    { type := Pair.type "C"
      superclass := some .object
      methods := [{
        ref := ⟨Pair.type "C", "f", .void, [Pair.type "E"]⟩
        access := .publicFlag ||| .staticFlag
        code := some (.packed ⟨[], [], 1, 1, [], ∅⟩) }] }]

/-- An initializer of `X`. -/
def borrowed (parameters : List Descriptor) (hasBody : Bool) : MethodDef where
  ref := ⟨Pair.type "X", MethodRef.initName, .void, parameters⟩
  access := .publicFlag ||| .constructorFlag
  code := if hasBody then some (.body {
      method := ⟨Pair.type "X", MethodRef.initName, .void, parameters⟩
      isStatic := false
      arguments := List.range (parameters.length + 1)
      values := (Pair.type "X" :: parameters).zipIdx.map fun x => ⟨x.1, .argument x.2⟩
      blocks := [{ terminator := .ret none }] }) else none

/-- The initializer that `B` lists gets the name that the first one of `C` is padded to. -/
def borrowing : Program :=
  withEnum Unboxing.Inherited.classInitializerBody [
    { type := Pair.type "B"
      superclass := some .object
      methods := [borrowed [Pair.type "E", Pair.type "$$EnumUnboxingSharedUtility"] true] },
    { type := Pair.type "C"
      access := .publicFlag ||| .abstractFlag
      superclass := some .object
      methods := [borrowed [Pair.type "E"] false, borrowed [.int] false] }]

/-- A method that returns a boolean. -/
def decider : MethodRef := ⟨⟨"LC;"⟩, "g", ⟨"Z"⟩, []⟩

def deciding : Body where
  method := ⟨⟨"LC;"⟩, "f", ⟨"Z"⟩, []⟩
  isStatic := true
  arguments := []
  values := [⟨⟨"Z"⟩, .instruction⟩]
  blocks := [{
    body := [⟨some 0, .invoke .static decider [] false, 1⟩]
    terminator := .ret (some 0) }]

/-- A class that is called like the booleans goes to one that is called like the type of no value. -/
def primitive : Program :=
  .ofList [Pair.object, { type := .void, superclass := some .object }, { type := ⟨"Z"⟩, superclass := some .object },
    { type := ⟨"LC;"⟩
      access := .publicFlag ||| .abstractFlag
      superclass := some .object
      methods := [{ ref := decider, access := .publicFlag ||| .staticFlag, code := none },
        { ref := deciding.method, access := .publicFlag ||| .staticFlag, code := some (.body deciding) }] }]

/-- All bodies of the program are plain, and one of them cannot be read after shrinking. -/
def Fails (p : Program) : Prop := (∀ c ∈ p.classes, ∀ m ∈ c.methods, isPlain m = true) ∧ Left p

theorem fails_of_isLeft {p : Program} (h : (∀ c ∈ p.classes, ∀ m ∈ c.methods, isPlain m = true) ∧ isLeft p = true) : Fails p :=
  ⟨h.1, left_of_isLeft h.2⟩

end Unreadable

/-- **What the input has to be.** Well-formed bodies in single-assignment form are not enough. -/
theorem unreadable_left :
    Unreadable.Fails (Unreadable.alone Unreadable.valued) ∧ Unreadable.Fails (Unreadable.alone Unreadable.blockless) ∧
      Unreadable.Fails Unreadable.staticInitializers ∧ Unreadable.Fails Unreadable.storingEnum ∧
      Unreadable.Fails Unreadable.library ∧ Unreadable.Fails Unreadable.primitive ∧ Unreadable.Fails Unreadable.borrowing ∧
      Unreadable.Fails Unreadable.emptied := by
  refine ⟨?_, ?_, ?_, ?_, ?_, ?_, ?_, ?_⟩
  all_goals exact Unreadable.fails_of_isLeft (by decide +kernel)

end Shrink

end DexShrinker
