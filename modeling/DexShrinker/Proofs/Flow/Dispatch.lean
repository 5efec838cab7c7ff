/-
  DexShrinker/Proofs/Flow/Dispatch.lean
  =====================================
  **Which methods get the arguments of a call.**

  The scan files a call under the method that its reference resolves to, apart for every bound on
  a receiver where other methods override that one. Dispatch takes what is filed on. Calls of a
  method are taken to the method itself and to those that override it (`Dispatch.TakenTo`): these
  are looked for below the class that declares the method, and if the class of the receiver is
  not known also below the class that the call names.

  A method that a receiver runs and that calls are taken to has the states of the arguments in
  the end, whatever else is called before or after; to other methods nothing is taken
  (`Dispatch.join_of_takenTo`). So implementations are missed that a class inherits from a
  superclass which is not below the interface (`Dispatch.inherited_missed`).
-/
import DexShrinker.Proofs.Flow.Absorption
import DexShrinker.Proofs.Flow.Reaching

namespace DexShrinker

namespace Program

variable {p : Program}

/-- **What overrides a method.** -/
theorem mem_overrides (hhoused : p.Housed) {m t : MethodDef} :
    t ∈ p.overrides m ↔ (∃ c, p.ownClass? t.ref.holder = some c ∧ c.methodBySignature? m.ref.signature = some t) ∧
      Relation.TransGen p.NamesSuper t.ref.holder m.ref.holder ∧ t.isVirtual = true ∧ t.isAbstract = false := by
  rw [overrides, List.mem_filterMap]
  constructor
  · rintro ⟨c, hc, ht⟩
    obtain ⟨s, hs, hown⟩ := List.mem_filterMap.1 hc
    obtain ⟨ht, hbody⟩ := Option.filter_eq_some_iff.1 ht
    obtain ⟨hclass, -⟩ := Option.filter_eq_some_iff.1 hown
    have htype := Program.type_of_class? hclass
    have hholder : t.ref.holder = s := by
      rw [← htype]
      exact hhoused c (mem_classes.2 (htype ▸ hclass)) t (List.mem_of_find?_eq_some ht)
    rw [hholder]
    exact ⟨⟨c, hown, ht⟩, mem_subtypes.1 hs, by simpa using hbody⟩
  · rintro ⟨⟨c, hown, ht⟩, hbelow, hvirtual, hbody⟩
    refine ⟨c, List.mem_filterMap.2 ⟨_, mem_subtypes.2 hbelow, hown⟩, ?_⟩
    exact Option.filter_eq_some_iff.2 ⟨ht, by simp [hvirtual, hbody]⟩

end Program

/-! ### What calls pass -/

namespace ValueState

variable {j : Joiner} {a : ValueState}

/-- What is known on the spot, and the source that it comes from, if any; `Simple` once it is widened. -/
def Told (j : Joiner) : ValueState → Prop
  | bottom => False
  | unknown => True
  | concrete s => s.known.Simple ∧ s.inFlow.union s.inFlow = s.inFlow ∧ s.inFlow.length ≤ j.maxInFlow

theorem told_ofKnowledge {k : Knowledge} (hk : k.Simple) : (ofKnowledge k []).Told j := by
  unfold ofKnowledge
  split
  · trivial
  · exact ⟨hk, rfl, Nat.zero_le _⟩

theorem told_ofInFlow (hj : 0 < j.maxInFlow) (static : Descriptor) (f : InFlow) : (ofInFlow static f).Told j := by
  refine ⟨?_, ?_, hj⟩
  · change (bottomKnowledge static).Simple
    unfold bottomKnowledge
    split
    · trivial
    · split <;> trivial
  · exact InFlows.ofList_congr (b := [f]) fun g => by simp

theorem Told.toReceiver (h : a.Told j) : a.toReceiver.Told j := by
  unfold ValueState.toReceiver
  split
  · next v d flows =>
    dsimp only
    split
    · trivial
    · exact ⟨trivial, h.2⟩
  · exact h

theorem Told.widen (h : a.Told j) (p : Program) (static : Descriptor) : (a.widen p static).Simple j := by
  cases a with
  | bottom => exact h
  | unknown => trivial
  | concrete s =>
    obtain ⟨hsimple, hflows, hlength⟩ := h
    have hwiden : (s.known.widen p static).Simple := by
      obtain ⟨known, flows⟩ := s
      cases known <;> exact hsimple
    rw [ValueState.widen, ofKnowledge]
    split
    · trivial
    · next hknown => exact ⟨hwiden, by simpa using hknown, hflows, hlength⟩

end ValueState

namespace MethodState

theorem simple_ofArguments {j : Joiner} {arguments : List ValueState} (h : ∀ a ∈ arguments, a.Simple j) :
    (ofArguments arguments).Simple j := by
  unfold ofArguments
  split
  · trivial
  · next hall => exact ⟨h, by simpa using hall⟩

end MethodState

namespace Scan.Site

variable {j : Joiner} {s : Site} {static : Descriptor} {op : Op} {v : ValueId} {state : ValueState}

/-- What an operation tells about its value. -/
inductive Tells (static : Descriptor) : Op → ValueState → Prop
  | nothing {op : Op} : Tells static op .unknown
  | flow {op : Op} (f : InFlow) : Tells static op (.ofInFlow static f)
  | integer {op : Op} (n : Int64) : Tells static op (.primitive (.single n))
  | string {op : Op} (t : String) : Tells static op (.object (.string t) (.exact .string))
  | new {op : Op} (t : Descriptor) : Tells static op (.object .unknown (.exact t))
  | newArray {op : Op} : Tells static op (.array .definitelyNotNull)
  | null : Tells static .constNull (.object .null (.below static .definitelyNull))
  | nullArray : Tells static .constNull (.array .definitelyNull)

theorem tells_definedState (h : s.definedState static op = .ok state) : Tells static op state := by
  cases op with
  | constInt n | constLong n =>
    cases h
    split
    · exact .integer _
    · exact .nothing
  | constNull =>
    cases h
    split
    · exact .nullArray
    · split
      · exact .null
      · exact .nothing
  | constString t =>
    cases h
    exact .string t
  | newInstance t =>
    cases h
    exact .new t
  | newArray =>
    cases h
    exact .newArray
  | checkCast t v =>
    obtain ⟨x, -, h⟩ := bind_eq_ok.1 h
    cases x <;> cases h
    · exact .nothing
    · exact .flow _
  | binary operator t lhs rhs =>
    cases operator with
    | or =>
      rw [definedState_or] at h
      obtain ⟨x, -, h⟩ := bind_eq_ok.1 h
      cases x with
      | some f =>
        cases h
        exact .flow _
      | none =>
        obtain ⟨y, -, h⟩ := bind_eq_ok.1 h
        cases y <;> cases h
        · exact .nothing
        · exact .flow _
    | _ =>
      cases h
      exact .nothing
  | instanceGet f object =>
    change (if (s.program.field? f).isNone = true then pure .unknown else _) = Except.ok state at h
    split at h
    · cases h
      exact .nothing
    · obtain ⟨x, -, h⟩ := bind_eq_ok.1 h
      cases x <;> cases h
      · exact .nothing
      · exact .flow _
  | staticGet f =>
    cases h
    split
    · exact .flow _
    · exact .nothing
  | _ =>
    cases h
    exact .nothing

theorem Tells.told (h : Tells static op state) (hj : 0 < j.maxInFlow) : state.Told j := by
  cases h with
  | nothing => trivial
  | flow f => exact ValueState.told_ofInFlow hj static f
  | integer | string | new | newArray | null | nullArray => exact ValueState.told_ofKnowledge trivial

/-- Only a constant tells that a value is null. -/
theorem tells_argumentState (h : s.argumentState v static = .ok state) :
    ∃ op, Tells static op state ∧ (op = .constNull → s.definitions[v]? = some .constNull) := by
  obtain ⟨x, -, h⟩ := bind_eq_ok.1 h
  cases x with
  | some y =>
    cases h
    exact ⟨.constInt 0, .flow _, by simp⟩
  | none =>
    dsimp only at h
    split at h
    · next op hop => exact ⟨op, tells_definedState h, fun heq => heq ▸ hop⟩
    · cases h
      exact ⟨.constInt 0, .nothing, by simp⟩

theorem simple_argumentStates {target : MethodDef} {args : List ValueId} {arguments : List ValueState}
    (h : s.argumentStates target args = .ok arguments) (hj : 0 < j.maxInFlow) : ∀ a ∈ arguments, a.Simple j := by
  intro a ha
  obtain ⟨x, -, hmake⟩ := exists_of_mem_left (mapM_eq_ok_iff.1 h).flip ha
  obtain ⟨given, hgiven, hmake⟩ := bind_eq_ok.1 hmake
  obtain ⟨op, htells, -⟩ := tells_argumentState hgiven
  have htold := htells.told hj
  cases hmake
  refine ValueState.Told.widen ?_ _ _
  split
  · exact htold.toReceiver
  · exact htold

/-- The bound of a receiver that nothing is known about. -/
def defaultBound (m : MethodRef) (target : MethodDef) : DynamicType :=
  (DynamicType.below m.holder .definitelyNotNull).widenReceiver target.ref.holder

theorem defaultBound_eq (m : MethodRef) (target : MethodDef) :
    defaultBound m target = if m.holder = target.ref.holder then .unknown else .below m.holder .definitelyNotNull := by
  simp [defaultBound, DynamicType.below, DynamicType.widenReceiver]

theorem receiverBound_of_tells {kind : InvokeKind} (hkind : kind = .virtual ∨ kind = .interface) {p : Program} {m : MethodRef}
    {target : MethodDef} (h : Tells target.ref.holder op state) (hop : op ≠ .constNull) :
    receiverBound kind m target (state.toReceiver.widen p target.ref.holder) = defaultBound m target ∨
      ∃ t, receiverBound kind m target (state.toReceiver.widen p target.ref.holder) = .exact t := by
  have hflow (f : InFlow) : receiverBound kind m target ((ValueState.ofInFlow target.ref.holder f).toReceiver.widen p target.ref.holder) =
      defaultBound m target := by
    rw [ValueState.ofInFlow, ValueState.bottomKnowledge]
    split
    · rcases hkind with rfl | rfl <;> rfl
    · split <;> rcases hkind with rfl | rfl <;> rfl
  cases h with
  | flow f => exact .inl (hflow f)
  | string | new => exact .inr (by rcases hkind with rfl | rfl <;> exact ⟨_, rfl⟩)
  | null | nullArray => exact absurd rfl hop
  | nothing | integer | newArray => exact .inl (by rcases hkind with rfl | rfl <;> rfl)

end Scan.Site

/-! ### Calls of instance methods -/

/-- The class of a receiver with the bound may be `t`. -/
def DynamicType.Admits (p : Program) (t : Descriptor) : DynamicType → Prop
  | bottom => False
  | bounded s isExact _ => if isExact then t = s else p.isSubtype t s = true
  | unknown => True

/-- A call that is dispatched from a method fits it: it passes as many arguments as the method
    has, and its receiver is not null. -/
structure Body.Dispatches (p : Program) (b : Body) (kind : InvokeKind) (m : MethodRef) (args : List ValueId) (target : MethodDef) :
    Prop where
  kind : kind = .virtual ∨ kind = .interface
  resolves : p.resolveMethod m = .ok (some target)
  own : (p.ownClass? target.ref.holder).isSome
  isInstance : target.isStatic = false
  arity : target.argumentTypes.length = args.length
  notNull : ∀ v, args.head? = some v → ¬ b.Defines v .constNull

namespace Scan.Site

variable {j : Joiner} {b : Body} {kind : InvokeKind} {m : MethodRef} {args : List ValueId} {target : MethodDef}

/-- What a call leaves with the method that its reference resolves to. -/
def filed (p : Program) (kind : InvokeKind) (m : MethodRef) (target : MethodDef) (arguments : List ValueState) : MethodState :=
  if target.isVirtual && !(p.overrides target).isEmpty then
    .ofBound (receiverBound kind m target (arguments.headD .unknown)) (.ofArguments arguments)
  else .ofArguments arguments

theorem argumentTypes_of_isInstance (h : target.isStatic = false) :
    target.argumentTypes = target.ref.holder :: target.ref.proto.parameters := by
  rw [MethodDef.argumentTypes, MethodRef.argumentTypes, h]
  rfl

theorem notArray_of_resolves {p : Program} (hp : p.Regular) (h : p.resolveMethod m = .ok (some target)) :
    m.holder.isArray = false := by
  obtain ⟨c, hc⟩ := Program.exists_class_of_resolveMethod h
  have htype := Program.type_of_class? hc
  rw [← htype] at hc ⊢
  exact hp.notArray c (Program.mem_classes.2 hc)

theorem invoke_of_dispatches (hp : j.program.Regular) (hcall : b.Dispatches j.program kind m args target) (states : FlowStates) :
    (ofBody j b).invoke states kind m args = (do
      let arguments ← (ofBody j b).argumentStates target args
      return { states with methods := ← states.methods.add j target.ref (filed j.program kind m target arguments) }) := by
  have hargs : args ≠ [] := by
    rintro rfl
    have harity := hcall.arity
    simp [argumentTypes_of_isInstance hcall.isInstance] at harity
  have htarget : (ofBody j b).ownTarget? m = .ok (some target) := by
    have hresolves : (ofBody j b).program.resolveMethod m = .ok (some target) := hcall.resolves
    rw [ownTarget?, hresolves, ok_bind]
    exact congrArg Except.ok (Option.filter_some_pos hcall.own)
  have hnull : (!target.isStatic && (args.head?.bind ((ofBody j b).definitions[·]?)) == some .constNull) = false := by
    rw [hcall.isInstance, Bool.not_false, Bool.true_and, beq_eq_false_iff_ne]
    intro heq
    obtain ⟨v, hv, hop⟩ := Option.bind_eq_some_iff.1 heq
    exact hcall.notNull v hv (defines_of_definitions hop)
  have hfits : (target.argumentTypes.length == args.length && target.isStatic == (kind == .static)) = true := by
    rcases hcall.kind with rfl | rfl <;> simp [hcall.arity, hcall.isInstance]
  unfold invoke
  rw [if_neg (by simp [hargs, notArray_of_resolves hp hcall.resolves])]
  simp only [htarget, ok_bind, hfits, hnull]
  rfl

/-- **The bound on a receiver** is the class that it was created with, or what the reference
    says. -/
theorem receiverBound_cases (hcall : b.Dispatches j.program kind m args target) {arguments : List ValueState}
    (h : (ofBody j b).argumentStates target args = .ok arguments) :
    receiverBound kind m target (arguments.headD .unknown) = defaultBound m target ∨
      ∃ t, receiverBound kind m target (arguments.headD .unknown) = .exact t := by
  obtain ⟨v, rest, rfl⟩ : ∃ v rest, args = v :: rest := by
    apply List.exists_cons_of_ne_nil
    rintro rfl
    have harity := hcall.arity
    simp [argumentTypes_of_isInstance hcall.isInstance] at harity
  rw [argumentStates, argumentTypes_of_isInstance hcall.isInstance, List.zip_cons_cons, List.zipIdx_cons, List.mapM_cons] at h
  obtain ⟨first, hfirst, h⟩ := bind_eq_ok.1 h
  obtain ⟨others, -, h⟩ := bind_eq_ok.1 h
  cases h
  obtain ⟨given, hgiven, hfirst⟩ := bind_eq_ok.1 hfirst
  cases hfirst
  simp only [List.headD_cons, hcall.isInstance, Bool.not_false, Bool.and_true, beq_self_eq_true, if_true]
  obtain ⟨op, htells, hop⟩ := tells_argumentState hgiven
  exact receiverBound_of_tells hcall.kind htells fun heq => hcall.notNull v rfl (defines_of_definitions (hop heq))

end Scan.Site

/-! ### Where calls are taken -/

namespace Dispatch

open Scan.Site

variable {j : Joiner} {b : Body} {kind : InvokeKind} {m : MethodRef} {args : List ValueId} {target t : MethodDef} {R : Descriptor}
  {bound : DynamicType} {arguments : List ValueState} {methods out out' : MethodStates} {Q : MethodState → Prop}

/-- Calls of `target` through the reference `m`, on receivers with a bound, are taken to `t`: it is
    `target` or overrides it, and then it is declared below the class that `m` names, unless the
    class of the receiver is known. -/
def TakenTo (p : Program) (m : MethodRef) (target : MethodDef) (bound : DynamicType) (t : MethodDef) : Prop :=
  t = target ∨ target.isVirtual = true ∧ t.isVirtual = true ∧ Relation.TransGen p.NamesSuper t.ref.holder target.ref.holder ∧
    (bound.isExact = true ∨ p.isSubtype t.ref.holder m.holder = true)

/-- A method that a class has or inherits is referred to as it is called. -/
theorem with_holder_eq {p : Program} (h : p.resolveMethod { m with holder := R } = .ok (some t)) (s : Descriptor) :
    ({ t.ref with holder := s } : MethodRef) = { m with holder := s } := by
  obtain ⟨hsignature, -⟩ := Program.resolveMethod_eq_some_iff_firstIn.1 h
  obtain ⟨hname, hproto⟩ := Signature.mk.inj hsignature
  exact MethodRef.ext rfl hname.symm hproto.symm

/-- A receiver that runs `target` or a method below it may run it, so far as its bound goes. -/
theorem exists_mayRun (hp : j.program.Rooted) (hhoused : j.program.Housed) (hcall : b.Dispatches j.program kind m args target)
    (hbound : bound = defaultBound m target ∨ ∃ s, bound = .exact s)
    (hadmits : bound.Admits j.program R) (ht : j.program.resolveMethod { m with holder := R } = .ok (some t))
    (hbelow : t = target ∨ Relation.TransGen j.program.NamesSuper t.ref.holder target.ref.holder) :
    ∃ runs, mayRun j.program bound t = .ok runs ∧
      (runs = true ↔ t = target ∨ bound.isExact = true ∨ j.program.isSubtype t.ref.holder m.holder = true) := by
  rcases hbound with rfl | ⟨s, rfl⟩
  · rw [defaultBound_eq]
    split
    · next heq =>
      -- The receiver is any object below the class of `target`.
      refine ⟨true, rfl, iff_of_true rfl (hbelow.imp_right fun hbelow => .inr ?_)⟩
      exact Program.isSubtype_iff.2 (heq ▸ hp.topped.below_of_transGen hbelow)
    · have hresolves : j.program.resolveMethod { t.ref with holder := m.holder } = .ok (some target) := by
        rw [with_holder_eq ht]
        exact hcall.resolves
      have href : target.ref = t.ref ↔ t = target := by
        refine ⟨fun heq => ?_, fun heq => heq ▸ rfl⟩
        have htarget := Program.method?_of_resolveMethod hhoused hcall.resolves
        rw [heq, Program.method?_of_resolveMethod hhoused ht] at htarget
        exact Option.some.inj htarget
      refine ⟨target.ref == t.ref || j.program.isSubtype t.ref.holder m.holder, ?_, ?_⟩
      · rw [DynamicType.below, mayRun, hresolves, ok_bind]
        simp [pure, Except.pure]
      · simp [DynamicType.below, DynamicType.isExact, href]
  · obtain rfl : R = s := hadmits
    refine ⟨true, ?_, iff_of_true rfl (.inr (.inl rfl))⟩
    rw [DynamicType.exact, mayRun, with_holder_eq ht, ht, ok_bind]
    simp [pure, Except.pure]

theorem mem_overrides_of_takenTo (hhoused : j.program.Housed)
    (hcall : b.Dispatches j.program kind m args target)
    (ht : j.program.resolveMethod { m with holder := R } = .ok (some t)) (hown : (j.program.ownClass? t.ref.holder).isSome)
    (hvirtual : t.isVirtual = true) (hbody : t.isAbstract = false)
    (hbelow : Relation.TransGen j.program.NamesSuper t.ref.holder target.ref.holder) : t ∈ j.program.overrides target := by
  obtain ⟨-, c, hc, hfirst⟩ := Program.methodBySignature?_of_resolveMethod hhoused ht
  obtain ⟨hsignature, -⟩ := Program.methodBySignature?_of_resolveMethod hhoused hcall.resolves
  obtain ⟨c', hc'⟩ := Option.isSome_iff_exists.1 hown
  obtain ⟨hclass, -⟩ := Option.filter_eq_some_iff.1 hc'
  rw [hc] at hclass
  cases hclass
  refine (Program.mem_overrides hhoused).2 ⟨⟨c, hc', ?_⟩, hbelow, hvirtual, hbody⟩
  rw [hsignature]
  exact hfirst

/-- What a call leaves with the method that its reference resolves to has the property, at the
    bound on its receiver where calls are kept apart. -/
def Files (Q : MethodState → Prop) (p : Program) (target : MethodDef) (bound : DynamicType) : MethodState → Prop :=
  if target.isVirtual && !(p.overrides target).isEmpty then MethodState.AtCase Q bound else Q

theorem lasting_files (hQ : MethodState.Lasting j Q) (p : Program) (target : MethodDef) (bound : DynamicType) :
    MethodState.Lasting j (Files Q p target bound) := by
  unfold Files
  split
  · exact hQ.atCase bound
  · exact hQ

theorem files_filed {p : Program} (h : Q (.ofArguments arguments)) :
    Files Q p target (receiverBound kind m target (arguments.headD .unknown)) (filed p kind m target arguments) := by
  unfold Files filed
  split
  · exact MethodState.atCase_ofBound h _
  · exact h

/-- **What a call leaves is taken on.** -/
theorem holds_run_of_takenTo (hp : j.program.Rooted) (hhoused : j.program.Housed) (hQ : MethodState.Lasting j Q)
    (happly : ∀ cases, ¬ Q (.polymorphic cases)) (hcall : b.Dispatches j.program kind m args target)
    (hbound : bound = defaultBound m target ∨ ∃ s, bound = .exact s) (hadmits : bound.Admits j.program R)
    (ht : j.program.resolveMethod { m with holder := R } = .ok (some t)) (hown : (j.program.ownClass? t.ref.holder).isSome)
    (hbody : t.isAbstract = false) (htaken : TakenTo j.program m target bound t)
    (hfiled : Files Q j.program target bound (methods.state target.ref)) (hrun : run j methods = .ok out) : Q (out.state t.ref) := by
  have hmethod := Program.method?_of_resolveMethod hhoused hcall.resolves
  have hnot := (lasting_files hQ j.program target bound).ne_bottom hfiled
  have hover (hne : t ≠ target) : target.isVirtual = true ∧ t ∈ j.program.overrides target := by
    obtain ⟨hvirtual, hvirtual', hbelow, -⟩ := htaken.resolve_left hne
    exact ⟨hvirtual, mem_overrides_of_takenTo hhoused hcall ht hown hvirtual' hbody hbelow⟩
  unfold Files at hfiled
  split at hfiled
  · next hapart =>
    obtain ⟨hvirtual, -⟩ := Bool.and_eq_true_iff.1 hapart
    cases hstate : methods.state target.ref with
    | bottom => exact absurd hstate hnot
    | monomorphic _ =>
      rw [hstate] at hfiled
      exact hfiled.elim
    | unknown =>
      refine holds_run hQ hrun hnot fun out out' hspread => ?_
      rw [hstate] at hspread
      by_cases heq : t = target
      · rw [heq]
        exact holds_spread hQ hspread (fun _ => by simp) hQ.unknown
      · exact holds_spread_unknown hQ hmethod hvirtual (hover heq).2 hspread
    | polymorphic cases =>
      rw [hstate] at hfiled
      have htargets : t ∈ targets j.program target := by
        by_cases heq : t = target
        · subst heq
          simp [targets, hbody]
        · exact List.mem_append_right _ (hover heq).2
      obtain ⟨runs, hmay, hruns⟩ := exists_mayRun hp hhoused hcall hbound hadmits ht (htaken.imp_right fun h => h.2.2.1)
      rw [hruns.2 (htaken.imp_right fun h => h.2.2.2)] at hmay
      refine holds_run hQ hrun hnot fun out out' hspread => ?_
      rw [hstate] at hspread
      exact holds_spread_case hQ hmethod hvirtual htargets (MethodState.mem_of_caseOf hQ hfiled) hmay hfiled hspread
  · next hapart =>
    obtain rfl : t = target := by
      by_contra hne
      obtain ⟨hvirtual, hmem⟩ := hover hne
      exact hapart (by simp [hvirtual, List.ne_nil_of_mem hmem])
    exact holds_run hQ hrun hnot fun out out' hspread =>
      holds_spread hQ hspread (fun cases heq => happly cases (heq ▸ hfiled)) hfiled

/-! ### Where calls are not taken -/

theorem state_add_of_ne {m' : MethodRef} {s : MethodState} (h : out.add j m s = .ok out') (hne : m ≠ m') :
    out'.state m' = out.state m' := by
  obtain ⟨joined, -, hstate⟩ := MethodStates.state_add h
  rw [hstate, if_neg hne]

/-- A state in which calls are not kept apart goes to the method itself, and if it is unknown to
    those that override it. -/
theorem state_spread_of_ne {m' : MethodRef} {s : MethodState} (h : spread j out m s = .ok out') (hcases : ∀ cases, s ≠ .polymorphic cases)
    (hne : m ≠ m')
    (hover : s = .unknown → ∀ d, j.program.method? m = some d → d.isVirtual = true → ∀ t ∈ j.program.overrides d, t.ref ≠ m') :
    out'.state m' = out.state m' := by
  unfold spread at h
  split at h
  · exact absurd rfl (hcases _)
  · next d hd =>
    obtain ⟨hd, hvirtual⟩ := Option.filter_eq_some_iff.1 hd
    refine foldlM_preserves (P := fun o => MethodStates.state o m' = out.state m') (fun o r hr o' ho hadd => ?_) rfl h
    rw [state_add_of_ne hadd, ho]
    rcases List.mem_cons.1 hr with rfl | hr
    · exact hne
    · obtain ⟨t, ht, rfl⟩ := List.mem_map.1 hr
      exact hover rfl d hd hvirtual t ht
  · exact state_add_of_ne h hne

/-- A case stays away from the methods that its receivers do not run. -/
theorem state_sends_of_forall {x : DynamicType × MethodState} {ds : List MethodDef} {m' : MethodRef}
    (h : ds.foldlM (send j x) out = .ok out') (hnot : ∀ t ∈ ds, t.ref = m' → mayRun j.program x.1 t ≠ .ok true) :
    out'.state m' = out.state m' := by
  refine foldlM_preserves (P := fun o => MethodStates.state o m' = out.state m') (fun o t ht o' ho hsend => ?_) rfl h
  obtain ⟨runs, hruns, hsend⟩ := bind_eq_ok.1 hsend
  split at hsend
  · next htrue =>
    rw [htrue] at hruns
    rw [state_add_of_ne hsend fun href => hnot t ht href hruns, ho]
  · cases hsend
    exact ho

/-- **What a call leaves is not taken anywhere else.** -/
theorem state_spread_of_not_takenTo (hp : j.program.Rooted) (hhoused : j.program.Housed)
    (hcall : b.Dispatches j.program kind m args target) (hboundeq : bound = receiverBound kind m target (arguments.headD .unknown))
    (hbound : bound = defaultBound m target ∨ ∃ s, bound = .exact s) (hadmits : bound.Admits j.program R)
    (ht : j.program.resolveMethod { m with holder := R } = .ok (some t)) (hmiss : ¬ TakenTo j.program m target bound t)
    (h : spread j out target.ref (filed j.program kind m target arguments) = .ok out') : out'.state t.ref = out.state t.ref := by
  have hmethod := Program.method?_of_resolveMethod hhoused hcall.resolves
  have hne : target.ref ≠ t.ref := by
    intro heq
    rw [heq, Program.method?_of_resolveMethod hhoused ht] at hmethod
    exact hmiss (.inl (Option.some.inj hmethod))
  -- No receiver of the call runs `t`, which may still override `target`.
  have hnot : target.isVirtual = true → ∀ t' ∈ j.program.overrides target, t'.ref = t.ref → mayRun j.program bound t' ≠ .ok true := by
    intro hvirtual t' ht' href hruns
    obtain ⟨⟨c, hown, hfirst⟩, hbelow, hvirtual', -⟩ := (Program.mem_overrides hhoused).1 ht'
    obtain ⟨hclass, -⟩ := Option.filter_eq_some_iff.1 hown
    obtain ⟨hsignature, c', hclass', hfirst'⟩ := Program.methodBySignature?_of_resolveMethod hhoused ht
    obtain ⟨hsignature', -⟩ := Program.methodBySignature?_of_resolveMethod hhoused hcall.resolves
    rw [href, hclass'] at hclass
    cases hclass
    rw [hsignature'] at hfirst
    cases hfirst'.symm.trans hfirst
    obtain ⟨runs, hmay, hruns'⟩ := exists_mayRun hp hhoused hcall hbound hadmits ht (.inr hbelow)
    rw [hruns] at hmay
    cases hmay
    rcases hruns'.1 rfl with heq | hreach
    · exact hmiss (.inl heq)
    · exact hmiss (.inr ⟨hvirtual, hvirtual', hbelow, hreach⟩)
  have hcalled : ∀ cases, MethodState.ofArguments arguments ≠ .polymorphic cases := by
    intro cases
    unfold MethodState.ofArguments
    split <;> simp
  unfold filed at h
  split at h
  · next hapart =>
    obtain ⟨hvirtual, -⟩ := Bool.and_eq_true_iff.1 hapart
    rw [← hboundeq, MethodState.ofBound] at h
    split at h
    · next hunknown =>
      have hbound : bound = .unknown := by simpa [DynamicType.isUnknown] using (Bool.and_eq_true_iff.1 hunknown).1
      refine state_spread_of_ne h (by simp) hne fun _ d hd _ t' ht' href => ?_
      cases hmethod.symm.trans hd
      refine hnot hvirtual t' ht' href ?_
      rw [hbound]
      rfl
    · rw [spread_polymorphic hmethod hvirtual, List.foldlM_cons] at h
      obtain ⟨o, hsends, h⟩ := bind_eq_ok.1 h
      cases h
      refine state_sends_of_forall hsends fun t' ht' href => ?_
      rcases List.mem_append.1 ht' with hself | hover
      · split at hself
        · cases hself
        · rw [List.mem_singleton.1 hself] at href
          exact absurd href hne
      · exact hnot hvirtual t' hover href
  · next hapart =>
    refine state_spread_of_ne h hcalled hne fun _ d hd hvirtual t' ht' => ?_
    cases hmethod.symm.trans hd
    rw [hvirtual, Bool.true_and, Bool.not_eq_true, Bool.not_eq_false'] at hapart
    rw [List.isEmpty_iff.1 hapart] at ht'
    cases ht'

end Dispatch

/-! ### After scan and dispatch -/

namespace Dispatch

open Scan (Site)
open Scan.Site

section

variable {v : View} {maxInFlow : Nat} {scanned : FlowStates} {methods : MethodStates} {d target : MethodDef} {b : Body}
  {kind : InvokeKind} {m : MethodRef} {args : List ValueId} {itf : Bool}

/-- The arguments of a call have states if the scan comes to an end. -/
theorem exists_argumentStates (hp : v.program.Rooted) (hscan : Scan.run v ⟨v.program, maxInFlow⟩ = .ok scanned)
    (hbody : v.program.HasBody d b) (hop : .invoke kind m args itf ∈ b.operations)
    (hcall : b.Dispatches v.program kind m args target) :
    ∃ arguments, (Site.ofBody ⟨v.program, maxInFlow⟩ b).argumentStates target args = .ok arguments := by
  obtain ⟨⟨c, hc, hd⟩, hbody⟩ := hbody
  refine Scan.holds_run (P := fun _ => ∃ arguments, (Site.ofBody ⟨v.program, maxInFlow⟩ b).argumentStates target args = .ok arguments)
    ⟨fun _ h => h, fun _ h => h, fun _ _ h => h.elim id id, fun _ h => h, fun _ h => h⟩ hc hd hbody hop (fun acc acc' h => ?_) hscan
  obtain ⟨states, hstates, -⟩ := bind_eq_ok.1 h
  rw [invoke_of_dispatches hp.topped.toRegular hcall] at hstates
  obtain ⟨arguments, harguments, -⟩ := bind_eq_ok.1 hstates
  exact ⟨arguments, harguments⟩

theorem files_run (hp : v.program.Rooted) (hscan : Scan.run v ⟨v.program, maxInFlow⟩ = .ok scanned) {Q : MethodState → Prop}
    (hQ : MethodState.Lasting ⟨v.program, maxInFlow⟩ Q) (hbody : v.program.HasBody d b) (hop : .invoke kind m args itf ∈ b.operations)
    (hcall : b.Dispatches v.program kind m args target) {arguments : List ValueState}
    (harguments : (Site.ofBody ⟨v.program, maxInFlow⟩ b).argumentStates target args = .ok arguments)
    (h : Q (.ofArguments arguments)) :
    Files Q v.program target (receiverBound kind m target (arguments.headD .unknown)) (scanned.methods.state target.ref) := by
  obtain ⟨⟨c, hc, hd⟩, hbody⟩ := hbody
  have hlasting := lasting_files hQ v.program target (receiverBound kind m target (arguments.headD .unknown))
  refine Scan.holds_run (FlowStates.lasting_method hlasting target.ref) hc hd hbody hop (fun acc acc' h' => ?_) hscan
  obtain ⟨states, hstates, h'⟩ := bind_eq_ok.1 h'
  cases h'
  rw [invoke_of_dispatches hp.topped.toRegular hcall, harguments, ok_bind] at hstates
  obtain ⟨added, hadd, hstates⟩ := bind_eq_ok.1 hstates
  cases hstates
  exact hlasting.add hadd (files_filed h)

/-- **The arguments of a call get to the methods that it is taken to.** After scan and dispatch the
    state of every method that the call may run has taken them in if the call is taken to that
    method. If it is not, nothing that the call leaves gets there. -/
theorem join_of_takenTo (hp : v.program.Rooted) (hhoused : v.program.Housed) (hflow : 0 < maxInFlow)
    (hscan : Scan.run v ⟨v.program, maxInFlow⟩ = .ok scanned) (hrun : run ⟨v.program, maxInFlow⟩ scanned.methods = .ok methods)
    (hbody : v.program.HasBody d b) (hop : .invoke kind m args itf ∈ b.operations)
    (hcall : b.Dispatches v.program kind m args target) :
    ∃ arguments, (Site.ofBody ⟨v.program, maxInFlow⟩ b).argumentStates target args = .ok arguments ∧
      ∀ R t, (receiverBound kind m target (arguments.headD .unknown)).Admits v.program R →
        v.program.resolveMethod { m with holder := R } = .ok (some t) → (v.program.ownClass? t.ref.holder).isSome →
        t.isAbstract = false →
        (TakenTo v.program m target (receiverBound kind m target (arguments.headD .unknown)) t →
          (methods.state t.ref).join ⟨v.program, maxInFlow⟩ (.ofArguments arguments) = .ok (methods.state t.ref)) ∧
        (¬ TakenTo v.program m target (receiverBound kind m target (arguments.headD .unknown)) t → ∀ out out',
          spread ⟨v.program, maxInFlow⟩ out target.ref (filed v.program kind m target arguments) = .ok out' →
          out'.state t.ref = out.state t.ref) := by
  obtain ⟨arguments, harguments⟩ := exists_argumentStates hp hscan hbody hop hcall
  have hsimple : (MethodState.ofArguments arguments).Simple ⟨v.program, maxInFlow⟩ :=
    MethodState.simple_ofArguments (simple_argumentStates harguments hflow)
  have hlasting := MethodState.lasting_absorbs (j := ⟨v.program, maxInFlow⟩) hp hsimple
  have hbound := receiverBound_cases (j := ⟨v.program, maxInFlow⟩) hcall harguments
  have hfiled := files_run hp hscan hlasting hbody hop hcall harguments (MethodState.join_self_of_simple hsimple)
  refine ⟨arguments, harguments, fun R t hadmits ht hown habstract => ⟨fun htaken => ?_, fun hmiss out out' h => ?_⟩⟩
  · refine holds_run_of_takenTo (j := ⟨v.program, maxInFlow⟩) hp hhoused hlasting (fun cases h => ?_) hcall hbound hadmits ht hown
      habstract htaken hfiled hrun
    unfold MethodState.ofArguments at h
    split at h <;> simp [MethodState.join] at h
  · exact state_spread_of_not_takenTo (j := ⟨v.program, maxInFlow⟩) hp hhoused hcall rfl hbound hadmits ht hmiss h

end

/-! A call of `I.m` on a new `R`, which inherits `m` from `S`. It is `S` or `R` that implements `I`. -/

namespace Inherited

def type (name : String) : Descriptor := ⟨"L" ++ name ++ ";"⟩

def ref (holder : String) : MethodRef := ⟨type holder, "m", ⟨.void, [.int]⟩⟩

def implementation : Body where
  method := ref "S"
  isStatic := false
  arguments := [0, 1]
  values := [⟨type "S", .argument 0⟩, ⟨.int, .argument 1⟩]
  blocks := [{ terminator := .ret none }]

def main : Body where
  method := ⟨type "A", "main", ⟨.void, []⟩⟩
  isStatic := true
  arguments := []
  values := [⟨type "R", .instruction⟩, ⟨.int, .instruction⟩]
  blocks := [{
    body := [⟨some 0, .newInstance (type "R"), 1⟩, ⟨some 1, .constInt 5, 1⟩,
      ⟨none, .invoke .interface (ref "I") [0, 1] true, 1⟩]
    terminator := .ret none }]

def declared : MethodDef := { ref := ref "I", access := .publicFlag ||| .abstractFlag, code := none }

def inherited : MethodDef := { ref := ref "S", access := .publicFlag, code := some (.body implementation) }

def mainMethod : MethodDef := { ref := main.method, access := .publicFlag ||| .staticFlag, code := some (.body main) }

def caller : ClassDef := { type := type "A", superclass := some .object, methods := [mainMethod] }

def classes (base derived : List Descriptor) : List ClassDef :=
  [{ type := .object, kind := .library, superclass := none },
    { type := type "I", access := .interfaceFlag ||| .abstractFlag, superclass := some .object, methods := [declared] },
    { type := type "S", superclass := some .object, interfaces := base, methods := [inherited] },
    { type := type "R", superclass := some (type "S"), interfaces := derived },
    caller]

def view (base derived : List Descriptor) : View where
  program := .ofList (classes base derived)

def depth (t : Descriptor) : Nat :=
  if t = .object then 0 else if t = type "S" then 2 else if t = type "R" then 3 else 1

section

variable {base derived : List Descriptor} (h : base = [type "I"] ∧ derived = [] ∨ base = [] ∧ derived = [type "I"])

include h

theorem rooted : (view base derived).program.Rooted where
  isClass := by rcases h with ⟨rfl, rfl⟩ | ⟨rfl, rfl⟩ <;> decide
  acyclic := ⟨depth, by unfold Program.Ranked; rcases h with ⟨rfl, rfl⟩ | ⟨rfl, rfl⟩ <;> decide⟩
  isClass_of_mem_supertypes := by rcases h with ⟨rfl, rfl⟩ | ⟨rfl, rfl⟩ <;> decide
  top := by rcases h with ⟨rfl, rfl⟩ | ⟨rfl, rfl⟩ <;> decide

theorem housed : (view base derived).program.Housed := by
  unfold Program.Housed
  rcases h with ⟨rfl, rfl⟩ | ⟨rfl, rfl⟩ <;> decide

theorem resolves : (view base derived).program.resolveMethod (ref "I") = .ok (some declared) ∧
    (view base derived).program.resolveMethod (ref "R") = .ok (some inherited) := by
  rcases h with ⟨rfl, rfl⟩ | ⟨rfl, rfl⟩ <;> exact ⟨rfl, rfl⟩

omit h in
theorem hasBody : (view base derived).program.HasBody mainMethod main := by
  have hnodup : ((classes base derived).map ClassDef.type).Nodup := show ((classes [] []).map ClassDef.type).Nodup by decide
  have hclass : (view base derived).program.class? caller.type = some caller :=
    Program.class?_ofList hnodup (by simp [classes])
  refine ⟨⟨caller, Program.mem_programClasses.2 ⟨hclass, rfl⟩, ?_⟩, rfl⟩
  simp [caller]

theorem dispatches : main.Dispatches (view base derived).program .interface (ref "I") [0, 1] declared where
  kind := .inr rfl
  resolves := (resolves h).1
  own := by rcases h with ⟨rfl, rfl⟩ | ⟨rfl, rfl⟩ <;> decide
  isInstance := by decide
  arity := by decide
  notNull := by
    rintro v hv ⟨i, hi, hdest, hop⟩
    simp [main, type] at hi hv
    rcases hi with rfl | rfl | rfl <;> simp_all

omit h in
theorem arguments_eq : (Site.ofBody ⟨(view base derived).program, 16⟩ main).argumentStates declared [0, 1] =
    .ok [.receiver (.exact (type "R")), .primitive (.single 5)] := by
  rfl

end

def states (v : View) : Outcome FlowError MethodStates := do
  let scanned ← Scan.run v ⟨v.program, 16⟩
  run ⟨v.program, 16⟩ scanned.methods

/-- The states after scan and dispatch, where a test of them tells that there are any. -/
theorem exists_run (v : View) (test : MethodStates → Bool) (h : (states v).toOption.any test = true) :
    ∃ scanned methods, Scan.run v ⟨v.program, 16⟩ = .ok scanned ∧ run ⟨v.program, 16⟩ scanned.methods = .ok methods ∧
      test methods = true := by
  cases hstates : states v with
  | error e =>
    rw [hstates] at h
    cases h
  | ok methods =>
    rw [hstates] at h
    obtain ⟨scanned, hscan, hrun⟩ := bind_eq_ok.1 hstates
    exact ⟨scanned, methods, hscan, Outcome.lift_eq_ok.1 hrun, h⟩

end Inherited

open Inherited in
/-- Where `S` implements `I`, its method gets the argument. -/
theorem join_of_takenTo_declared_below :
    (view [type "I"] []).program.Rooted ∧ (view [type "I"] []).program.Housed ∧ ∃ scanned methods,
      Scan.run (view [type "I"] []) ⟨(view [type "I"] []).program, 16⟩ = .ok scanned ∧
      run ⟨(view [type "I"] []).program, 16⟩ scanned.methods = .ok methods ∧
      (view [type "I"] []).program.HasBody mainMethod main ∧
      main.Dispatches (view [type "I"] []).program .interface (ref "I") [0, 1] declared ∧
      TakenTo (view [type "I"] []).program (ref "I") declared (.exact (type "R")) inherited ∧
      (methods.state (ref "S")).join ⟨(view [type "I"] []).program, 16⟩
        (.ofArguments [.receiver (.exact (type "R")), .primitive (.single 5)]) = .ok (methods.state (ref "S")) := by
  have hrooted := rooted (.inl ⟨rfl, rfl⟩)
  have hhoused := housed (.inl ⟨rfl, rfl⟩)
  have hcall := dispatches (.inl ⟨rfl, rfl⟩)
  obtain ⟨scanned, methods, hscan, hrun, -⟩ := exists_run (view [type "I"] []) (fun _ => true) (by decide +kernel)
  have htaken : TakenTo (view [type "I"] []).program (ref "I") declared (.exact (type "R")) inherited := by
    refine .inr ⟨by decide, by decide, .single ?_, .inl rfl⟩
    have hnodup : ((classes [type "I"] []).map ClassDef.type).Nodup := by decide
    exact ⟨(classes [type "I"] [])[2], Program.class?_ofList hnodup (c := (classes [type "I"] [])[2]) (List.getElem_mem _), by decide⟩
  refine ⟨hrooted, hhoused, scanned, methods, hscan, hrun, hasBody, hcall, htaken, ?_⟩
  obtain ⟨arguments, harguments, hall⟩ := join_of_takenTo hrooted hhoused (by decide) hscan hrun hasBody
    (List.mem_of_getElem? (i := 2) rfl) hcall
  cases arguments_eq.symm.trans harguments
  exact (hall (type "R") inherited rfl (resolves (.inl ⟨rfl, rfl⟩)).2 (by decide) (by decide)).1 htaken

open Inherited in
/-- Where it is `R` that implements `I`, the method that `R` inherits from `S` is called, and its
    state says that it is not. -/
theorem inherited_missed : ∃ scanned methods,
    (view [] [type "I"]).program.Rooted ∧ (view [] [type "I"]).program.Housed ∧
      Scan.run (view [] [type "I"]) ⟨(view [] [type "I"]).program, 16⟩ = .ok scanned ∧
      run ⟨(view [] [type "I"]).program, 16⟩ scanned.methods = .ok methods ∧
      (view [] [type "I"]).program.HasBody mainMethod main ∧
      .invoke .interface (ref "I") [0, 1] true ∈ main.operations ∧
      main.Dispatches (view [] [type "I"]).program .interface (ref "I") [0, 1] declared ∧
      (view [] [type "I"]).program.isSubtype (type "R") (type "I") = true ∧
      (view [] [type "I"]).program.resolveMethod (ref "R") = .ok (some inherited) ∧
      (Site.ofBody ⟨(view [] [type "I"]).program, 16⟩ main).argumentStates declared [0, 1] =
        .ok [.receiver (.exact (type "R")), .primitive (.single 5)] ∧
      methods.state (ref "S") = .bottom ∧
      (methods.state (ref "S")).join ⟨(view [] [type "I"]).program, 16⟩
        (.ofArguments [.receiver (.exact (type "R")), .primitive (.single 5)]) ≠ .ok (methods.state (ref "S")) := by
  obtain ⟨scanned, methods, hscan, hrun, hbottom⟩ := exists_run (view [] [type "I"])
    (fun methods => (methods.state (ref "S")).isBottom) (by decide +kernel)
  have hbottom : methods.state (ref "S") = .bottom := by
    cases hstate : methods.state (ref "S") with
    | bottom => rfl
    | _ =>
      rw [hstate] at hbottom
      cases hbottom
  refine ⟨scanned, methods, rooted (.inr ⟨rfl, rfl⟩), housed (.inr ⟨rfl, rfl⟩), hscan, hrun, hasBody,
    List.mem_of_getElem? (i := 2) rfl, dispatches (.inr ⟨rfl, rfl⟩), by decide +kernel, (resolves (.inr ⟨rfl, rfl⟩)).2,
    arguments_eq, hbottom, ?_⟩
  rw [hbottom, MethodState.bottom_join]
  exact fun h => nomatch h

end Dispatch

end DexShrinker
