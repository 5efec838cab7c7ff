/-
  DexShrinker/Proofs/Unboxing/Utilities.lean
  ==========================================
  **The bodies of utility classes.**

  Every method of a utility class that is put together has a body with well-formed control
  flow and the arguments of its method (`MethodDef.Assembled`). What the bodies name are
  texts, members of the shared class, and a few classes that every program knows
  (`Utility.Word`).
-/
import DexShrinker.Proofs.Body.Assembly
import DexShrinker.Unboxing.Utility

namespace DexShrinker

/-- The method has a body that was put together and names only constants that satisfy `K`. -/
def MethodDef.Assembled (K : Constant → Prop) (m : MethodDef) : Prop :=
  ∃ c : Body, m.code = some (.body c) ∧ c.Assembled K ∧ c.arguments.length = m.argumentTypes.length

theorem MethodDef.Assembled.imp {K K' : Constant → Prop} (himp : ∀ k, K k → K' k) {m : MethodDef} (h : m.Assembled K) : m.Assembled K' := by
  obtain ⟨c, hcode, hc, harguments⟩ := h
  exact ⟨c, hcode, ⟨hc.shaped, fun b hb i hi => ⟨(hc.each b hb i hi).sound, fun k hk => himp k ((hc.each b hb i hi).constants k hk)⟩,
    hc.handlers, hc.phis⟩, harguments⟩

namespace Utility

open Assembly

/-- The types that utilities know, where `shared` is the shared class. -/
def known (shared : Descriptor) : List Descriptor :=
  [shared, .int, .boolean, .void, .object, .string, .intArray, .nullPointerException, .illegalArgumentException]

/-- What the bodies of utilities name. -/
inductive Word (shared : Descriptor) : Constant → Prop
  | string (s : String) : Word shared (.string s)
  | type {t : Descriptor} (h : t ∈ known shared) : Word shared (.type t)
  | field {f : FieldRef} (hholder : f.holder ∈ known shared) (htype : f.type ∈ known shared) : Word shared (.field f)
  | method {m : MethodRef} (hholder : m.holder ∈ known shared) (hproto : ∀ t ∈ m.proto.types, t ∈ known shared) : Word shared (.method m)

variable {shared : Descriptor}

theorem assembled_of_synthesize {K : Constant → Prop} {m : MethodRef} {access : AccessFlags} {steps : Assembly Unit}
    (h : steps.Emits K) {d : MethodDef} (hd : synthesize m access steps = .ok d) : d.ref = m ∧ d.Assembled K := by
  obtain ⟨body, hbody, hd⟩ := bind_eq_ok.1 hd
  cases hd
  obtain ⟨hassembled, harguments⟩ := build_spec h (Outcome.mapError_eq_ok.1 hbody)
  exact ⟨rfl, body, rfl, hassembled, harguments⟩

/-! ### Pieces of bodies -/

theorem emits_arithmetic {K : Constant → Prop} (op : BinaryOp) (lhs rhs : ValueId) : (arithmetic op lhs rhs).Emits K :=
  emits_emitValue_of_none .int rfl rfl

theorem emits_throwNew {exception : Descriptor} (h : exception ∈ known shared) (message : Option ValueId) :
    (throwNew exception message).Emits (Word shared) := by
  refine (emits_emitValue exception rfl ?_).bind fun thrown => ?_
  · rintro _ ⟨⟩
    exact .type h
  · refine (emits_invoke _ (.method h fun t ht => ?_)).bind fun _ => adds_terminate _
    rcases List.mem_cons.1 ht with rfl | ht
    · simp [known]
    · obtain ⟨v, -, rfl⟩ := List.mem_map.1 ht
      simp [known]

theorem emits_unlessHolds {K : Constant → Prop} (kind : Comparison) (type : ComparedType) (lhs : ValueId)
    {rhs : Assembly (Option ValueId)} (h : rhs.Emits K) : (unlessHolds kind type lhs rhs).Emits K := by
  refine adds_newBlock.bind fun fallthrough => adds_newBlock.bind fun target => h.bind fun rhs => ?_
  exact (adds_terminate _).bind fun _ => (adds_switchTo fallthrough).bind fun _ => adds_pure target

theorem emits_onConstantFrom {α : Type} (value : ValueId) {case : α → Assembly Unit} (h : ∀ a, (case a).Emits (Word shared))
    (ordinal : Nat) (cases : List α) : (onConstantFrom value case ordinal cases).Emits (Word shared) := by
  induction cases generalizing ordinal with
  | nil => exact emits_throwNew (by simp [known]) none
  | cons a rest ih =>
    refine (emits_unlessHolds _ _ _ ((emits_constInt _).map _)).bind fun miss => ?_
    exact (h a).bind fun _ => (adds_switchTo miss).bind fun _ => ih (ordinal + 1)

theorem emits_constant (type : Descriptor) (value : StaticValue) : (constant type value).Emits (Word shared) := by
  cases value with
  | int n =>
    simp only [constant]
    split
    · exact emits_emitValue_of_none type rfl rfl
    · exact emits_emitValue_of_none type rfl rfl
  | string s => exact emits_constString (.string s)
  | null =>
    simp only [constant]
    split
    · exact emits_constInt 0
    · exact emits_emitValue_of_none type rfl rfl

end Utility

/-! ### The shared class -/

namespace SharedUtility

open Assembly Utility

variable (u : SharedUtility)

theorem word_method (name : String) {returnType : Descriptor} {parameters : List Descriptor}
    (h : ∀ t ∈ returnType :: parameters, t ∈ known u.type) : Word u.type (.method (u.method name returnType parameters)) :=
  .method List.mem_cons_self h

theorem word_valuesField : Word u.type (.field u.valuesField) := .field List.mem_cons_self (by simp [valuesField, known])

theorem emits_checkNotZero (args : List ValueId) : (invoke .static u.checkNotZero args).Emits (Word u.type) :=
  emits_invoke args (u.word_method _ (by simp [known]))

theorem emits_clinitSteps : u.clinitSteps.Emits (Word u.type) := by
  refine (emits_constInt _).bind fun length => (emits_emitValue _ rfl ?_).bind fun array => Adds.bind ?_ fun _ => ?_
  · rintro _ ⟨⟩
    exact .type (by simp [known])
  · refine adds_forM fun i _ => (emits_constInt _).bind fun index => emits_emit ?_
    rintro _ ⟨⟩
  · refine (emits_emit ?_).bind fun _ => adds_ret none
    rintro _ ⟨⟩
    exact u.word_valuesField

theorem emits_checkSteps (hasMessage : Bool) : (checkSteps hasMessage).Emits (Word u.type) := by
  have hrest (value : ValueId) (message : Option ValueId) :
      (unlessHolds .ne .int value (pure none) >>= fun done =>
        throwNew .nullPointerException message >>= fun _ => switchTo done >>= fun _ => ret none).Emits (Word u.type) :=
    (emits_unlessHolds _ _ _ (adds_pure none)).bind fun done =>
      (emits_throwNew (by simp [known]) message).bind fun _ => (adds_switchTo done).bind fun _ => adds_ret none
  refine (adds_argument 0).bind fun value => ?_
  cases hasMessage with
  | true => exact ((adds_argument 1).map some).bind (hrest value)
  | false => exact (adds_pure none).bind (hrest value)

theorem emits_compareToSteps : u.compareToSteps.Emits (Word u.type) := by
  refine (adds_argument 0).bind fun lhs => (adds_argument 1).bind fun rhs => ?_
  refine (u.emits_checkNotZero _).bind fun _ => (u.emits_checkNotZero _).bind fun _ => ?_
  exact (emits_arithmetic _ _ _).bind fun _ => adds_ret _

theorem emits_equalsSteps : u.equalsSteps.Emits (Word u.type) := by
  refine (adds_argument 0).bind fun lhs => (adds_argument 1).bind fun rhs => (u.emits_checkNotZero _).bind fun _ => ?_
  refine (emits_unlessHolds _ _ _ (adds_pure _)).bind fun different => ?_
  refine (emits_emitValue_of_none _ rfl rfl).bind fun _ => (adds_ret _).bind fun _ => (adds_switchTo different).bind fun _ => ?_
  exact (emits_emitValue_of_none _ rfl rfl).bind fun _ => adds_ret _

theorem emits_ordinalSteps : u.ordinalSteps.Emits (Word u.type) := by
  refine (adds_argument 0).bind fun value => (u.emits_checkNotZero _).bind fun _ => (emits_constInt 1).bind fun one => ?_
  exact (emits_arithmetic _ _ _).bind fun _ => adds_ret _

theorem emits_valuesSteps : u.valuesSteps.Emits (Word u.type) := by
  refine (adds_argument 0).bind fun size => adds_newBlock.bind fun header => adds_newBlock.bind fun body => ?_
  refine adds_newBlock.bind fun exit => (emits_emitValue _ rfl ?_).bind fun result => ?_
  · rintro _ ⟨⟩
    exact .type (by simp [known])
  refine (emits_emitValue _ rfl ?_).bind fun lookup => (emits_constInt 0).bind fun start => ?_
  · rintro _ ⟨⟩
    exact u.word_valuesField
  refine (adds_terminate _).bind fun _ => (adds_switchTo header).bind fun _ => (adds_phi _).bind fun index => ?_
  refine (adds_terminate _).bind fun _ => (adds_switchTo body).bind fun _ => (emits_constInt 1).bind fun one => ?_
  refine (emits_arithmetic _ _ _).bind fun next => (emits_emitValue _ rfl ?_).bind fun value => ?_
  · rintro _ ⟨⟩
    exact .type (by simp [known])
  refine (emits_emit ?_).bind fun _ => ?_
  · rintro _ ⟨⟩
  exact (adds_terminate _).bind fun _ => (adds_switchTo exit).bind fun _ => (adds_ret _).bind fun _ => adds_pure _

variable {u}

/-- Closing the loop leaves the instructions alone, and what the phis define. -/
theorem body_closeLoop {c : Body} {header : BlockId} {next : ValueId} {b : Block} (hb : b ∈ (closeLoop c header next).blocks) :
    ∃ b₀ ∈ c.blocks, b.body = b₀.body ∧ b.handlers = b₀.handlers ∧ b.phis.map Phi.dest = b₀.phis.map Phi.dest := by
  obtain ⟨i, hi, rfl⟩ := List.getElem_of_mem hb
  have hi' : i < c.blocks.length := by simpa [closeLoop] using hi
  refine ⟨c.blocks[i], List.getElem_mem hi', ?_⟩
  simp only [closeLoop, List.getElem_modify]
  split
  · refine ⟨rfl, rfl, List.ext_getElem (by simp) fun j hj hj' => ?_⟩
    simp only [List.getElem_map, List.getElem_modify]
    split <;> rfl
  · exact ⟨rfl, rfl, rfl⟩

theorem assembled_of_valuesDef {d : MethodDef} (h : u.valuesDef = .ok d) : d.ref = u.values ∧ d.Assembled (Word u.type) := by
  unfold valuesDef at h
  have hgains := u.emits_valuesSteps (Draft.start u.values true)
  generalize u.valuesSteps.run.run (Draft.start u.values true) = built at h hgains
  obtain ⟨⟨header, next⟩, -, h⟩ := bind_eq_ok.1 h
  obtain ⟨c, hfinish, h⟩ := bind_eq_ok.1 h
  obtain ⟨hverify, h⟩ := check_bind_eq_ok.1 h
  cases h
  obtain ⟨hassembled, harguments⟩ := Draft.finish_spec hgains (Outcome.mapError_eq_ok.1 hfinish)
  refine ⟨rfl, closeLoop c header next, rfl, ⟨?_, fun b hb i hi => ?_, fun b hb => ?_, fun b hb x hx => ?_⟩, ?_⟩
  · refine (Body.verify_eq_ok_iff.1 (Outcome.mapError_eq_ok.1 hverify)).shaped fun hnil => hassembled.shaped.nonempty ?_
    simpa [closeLoop] using hnil
  · obtain ⟨b₀, hb₀, hbody, -⟩ := body_closeLoop hb
    exact hassembled.each b₀ hb₀ i (hbody ▸ hi)
  · obtain ⟨b₀, hb₀, -, heq, -⟩ := body_closeLoop hb
    rw [heq, hassembled.handlers b₀ hb₀]
  · obtain ⟨b₀, hb₀, -, -, hdests⟩ := body_closeLoop hb
    obtain ⟨y, hy, hxy⟩ := List.mem_map.1 (hdests ▸ List.mem_map_of_mem hx)
    have hnumber := hassembled.phis b₀ hb₀ y hy
    rwa [Phi.IsNumber, hxy] at hnumber
  · rw [← show methodAccess.isStatic = true by decide] at harguments
    exact harguments

/-- **The methods of the shared class.** -/
theorem assembled_of_build {c : ClassDef} (h : u.build = .ok c) {d : MethodDef} (hd : d ∈ c.methods) :
    d.ref.holder = u.type ∧ d.Assembled (Word u.type) := by
  unfold build at h
  obtain ⟨clinit, hclinit, h⟩ := bind_eq_ok.1 h
  obtain ⟨check, hcheck, h⟩ := bind_eq_ok.1 h
  obtain ⟨checkMessage, hcheckMessage, h⟩ := bind_eq_ok.1 h
  obtain ⟨compareTo, hcompareTo, h⟩ := bind_eq_ok.1 h
  obtain ⟨equals, hequals, h⟩ := bind_eq_ok.1 h
  obtain ⟨ordinal, hordinal, h⟩ := bind_eq_ok.1 h
  obtain ⟨values, hvalues, h⟩ := bind_eq_ok.1 h
  cases h
  have hmade : ∃ ref : MethodRef, ref.holder = u.type ∧ d.ref = ref ∧ d.Assembled (Word u.type) := by
    simp only [List.mem_cons, List.not_mem_nil, or_false] at hd
    rcases hd with rfl | rfl | rfl | rfl | rfl | rfl | rfl
    · exact ⟨u.clinit, rfl, assembled_of_synthesize u.emits_clinitSteps hclinit⟩
    · exact ⟨u.checkNotZero, rfl, assembled_of_synthesize (u.emits_checkSteps false) hcheck⟩
    · exact ⟨u.checkNotZeroWithMessage, rfl, assembled_of_synthesize (u.emits_checkSteps true) hcheckMessage⟩
    · exact ⟨u.compareTo, rfl, assembled_of_synthesize u.emits_compareToSteps hcompareTo⟩
    · exact ⟨u.equals, rfl, assembled_of_synthesize u.emits_equalsSteps hequals⟩
    · exact ⟨u.ordinal, rfl, assembled_of_synthesize u.emits_ordinalSteps hordinal⟩
    · exact ⟨u.values, rfl, assembled_of_valuesDef hvalues⟩
  obtain ⟨ref, hholder, rfl, hassembled⟩ := hmade
  exact ⟨hholder, hassembled⟩

end SharedUtility

/-! ### Local classes -/

namespace LocalUtility

open Assembly Utility

variable {u : LocalUtility} {data : EnumData} {d : MethodDef} (shared : Descriptor)

theorem assembled_of_nameDef (h : u.nameDef data = .ok d) : d.ref = u.nameMethod ∧ d.Assembled (Word shared) :=
  assembled_of_synthesize ((adds_argument 0).bind fun value =>
    emits_onConstantFrom value (fun c => (emits_constString (.string c.name)).bind fun _ => adds_ret _) 0 data.constants) h

theorem emits_matchName (name : ValueId) (constants : List EnumConstant) : (matchName name constants).Emits (Word shared) := by
  induction constants with
  | nil => exact emits_throwNew (by simp [known]) (some name)
  | cons c rest ih =>
    refine adds_newBlock.bind fun hit => adds_newBlock.bind fun miss => (emits_constString (.string c.name)).bind fun candidate => ?_
    have hequals : Word shared (.method textEquals) :=
      .method (by simp [textEquals, known]) (by simp [textEquals, Prototype.types, known])
    refine (emits_invoke _ hequals).bind fun isEqual => (adds_terminate _).bind fun _ => ?_
    refine (adds_switchTo hit).bind fun _ => (emits_constInt _).bind fun _ => (adds_ret _).bind fun _ => ?_
    exact (adds_switchTo miss).bind fun _ => ih

theorem assembled_of_valueOfDef (h : u.valueOfDef data = .ok d) : d.ref = u.valueOf ∧ d.Assembled (Word shared) := by
  refine assembled_of_synthesize ?_ h
  refine (adds_argument 0).bind fun name => (emits_unlessHolds _ _ _ (adds_pure none)).bind fun first => ?_
  refine (emits_throwNew (by simp [known]) none).bind fun _ => (adds_switchTo first).bind fun _ => ?_
  exact emits_matchName shared name data.constants

theorem assembled_of_getterDef {f : FieldRef} {type : Descriptor} {values : List StaticValue} (h : u.getterDef f type values = .ok d) :
    d.ref = u.getter f type ∧ d.Assembled (Word shared) :=
  assembled_of_synthesize ((adds_argument 0).bind fun value =>
    emits_onConstantFrom value (fun v => (emits_constant type v).bind fun _ => adds_ret _) 0 values) h

end LocalUtility

end DexShrinker
