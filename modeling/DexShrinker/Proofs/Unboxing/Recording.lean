/-
  DexShrinker/Proofs/Unboxing/Recording.lean
  ==========================================
  **What unboxing records.**

  Unboxing records one thing after the other, and `Unboxing.Step` says what: only enums move,
  and they become numbers. A field that moves has its old type with enums taken for numbers,
  and a method that moves has such a prototype, with more parameters or fewer at its ends.
  Members of enums go to fresh classes, members of other classes stay where they are
  (`Unboxing.steps_dissolveAll`, `Retyping.steps_retypeAll`). Only initializers of classes that
  are not enums are padded, as their definitions say (`Retyping.forall₂_keeps`): each gets a
  prototype that no initializer of its class has, so no later one overwrites what was recorded
  for it.
-/
import DexShrinker.Proofs.Descriptor
import DexShrinker.Proofs.Lens.Rules
import DexShrinker.Proofs.Unboxing.Enums
import DexShrinker.Proofs.Unboxing.Utilities
import Mathlib.Logic.Relation

namespace DexShrinker

open Std (TreeMap LawfulEqOrd)
open Recorder (Rules)

/-! ### Types with enums taken for numbers -/

theorem Descriptor.base_unbox (t : Descriptor) (enums : TypeSet) : (t.unbox enums).base = if enums.contains t.base then .int else t.base := by
  have hflat : (if enums.contains t.base then Descriptor.int else t.base).isArray = false := by
    split
    · rfl
    · exact t.isArray_base
  rw [unbox, mapBase]
  split
  · next harray => exact base_replaceBase harray hflat
  · next harray =>
    have hbase : t.base = t := base_of_isArray (Bool.eq_false_iff.2 harray)
    rw [hbase] at hflat ⊢
    exact base_of_isArray hflat

/-- No enum is left in a type. -/
theorem Descriptor.contains_base_unbox {enums : TypeSet} (hint : enums.contains .int = false) (t : Descriptor) :
    enums.contains (t.unbox enums).base = false := by
  rw [base_unbox]
  split
  · exact hint
  · next h => exact Bool.eq_false_iff.2 h

theorem Prototype.mentions_unbox {enums : TypeSet} (hint : enums.contains .int = false) (q : Prototype) : (q.unbox enums).mentions enums = false := by
  refine List.any_eq_false.2 fun t ht => ?_
  obtain ⟨t₀, rfl⟩ : ∃ t₀ : Descriptor, t = t₀.unbox enums := by
    rcases List.mem_cons.1 ht with rfl | ht
    · exact ⟨_, rfl⟩
    · obtain ⟨t₀, -, rfl⟩ := List.mem_map.1 ht
      exact ⟨t₀, rfl⟩
  simp [Descriptor.contains_base_unbox hint]

namespace Unboxing

/-! ### Steps -/

/-- Utilities are put into classes of such types: class types that no class has. -/
structure Fresh (p : Program) (t : Descriptor) : Prop where
  isClass : t.isClass = true
  not_mem : t ∉ p.classes.map ClassDef.type

theorem isClass_uniqueType (p : Program) {candidate : String → Descriptor} (h : ∀ n, (candidate n).isClass = true) :
    (Utility.uniqueType p candidate).isClass = true := h _

theorem fresh_of_sharedUtility {p : Program} {first : Descriptor} {maxSize : Nat} {u : SharedUtility}
    (h : SharedUtility.ofProgram p first maxSize = .ok u) : Fresh p u.type := by
  refine ⟨?_, SharedUtility.type_not_mem h⟩
  unfold SharedUtility.ofProgram at h
  split at h
  · cases h
  · cases h
    exact isClass_uniqueType p fun n => Descriptor.isClass_ofBinaryName _

theorem fresh_of_localUtility {p : Program} {t : Descriptor} {u : LocalUtility} (h : LocalUtility.ofProgram p t = .ok u) : Fresh p u.type := by
  refine ⟨?_, LocalUtility.type_not_mem h⟩
  unfold LocalUtility.ofProgram at h
  dsimp only at h
  split at h
  · cases h
  · next first hfirst =>
    cases h
    obtain ⟨name, hname, -⟩ := Option.map_eq_some_iff.1 hfirst
    refine isClass_uniqueType p fun n => ?_
    rw [Descriptor.withSuffix?, hname]
    exact Descriptor.isClass_ofBinaryName _

theorem fresh_of_localUtilities {p : Program} {enums : List Descriptor} {locals : TypeMap LocalUtility}
    (h : localUtilities p enums = .ok locals) {t : Descriptor} {u : LocalUtility} (hu : locals[t]? = some u) : Fresh p u.type := by
  refine foldlM_preserves (P := fun out : TypeMap LocalUtility => ∀ (t : Descriptor) (u : LocalUtility), out[t]? = some u → Fresh p u.type)
    ?_ (fun t u hu => by simp at hu) h t u hu
  intro out t _ out' hout hstep t' u' hu'
  obtain ⟨u, hu, hstep⟩ := bind_eq_ok.1 hstep
  cases hstep
  rw [TreeMap.getElem?_insert] at hu'
  split at hu'
  · cases hu'
    exact fresh_of_localUtility hu
  · exact hout t' u' hu'

/-- The prototypes that the method `m` may get. -/
inductive MovesProto (enums : TypeSet) (shared : Descriptor) (m : MethodDef) (new : Prototype) : Prop
  | retyped (hreturn : new.returnType = m.ref.proto.returnType.unbox enums)
      (hparameters : ∀ t ∈ new.parameters, t = shared ∨ ∃ t₀ : Descriptor, t = t₀.unbox enums) : MovesProto enums shared m new
  | valueOf (hold : enums.contains m.ref.proto.returnType = true) (hnew : new = ⟨.int, [.string]⟩) : MovesProto enums shared m new
  | classInitializer (hinit : m.isClassInitializer = true) (hnew : new = .void) : MovesProto enums shared m new

/-- **One thing that unboxing records**, where `padded` are the definitions that may be padded. -/
inductive Step (p : Program) (enums : TypeSet) (shared : Descriptor) (padded : MethodRef → Prop) : Recorder → Recorder → Prop
  | enum (r : Recorder) {c : ClassDef} (hc : c ∈ p.programClasses) (henum : enums.contains c.type = true) :
      Step p enums shared padded r (r.moveType c.type .int)
  | field (r : Recorder) {c : ClassDef} (hc : c ∈ p.programClasses) {f : FieldDef} (hf : f ∈ c.fields) {new : FieldRef}
      (hplace : Fresh p new.holder ∨ (new.holder = f.ref.holder ∧ enums.contains c.type = false ∧ f.ref ≠ new))
      (htype : new.type = f.ref.type.unbox enums) : Step p enums shared padded r (r.moveField f.ref new)
  | method (r : Recorder) {c : ClassDef} (hc : c ∈ p.programClasses) {m : MethodDef} (hm : m ∈ c.methods) {new : MethodRef}
      (hplace : Fresh p new.holder ∨ (new.holder = m.ref.holder ∧ enums.contains c.type = false ∧ m.ref ≠ new))
      (hproto : MovesProto enums shared m new.proto) : Step p enums shared padded r (r.moveMethod m.ref new)
  | invokeKind (r : Recorder) (m : MethodRef) (kind : InvokeKind) : Step p enums shared padded r (r.recordInvokeKind m kind)
  | definition (r : Recorder) {m : MethodRef} (hm : padded m) (n : Nat) : Step p enums shared padded r
      (r.recordDefinition m ((List.replicate n (ExtraParameter.unusedNull shared)).foldl ProtoChanges.addParameter .none))

abbrev Steps (p : Program) (enums : TypeSet) (shared : Descriptor) (padded : MethodRef → Prop) : Recorder → Recorder → Prop :=
  Relation.ReflTransGen (Step p enums shared padded)

variable {p : Program} {enums : TypeSet} {shared : Descriptor} {padded padded' : MethodRef → Prop} {r r' : Recorder}

theorem Step.mono (hmono : ∀ m, padded m → padded' m) (h : Step p enums shared padded r r') : Step p enums shared padded' r r' := by
  cases h with
  | enum hc henum => exact .enum r hc henum
  | field hc hf hplace htype => exact .field r hc hf hplace htype
  | method hc hm hplace hproto => exact .method r hc hm hplace hproto
  | invokeKind m kind => exact .invokeKind r m kind
  | definition hm n => exact .definition r (hmono _ hm) n

/-- Steps keep what was recorded before. -/
theorem Steps.grows (h : Steps p enums shared padded r r') : r.Grows r' := by
  induction h with
  | refl => exact .refl r
  | tail _ hstep ih =>
    refine ih.trans ?_
    cases hstep with
    | enum => exact Recorder.grows_moveType _ _ _
    | field => exact Recorder.grows_moveField _ _ _
    | method => exact Recorder.grows_moveMethod _ _ _
    | invokeKind => exact Recorder.grows_recordInvokeKind _ _ _
    | definition => exact Recorder.grows_recordDefinition _ _ _

/-- A recorder obeys all rules that the steps do. -/
theorem Steps.obeys {R : Rules} {kind : LayerKind} (h : Steps p enums shared padded (Recorder.start kind) r)
    (hfield : ∀ c ∈ p.programClasses, ∀ f ∈ c.fields, ∀ new : FieldRef, f.ref ≠ new → new.type = f.ref.type.unbox enums →
      Fresh p new.holder ∨ (new.holder = f.ref.holder ∧ enums.contains c.type = false ∧ f.ref ≠ new) → R.field f.ref new)
    (hmethod : ∀ c ∈ p.programClasses, ∀ m ∈ c.methods, ∀ new : MethodRef, m.ref ≠ new → MovesProto enums shared m new.proto →
      Fresh p new.holder ∨ (new.holder = m.ref.holder ∧ enums.contains c.type = false ∧ m.ref ≠ new) → R.method m.ref new)
    (hdefinition : ∀ m, padded m → ∀ changes : ProtoChanges, changes.arguments.isEmpty = true → (∀ e ∈ changes.extra, e.type = shared) →
      R.definition m changes) : r.Obeys R := by
  induction h with
  | refl => exact Recorder.obeys_start R kind
  | tail _ hstep ih =>
    cases hstep with
    | enum hc henum => exact ih.moveType _ _
    | field hc hf hplace htype => exact ih.moveField fun hne => hfield _ hc _ hf _ hne htype hplace
    | method hc hm hplace hproto => exact ih.moveMethod fun hne => hmethod _ hc _ hm _ hne hproto hplace
    | invokeKind m kind => exact ih.recordInvokeKind m kind
    | definition hm n =>
      refine ih.recordDefinition fun _ => ?_
      rw [ProtoChanges.foldl_addParameter]
      refine hdefinition _ hm _ TreeMap.isEmpty_emptyc fun e he => ?_
      rw [List.eq_of_mem_replicate he]
      rfl

/-- Only enums move, to numbers, which stand for none of them, and calls change nothing of their own. -/
structure Numbers (enums : TypeSet) (r : Recorder) : Prop where
  types : ∀ t t' : Descriptor, r.moves.types[t]? = some t' → enums.contains t = true ∧ t' = .int
  formerTypes : ∀ t : Descriptor, r.moves.formerTypes[t]? = none
  callChanges : ∀ m : MethodRef, r.moves.callChanges[m]? = none

theorem Numbers.moveType (h : Numbers enums r) {t : Descriptor} (ht : enums.contains t = true) : Numbers enums (r.moveType t .int) := by
  have hmoved (t₁ t' : Descriptor) (hget : (r.moves.types.insert t .int)[t₁]? = some t') : enums.contains t₁ = true ∧ t' = .int := by
    rw [TreeMap.getElem?_insert] at hget
    split at hget
    · next heq =>
      cases hget
      rw [← LawfulEqOrd.eq_of_compare heq]
      exact ⟨ht, rfl⟩
    · exact h.types t₁ t' hget
  simp only [Recorder.moveType, show Descriptor.int.isReference = false by rfl, Bool.false_eq_true, if_false]
  split
  · exact h
  · split
    · split
      · exact h
      · exact ⟨h.types, h.formerTypes, h.callChanges⟩
    · exact ⟨hmoved, h.formerTypes, h.callChanges⟩

theorem Steps.numbers {kind : LayerKind} (h : Steps p enums shared padded (Recorder.start kind) r) : Numbers enums r := by
  induction h with
  | refl => exact ⟨fun t t' hget => by simp [Recorder.start] at hget, fun t => by simp [Recorder.start], fun m => by simp [Recorder.start]⟩
  | @tail r _ _ hstep ih =>
    cases hstep with
    | enum hc henum => exact ih.moveType henum
    | @field c hc f hf new hplace htype =>
      obtain ⟨_, _, _, heq⟩ := r.exists_moveField f.ref new
      rw [heq]
      exact ⟨ih.types, ih.formerTypes, ih.callChanges⟩
    | @method c hc m hm new hplace hproto =>
      obtain ⟨_, _, _, heq⟩ := r.exists_moveMethod m.ref new
      rw [heq]
      exact ⟨ih.types, ih.formerTypes, ih.callChanges⟩
    | invokeKind m kind => exact ⟨ih.types, ih.formerTypes, ih.callChanges⟩
    | @definition m hm n =>
      obtain ⟨_, heq⟩ := r.exists_recordDefinition m ((List.replicate n (ExtraParameter.unusedNull shared)).foldl ProtoChanges.addParameter .none)
      rw [heq]
      exact ⟨ih.types, ih.formerTypes, ih.callChanges⟩

theorem Steps.mono (hmono : ∀ m, padded m → padded' m) (h : Steps p enums shared padded r r') : Steps p enums shared padded' r r' :=
  h.lift id fun _ _ => Step.mono hmono

end Unboxing

/-! ### Enums -/

namespace LocalUtility

open Unboxing

variable {p : Program} {enums : TypeSet} {shared : Descriptor} {padded : MethodRef → Prop} {u : LocalUtility} {enum : Descriptor}
  {c : ClassDef} {s s' : Filling}

theorem movesProto_movedSignature (enums : TypeSet) (shared enum : Descriptor) (m : MethodDef) :
    MovesProto enums shared m (movedSignature enums enum m).proto := by
  have hparameters (q : Prototype) (t : Descriptor) (ht : t ∈ (q.unbox enums).parameters) : t = shared ∨ ∃ t₀ : Descriptor, t = t₀.unbox enums := by
    obtain ⟨t₀, -, rfl⟩ := List.mem_map.1 ht
    exact .inr ⟨t₀, rfl⟩
  unfold movedSignature
  split
  · exact .retyped rfl (hparameters _)
  · exact .retyped rfl (hparameters _)

theorem steps_moveMethod (hu : Fresh p u.type) (hc : c ∈ p.programClasses) {m : MethodDef} (hm : m ∈ c.methods)
    (hmove : u.moveMethod enums enum s m = .ok s') : Steps p enums shared padded s.recorder s'.recorder := by
  obtain ⟨code, -, hmove⟩ := bind_eq_ok.1 hmove
  cases hmove
  dsimp only
  split
  · exact .single (.method _ hc hm (.inl hu) (movesProto_movedSignature enums shared enum m))
  · exact .tail (.single (.method _ hc hm (.inl hu) (movesProto_movedSignature enums shared enum m))) (.invokeKind _ _ _)

theorem steps_fill (hu : Fresh p u.type) (hc : c ∈ p.programClasses) (henum : enums.contains enum = true) {data : EnumData} {m : MethodDef}
    (hm : m ∈ c.methods) (hfill : u.fill enums enum data s m = .ok s') : Steps p enums shared padded s.recorder s'.recorder := by
  unfold fill at hfill
  split at hfill
  · cases hfill
    exact .refl
  · split at hfill
    · next hvalueOf =>
      obtain ⟨d, hd, hfill⟩ := bind_eq_ok.1 hfill
      cases hfill
      have href := (assembled_of_valueOfDef shared hd).1
      refine .single (.method s.recorder hc hm (.inl (by rw [href]; exact hu)) (.valueOf ?_ (by rw [href]; rfl)))
      simp only [MethodRef.isEnumValueOf, Bool.and_eq_true, beq_iff_eq] at hvalueOf
      rw [hvalueOf.2]
      exact henum
    · exact steps_moveMethod hu hc hm hfill

theorem steps_addClassInitializer (hu : Fresh p u.type) (hc : c ∈ p.programClasses) (body : Option Body) :
    Steps p enums shared padded s.recorder (u.addClassInitializer c body s).recorder := by
  unfold addClassInitializer
  split
  · next old hold =>
    refine .single (.method s.recorder hc (List.mem_of_find?_eq_some hold) (.inl hu) (.classInitializer ?_ rfl))
    simpa using List.find?_some hold
  · exact .refl

theorem steps_dissolve {d : ClassDef} {fixed : FixedEnum} {r r' : Recorder} {more : List MethodRef} (hu : Fresh p u.type)
    (hc : c ∈ p.programClasses) (henum : enums.contains c.type = true) (h : u.dissolve enums c fixed r = .ok (d, more, r')) :
    Steps p enums shared padded r r' := by
  unfold dissolve at h
  obtain ⟨name, -, h⟩ := bind_eq_ok.1 h
  obtain ⟨s₁, hgetters, h⟩ := bind_eq_ok.1 h
  obtain ⟨s₂, hfill, h⟩ := bind_eq_ok.1 h
  cases h
  have h₁ : Steps p enums shared padded r s₁.recorder := by
    refine foldlM_preserves (P := fun s : Filling => Steps p enums shared padded r s.recorder) ?_ (.single (.enum r hc henum)) hgetters
    intro s x _ s' hs hstep
    obtain ⟨getter, -, hstep⟩ := bind_eq_ok.1 hstep
    cases hstep
    exact hs
  refine foldlM_preserves (P := fun s : Filling => Steps p enums shared padded r s.recorder)
    (fun s m hm s' hs hstep => hs.trans (steps_fill hu hc henum hm hstep)) (.trans ?_ (steps_addClassInitializer hu hc _)) hfill
  refine List.foldlRecOn (motive := Steps p enums shared padded r) _ _ h₁ fun r hr x hx => hr.tail ?_
  have hmoved : List.Forall₂ (fun f g : FieldDef => f ∈ c.fields ∧ Fresh p g.ref.holder ∧ g.ref.type = f.ref.type.unbox enums) c.staticFields
      (c.staticFields.map (u.movedField enums)) := by
    rw [List.forall₂_map_right_iff]
    exact List.forall₂_same.2 fun f hf => ⟨(List.mem_filter.1 hf).1, hu, rfl⟩
  obtain ⟨hf, hholder, htype⟩ := (List.forall₂_iff_zip.1 hmoved).2 hx
  exact .field r hc hf (.inl hholder) htype

end LocalUtility

namespace Unboxing

variable {p : Program} {enums : TypeSet} {shared : Descriptor} {padded : MethodRef → Prop}

theorem steps_dissolveAll {fixed : Fixed} {locals : TypeMap LocalUtility} {r r' : Recorder} {classes : List ClassDef}
    {methods : List MethodRef} (hlocals : ∀ (t : Descriptor) (u : LocalUtility), locals[t]? = some u → Fresh p u.type)
    (hclasses : ∀ t ∈ fixed, ∀ c, p.class? t = some c → c ∈ p.programClasses ∧ enums.contains c.type = true)
    (h : dissolveAll p enums fixed locals r = .ok (classes, methods, r')) : Steps p enums shared padded r r' := by
  refine dissolveAll_preserves (P := fun _ _ r' => Steps p enums shared padded r r') ?_ .refl h
  intro t f c u hf hc hu _ _ _ _ _ _ hrun hsteps
  obtain ⟨hprogram, henum⟩ := hclasses t (mem_of_getElem? hf) c hc
  exact hsteps.trans (LocalUtility.steps_dissolve (hlocals t u hu) hprogram henum hrun)

end Unboxing

/-! ### Other classes -/

namespace Retyping

open Unboxing

variable {p : Program} {enums : TypeSet} {shared : Descriptor} {r : Recorder} {s : Retyping} {c : ClassDef}

/-- The retyping is one for the given enums, pads with the given type and has recorded what it may since `r`. -/
structure Lawful (p : Program) (enums : TypeSet) (shared : Descriptor) (r : Recorder) (s : Retyping) : Prop where
  enums_eq : s.enums = enums
  padding_eq : s.padding = shared
  steps : Steps p enums shared (·.isInstanceInitializer = true) r s.recorder

theorem lawful_name (h : s.Lawful p enums shared r) (a : Signature) : (s.name a).2.Lawful p enums shared r := by
  unfold name
  split <;> exact ⟨h.enums_eq, h.padding_eq, h.steps⟩

theorem lawful_method (hint : enums.contains .int = false) (h : s.Lawful p enums shared r) (hc : c ∈ p.programClasses)
    (hno : enums.contains c.type = false) {m : MethodDef} (hm : m ∈ c.methods) (hholder : m.ref.holder = c.type) (protos : List Prototype) :
    (s.method c.type protos m).2.2.Lawful p enums shared r := by
  have hunbox (t : Descriptor) (ht : t ∈ (m.ref.proto.unbox enums).parameters) : t = shared ∨ ∃ t₀ : Descriptor, t = t₀.unbox enums := by
    obtain ⟨t₀, -, rfl⟩ := List.mem_map.1 ht
    exact .inr ⟨t₀, rfl⟩
  unfold method
  cases hmentions : m.ref.proto.mentions s.enums with
  | false => exact h
  | true =>
    rw [h.enums_eq] at hmentions
    have hchanged : m.ref.proto.unbox enums ≠ m.ref.proto := by
      intro heq
      have hnone := Prototype.mentions_unbox hint m.ref.proto
      rw [heq, hmentions] at hnone
      cases hnone
    cases hinit : m.isInstanceInitializer with
    | true =>
      simp only [Bool.not_true, Bool.false_eq_true, if_false, if_true, initializer, h.enums_eq, h.padding_eq]
      generalize firstFree (fun n => (m.ref.proto.unbox enums).append (List.replicate n shared)) protos = n
      refine ⟨rfl, rfl, .tail (.tail h.steps (.definition _ hinit _)) (.method _ hc hm (.inr ⟨rfl, hno, ?_⟩) (.retyped rfl fun t ht => ?_))⟩
      · intro heq
        have hproto := congrArg MethodRef.proto heq
        have hlength := congrArg (fun q : Prototype => q.parameters.length) hproto
        simp only [Prototype.append, Prototype.unbox, Prototype.mapTypes, List.length_append, List.length_map, List.length_replicate] at hlength
        obtain rfl : n = 0 := by omega
        exact hchanged (hproto.trans (by simp [Prototype.append])).symm
      · rcases List.mem_append.1 ht with ht | ht
        · exact hunbox t ht
        · exact .inl (List.eq_of_mem_replicate ht)
    | false =>
      simp only [Bool.not_true, Bool.false_eq_true, if_false]
      have hname := lawful_name h m.ref.signature
      refine ⟨hname.enums_eq, hname.padding_eq, hname.steps.tail (.method _ hc hm (.inr ⟨hholder.symm, hno, fun heq => ?_⟩) ?_)⟩
      · rw [hname.enums_eq] at heq
        exact hchanged (congrArg MethodRef.proto heq).symm
      · rw [hname.enums_eq]
        exact .retyped rfl hunbox

theorem lawful_field (h : s.Lawful p enums shared r) (hc : c ∈ p.programClasses) (hno : enums.contains c.type = false) {f : FieldDef}
    (hf : f ∈ c.fields) : (s.field f).2.Lawful p enums shared r := by
  unfold field
  dsimp only
  split
  · exact h
  · next hne => exact ⟨h.enums_eq, h.padding_eq, h.steps.tail (.field _ hc hf (.inr ⟨rfl, hno, Ne.symm hne⟩) (by rw [h.enums_eq]))⟩

theorem lawful_classDef (hint : enums.contains .int = false) (h : s.Lawful p enums shared r) (hc : c ∈ p.programClasses)
    (hno : enums.contains c.type = false) (hhoused : ∀ m ∈ c.methods, m.ref.holder = c.type) : (s.classDef c).2.Lawful p enums shared r := by
  have hfields : (c.fields.foldl addField ([], s)).2.Lawful p enums shared r :=
    List.foldlRecOn (motive := fun x : List FieldDef × Retyping => x.2.Lawful p enums shared r) _ _ h
      fun _ hx f hf => lawful_field hx hc hno hf
  exact List.foldlRecOn (motive := fun x : List MethodDef × List Prototype × Retyping => x.2.2.Lawful p enums shared r) c.methods
    (addMethod c.type) hfields fun x hx m hm => lawful_method hint hx hc hno hm (hhoused m hm) x.2.1

/-- **What is recorded in the end.** -/
theorem steps_retypeAll (hint : enums.contains .int = false) (hhoused : p.Housed) (shared : Descriptor) (r : Recorder) :
    Steps p enums shared (·.isInstanceInitializer = true) r (retypeAll p enums shared r).2 := by
  have hstart : Lawful p enums shared r
      ⟨enums, shared, (p.programClasses.flatMap ClassDef.methods).map (·.ref.signature), ∅, r⟩ := ⟨rfl, rfl, .refl⟩
  refine (List.foldlRecOn (motive := fun x : List ClassDef × Retyping => x.2.Lawful p enums shared r)
    (p.programClasses.filter (!enums.contains ·.type)) addClass (b := ([], _)) hstart fun _ hx c hc => ?_).steps
  obtain ⟨hc, hno⟩ := List.mem_filter.1 hc
  exact lawful_classDef hint hx hc (by simpa using hno) (hhoused c (Program.mem_classes_of_mem_programClasses hc))

/-! ### Padded initializers -/

variable {holder : Descriptor} {initial : List Prototype}

/-- What happened to the definition of `m`, as far as it is recorded. -/
abbrev definition? (s : Retyping) (m : MethodRef) : Option ProtoChanges := s.recorder.moves.definitionChanges[m]?

/-- The method `m'` of `holder` has the body of `m` and the parameters that the layer adds to it. -/
structure Keeps (n : Renaming) (holder : Descriptor) (m m' : MethodDef) : Prop where
  code : m'.code = m.code
  holder_eq : m'.ref.holder = holder
  sizes : n.Sizes m m'

theorem Keeps.congr {n n' : Renaming} {m m' : MethodDef} (h : Keeps n holder m m')
    (heq : n'.definitionChanges[m'.ref]? = n.definitionChanges[m'.ref]?) : Keeps n' holder m m' :=
  ⟨h.code, h.holder_eq, h.sizes.congr heq⟩

/-- Only initializers are padded, and no name that was given is theirs. -/
structure Tidy (s : Retyping) : Prop where
  padded : ∀ (m : MethodRef) (changes : ProtoChanges), s.definition? m = some changes → m.isInstanceInitializer = true
  names : ∀ (a : Signature) (n : String), s.renamed[a]? = some n → n ≠ MethodRef.initName

/-- The prototypes of initializers in use and the state while the methods of `holder` are gone through, where `initial` are
    the prototypes that were in use before: those that belong to padded initializers have come since. -/
structure Proper (holder : Descriptor) (initial : List Prototype) (x : List Prototype × Retyping) : Prop extends x.2.Tidy where
  subset : initial ⊆ x.1
  within : ∀ (m : MethodRef) (changes : ProtoChanges), x.2.definition? m = some changes → m.holder = holder →
    m.proto ∈ x.1 ∧ m.proto ∉ initial

/-- A step that leaves alone the definitions of other classes and of initializers whose prototypes are in use. -/
structure Advances (holder : Descriptor) (x y : List Prototype × Retyping) : Prop where
  enums : y.2.enums = x.2.enums
  protos : x.1 ⊆ y.1
  spares : ∀ m : MethodRef, (m.holder = holder → m.isInstanceInitializer = true → m.proto ∈ x.1) → y.2.definition? m = x.2.definition? m

theorem Advances.refl (x : List Prototype × Retyping) : Advances holder x x := ⟨rfl, List.Subset.refl _, fun _ _ => rfl⟩

theorem Advances.trans {x y z : List Prototype × Retyping} (h : Advances holder x y) (h' : Advances holder y z) : Advances holder x z :=
  ⟨h'.enums.trans h.enums, List.Subset.trans h.protos h'.protos,
    fun m hm => (h'.spares m fun hholder hinit => h.protos (hm hholder hinit)).trans (h.spares m hm)⟩

theorem tidy_name (h : s.Tidy) (a : Signature) : (s.name a).2.Tidy ∧ (s.name a).1 ≠ MethodRef.initName := by
  unfold name
  split
  · next n hn => exact ⟨h, h.names a n hn⟩
  · dsimp only
    generalize hn : freshName (a.name ++ unboxedSuffix) ((s.taken.filter (·.proto == a.proto.unbox s.enums)).map Signature.name) = n
    have hne : n ≠ MethodRef.initName := by
      rintro rfl
      -- The name is too long.
      have hlength := length_le_freshName (a.name ++ unboxedSuffix) ((s.taken.filter (·.proto == a.proto.unbox s.enums)).map Signature.name)
      rw [hn, String.length_append, show unboxedSuffix.length = 14 by decide, show MethodRef.initName.length = 6 by decide] at hlength
      omega
    refine ⟨⟨h.padded, fun b k hb => ?_⟩, hne⟩
    rw [TreeMap.getElem?_insert] at hb
    split at hb
    · cases hb
      exact hne
    · exact h.names b k hb

/-- The prototypes that an initializer is padded to differ. -/
theorem append_replicate_injective (q : Prototype) (t : Descriptor) : Function.Injective fun n : Nat => q.append (List.replicate n t) := by
  intro i j h
  have hlength := congrArg (fun q : Prototype => q.parameters.length) h
  simp only [Prototype.append, List.length_append, List.length_replicate] at hlength
  omega

/-- What the retyping of an initializer does. -/
theorem initializer_spec (s : Retyping) (m : MethodDef) (protos : List Prototype) :
    ∃ (n : Nat) (ref : MethodRef) (changes : ProtoChanges), s.initializer m protos = (ref, { s with recorder := s.recorder.recordDefinition ref changes }) ∧
      changes = (List.replicate n (ExtraParameter.unusedNull s.padding)).foldl ProtoChanges.addParameter .none ∧
      ref.holder = m.ref.holder ∧ ref.name = m.ref.name ∧ ref.proto ∉ protos ∧
      ref.proto.parameters.length = m.ref.proto.parameters.length + n := by
  refine ⟨_, _, _, rfl, rfl, rfl, rfl, firstFree_not_mem (append_replicate_injective _ _) protos, ?_⟩
  simp [Prototype.append, Prototype.unbox, Prototype.mapTypes]

/-- **One method.** -/
theorem keeps_method {x : List Prototype × Retyping} (h : Proper holder initial x) {m : MethodDef} (hholder : m.ref.holder = holder)
    (hinitial : m.isInstanceInitializer = true → m.ref.proto.mentions x.2.enums = false → m.ref.proto ∈ initial) :
    Proper holder initial (x.2.method holder x.1 m).2 ∧ Advances holder x (x.2.method holder x.1 m).2 ∧
      Keeps (x.2.method holder x.1 m).2.2.recorder.moves holder m (x.2.method holder x.1 m).1 ∧
      ((x.2.method holder x.1 m).1.isInstanceInitializer = true →
        (x.2.method holder x.1 m).1.ref.proto ∈ (x.2.method holder x.1 m).2.1) := by
  obtain ⟨protos, s⟩ := x
  have hunpadded (ref : MethodRef) (n : Renaming) (hh : ref.holder = holder) (hnone : n.definitionChanges[ref]? = none)
      (hlength : ref.proto.parameters.length = m.ref.proto.parameters.length) : Keeps n holder m { m with ref := ref } := by
    refine ⟨rfl, hh, 0, Renaming.pads_of_getElem? hnone, ?_⟩
    apply MethodDef.length_argumentTypes
    · rfl
    · exact hlength
  -- A method that is not an initializer is not padded.
  have hnone {s' : Retyping} (h' : s'.Tidy) {m' : MethodRef} (hno : m'.isInstanceInitializer = false) : s'.definition? m' = none := by
    refine Option.eq_none_iff_forall_not_mem.2 fun changes hget => ?_
    rw [h'.padded m' changes hget] at hno
    cases hno
  dsimp only
  unfold method
  cases hmentions : m.ref.proto.mentions s.enums with
  | false =>
    refine ⟨h, .refl _, hunpadded m.ref _ hholder ?_ rfl, fun hinit => h.subset (hinitial hinit hmentions)⟩
    cases hinit : m.isInstanceInitializer with
    | false => exact hnone h.toTidy hinit
    | true =>
      refine Option.eq_none_iff_forall_not_mem.2 fun changes hget => ?_
      exact (h.within m.ref changes hget hholder).2 (hinitial hinit hmentions)
  | true =>
    cases hinit : m.isInstanceInitializer with
    | true =>
      obtain ⟨n, ref, changes, heq, hchanges, hrefHolder, hname, hfree, hlength⟩ := initializer_spec s m protos
      simp only [Bool.not_true, Bool.false_eq_true, if_false, if_true, heq]
      rw [hholder] at hrefHolder
      have href : ref.isInstanceInitializer = true := by
        rw [MethodRef.isInstanceInitializer, hname]
        exact hinit
      have hentry {x : MethodRef} {found : ProtoChanges}
          (hget : ((s.recorder.recordDefinition ref changes).moveMethod m.ref ref).moves.definitionChanges[x]? = some found) :
          x = ref ∨ s.definition? x = some found := by
        rw [Recorder.definitionChanges_moveMethod, Recorder.getElem?_recordDefinition] at hget
        split at hget
        · next heq => exact .inl heq.1.symm
        · exact .inr hget
      refine ⟨⟨⟨fun x found hget => ?_, h.names⟩, fun q hq => List.mem_append_left _ (h.subset hq), fun x found hget hx => ?_⟩,
        ⟨rfl, List.subset_append_left _ _, fun x hx => ?_⟩, ⟨rfl, hrefHolder, n, ?_, ?_⟩,
        fun _ => List.mem_append_right _ (List.mem_singleton_self _)⟩
      · rcases hentry hget with rfl | hold
        · exact href
        · exact h.padded x found hold
      · rcases hentry hget with rfl | hold
        · exact ⟨List.mem_append_right _ (List.mem_singleton_self _), fun hmem => hfree (h.subset hmem)⟩
        · obtain ⟨hmem, hnew⟩ := h.within x found hold hx
          exact ⟨List.mem_append_left _ hmem, hnew⟩
      · dsimp only [definition?]
        rw [Recorder.definitionChanges_moveMethod, Recorder.getElem?_recordDefinition, if_neg]
        rintro ⟨rfl, -⟩
        exact hfree (hx hrefHolder href)
      · have hpads := Recorder.pads_recordDefinition (r := s.recorder) (m := ref)
          (Option.eq_none_iff_forall_not_mem.2 fun changes hget => hfree (h.within ref changes hget hrefHolder).1)
          (List.replicate n (ExtraParameter.unusedNull s.padding))
        rw [List.length_replicate, ← hchanges] at hpads
        exact hpads.congr (by rw [Recorder.definitionChanges_moveMethod])
      · apply MethodDef.length_argumentTypes
        · rfl
        · exact hlength
    | false =>
      simp only [Bool.not_true, Bool.false_eq_true, if_false]
      obtain ⟨htidy, hne⟩ := tidy_name h.toTidy m.ref.signature
      have hrecorder := s.recorder_name m.ref.signature
      have henums : (s.name m.ref.signature).2.enums = s.enums := by
        unfold name
        split <;> rfl
      generalize (s.name m.ref.signature).1 = name at hne
      generalize (s.name m.ref.signature).2 = s₁ at htidy hrecorder henums
      have hdefinition (r : MethodRef) (x : MethodRef) :
          (s₁.recorder.moveMethod m.ref r).moves.definitionChanges[x]? = s.definition? x := by
        rw [Recorder.definitionChanges_moveMethod, hrecorder]
      have hno : (⟨holder, name, m.ref.proto.unbox s₁.enums⟩ : MethodRef).isInstanceInitializer = false := by
        simpa [MethodRef.isInstanceInitializer] using hne
      refine ⟨⟨⟨fun x changes hget => ?_, htidy.names⟩, h.subset, fun x changes hget => ?_⟩, ⟨henums, List.Subset.refl _, fun x _ => ?_⟩,
        hunpadded _ _ rfl ?_ ?_, fun hyes => ?_⟩
      · exact h.padded x changes (by rwa [definition?, hdefinition] at hget)
      · exact h.within x changes (by rwa [definition?, hdefinition] at hget)
      · exact hdefinition _ x
      · rw [hdefinition]
        exact hnone h.toTidy hno
      · simp [Prototype.unbox, Prototype.mapTypes]
      · cases hno.symm.trans hyes

theorem keeps_foldl_addMethod {x : List Prototype × Retyping} (h : Proper holder initial x) {ms : List MethodDef}
    (hholder : ∀ m ∈ ms, m.ref.holder = holder)
    (hinitial : ∀ m ∈ ms, m.isInstanceInitializer = true → m.ref.proto.mentions x.2.enums = false → m.ref.proto ∈ initial)
    (out : List MethodDef) :
    ∃ ms', (ms.foldl (addMethod holder) (out, x)).1 = out ++ ms' ∧ Proper holder initial (ms.foldl (addMethod holder) (out, x)).2 ∧
      Advances holder x (ms.foldl (addMethod holder) (out, x)).2 ∧
      List.Forall₂ (Keeps (ms.foldl (addMethod holder) (out, x)).2.2.recorder.moves holder) ms ms' := by
  induction ms generalizing x out with
  | nil => exact ⟨[], by simp, h, .refl x, .nil⟩
  | cons m ms ih =>
    rw [List.forall_mem_cons] at hholder hinitial
    obtain ⟨hproper, hadvances, hkeeps, hused⟩ := keeps_method h hholder.1 hinitial.1
    obtain ⟨ms', heq, hproper', hadvances', hforall⟩ := ih hproper hholder.2 (by rw [hadvances.enums]; exact hinitial.2)
      (out ++ [(x.2.method holder x.1 m).1])
    refine ⟨(x.2.method holder x.1 m).1 :: ms', ?_, hproper', hadvances.trans hadvances', .cons (hkeeps.congr ?_) hforall⟩
    · rw [List.foldl_cons]
      exact heq.trans (by simp)
    · exact hadvances'.spares _ fun _ hinit => hused hinit

/-- Fields leave definitions and names alone. -/
theorem definition?_foldl_addField (fs : List FieldDef) (out : List FieldDef) (s : Retyping) :
    (fs.foldl addField (out, s)).2.renamed = s.renamed ∧
      (fs.foldl addField (out, s)).2.recorder.moves.definitionChanges = s.recorder.moves.definitionChanges := by
  refine List.foldlRecOn (motive := fun x : List FieldDef × Retyping => x.2.renamed = s.renamed ∧
    x.2.recorder.moves.definitionChanges = s.recorder.moves.definitionChanges) _ _ ⟨rfl, rfl⟩ fun x hx f _ => ?_
  unfold addField field
  dsimp only
  split
  · exact hx
  · exact ⟨hx.1, by rw [Recorder.definitionChanges_moveField, hx.2]⟩

/-- **One class**, none of whose definitions has been touched. -/
theorem keeps_classDef (h : s.Tidy) {c : ClassDef} (hhoused : ∀ m ∈ c.methods, m.ref.holder = c.type)
    (hnew : ∀ (m : MethodRef) (changes : ProtoChanges), s.definition? m = some changes → m.holder ≠ c.type) :
    (s.classDef c).2.Tidy ∧ (∀ m : MethodRef, m.holder ≠ c.type → (s.classDef c).2.definition? m = s.definition? m) ∧
      List.Forall₂ (Keeps (s.classDef c).2.recorder.moves c.type) c.methods (s.classDef c).1.methods := by
  obtain ⟨hrenamed, hdefinitions⟩ := definition?_foldl_addField c.fields [] s
  have hstart : Proper c.type ((c.instanceInitializers.filter (!·.ref.proto.mentions (c.fields.foldl addField ([], s)).2.enums)).map (·.ref.proto))
      ((c.instanceInitializers.filter (!·.ref.proto.mentions (c.fields.foldl addField ([], s)).2.enums)).map (·.ref.proto),
        (c.fields.foldl addField ([], s)).2) := by
    refine ⟨⟨fun m changes hget => ?_, ?_⟩, List.Subset.refl _, fun m changes hget hholder => ?_⟩
    · exact h.padded m changes (by rwa [definition?, hdefinitions] at hget)
    · rw [hrenamed]
      exact h.names
    · exact absurd hholder (hnew m changes (by rwa [definition?, hdefinitions] at hget))
  obtain ⟨ms', heq, hproper, hadvances, hforall⟩ := keeps_foldl_addMethod hstart hhoused (fun m hm hinit hmentions =>
    List.mem_map.2 ⟨m, List.mem_filter.2 ⟨List.mem_filter.2 ⟨hm, hinit⟩, by rw [hmentions]; rfl⟩, rfl⟩) []
  rw [List.nil_append] at heq
  refine ⟨hproper.toTidy, fun m hm => ?_, ?_⟩
  · exact (hadvances.spares m fun hholder => absurd hholder hm).trans (congrArg (·[m]?) hdefinitions)
  · rw [← heq] at hforall
    exact hforall

/-- The classes, one after the other. -/
theorem keeps_foldl_addClass (h : s.Tidy) {cs : List ClassDef} (hhoused : ∀ c ∈ cs, ∀ m ∈ c.methods, m.ref.holder = c.type)
    (hnodup : (cs.map ClassDef.type).Nodup)
    (hnew : ∀ c ∈ cs, ∀ (m : MethodRef) (changes : ProtoChanges), s.definition? m = some changes → m.holder ≠ c.type) (out : List ClassDef) :
    ∃ es, (cs.foldl addClass (out, s)).1 = out ++ es ∧
      (∀ m : MethodRef, m.holder ∉ cs.map ClassDef.type → (cs.foldl addClass (out, s)).2.definition? m = s.definition? m) ∧
      List.Forall₂ (fun c e => e.type = c.type ∧ e.kind = c.kind ∧
        List.Forall₂ (Keeps (cs.foldl addClass (out, s)).2.recorder.moves c.type) c.methods e.methods) cs es := by
  induction cs generalizing s out with
  | nil => exact ⟨[], by simp, fun _ _ => rfl, .nil⟩
  | cons c cs ih =>
    rw [List.forall_mem_cons] at hhoused hnew
    rw [List.map_cons, List.nodup_cons] at hnodup
    obtain ⟨htidy, hframe, hkeeps⟩ := keeps_classDef h hhoused.1 hnew.1
    have hnew' (d : ClassDef) (hd : d ∈ cs) (m : MethodRef) (changes : ProtoChanges)
        (hget : (s.classDef c).2.definition? m = some changes) : m.holder ≠ d.type := by
      by_cases hholder : m.holder = c.type
      · rw [hholder]
        exact fun heq => hnodup.1 (heq ▸ List.mem_map_of_mem hd)
      · exact hnew.2 d hd m changes (by rwa [hframe m hholder] at hget)
    obtain ⟨es, heq, hframe', hforall⟩ := ih htidy hhoused.2 hnodup.2 hnew' (out ++ [(s.classDef c).1])
    refine ⟨(s.classDef c).1 :: es, ?_, fun m hm => ?_, .cons ⟨rfl, rfl, ?_⟩ hforall⟩
    · rw [List.foldl_cons]
      exact heq.trans (by simp)
    · rw [List.map_cons, List.mem_cons, not_or] at hm
      exact (hframe' m hm.2).trans (hframe m hm.1)
    · refine hkeeps.imp fun m m' hm => hm.congr (hframe' m'.ref ?_)
      rw [hm.holder_eq]
      exact hnodup.1

/-- **All classes that are not enums**: their methods have the bodies they had, and as many more parameters as is
    recorded. Nothing is recorded for methods of other classes. -/
theorem forall₂_keeps (hhoused : p.Housed) (enums : TypeSet) {r : Recorder} (hnone : ∀ m : MethodRef, r.moves.definitionChanges[m]? = none)
    (padding : Descriptor) :
    (∀ m : MethodRef, m.holder ∉ p.classes.map ClassDef.type → (retypeAll p enums padding r).2.moves.definitionChanges[m]? = none) ∧
      List.Forall₂ (fun c e => e.type = c.type ∧ e.kind = c.kind ∧
          List.Forall₂ (Keeps (retypeAll p enums padding r).2.moves c.type) c.methods e.methods)
        (p.programClasses.filter (!enums.contains ·.type)) (retypeAll p enums padding r).1 := by
  have hmem {c : ClassDef} (hc : c ∈ p.programClasses.filter (!enums.contains ·.type)) : c ∈ p.classes :=
    Program.mem_classes_of_mem_programClasses (List.mem_filter.1 hc).1
  have hsublist : (p.programClasses.filter (!enums.contains ·.type)).Sublist p.classes :=
    List.filter_sublist.trans List.filter_sublist
  have hstart : Tidy ⟨enums, padding, (p.programClasses.flatMap ClassDef.methods).map (·.ref.signature), ∅, r⟩ := by
    refine ⟨fun m changes hget => ?_, fun a n hn => ?_⟩
    · cases (hnone m).symm.trans hget
    · simp at hn
  obtain ⟨es, heq, hframe, hforall⟩ := keeps_foldl_addClass hstart (fun c hc => hhoused c (hmem hc))
    ((Program.nodup_types p).sublist (hsublist.map _)) (fun c _ m changes hget => by cases (hnone m).symm.trans hget) []
  rw [List.nil_append] at heq
  refine ⟨fun m hm => (hframe m fun hmem' => hm ?_).trans (hnone m), heq ▸ hforall⟩
  obtain ⟨c, hc, hctype⟩ := List.mem_map.1 hmem'
  exact List.mem_map.2 ⟨c, hmem hc, hctype⟩

end Retyping

end DexShrinker
