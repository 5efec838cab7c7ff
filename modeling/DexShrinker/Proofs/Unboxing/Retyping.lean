/-
  DexShrinker/Proofs/Unboxing/Retyping.lean
  =========================================
  **Names of methods once enums are numbers.**

  A method that names an enum gets a new name, the same for every method of its signature.
  The signature under the new name is one that nothing had before and that no other
  signature is given (`Retyping.Named`). Every step of a retyping keeps what was decided
  before it (`Retyping.Extends`), so in the end each class has its methods in their old
  order, each with the name that its signature was given (`Retyping.forall₂_retypeAll`).
-/
import DexShrinker.Proofs.App.Correspondence
import DexShrinker.Proofs.FreshName
import DexShrinker.Proofs.Lens.Rules
import DexShrinker.Unboxing.Unboxer

namespace DexShrinker

open Std (TreeMap LawfulEqOrd)

theorem length_le_freshName (name : String) (taken : List String) : name.length ≤ (freshName name taken).length := by
  unfold freshName
  split
  · simp only [numberedFresh, numbered, String.length_append]
    omega
  · exact Nat.le_refl _

/-! ### What is recorded -/

namespace Recorder

variable {r : Recorder}

/-- Only types in `T` and methods in `K` are recorded as moved. -/
structure Confined (T : Descriptor → Prop) (K : MethodRef → Prop) (r : Recorder) : Prop where
  types : ∀ t t' : Descriptor, r.moves.types[t]? = some t' → T t
  methods : ∀ m m' : MethodRef, r.moves.methods[m]? = some m' → K m

namespace Confined

variable {T : Descriptor → Prop} {K : MethodRef → Prop}

theorem moveType (h : r.Confined T K) {old : Descriptor} (hold : T old) (new : Descriptor) : (r.moveType old new).Confined T K := by
  have htypes (t t' : Descriptor) (ht : (r.moves.types.insert old new)[t]? = some t') : T t := by
    rw [TreeMap.getElem?_insert] at ht
    split at ht
    · next heq =>
      rw [← LawfulEqOrd.eq_of_compare heq]
      exact hold
    · exact h.types t t' ht
  unfold Recorder.moveType
  -- What a type that is no reference stands for is not remembered.
  split
  all_goals
    split
    · exact ⟨h.types, h.methods⟩
    · split
      · split
        · exact h
        · exact ⟨h.types, h.methods⟩
      · exact ⟨htypes, h.methods⟩

theorem moveField (h : r.Confined T K) (old new : FieldRef) : (r.moveField old new).Confined T K := by
  unfold Recorder.moveField
  split
  · exact ⟨h.types, h.methods⟩
  · split
    · split
      · exact h
      · exact ⟨h.types, h.methods⟩
    · exact ⟨h.types, h.methods⟩

theorem moveMethod (h : r.Confined T K) {old : MethodRef} (hold : K old) (new : MethodRef) :
    (r.moveMethod old new).Confined T K := by
  unfold Recorder.moveMethod
  split
  · exact ⟨h.types, h.methods⟩
  · split
    · split
      · exact h
      · exact ⟨h.types, h.methods⟩
    · refine ⟨h.types, fun m m' hm => ?_⟩
      simp only [TreeMap.getElem?_insert] at hm
      split at hm
      · next heq =>
        rw [← LawfulEqOrd.eq_of_compare heq]
        exact hold
      · exact h.methods m m' hm

theorem recordDefinition (h : r.Confined T K) (new : MethodRef) (changes : ProtoChanges) :
    (r.recordDefinition new changes).Confined T K := by
  unfold Recorder.recordDefinition
  split
  · exact h
  · exact ⟨h.types, h.methods⟩

theorem recordInvokeKind (h : r.Confined T K) (new : MethodRef) (kind : InvokeKind) : (r.recordInvokeKind new kind).Confined T K :=
  ⟨h.types, h.methods⟩

end Confined

end Recorder

/-! ### Names for signatures -/

namespace Retyping

variable {s s' s'' : Retyping} {used : List Signature}

/-- What was decided in `s` still is in `s'`. -/
structure Extends (s s' : Retyping) : Prop where
  enums : s'.enums = s.enums
  renamed : ∀ (a : Signature) (n : String), s.renamed[a]? = some n → s'.renamed[a]? = some n
  recorder : s.recorder.Grows s'.recorder

theorem Extends.refl (s : Retyping) : s.Extends s := ⟨rfl, fun _ _ h => h, .refl _⟩

theorem Extends.trans (h : s.Extends s') (h' : s'.Extends s'') : s.Extends s'' :=
  ⟨h'.enums.trans h.enums, fun a n ha => h'.renamed a n (h.renamed a n ha), h.recorder.trans h'.recorder⟩

/-- The signature of a method that named an enum, under its new name `n`. -/
def renamedSignature (s : Retyping) (a : Signature) (n : String) : Signature := ⟨n, a.proto.unbox s.enums⟩

/-- The names given so far are longer than the old ones, and make signatures that are not among
    those in use before and are different for different signatures. -/
structure Named (used : List Signature) (s : Retyping) : Prop where
  mem_taken : ∀ a ∈ used, a ∈ s.taken
  taken : ∀ (a : Signature) (n : String), s.renamed[a]? = some n → s.renamedSignature a n ∈ s.taken
  fresh : ∀ (a : Signature) (n : String), s.renamed[a]? = some n → s.renamedSignature a n ∉ used
  length : ∀ (a : Signature) (n : String), s.renamed[a]? = some n → a.name.length + unboxedSuffix.length ≤ n.length
  injective : ∀ (a b : Signature) (m n : String), s.renamed[a]? = some m → s.renamed[b]? = some n →
    s.renamedSignature a m = s.renamedSignature b n → a = b

theorem named_of_start {enums : TypeSet} {padding : Descriptor} {taken : List Signature} {r : Recorder} :
    Named taken { enums := enums, padding := padding, taken := taken, recorder := r } where
  mem_taken _ h := h
  taken a n h := by simp at h
  fresh a n h := by simp at h
  length a n h := by simp at h
  injective a b m n h := by simp at h

/-- **A name for a signature.** -/
theorem name_spec (h : s.Named used) (a : Signature) :
    (s.name a).2.renamed[a]? = some (s.name a).1 ∧ s.Extends (s.name a).2 ∧ (s.name a).2.Named used := by
  unfold name
  split
  · next n hn => exact ⟨hn, .refl s, h⟩
  · next hnone =>
    dsimp only
    generalize hn : freshName (a.name ++ unboxedSuffix)
      ((s.taken.filter (·.proto == a.proto.unbox s.enums)).map Signature.name) = n
    have hfresh : s.renamedSignature a n ∉ s.taken := by
      intro hmem
      apply freshName_not_mem (a.name ++ unboxedSuffix)
        ((s.taken.filter (·.proto == a.proto.unbox s.enums)).map Signature.name)
      rw [hn]
      exact List.mem_map.2 ⟨_, List.mem_filter.2 ⟨hmem, by simp [renamedSignature]⟩, rfl⟩
    have hlength : a.name.length + unboxedSuffix.length ≤ n.length := by
      have hle := length_le_freshName (a.name ++ unboxedSuffix)
        ((s.taken.filter (·.proto == a.proto.unbox s.enums)).map Signature.name)
      rwa [hn, String.length_append] at hle
    -- A signature that has a name now had it before, or is `a`.
    have hcases {b : Signature} {k : String} (hb : (s.renamed.insert a n)[b]? = some k) :
        (b = a ∧ k = n) ∨ (b ≠ a ∧ s.renamed[b]? = some k) := by
      rw [TreeMap.getElem?_insert] at hb
      split at hb
      · next heq =>
        cases hb
        exact .inl ⟨(LawfulEqOrd.eq_of_compare heq).symm, rfl⟩
      · next hne =>
        refine .inr ⟨?_, hb⟩
        rintro rfl
        exact hne Std.ReflCmp.compare_self
    have hinsert : (s.renamed.insert a n)[a]? = some n := TreeMap.getElem?_insert_self
    refine ⟨hinsert, ⟨rfl, fun b k hb => ?_, .refl _⟩, ?_⟩
    · simp only [TreeMap.getElem?_insert]
      rw [if_neg]
      · exact hb
      · intro heq
        rw [LawfulEqOrd.eq_of_compare heq, hb] at hnone
        cases hnone
    · constructor
      · intro b hb
        exact List.mem_append_left _ (h.mem_taken b hb)
      · intro b k hb
        rcases hcases hb with ⟨rfl, rfl⟩ | ⟨-, hb⟩
        · exact List.mem_append_right _ (List.mem_singleton_self _)
        · exact List.mem_append_left _ (h.taken b k hb)
      · intro b k hb
        rcases hcases hb with ⟨rfl, rfl⟩ | ⟨-, hb⟩
        · intro hmem
          exact hfresh (h.mem_taken _ hmem)
        · exact h.fresh b k hb
      · intro b k hb
        rcases hcases hb with ⟨rfl, rfl⟩ | ⟨-, hb⟩
        · exact hlength
        · exact h.length b k hb
      · intro b b' k k' hb hb' heq
        change s.renamedSignature b k = s.renamedSignature b' k' at heq
        rcases hcases hb with ⟨rfl, rfl⟩ | ⟨-, hold⟩
        · rcases hcases hb' with ⟨rfl, rfl⟩ | ⟨-, hold'⟩
          · rfl
          · exact absurd (heq.symm ▸ h.taken b' k' hold') hfresh
        · rcases hcases hb' with ⟨rfl, rfl⟩ | ⟨-, hold'⟩
          · exact absurd (heq ▸ h.taken b k hold) hfresh
          · exact h.injective b b' k k' hold hold' heq

/-! ### Methods -/

/-- The method `d'` is what `d` is after the retyping: the same if its prototype names no
    enum, and else under another name. An initializer keeps its name. -/
inductive Retyped (s : Retyping) : MethodDef → MethodDef → Prop
  | same {d : MethodDef} (h : d.ref.proto.mentions s.enums = false) : Retyped s d d
  | initializer {d : MethodDef} {proto : Prototype} (h : d.isInstanceInitializer = true) :
      Retyped s d { d with ref := { d.ref with proto := proto } }
  | renamed {d : MethodDef} {n : String} (h : d.ref.proto.mentions s.enums = true) (hinit : d.isInstanceInitializer = false)
      (hn : s.renamed[d.ref.signature]? = some n)
      (hmoved : s.recorder.conflict = none →
        s.recorder.moves.methods[d.ref]? = some (.ofSignature d.ref.holder (s.renamedSignature d.ref.signature n))) :
      Retyped s d { d with ref := .ofSignature d.ref.holder (s.renamedSignature d.ref.signature n) }

theorem Retyped.mono (h : s.Extends s') {d d' : MethodDef} (hd : s.Retyped d d') : s'.Retyped d d' := by
  cases hd with
  | same hno => exact .same (h.enums.symm ▸ hno)
  | initializer hinit => exact .initializer hinit
  | @renamed n hmentions hinit hn hmoved =>
    have hsignature : s'.renamedSignature d.ref.signature n = s.renamedSignature d.ref.signature n := by
      rw [renamedSignature, renamedSignature, h.enums]
    rw [← hsignature] at hmoved ⊢
    refine .renamed (h.enums.symm ▸ hmentions) hinit (h.renamed _ _ hn) fun hconflict => ?_
    exact h.recorder.methods _ _ (hmoved (h.recorder.conflict hconflict))

/-- A method that names an enum is not called what it was. -/
theorem Retyped.name_ne (h : s.Named used) {d d' : MethodDef} (hd : s.Retyped d d') (hmentions : d.ref.proto.mentions s.enums = true)
    (hinit : d.isInstanceInitializer = false) : d'.ref.name ≠ d.ref.name := by
  cases hd with
  | same hno => rw [hmentions] at hno; cases hno
  | initializer hyes => rw [hinit] at hyes; cases hyes
  | @renamed n _ _ hn =>
    intro heq
    have hlength := h.length _ _ hn
    rw [show n = d.ref.signature.name from heq, show unboxedSuffix.length = 14 by decide] at hlength
    omega

/-- The names are as they should be, and only what may move has moved. -/
structure Sound (used : List Signature) (T : Descriptor → Prop) (K : MethodRef → Prop) (s : Retyping) : Prop where
  named : s.Named used
  confined : s.recorder.Confined T K

variable {T : Descriptor → Prop} {K : MethodRef → Prop}

theorem recorder_name (s : Retyping) (a : Signature) : (s.name a).2.recorder = s.recorder := by
  unfold name
  split <;> rfl

/-- **One method.** -/
theorem method_spec (h : s.Sound used T K) {holder : Descriptor} {m : MethodDef} (hholder : m.ref.holder = holder)
    (hK : m.ref.proto.mentions s.enums = true → K m.ref) (protos : List Prototype) :
    s.Extends (s.method holder protos m).2.2 ∧ (s.method holder protos m).2.2.Sound used T K ∧
      (s.method holder protos m).2.2.Retyped m (s.method holder protos m).1 := by
  unfold method
  cases hmentions : m.ref.proto.mentions s.enums with
  | false => exact ⟨.refl s, h, .same hmentions⟩
  | true =>
    cases hinit : m.isInstanceInitializer with
    | true =>
      simp only [Bool.not_true, Bool.false_eq_true, if_false, if_true, initializer]
      refine ⟨⟨rfl, fun _ _ hn => hn, ?_⟩, ⟨?_, ?_⟩, .initializer hinit⟩
      · exact (Recorder.grows_recordDefinition _ _ _).trans (Recorder.grows_moveMethod _ _ _)
      · exact ⟨h.named.mem_taken, h.named.taken, h.named.fresh, h.named.length, h.named.injective⟩
      · exact (h.confined.recordDefinition _ _).moveMethod (hK hmentions) _
    | false =>
      simp only [Bool.not_true, Bool.false_eq_true, if_false]
      obtain ⟨hn, hextends, hnamed⟩ := name_spec h.named m.ref.signature
      have hconfined := h.confined
      rw [← s.recorder_name m.ref.signature] at hconfined
      generalize (s.name m.ref.signature).1 = n at hn
      generalize (s.name m.ref.signature).2 = s₁ at hn hextends hnamed hconfined
      refine ⟨⟨hextends.enums, hextends.renamed, ?_⟩, ⟨?_, ?_⟩, ?_⟩
      · exact hextends.recorder.trans (Recorder.grows_moveMethod _ _ _)
      · exact ⟨hnamed.mem_taken, hnamed.taken, hnamed.fresh, hnamed.length, hnamed.injective⟩
      · exact hconfined.moveMethod (hK hmentions) _
      · rw [← hholder]
        refine .renamed (hextends.enums.symm ▸ hmentions) hinit hn fun hconflict => ?_
        refine Recorder.getElem?_moveMethod (fun heq => ?_) hconflict
        -- The new name is longer.
        have hlength := hnamed.length _ _ hn
        rw [← show m.ref.signature.name = n from congrArg MethodRef.name heq, show unboxedSuffix.length = 14 by decide] at hlength
        omega

theorem field_spec (h : s.Sound used T K) (f : FieldDef) : s.Extends (s.field f).2 ∧ (s.field f).2.Sound used T K := by
  unfold field
  dsimp only
  split
  · exact ⟨.refl s, h⟩
  · refine ⟨⟨rfl, fun _ _ hn => hn, Recorder.grows_moveField _ _ _⟩, ⟨?_, h.confined.moveField _ _⟩⟩
    exact ⟨h.named.mem_taken, h.named.taken, h.named.fresh, h.named.length, h.named.injective⟩

/-! ### Classes -/

/-- One more field. -/
def addField (x : List FieldDef × Retyping) (f : FieldDef) : List FieldDef × Retyping :=
  (x.1 ++ [(x.2.field f).1], (x.2.field f).2)

/-- One more method. -/
def addMethod (holder : Descriptor) (x : List MethodDef × List Prototype × Retyping) (m : MethodDef) :
    List MethodDef × List Prototype × Retyping :=
  (x.1 ++ [(x.2.2.method holder x.2.1 m).1], (x.2.2.method holder x.2.1 m).2)

/-- One more class. -/
def addClass (x : List ClassDef × Retyping) (c : ClassDef) : List ClassDef × Retyping :=
  (x.1 ++ [(x.2.classDef c).1], (x.2.classDef c).2)

theorem foldl_addField (h : s.Sound used T K) (fs : List FieldDef) (out : List FieldDef) :
    s.Extends (fs.foldl addField (out, s)).2 ∧ (fs.foldl addField (out, s)).2.Sound used T K := by
  induction fs generalizing s out with
  | nil => exact ⟨.refl s, h⟩
  | cons f fs ih =>
    obtain ⟨hextends, hsound⟩ := field_spec h f
    obtain ⟨hextends', hsound'⟩ := ih hsound (out ++ [(s.field f).1])
    exact ⟨hextends.trans hextends', hsound'⟩

/-- The methods of a class, one after the other. -/
theorem foldl_addMethod (h : s.Sound used T K) {holder : Descriptor} {ms : List MethodDef}
    (hholder : ∀ m ∈ ms, m.ref.holder = holder) (hK : ∀ m ∈ ms, m.ref.proto.mentions s.enums = true → K m.ref)
    (out : List MethodDef) (protos : List Prototype) :
    ∃ ms', (ms.foldl (addMethod holder) (out, protos, s)).1 = out ++ ms' ∧
      s.Extends (ms.foldl (addMethod holder) (out, protos, s)).2.2 ∧
      (ms.foldl (addMethod holder) (out, protos, s)).2.2.Sound used T K ∧
      List.Forall₂ (ms.foldl (addMethod holder) (out, protos, s)).2.2.Retyped ms ms' := by
  induction ms generalizing s out protos with
  | nil => exact ⟨[], by simp, .refl s, h, .nil⟩
  | cons m ms ih =>
    obtain ⟨hextends, hsound, hretyped⟩ :=
      method_spec h (hholder m List.mem_cons_self) (hK m List.mem_cons_self) protos
    obtain ⟨ms', heq, hextends', hsound', hforall⟩ := ih hsound (fun m' hm' => hholder m' (List.mem_cons_of_mem m hm'))
      (fun m' hm' hmentions => hK m' (List.mem_cons_of_mem m hm') (hextends.enums ▸ hmentions))
      (out ++ [(s.method holder protos m).1]) (s.method holder protos m).2.1
    refine ⟨(s.method holder protos m).1 :: ms', ?_, hextends.trans hextends', hsound', .cons (hretyped.mono hextends') hforall⟩
    rw [List.foldl_cons]
    exact heq.trans (by simp)

theorem mirrors_mono (h : s.Extends s') {c e : ClassDef} (hc : c.Mirrors s.Retyped e) : c.Mirrors s'.Retyped e :=
  ⟨hc.type, hc.superclass, hc.interfaces, hc.methods.imp fun _ _ hd => hd.mono h⟩

theorem classDef_spec (h : s.Sound used T K) {c : ClassDef} (hhoused : ∀ m ∈ c.methods, m.ref.holder = c.type)
    (hK : ∀ m ∈ c.methods, m.ref.proto.mentions s.enums = true → K m.ref) :
    s.Extends (s.classDef c).2 ∧ (s.classDef c).2.Sound used T K ∧ c.Mirrors (s.classDef c).2.Retyped (s.classDef c).1 := by
  obtain ⟨hextends, hsound⟩ := foldl_addField h c.fields []
  obtain ⟨ms', heq, hextends', hsound', hforall⟩ := foldl_addMethod hsound hhoused
    (fun m hm hmentions => hK m hm (hextends.enums ▸ hmentions)) []
    ((c.instanceInitializers.filter (!·.ref.proto.mentions (c.fields.foldl addField ([], s)).2.enums)).map (·.ref.proto))
  refine ⟨hextends.trans hextends', hsound', rfl, rfl, rfl, ?_⟩
  rw [List.nil_append] at heq
  rw [← heq] at hforall
  exact hforall

/-- The classes, one after the other. -/
theorem foldl_addClass (h : s.Sound used T K) (cs : List ClassDef) (hhoused : ∀ c ∈ cs, ∀ m ∈ c.methods, m.ref.holder = c.type)
    (hK : ∀ c ∈ cs, ∀ m ∈ c.methods, m.ref.proto.mentions s.enums = true → K m.ref) (out : List ClassDef) :
    ∃ es, (cs.foldl addClass (out, s)).1 = out ++ es ∧ s.Extends (cs.foldl addClass (out, s)).2 ∧
      (cs.foldl addClass (out, s)).2.Sound used T K ∧
      List.Forall₂ (ClassDef.Mirrors (cs.foldl addClass (out, s)).2.Retyped) cs es := by
  induction cs generalizing s out with
  | nil => exact ⟨[], by simp, .refl s, h, .nil⟩
  | cons c cs ih =>
    obtain ⟨hextends, hsound, hmirrors⟩ := classDef_spec h (hhoused c List.mem_cons_self) (hK c List.mem_cons_self)
    obtain ⟨es, heq, hextends', hsound', hforall⟩ := ih hsound (fun d hd => hhoused d (List.mem_cons_of_mem c hd))
      (fun d hd m hm hmentions => hK d (List.mem_cons_of_mem c hd) m hm (hextends.enums ▸ hmentions)) (out ++ [(s.classDef c).1])
    refine ⟨(s.classDef c).1 :: es, ?_, hextends.trans hextends', hsound', .cons (mirrors_mono hextends' hmirrors) hforall⟩
    rw [List.foldl_cons]
    exact heq.trans (by simp)

/-- **All classes that are not enums.** -/
theorem forall₂_retypeAll {p : Program} (hhoused : p.Housed) {enums : TypeSet} {r : Recorder} (h : r.Confined T K)
    (hK : ∀ c ∈ p.programClasses, enums.contains c.type = false → ∀ m ∈ c.methods, m.ref.proto.mentions enums = true → K m.ref)
    (padding : Descriptor) :
    ∃ s : Retyping, s.enums = enums ∧ (Unboxing.retypeAll p enums padding r).2 = s.recorder ∧
      s.Sound ((p.programClasses.flatMap ClassDef.methods).map (·.ref.signature)) T K ∧
      List.Forall₂ (ClassDef.Mirrors s.Retyped) (p.programClasses.filter (!enums.contains ·.type))
        (Unboxing.retypeAll p enums padding r).1 := by
  have hmem {c : ClassDef} (hc : c ∈ p.programClasses.filter (!enums.contains ·.type)) :
      c ∈ p.programClasses ∧ enums.contains c.type = false := by
    simpa using List.mem_filter.1 hc
  obtain ⟨es, heq, hextends, hsound, hforall⟩ := foldl_addClass
    (s := ⟨enums, padding, (p.programClasses.flatMap ClassDef.methods).map (·.ref.signature), ∅, r⟩) ⟨named_of_start, h⟩
    (p.programClasses.filter (!enums.contains ·.type))
    (fun c hc => hhoused c (Program.mem_classes_of_mem_programClasses (hmem hc).1))
    (fun c hc => hK c (hmem hc).1 (hmem hc).2) []
  rw [List.nil_append] at heq
  exact ⟨_, hextends.enums, rfl, hsound, heq ▸ hforall⟩

end Retyping

end DexShrinker
