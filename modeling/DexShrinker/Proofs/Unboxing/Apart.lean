/-
  DexShrinker/Proofs/Unboxing/Apart.lean
  ======================================
  **When unboxing keeps members apart.**

  Methods of a class that stays a class never come to have the same reference: a new name is
  one that nothing has, and initializers are padded until they differ (`Retyping.nodup_methods`).
  Fields are retyped without a look at each other, getters and `valueOf` are added without a look
  at what is there. So the classes after the unboxing are free of repetitions exactly if the
  retyped fields and getters differ and nothing takes the place of `valueOf`
  (`Unboxing.unrepeated_iff_staysApart`). A class with fields `f` of an enum and of `int` ends up with
  the same field twice (`Unboxing.field_declared_twice`).
-/
import DexShrinker.Proofs.Unboxing.LocalClasses
import DexShrinker.Proofs.Unboxing.Signatures

namespace DexShrinker

open Std (TreeMap TreeSet LawfulEqOrd)

namespace Retyping

variable {s s' : Retyping} {used : List Signature} {holder : Descriptor} {initial : List Prototype}

/-! ### Fields -/

/-- The reference of a field with enums taken for numbers. -/
def retypedRef (enums : TypeSet) (f : FieldDef) : FieldRef := { f.ref with type := f.ref.type.unbox enums }

theorem refs_foldl_addField (fs : List FieldDef) (out : List FieldDef) (s : Retyping) :
    (fs.foldl addField (out, s)).1.map FieldDef.ref = out.map FieldDef.ref ++ fs.map (retypedRef s.enums) ∧
      (fs.foldl addField (out, s)).2.enums = s.enums := by
  induction fs generalizing out s with
  | nil => simp
  | cons f fs ih =>
    have henums : (s.field f).2.enums = s.enums := by
      unfold field
      dsimp only
      split <;> rfl
    obtain ⟨hrefs, hsame⟩ := ih (out ++ [(s.field f).1]) (s.field f).2
    rw [henums] at hrefs hsame
    refine ⟨?_, hsame⟩
    rw [List.foldl_cons]
    refine hrefs.trans ?_
    simp [field, retypedRef]

/-! ### Methods -/

/-- What becomes of one method. -/
theorem method_cases (s : Retyping) (holder : Descriptor) (protos : List Prototype) (m : MethodDef) :
    (m.ref.proto.mentions s.enums = false ∧ s.method holder protos m = (m, protos, s)) ∨
    (m.isInstanceInitializer = true ∧ ∃ (q : Prototype) (s' : Retyping), q ∉ protos ∧
      s.method holder protos m = ({ m with ref := { m.ref with proto := q } }, protos ++ [q], s')) ∨
    (m.isInstanceInitializer = false ∧ ∃ (n : String) (s' : Retyping),
      s.method holder protos m = ({ m with ref := ⟨holder, n, m.ref.proto.unbox s'.enums⟩ }, protos, s')) := by
  unfold method
  cases hmentions : m.ref.proto.mentions s.enums with
  | false => exact .inl ⟨rfl, rfl⟩
  | true =>
    cases hinit : m.isInstanceInitializer with
    | true =>
      refine .inr (.inl ⟨rfl, _, _, ?_, rfl⟩)
      exact firstFree_not_mem (append_replicate_injective _ _) protos
    | false =>
      refine .inr (.inr ⟨rfl, (s.name m.ref.signature).1, { (s.name m.ref.signature).2 with recorder := ?_ }, ?_⟩)
      · exact (s.name m.ref.signature).2.recorder.moveMethod m.ref
          ⟨holder, (s.name m.ref.signature).1, m.ref.proto.unbox (s.name m.ref.signature).2.enums⟩
      · rfl

/-- Methods stay in the class that they name. -/
theorem holder_classDef (s : Retyping) {c : ClassDef} (h : ∀ m ∈ c.methods, m.ref.holder = c.type) :
    ∀ m ∈ (s.classDef c).1.methods, m.ref.holder = c.type := by
  refine List.foldlRecOn (motive := fun x : List MethodDef × List Prototype × Retyping => ∀ m ∈ x.1, m.ref.holder = c.type) c.methods
    (addMethod c.type) (by simp) fun x hx m hm d hd => ?_
  rcases List.mem_append.1 hd with hd | hd
  · exact hx d hd
  · rw [List.mem_singleton.1 hd]
    rcases method_cases x.2.2 c.type x.2.1 m with ⟨-, heq⟩ | ⟨-, q, s', -, heq⟩ | ⟨-, n, s', heq⟩
    · rw [heq]
      exact h m hm
    · rw [heq]
      exact h m hm
    · rw [heq]

/-- A method that is not an initializer does not become one. -/
theorem Resigns.isInstanceInitializer (h : s.Named used) {m m' : MethodDef} (hm : s.Resigns m m') (hinit : m.isInstanceInitializer = false) :
    m'.isInstanceInitializer = false := by
  have hbecomes := hm.becomes hinit
  have hname : m.ref.name ≠ MethodRef.initName := by simpa [MethodDef.isInstanceInitializer, MethodRef.isInstanceInitializer] using hinit
  suffices hnew : m'.ref.signature.name ≠ MethodRef.initName from beq_eq_false_iff_ne.2 hnew
  generalize m'.ref.signature = b at hbecomes
  cases hbecomes with
  | kept _ => exact hname
  | @renamed n _ hn =>
    intro heq
    have hlength := h.length _ _ hn
    rw [show n = MethodRef.initName from heq, show MethodRef.initName.length = 6 by decide, show unboxedSuffix.length = 14 by decide] at hlength
    omega

/-- The methods `done` of a class have become `x.1`. -/
structure Placed (used : List Signature) (holder : Descriptor) (initial : List Prototype) (done : List MethodDef)
    (x : List MethodDef × List Prototype × Retyping) : Prop where
  named : x.2.2.Named used
  resigns : List.Forall₂ x.2.2.Resigns done x.1
  housed : ∀ m ∈ x.1, m.ref.holder = holder
  start : initial ⊆ x.2.1
  protos : ∀ m ∈ x.1, m.isInstanceInitializer = true → m.ref.proto ∈ x.2.1
  kept : ∀ m ∈ x.1, m.isInstanceInitializer = true → m.ref.proto ∈ initial → m ∈ done
  nodup : (x.1.map (·.ref.signature)).Nodup

variable {done : List MethodDef} {x : List MethodDef × List Prototype × Retyping} {m : MethodDef}

/-- A method that is not an initializer gets a signature that no method before it has. -/
theorem Placed.signature_not_mem (h : Placed used holder initial done x) (hdone : ∀ d ∈ done, d.ref.signature ∈ used ∧ d.ref.signature ≠ m.ref.signature)
    (hm : m.ref.signature ∈ used) (hinit : m.isInstanceInitializer = false) (hextends : x.2.2.Extends s') (hnamed : s'.Named used) {m' : MethodDef}
    (hresigns : s'.Resigns m m') : m'.ref.signature ∉ x.1.map (·.ref.signature) := by
  intro hmem
  obtain ⟨d', hd', heq⟩ := List.mem_map.1 hmem
  obtain ⟨d, hd, hdd'⟩ := exists_of_mem_left h.resigns.flip hd'
  have hinit' : d'.isInstanceInitializer = false := by
    have hno := hresigns.isInstanceInitializer hnamed hinit
    rwa [MethodDef.isInstanceInitializer, MethodRef.isInstanceInitializer, ← show d'.ref.name = m'.ref.name from congrArg Signature.name heq] at hno
  cases hdinit : d.isInstanceInitializer with
  | true =>
    rw [hdd'.initializer hdinit] at hinit'
    cases hinit'
  | false =>
    refine (hdone d hd).2 ?_
    exact (((hdd'.mono hextends).becomes hdinit).eq_iff hnamed (hdone d hd).1 hm (hresigns.becomes hinit)).1 heq

/-- An initializer with a prototype that is not in use has a signature that no method before it has. -/
theorem signature_not_mem_of_proto {ms : List MethodDef} {m : MethodDef} (hinit : m.isInstanceInitializer = true)
    (hnew : ∀ d ∈ ms, d.isInstanceInitializer = true → d.ref.proto ≠ m.ref.proto) : m.ref.signature ∉ ms.map (·.ref.signature) := by
  intro hmem
  obtain ⟨d, hd, heq⟩ := List.mem_map.1 hmem
  refine hnew d hd ?_ (congrArg Signature.proto heq)
  rw [MethodDef.isInstanceInitializer, MethodRef.isInstanceInitializer, show d.ref.name = m.ref.name from congrArg Signature.name heq]
  exact hinit

theorem Placed.append (h : Placed used holder initial done x) {m' : MethodDef} {protos : List Prototype} (hextends : x.2.2.Extends s')
    (hnamed : s'.Named used) (hresigns : s'.Resigns m m') (hholder : m'.ref.holder = holder) (hsubset : x.2.1 ⊆ protos)
    (hproto : m'.isInstanceInitializer = true → m'.ref.proto ∈ protos)
    (hkept : m'.isInstanceInitializer = true → m'.ref.proto ∈ initial → m' = m) (hnew : m'.ref.signature ∉ x.1.map (·.ref.signature)) :
    Placed used holder initial (done ++ [m]) (x.1 ++ [m'], protos, s') := by
  constructor
  · exact hnamed
  · exact List.rel_append (h.resigns.imp fun _ _ hd => hd.mono hextends) (.cons hresigns .nil)
  · intro d hd
    rcases List.mem_append.1 hd with hd | hd
    · exact h.housed d hd
    · rw [List.mem_singleton.1 hd]
      exact hholder
  · exact fun q hq => hsubset (h.start hq)
  · intro d hd hinit
    rcases List.mem_append.1 hd with hd | hd
    · exact hsubset (h.protos d hd hinit)
    · rw [List.mem_singleton.1 hd] at hinit ⊢
      exact hproto hinit
  · intro d hd hinit hinitial
    rcases List.mem_append.1 hd with hd | hd
    · exact List.mem_append_left _ (h.kept d hd hinit hinitial)
    · rw [List.mem_singleton.1 hd] at hinit hinitial ⊢
      rw [hkept hinit hinitial]
      exact List.mem_append_right _ List.mem_cons_self
  · rw [List.map_append, List.map_singleton, nodup_append_singleton]
    exact ⟨h.nodup, hnew⟩

/-- **One method.** -/
theorem Placed.addMethod (h : Placed used holder initial done x) (hdone : ∀ d ∈ done, d.ref.signature ∈ used ∧ d.ref.signature ≠ m.ref.signature)
    (hm : m.ref.signature ∈ used) (hholder : m.ref.holder = holder)
    (hinitial : m.isInstanceInitializer = true → m.ref.proto.mentions x.2.2.enums = false → m.ref.proto ∈ initial) :
    Placed used holder initial (done ++ [m]) (addMethod holder x m) := by
  obtain ⟨hextends, hnamed, hresigns⟩ := resigns_method h.named holder x.2.1 m
  have hfresh (hinit : m.isInstanceInitializer = false) := h.signature_not_mem hdone hm hinit hextends hnamed hresigns
  rw [Retyping.addMethod]
  rcases method_cases x.2.2 holder x.2.1 m with ⟨hmentions, heq⟩ | ⟨hinit, q, s', hq, heq⟩ | ⟨hinit, n, s', heq⟩
  · rw [heq] at hextends hnamed hresigns hfresh ⊢
    refine h.append hextends hnamed hresigns hholder (List.Subset.refl _) (fun hinit => h.start (hinitial hinit hmentions)) (fun _ _ => rfl) ?_
    cases hinit : m.isInstanceInitializer with
    | false => exact hfresh hinit
    | true =>
      -- An initializer before it that has its prototype stayed as it was, too.
      refine signature_not_mem_of_proto hinit fun d hd hdinit hproto => ?_
      have hmem := h.kept d hd hdinit (hproto ▸ hinitial hinit hmentions)
      refine (hdone d hmem).2 (Signature.ext ?_ hproto)
      exact (Unboxing.initName_of_isInstanceInitializer hdinit).trans (Unboxing.initName_of_isInstanceInitializer hinit).symm
  · rw [heq] at hextends hnamed hresigns ⊢
    refine h.append hextends hnamed hresigns hholder (List.subset_append_left _ _) (fun _ => List.mem_append_right _ List.mem_cons_self)
      (fun _ hmem => absurd (h.start hmem) hq) (signature_not_mem_of_proto hinit fun d hd hdinit hproto => hq ?_)
    rw [← show d.ref.proto = q from hproto]
    exact h.protos d hd hdinit
  · have hno := hresigns.isInstanceInitializer hnamed hinit
    have hfresh := hfresh hinit
    rw [heq] at hextends hnamed hresigns hno hfresh ⊢
    have habsurd {P : Prop} (hyes : ({ m with ref := ⟨holder, n, m.ref.proto.unbox s'.enums⟩ } : MethodDef).isInstanceInitializer = true) : P := by
      rw [hno] at hyes
      cases hyes
    exact h.append hextends hnamed hresigns rfl (List.Subset.refl _) habsurd (fun hyes => habsurd hyes) hfresh

/-- The methods of a class, one after the other. -/
theorem Placed.foldl_addMethod {enums : TypeSet} (h : Placed used holder initial done x) (henums : x.2.2.enums = enums) {ms : List MethodDef}
    (hused : ∀ m ∈ done ++ ms, m.ref.signature ∈ used) (hhoused : ∀ m ∈ ms, m.ref.holder = holder)
    (hinitial : ∀ m ∈ ms, m.isInstanceInitializer = true → m.ref.proto.mentions enums = false → m.ref.proto ∈ initial)
    (honce : ((done ++ ms).map (·.ref.signature)).Nodup) :
    Placed used holder initial (done ++ ms) (ms.foldl (Retyping.addMethod holder) x) := by
  induction ms generalizing done x with
  | nil =>
    rw [List.append_nil]
    exact h
  | cons m ms ih =>
    have hm : m ∈ done ++ m :: ms := by simp
    have hdone : ∀ d ∈ done, d.ref.signature ∈ used ∧ d.ref.signature ≠ m.ref.signature := by
      intro d hd
      refine ⟨hused d (List.mem_append_left _ hd), ?_⟩
      rw [List.map_append, List.map_cons, List.nodup_append] at honce
      exact honce.2.2 _ (List.mem_map_of_mem hd) _ List.mem_cons_self
    have hstep := h.addMethod hdone (hused m hm) (hhoused m List.mem_cons_self) (henums ▸ hinitial m List.mem_cons_self)
    have henums' : (Retyping.addMethod holder x m).2.2.enums = enums := (resigns_method h.named holder x.2.1 m).1.enums.trans henums
    rw [List.append_cons] at hused honce ⊢
    exact ih hstep henums' hused (fun d hd => hhoused d (List.mem_cons_of_mem m hd)) (fun d hd => hinitial d (List.mem_cons_of_mem m hd)) honce

/-- **The methods of a class that stays a class differ.** -/
theorem nodup_methods_classDef (h : s.Named used) {c : ClassDef} (hused : ∀ m ∈ c.methods, m.ref.signature ∈ used)
    (hhoused : ∀ m ∈ c.methods, m.ref.holder = c.type) (honce : (c.methods.map MethodDef.ref).Nodup) :
    ((s.classDef c).1.methods.map MethodDef.ref).Nodup := by
  obtain ⟨-, hnamed⟩ := named_foldl_addField h c.fields []
  have hstart : Placed used c.type
      ((c.instanceInitializers.filter (!·.ref.proto.mentions (c.fields.foldl addField ([], s)).2.enums)).map (·.ref.proto)) []
      ([], (c.instanceInitializers.filter (!·.ref.proto.mentions (c.fields.foldl addField ([], s)).2.enums)).map (·.ref.proto),
        (c.fields.foldl addField ([], s)).2) :=
    ⟨hnamed, .nil, by simp, List.Subset.refl _, by simp, by simp, by simp⟩
  have hplaced := hstart.foldl_addMethod rfl hused hhoused (fun m hm hinit hmentions =>
    List.mem_map.2 ⟨m, List.mem_filter.2 ⟨List.mem_filter.2 ⟨hm, hinit⟩, by rw [hmentions]; rfl⟩, rfl⟩)
    ((nodup_signatures_iff hhoused).1 honce)
  exact (nodup_signatures_iff hplaced.housed).2 hplaced.nodup

/-- The classes, one after the other, each from a state in which the names are as they should be. -/
theorem states_foldl_addClass (h : s.Named used) (cs : List ClassDef) (out : List ClassDef) :
    ∃ es, (cs.foldl addClass (out, s)).1 = out ++ es ∧
      List.Forall₂ (fun c e => ∃ s' : Retyping, s'.Named used ∧ s'.enums = s.enums ∧ e = (s'.classDef c).1) cs es := by
  induction cs generalizing s out with
  | nil => exact ⟨[], by simp, .nil⟩
  | cons c cs ih =>
    obtain ⟨hextends, hnamed, -⟩ := resigns_classDef h c
    obtain ⟨es, heq, hforall⟩ := ih hnamed (out ++ [(s.classDef c).1])
    refine ⟨(s.classDef c).1 :: es, ?_, .cons ⟨s, h, rfl, rfl⟩ (hforall.imp fun d e ⟨s', hs', henums, he⟩ => ?_)⟩
    · rw [List.foldl_cons]
      exact heq.trans (by simp)
    · exact ⟨s', hs', henums.trans hextends.enums, he⟩

theorem states_retypeAll (p : Program) (enums : TypeSet) (padding : Descriptor) (r : Recorder) :
    List.Forall₂ (fun c e => ∃ s : Retyping, s.Named ((p.programClasses.flatMap ClassDef.methods).map (·.ref.signature)) ∧ s.enums = enums ∧
      e = (s.classDef c).1) (p.programClasses.filter (!enums.contains ·.type)) (Unboxing.retypeAll p enums padding r).1 := by
  obtain ⟨es, heq, hforall⟩ := states_foldl_addClass
    (s := ⟨enums, padding, (p.programClasses.flatMap ClassDef.methods).map (·.ref.signature), ∅, r⟩) named_of_start
    (p.programClasses.filter (!enums.contains ·.type)) []
  rw [List.nil_append] at heq
  exact heq ▸ hforall

end Retyping

/-- What tells the left sides apart tells the right sides apart, if equal right sides have equal left sides. -/
theorem nodup_map_of_forall₂ {α β γ δ : Type} {R : α → β → Prop} {f : α → γ} {g : β → δ}
    (hinj : ∀ a b a' b', R a b → R a' b' → g b = g b' → f a = f a') {xs : List α} {ys : List β} (h : List.Forall₂ R xs ys)
    (hnodup : (xs.map f).Nodup) : (ys.map g).Nodup := by
  induction h with
  | nil => exact List.nodup_nil
  | cons hab hrest ih =>
    rw [List.map_cons, List.nodup_cons] at hnodup ⊢
    refine ⟨fun hmem => ?_, ih hnodup.2⟩
    obtain ⟨b', hb', heq⟩ := List.mem_map.1 hmem
    obtain ⟨a', ha', hab'⟩ := exists_of_mem_left hrest.flip hb'
    exact hnodup.1 (List.mem_map.2 ⟨a', ha', hinj _ _ _ _ hab' hab heq⟩)

/-- The class declares no member twice. -/
structure ClassDef.Unrepeated (c : ClassDef) : Prop where
  fields : (c.fields.map FieldDef.ref).Nodup
  methods : (c.methods.map MethodDef.ref).Nodup

instance (c : ClassDef) : Decidable c.Unrepeated :=
  decidable_of_iff ((c.fields.map FieldDef.ref).Nodup ∧ (c.methods.map MethodDef.ref).Nodup) ⟨fun h => ⟨h.1, h.2⟩, fun h => ⟨h.fields, h.methods⟩⟩

/-- The fields that are left of a class: an enum keeps its static ones. -/
def ClassDef.remainingFields (c : ClassDef) (enums : TypeSet) : List FieldDef :=
  if enums.contains c.type then c.staticFields else c.fields

/-- The members of classes are still apart with the enums taken for numbers: the fields that are left,
    the getters of every enum, and `valueOf` of every enum from the methods before it. -/
structure Program.StaysApart (p : Program) (enums : TypeSet) (data : EnumTable) : Prop where
  fields : ∀ c ∈ p.programClasses, ((c.remainingFields enums).map fun f => (f.ref.name, f.ref.type.unbox enums)).Nodup
  getters : ∀ (t : Descriptor) (d : EnumData), data[t]? = some d → (d.fieldValues.keys.map fun f => (f.name, f.type.unbox enums)).Nodup
  valueOf : ∀ c ∈ p.programClasses, enums.contains c.type = true → ∀ before m after, c.methods = before ++ m :: after →
    m.ref.isEnumValueOf c.type = true → ∀ n ∈ before, ¬ LocalUtility.AsksForValueOf enums n

theorem nodup_retypedRef_iff {fs : List FieldDef} {t : Descriptor} (h : ∀ f ∈ fs, f.ref.holder = t) (enums : TypeSet) :
    (fs.map (Retyping.retypedRef enums)).Nodup ↔ (fs.map fun f => (f.ref.name, f.ref.type.unbox enums)).Nodup := by
  have heq : fs.map (Retyping.retypedRef enums) = (fs.map fun f => (f.ref.name, f.ref.type.unbox enums)).map fun x => ⟨t, x.1, x.2⟩ := by
    rw [List.map_map]
    refine List.map_congr_left fun f hf => ?_
    exact FieldRef.ext (h f hf) rfl rfl
  rw [heq]
  refine List.nodup_map_iff fun x y hxy => ?_
  exact Prod.ext (congrArg FieldRef.name hxy) (congrArg FieldRef.type hxy)

/-- **What the shared class is made of.** -/
theorem SharedUtility.build_cases {u : SharedUtility} {c : ClassDef} (h : u.build = .ok c) :
    c.supertypes = [.object] ∧ c.fields.map FieldDef.ref = [u.valuesField] ∧
      c.methods.map MethodDef.ref = [u.clinit, u.checkNotZero, u.checkNotZeroWithMessage, u.compareTo, u.equals, u.ordinal, u.values] := by
  have href {m : MethodRef} {access : AccessFlags} {steps : Assembly Unit} {d : MethodDef} (hd : Utility.synthesize m access steps = .ok d) :
      d.ref = m := by
    obtain ⟨body, -, hd⟩ := bind_eq_ok.1 hd
    cases hd
    rfl
  unfold SharedUtility.build at h
  obtain ⟨d₁, h₁, h⟩ := bind_eq_ok.1 h
  obtain ⟨d₂, h₂, h⟩ := bind_eq_ok.1 h
  obtain ⟨d₃, h₃, h⟩ := bind_eq_ok.1 h
  obtain ⟨d₄, h₄, h⟩ := bind_eq_ok.1 h
  obtain ⟨d₅, h₅, h⟩ := bind_eq_ok.1 h
  obtain ⟨d₆, h₆, h⟩ := bind_eq_ok.1 h
  obtain ⟨d₇, h₇, h⟩ := bind_eq_ok.1 h
  cases h
  refine ⟨rfl, rfl, ?_⟩
  simp [href h₁, href h₂, href h₃, href h₄, href h₅, href h₆, (assembled_of_valuesDef h₇).1]

theorem SharedUtility.unrepeated_build {u : SharedUtility} {c : ClassDef} (h : u.build = .ok c) : c.Unrepeated := by
  obtain ⟨-, hfields, hmethods⟩ := build_cases h
  refine ⟨by simp [hfields], ?_⟩
  have hmap : [u.clinit, u.checkNotZero, u.checkNotZeroWithMessage, u.compareTo, u.equals, u.ordinal, u.values] =
      ([⟨MethodRef.clinitName, .void, []⟩, ⟨"checkNotZero", .void, [.int]⟩, ⟨"checkNotZero", .void, [.int, .string]⟩,
        ⟨"compareTo", .int, [.int, .int]⟩, ⟨"equals", .boolean, [.int, .int]⟩, ⟨"ordinal", .int, [.int]⟩,
        ⟨"values", .intArray, [.int]⟩] : List Signature).map (MethodRef.ofSignature u.type) := rfl
  rw [hmethods, hmap]
  refine (List.nodup_map_iff fun a b hab => ?_).2 (by decide)
  exact Signature.ext (congrArg MethodRef.name hab) (congrArg MethodRef.proto hab)

theorem LocalUtility.unrepeated_iff {u : LocalUtility} {enums : TypeSet} {c d : ClassDef} {fixed : FixedEnum} {r r' : Recorder}
    {more : List MethodRef} (h : u.dissolve enums c fixed r = .ok (d, more, r')) (honce : c.Unrepeated) :
    d.Unrepeated ↔ (c.staticFields.map fun f => (f.ref.name, f.ref.type.unbox enums)).Nodup ∧
      (fixed.data.fieldValues.keys.map fun f => (f.name, f.type.unbox enums)).Nodup ∧
      ∀ before m after, c.methods = before ++ m :: after → m.ref.isEnumValueOf c.type = true → ∀ n ∈ before, ¬ AsksForValueOf enums n := by
  obtain ⟨-, -, hfields, -⟩ := dissolve_cases h
  rw [← nodup_methods_iff h honce.methods, ← u.nodup_movedField_iff enums, ← hfields]
  exact ⟨fun hd => ⟨hd.fields, hd.methods⟩, fun hd => ⟨hd.1, hd.2⟩⟩

namespace Unboxing

variable {v : View} {o : UnboxingOptions} {r : UnboxingResult} {x : Pieces}

namespace Pieces.MakeUp

/-! ### Local classes -/

/-- The local class `d` is what is left of the enum `c`. -/
def Leaves (x : Pieces) (c : ClassDef) (f : FixedEnum) (d : ClassDef) : Prop :=
  ∃ u r r' more, x.locals[c.type]? = some u ∧ u.dissolve x.enums c f r = .ok (d, more, r')

theorem forall₂_localClasses (h : x.MakeUp v r) :
    List.Forall₂ (fun y d => ∃ c ∈ v.program.programClasses, c.type = y.1 ∧ Leaves x c y.2 d) x.fixed.toList x.localClasses := by
  have hclass (t : Descriptor) (ht : t ∈ x.fixed) : ∃ c ∈ v.program.programClasses, c.type = t ∧ v.program.class? t = some c := by
    obtain ⟨c, hc, rfl, -⟩ := h.exists_class (contains_unboxed.2 ht)
    exact ⟨c, hc, rfl, (Program.mem_programClasses.1 hc).1⟩
  have hforall := forall₂_dissolveAll (fun t ht => by
    obtain ⟨c, -, -, hc⟩ := hclass t ht
    obtain ⟨u, hu⟩ := h.hasLocal t ht
    exact ⟨c, u, hc, hu⟩) h.dissolve
  rw [List.forall₂_iff_zip] at hforall ⊢
  refine ⟨hforall.1, fun {y d} hyd => ?_⟩
  obtain ⟨c, u, r₁, r₂, more, hc, hu, hd⟩ := hforall.2 hyd
  obtain ⟨c', hc', htype, hclass'⟩ := hclass y.1 (mem_of_getElem? (TreeMap.mem_toList_iff_getElem?_eq_some.1 (List.of_mem_zip hyd).1))
  cases hc.symm.trans hclass'
  exact ⟨c, hc', htype, u, r₁, r₂, more, htype.symm ▸ hu, hd⟩

/-- The local class of an enum. -/
theorem exists_leaves (h : x.MakeUp v r) {c : ClassDef} (hc : c ∈ v.program.programClasses) {f : FixedEnum}
    (hf : x.fixed[c.type]? = some f) : ∃ d ∈ x.localClasses, Leaves x c f d := by
  obtain ⟨d, hd, c', hc', htype, hleaves⟩ := exists_of_mem_left (h.forall₂_localClasses) (TreeMap.mem_toList_iff_getElem?_eq_some.2 hf)
  rw [Program.eq_of_type (Program.mem_classes_of_mem_programClasses hc') (Program.mem_classes_of_mem_programClasses hc) htype] at hleaves
  exact ⟨d, hd, hleaves⟩

theorem type_of_leaves {c d : ClassDef} {f : FixedEnum} (h : Leaves x c f d) : ∃ u, x.locals[c.type]? = some u ∧ d.type = u.type := by
  obtain ⟨u, _, _, _, hu, hd⟩ := h
  exact ⟨u, hu, (LocalUtility.dissolve_cases hd).1⟩

/-- **Local classes are found**, as the names of enums tell them apart. -/
theorem class?_localClasses (h : x.MakeUp v r)
    (hnames : ∀ c ∈ v.program.programClasses, x.enums.contains c.type = true → ∃ name, c.type = .ofBinaryName name) {d : ClassDef}
    (hd : d ∈ x.localClasses) : r.program.class? d.type = some d := by
  have hforall : List.Forall₂ (fun y e => ∃ name u, y.1 = .ofBinaryName name ∧
      LocalUtility.ofProgram v.program (.ofBinaryName name) = .ok u ∧ e.type = u.type) x.fixed.toList x.localClasses := by
    have hlocal := h.forall₂_localClasses
    rw [List.forall₂_iff_zip] at hlocal ⊢
    refine ⟨hlocal.1, fun {y e} hye => ?_⟩
    obtain ⟨c, hc, htype, hleaves⟩ := hlocal.2 hye
    obtain ⟨u, hu, hetype⟩ := type_of_leaves hleaves
    have hmem : c.type ∈ x.fixed := by
      rw [htype]
      exact mem_of_getElem? (TreeMap.mem_toList_iff_getElem?_eq_some.1 (List.of_mem_zip hye).1)
    obtain ⟨name, hname⟩ := hnames c hc (contains_unboxed.2 hmem)
    exact ⟨name, u, htype.symm.trans hname, hname ▸ h.localOf _ u hu, hetype⟩
  have hnodup : (x.localClasses.map ClassDef.type).Nodup := by
    refine nodup_map_of_forall₂ (f := Prod.fst) ?_ hforall ?_
    · rintro y e y' e' ⟨name, u, hy, hu, he⟩ ⟨name', u', hy', hu', he'⟩ heq
      rw [hy, hy', LocalUtility.eq_of_type hu hu' (he.symm.trans (heq.trans he'))]
    · rw [TreeMap.map_fst_toList_eq_keys]
      exact TreeMap.nodup_keys
  have hfresh := h.fresh_of_mem_localClasses hd
  rw [h.program]
  apply Program.class?_ofList_of_unique
  · simp [hd]
  · intro e he htype
    simp only [List.mem_append, List.mem_singleton] at he
    rcases he with ((he | he) | he) | rfl
    · refine absurd ?_ hfresh.not_mem
      rw [← htype]
      exact List.mem_map_of_mem (List.mem_filter.1 he).1
    · exact List.inj_on_of_nodup_map hnodup he hd htype
    · obtain ⟨c, hc, s, -, -, rfl⟩ := exists_of_mem_left (Retyping.states_retypeAll v.program x.enums x.shared.type x.dissolved).flip he
      refine absurd ?_ hfresh.not_mem
      rw [← htype]
      exact List.mem_map.2 ⟨c, Program.mem_classes_of_mem_programClasses (List.mem_filter.1 hc).1, rfl⟩
    · obtain ⟨-, -, name, u, -, hu, hdtype⟩ := exists_of_mem_left hforall.flip hd
      obtain ⟨first, n, hshared⟩ := h.sharedOf
      refine absurd ?_ (LocalUtility.type_ne_shared hu hshared)
      rw [← hdtype, ← htype, SharedUtility.type_build h.build]

/-! ### All classes -/

/-- A class with new types is free of repetitions exactly if its fields are. -/
theorem unrepeated_retyped_iff (hhoused : v.program.Housed) (hfields : v.program.HousesFields) {c : ClassDef}
    (hc : c ∈ v.program.programClasses) (honce : c.Unrepeated) {s : Retyping}
    (hnamed : s.Named ((v.program.programClasses.flatMap ClassDef.methods).map (·.ref.signature))) :
    (s.classDef c).1.Unrepeated ↔ (c.fields.map fun f => (f.ref.name, f.ref.type.unbox s.enums)).Nodup := by
  have hclass := Program.mem_classes_of_mem_programClasses hc
  have hrefs : (s.classDef c).1.fields.map FieldDef.ref = c.fields.map (Retyping.retypedRef s.enums) :=
    (Retyping.refs_foldl_addField c.fields [] s).1
  rw [← nodup_retypedRef_iff (hfields c hclass) s.enums, ← hrefs]
  refine ⟨ClassDef.Unrepeated.fields, fun hnodup => ⟨hnodup, ?_⟩⟩
  refine Retyping.nodup_methods_classDef hnamed (fun m hm => ?_) (hhoused c hclass) honce.methods
  exact List.mem_map.2 ⟨m, List.mem_flatMap.2 ⟨c, hc, hm⟩, rfl⟩

theorem unrepeated_of_staysApart (h : x.MakeUp v r) (hhoused : v.program.Housed) (hfields : v.program.HousesFields)
    (honce : ∀ c ∈ v.program.classes, c.Unrepeated) (hapart : v.program.StaysApart x.enums r.enums) {d : ClassDef} (hd : d ∈ r.program.classes) :
    d.Unrepeated := by
  rw [h.program] at hd
  have hd := Program.mem_of_class?_ofList (Program.mem_classes.1 hd)
  simp only [List.mem_append, List.mem_singleton] at hd
  rcases hd with ((hd | hd) | hd) | rfl
  · exact honce d (List.mem_filter.1 hd).1
  · obtain ⟨⟨t, f⟩, hy, c, hc, rfl, u, _, _, _, -, hdissolve⟩ := exists_of_mem_left h.forall₂_localClasses.flip hd
    have hf : x.fixed[c.type]? = some f := TreeMap.mem_toList_iff_getElem?_eq_some.1 hy
    have henum : x.enums.contains c.type = true := by
      refine contains_unboxed.2 (TreeMap.mem_iff_isSome_getElem?.2 ?_)
      rw [hf]
      rfl
    refine (LocalUtility.unrepeated_iff hdissolve (honce c (Program.mem_classes_of_mem_programClasses hc))).2 ⟨?_, ?_, hapart.valueOf c hc henum⟩
    · have hstatic := hapart.fields c hc
      rwa [ClassDef.remainingFields, if_pos henum] at hstatic
    · refine hapart.getters c.type f.data ?_
      rw [h.data, TreeMap.getElem?_map, hf]
      rfl
  · obtain ⟨c, hc, s, hnamed, henums, rfl⟩ :=
      exists_of_mem_left (Retyping.states_retypeAll v.program x.enums x.shared.type x.dissolved).flip hd
    obtain ⟨hc, hno⟩ := List.mem_filter.1 hc
    refine (unrepeated_retyped_iff hhoused hfields hc (honce c (Program.mem_classes_of_mem_programClasses hc)) hnamed).2 ?_
    have hall := hapart.fields c hc
    rw [ClassDef.remainingFields, if_neg (Bool.eq_false_iff.1 (by simpa only [Bool.not_eq_true'] using hno))] at hall
    rw [henums]
    exact hall
  · exact SharedUtility.unrepeated_build h.build

theorem staysApart_of_unrepeated (h : x.MakeUp v r) (hhoused : v.program.Housed) (hfields : v.program.HousesFields)
    (honce : ∀ c ∈ v.program.classes, c.Unrepeated)
    (hnames : ∀ c ∈ v.program.programClasses, x.enums.contains c.type = true → ∃ name, c.type = .ofBinaryName name)
    (hafter : ∀ d ∈ r.program.classes, d.Unrepeated) : v.program.StaysApart x.enums r.enums := by
  have hfound {d : ClassDef} (hd : r.program.class? d.type = some d) : d.Unrepeated := by
    exact hafter d (Program.mem_classes.2 hd)
  have henum {c : ClassDef} (hc : c ∈ v.program.programClasses) {f : FixedEnum} (hf : x.fixed[c.type]? = some f) :
      (c.staticFields.map fun f => (f.ref.name, f.ref.type.unbox x.enums)).Nodup ∧
        (f.data.fieldValues.keys.map fun f => (f.name, f.type.unbox x.enums)).Nodup ∧
        ∀ before m after, c.methods = before ++ m :: after → m.ref.isEnumValueOf c.type = true →
          ∀ n ∈ before, ¬ LocalUtility.AsksForValueOf x.enums n := by
    obtain ⟨d, hd, u, _, _, _, -, hdissolve⟩ := h.exists_leaves hc hf
    exact (LocalUtility.unrepeated_iff hdissolve (honce c (Program.mem_classes_of_mem_programClasses hc))).1
      (hfound (h.class?_localClasses hnames hd))
  have hfixed {t : Descriptor} (ht : x.enums.contains t = true) : ∃ f, x.fixed[t]? = some f :=
    Option.isSome_iff_exists.1 (TreeMap.mem_iff_isSome_getElem?.1 (contains_unboxed.1 ht))
  constructor
  · intro c hc
    cases hcontains : x.enums.contains c.type with
    | true =>
      obtain ⟨f, hf⟩ := hfixed hcontains
      rw [ClassDef.remainingFields, if_pos hcontains]
      exact (henum hc hf).1
    | false =>
      obtain ⟨e, he, s, hnamed, henums, rfl⟩ :=
        exists_of_mem_left (Retyping.states_retypeAll v.program x.enums x.shared.type x.dissolved) (List.mem_filter.2 ⟨hc, by simp [hcontains]⟩)
      obtain ⟨_, -, -, hforall⟩ := Retyping.resigns_retypeAll v.program x.enums x.shared.type x.dissolved
      rw [ClassDef.remainingFields, if_neg (by simp [hcontains]), ← henums]
      exact (unrepeated_retyped_iff hhoused hfields hc (honce c (Program.mem_classes_of_mem_programClasses hc)) hnamed).1
        (hfound (h.class?_retyped hforall he))
  · intro t data hdata
    rw [h.data, TreeMap.getElem?_map, Option.map_eq_some_iff] at hdata
    obtain ⟨f, hf, rfl⟩ := hdata
    obtain ⟨c, hc, rfl, -⟩ := h.isFixed t f hf
    exact (henum hc hf).2.1
  · intro c hc hcontains
    obtain ⟨f, hf⟩ := hfixed hcontains
    exact (henum hc hf).2.2

end Pieces.MakeUp

/-- Without enums, nothing stands for a number. -/
theorem unbox_of_none {enums : TypeSet} (h : ∀ t, enums.contains t = false) (t : Descriptor) : t.unbox enums = t := by
  simp only [Descriptor.unbox, Descriptor.mapBase, h]
  split
  · next harray => exact Descriptor.replaceBase_base harray
  · rfl

theorem staysApart_of_none {p : Program} {enums : TypeSet} (h : ∀ t, enums.contains t = false) (hfields : p.HousesFields)
    (honce : ∀ c ∈ p.classes, c.Unrepeated) : p.StaysApart enums ∅ := by
  refine ⟨fun c hc => ?_, fun t d hd => by simp at hd, fun c _ hcontains => ?_⟩
  · have hclass := Program.mem_classes_of_mem_programClasses hc
    rw [ClassDef.remainingFields, if_neg (by simp [h]), ← nodup_retypedRef_iff (hfields c hclass)]
    have hsame : c.fields.map (Retyping.retypedRef enums) = c.fields.map FieldDef.ref := by
      refine List.map_congr_left fun f _ => ?_
      rw [Retyping.retypedRef, unbox_of_none h]
    rw [hsame]
    exact (honce c hclass).fields
  · rw [h] at hcontains
    cases hcontains

/-- **When unboxing keeps members apart.** In a program whose classes declare no member twice, no class does after the
    unboxing exactly if the members stay apart with the enums taken for numbers. That they have to needs enums with types that are
    written as class types are: others can share a local class. -/
theorem unrepeated_iff_staysApart (hhoused : v.program.Housed) (hfields : v.program.HousesFields)
    (honce : ∀ c ∈ v.program.classes, c.Unrepeated) (h : run v o = .ok r) :
    (v.program.StaysApart r.report.unboxed r.enums → ∀ d ∈ r.program.classes, d.Unrepeated) ∧
      ((∀ c ∈ v.program.programClasses, r.report.unboxed.contains c.type = true → ∃ name, c.type = .ofBinaryName name) →
        (∀ d ∈ r.program.classes, d.Unrepeated) → v.program.StaysApart r.report.unboxed r.enums) := by
  rcases exists_pieces h with ⟨-, hnone⟩ | ⟨x, hx⟩
  · obtain ⟨hprogram, henums⟩ := program_of_none h hnone
    rw [hprogram, henums]
    exact ⟨fun _ => honce, fun _ _ => staysApart_of_none hnone hfields honce⟩
  · rw [hx.report]
    constructor
    · intro hapart d hd
      exact hx.unrepeated_of_staysApart hhoused hfields honce hapart hd
    · intro hnames hafter
      exact hx.staysApart_of_unrepeated hhoused hfields honce hnames hafter

/-! ### An enum with two methods `valueOf`, and a class with two fields `f` -/

namespace Twice

open Inherited (type)

/-- A static `valueOf` of the enum. -/
def valueOf (returnType : Descriptor) : MethodDef where
  ref := ⟨type "E", "valueOf", returnType, [.string]⟩
  access := .publicFlag ||| .staticFlag
  code := none

def enumMethods : List MethodDef := Inherited.classes[2].methods ++ [valueOf (type "E"), valueOf .int]

def enum : ClassDef := { Inherited.classes[2] with methods := enumMethods }

/-- A class with a field of the enum, and another one of that name. -/
def holder (other : Descriptor) : ClassDef where
  type := type "C"
  superclass := some .object
  fields := [⟨⟨type "C", "f", type "E"⟩, .publicFlag, none⟩, ⟨⟨type "C", "f", other⟩, .publicFlag, none⟩]

def view (enum : ClassDef) (other : Descriptor) : View := { program := .ofList (Inherited.classes.take 2 ++ [enum, holder other]) }

/-- The enums that become numbers, each with the fields that have getters. -/
def outcome (v : View) : Option (List Descriptor × List (Descriptor × List FieldRef) × Bool) :=
  match run v {} with
  | .ok r => some (r.report.unboxed.toList, r.enums.toList.map (fun x => (x.1, x.2.fieldValues.keys)), r.program.classes.all fun d => decide d.Unrepeated)
  | .error _ => none

theorem exists_of_outcome {v : View} {enums : List Descriptor} {getters : List (Descriptor × List FieldRef)} {apart : Bool}
    (h : outcome v = some (enums, getters, apart)) :
    ∃ r, run v {} = .ok r ∧ r.report.unboxed.toList = enums ∧ r.enums.toList.map (fun x => (x.1, x.2.fieldValues.keys)) = getters ∧
      ((∀ d ∈ r.program.classes, d.Unrepeated) ↔ apart = true) := by
  unfold outcome at h
  split at h
  · next r hr =>
    cases h
    exact ⟨r, hr, rfl, rfl, by simp⟩
  · cases h

/-- The other `valueOf` comes after the one of the enum. -/
theorem valueOf_first (enums : TypeSet) (before : List MethodDef) (m : MethodDef) (after : List MethodDef)
    (h : enumMethods = before ++ m :: after) (hm : m.ref.isEnumValueOf (type "E") = true) :
    ∀ n ∈ before, ¬ LocalUtility.AsksForValueOf enums n := by
  have hplaces : ∀ k < enumMethods.length, ∀ m ∈ enumMethods[k]?, m.ref.isEnumValueOf (type "E") = true →
      ∀ n ∈ enumMethods.take k, n.ref.name ≠ "valueOf" := by decide
  have hlength : before.length < enumMethods.length := by simp [h]
  intro n hn hasks
  refine hplaces before.length hlength m (by simp [h]) hm n (by simpa [h] using hn) ?_
  exact congrArg Signature.name hasks.2

theorem staysApart {r : UnboxingResult} (hunboxed : r.report.unboxed.toList = [type "E"])
    (hgetters : r.enums.toList.map (fun x => (x.1, x.2.fieldValues.keys)) = [(type "E", [])]) :
    (view enum .long).program.StaysApart r.report.unboxed r.enums := by
  have hcontains (t : Descriptor) : r.report.unboxed.contains t = decide (t = type "E") := by
    rw [Bool.eq_iff_iff, ← TreeSet.mem_iff_contains, ← TreeSet.mem_toList, hunboxed, List.mem_singleton, decide_eq_true_iff]
  have hclasses {c : ClassDef} (hc : c ∈ (view enum .long).program.programClasses) : c = enum ∨ c = holder .long := by
    obtain ⟨hc, hprogram⟩ := List.mem_filter.1 hc
    have hmem := Program.mem_of_class?_ofList (Program.mem_classes.1 hc)
    rcases List.mem_append.1 hmem with hmem | hmem
    · have hlibrary : ∀ d ∈ Inherited.classes.take 2, d.isProgram = false := by decide
      rw [hlibrary c hmem] at hprogram
      cases hprogram
    · simpa using hmem
  refine ⟨fun c hc => ?_, fun t d hd => ?_, fun c hc _ before m after hsplit hm => ?_⟩
  · have hunbox (t : Descriptor) : t.unbox r.report.unboxed = t.mapBase fun b => if decide (b = type "E") then .int else b := by
      simp only [Descriptor.unbox, hcontains]
    rcases hclasses hc with rfl | rfl
    · simp only [ClassDef.remainingFields, hcontains, hunbox]
      decide +kernel
    · simp only [ClassDef.remainingFields, hcontains, hunbox]
      decide +kernel
  · have hmem := List.mem_map_of_mem (f := fun x : Descriptor × EnumData => (x.1, x.2.fieldValues.keys)) (TreeMap.mem_toList_iff_getElem?_eq_some.2 hd)
    rw [hgetters, List.mem_singleton] at hmem
    rw [show d.fieldValues.keys = [] from congrArg Prod.snd hmem]
    exact List.nodup_nil
  · rcases hclasses hc with rfl | rfl
    · exact valueOf_first _ before m after hsplit hm
    · simp [holder] at hsplit

end Twice

/-- Fields of other types stay apart, and so do the two methods `valueOf`, the second of which is renamed. -/
theorem unrepeated_iff_staysApart_second :
    ∃ r, run (Twice.view Twice.enum .long) {} = .ok r ∧ r.report.unboxed.toList = [Inherited.type "E"] ∧
      ∀ d ∈ r.program.classes, d.Unrepeated := by
  have houtcome : Twice.outcome (Twice.view Twice.enum .long) = some ([Inherited.type "E"], [(Inherited.type "E", [])], true) := by
    decide +kernel
  obtain ⟨r, hr, hunboxed, hgetters, -⟩ := Twice.exists_of_outcome houtcome
  have hhoused : (Twice.view Twice.enum .long).program.Housed := by
    unfold Program.Housed
    decide +kernel
  have hfields : (Twice.view Twice.enum .long).program.HousesFields := by
    unfold Program.HousesFields
    decide +kernel
  refine ⟨r, hr, hunboxed, ?_⟩
  exact (unrepeated_iff_staysApart hhoused hfields (by decide +kernel) hr).1 (Twice.staysApart hunboxed hgetters)

/-- Fields of the types `E` and `int` come to be the same, though all members differed. -/
theorem field_declared_twice :
    (∀ c ∈ (Twice.view Inherited.classes[2] .int).program.classes, c.Unrepeated) ∧
      ∃ r, run (Twice.view Inherited.classes[2] .int) {} = .ok r ∧ ¬ ∀ d ∈ r.program.classes, d.Unrepeated := by
  refine ⟨by decide +kernel, ?_⟩
  have houtcome : Twice.outcome (Twice.view Inherited.classes[2] .int) = some ([Inherited.type "E"], [(Inherited.type "E", [])], false) := by
    decide +kernel
  obtain ⟨r, hr, -, -, hiff⟩ := Twice.exists_of_outcome houtcome
  exact ⟨r, hr, fun hall => by cases hiff.1 hall⟩

end Unboxing

end DexShrinker
