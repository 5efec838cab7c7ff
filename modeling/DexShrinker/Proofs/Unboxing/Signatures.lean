/-
  DexShrinker/Proofs/Unboxing/Signatures.lean
  ===========================================
  **Unboxing keeps the override relation.**

  A signature that names an enum is given one new signature, wherever it is met; any other
  signature stays (`Retyping.Becomes`). New signatures are none of the old ones and differ for
  different old ones, so two methods of classes that are not enums have the same signature
  afterwards exactly if they had the same one before (`Unboxing.signatures_agree_iff`). This
  needs nothing of the classes: not even that their methods name them as holders.
-/
import DexShrinker.Proofs.Unboxing.Pieces

namespace DexShrinker

open Std (TreeMap TreeSet LawfulEqOrd)

namespace Retyping

variable {s s' : Retyping} {used : List Signature}

/-- The signature `b` is what `a` has become. -/
inductive Becomes (s : Retyping) (a : Signature) : Signature → Prop
  | kept (h : a.proto.mentions s.enums = false) : Becomes s a a
  | renamed {n : String} (h : a.proto.mentions s.enums = true) (hn : s.renamed[a]? = some n) : Becomes s a (s.renamedSignature a n)

theorem Becomes.mono (h : s.Extends s') {a b : Signature} (hb : s.Becomes a b) : s'.Becomes a b := by
  cases hb with
  | kept hno => exact .kept (h.enums.symm ▸ hno)
  | @renamed n hmentions hn =>
    have hsame : s.renamedSignature a n = s'.renamedSignature a n := by
      rw [renamedSignature, renamedSignature, h.enums]
    rw [hsame]
    exact .renamed (h.enums.symm ▸ hmentions) (h.renamed a n hn)

/-- **Signatures that were in use become the same one exactly if they are the same.** -/
theorem Becomes.eq_iff (h : s.Named used) {a a' b b' : Signature} (ha : a ∈ used) (hb : b ∈ used) (haa : s.Becomes a a')
    (hbb : s.Becomes b b') : a' = b' ↔ a = b := by
  cases haa with
  | kept hno =>
    cases hbb with
    | kept _ => exact Iff.rfl
    | renamed hyes hn =>
      constructor
      · intro heq
        exact absurd (heq ▸ ha) (h.fresh b _ hn)
      · intro heq
        rw [heq, hyes] at hno
        cases hno
  | renamed hyes hn =>
    cases hbb with
    | kept hno =>
      constructor
      · intro heq
        exact absurd (heq ▸ hb) (h.fresh a _ hn)
      · intro heq
        rw [← heq, hyes] at hno
        cases hno
    | renamed _ hn' =>
      constructor
      · intro heq
        exact h.injective a b _ _ hn hn' heq
      · intro heq
        subst heq
        cases hn.symm.trans hn'
        rfl

/-- The method `m'` is `m` under another reference. An instance initializer is still one; the
    signature of any other method is what that of `m` has become. -/
structure Resigns (s : Retyping) (m m' : MethodDef) : Prop where
  rest : m' = { m with ref := m'.ref }
  initializer : m.isInstanceInitializer = true → m'.isInstanceInitializer = true
  becomes : m.isInstanceInitializer = false → s.Becomes m.ref.signature m'.ref.signature

theorem Resigns.mono (h : s.Extends s') {m m' : MethodDef} (hm : s.Resigns m m') : s'.Resigns m m' :=
  ⟨hm.rest, hm.initializer, fun hinit => (hm.becomes hinit).mono h⟩

theorem Named.of_recorder (h : s.Named used) (r : Recorder) : Named used { s with recorder := r } :=
  ⟨h.mem_taken, h.taken, h.fresh, h.length, h.injective⟩

/-- **One method.** -/
theorem resigns_method (h : s.Named used) (holder : Descriptor) (protos : List Prototype) (m : MethodDef) :
    s.Extends (s.method holder protos m).2.2 ∧ (s.method holder protos m).2.2.Named used ∧
      (s.method holder protos m).2.2.Resigns m (s.method holder protos m).1 := by
  unfold method
  cases hmentions : m.ref.proto.mentions s.enums with
  | false => exact ⟨.refl s, h, rfl, id, fun _ => .kept hmentions⟩
  | true =>
    cases hinit : m.isInstanceInitializer with
    | true =>
      simp only [Bool.not_true, Bool.false_eq_true, if_false, if_true, initializer]
      refine ⟨⟨rfl, fun _ _ hn => hn, ?_⟩, h.of_recorder _, rfl, fun _ => hinit, fun hno => ?_⟩
      · exact (Recorder.grows_recordDefinition _ _ _).trans (Recorder.grows_moveMethod _ _ _)
      · rw [hinit] at hno
        cases hno
    | false =>
      simp only [Bool.not_true, Bool.false_eq_true, if_false]
      obtain ⟨hn, hextends, hnamed⟩ := name_spec h m.ref.signature
      generalize (s.name m.ref.signature).1 = n at hn
      generalize (s.name m.ref.signature).2 = s₁ at hn hextends hnamed
      refine ⟨⟨hextends.enums, hextends.renamed, ?_⟩, hnamed.of_recorder _, rfl, fun hyes => ?_, fun _ => ?_⟩
      · exact hextends.recorder.trans (Recorder.grows_moveMethod _ _ _)
      · rw [hinit] at hyes
        cases hyes
      · exact .renamed (hextends.enums.symm ▸ hmentions) hn

theorem resigns_foldl_addMethod (h : s.Named used) (holder : Descriptor) (ms : List MethodDef) (out : List MethodDef) (protos : List Prototype) :
    ∃ ms', (ms.foldl (addMethod holder) (out, protos, s)).1 = out ++ ms' ∧
      s.Extends (ms.foldl (addMethod holder) (out, protos, s)).2.2 ∧
      (ms.foldl (addMethod holder) (out, protos, s)).2.2.Named used ∧
      List.Forall₂ (ms.foldl (addMethod holder) (out, protos, s)).2.2.Resigns ms ms' := by
  induction ms generalizing s out protos with
  | nil => exact ⟨[], by simp, .refl s, h, .nil⟩
  | cons m ms ih =>
    obtain ⟨hextends, hnamed, hresigns⟩ := resigns_method h holder protos m
    obtain ⟨ms', heq, hextends', hnamed', hforall⟩ := ih hnamed (out ++ [(s.method holder protos m).1]) (s.method holder protos m).2.1
    refine ⟨(s.method holder protos m).1 :: ms', ?_, hextends.trans hextends', hnamed', .cons (hresigns.mono hextends') hforall⟩
    rw [List.foldl_cons]
    exact heq.trans (by simp)

/-- Fields change no name. -/
theorem named_foldl_addField (h : s.Named used) (fs : List FieldDef) (out : List FieldDef) :
    s.Extends (fs.foldl addField (out, s)).2 ∧ (fs.foldl addField (out, s)).2.Named used := by
  have hsound : s.Sound used (fun _ => True) (fun _ => True) := ⟨h, fun _ _ _ => trivial, fun _ _ _ => trivial⟩
  obtain ⟨hextends, hsound'⟩ := foldl_addField hsound fs out
  exact ⟨hextends, hsound'.named⟩

theorem resigns_classDef (h : s.Named used) (c : ClassDef) :
    s.Extends (s.classDef c).2 ∧ (s.classDef c).2.Named used ∧ c.Mirrors (s.classDef c).2.Resigns (s.classDef c).1 := by
  obtain ⟨hextends, hnamed⟩ := named_foldl_addField h c.fields []
  obtain ⟨ms', heq, hextends', hnamed', hforall⟩ := resigns_foldl_addMethod hnamed c.type c.methods []
    ((c.instanceInitializers.filter (!·.ref.proto.mentions (c.fields.foldl addField ([], s)).2.enums)).map (·.ref.proto))
  rw [List.nil_append] at heq
  rw [← heq] at hforall
  exact ⟨hextends.trans hextends', hnamed', rfl, rfl, rfl, hforall⟩

theorem resigns_foldl_addClass (h : s.Named used) (cs : List ClassDef) (out : List ClassDef) :
    ∃ es, (cs.foldl addClass (out, s)).1 = out ++ es ∧ s.Extends (cs.foldl addClass (out, s)).2 ∧
      (cs.foldl addClass (out, s)).2.Named used ∧
      List.Forall₂ (ClassDef.Mirrors (cs.foldl addClass (out, s)).2.Resigns) cs es := by
  induction cs generalizing s out with
  | nil => exact ⟨[], by simp, .refl s, h, .nil⟩
  | cons c cs ih =>
    obtain ⟨hextends, hnamed, hmirrors⟩ := resigns_classDef h c
    obtain ⟨es, heq, hextends', hnamed', hforall⟩ := ih hnamed (out ++ [(s.classDef c).1])
    refine ⟨(s.classDef c).1 :: es, ?_, hextends.trans hextends', hnamed', .cons ?_ hforall⟩
    · rw [List.foldl_cons]
      exact heq.trans (by simp)
    · exact ⟨hmirrors.type, hmirrors.superclass, hmirrors.interfaces, hmirrors.methods.imp fun _ _ hm => hm.mono hextends'⟩

/-- **All classes that are not enums.** -/
theorem resigns_retypeAll (p : Program) (enums : TypeSet) (padding : Descriptor) (r : Recorder) :
    ∃ s : Retyping, s.enums = enums ∧ s.Named ((p.programClasses.flatMap ClassDef.methods).map (·.ref.signature)) ∧
      List.Forall₂ (ClassDef.Mirrors s.Resigns) (p.programClasses.filter (!enums.contains ·.type))
        (Unboxing.retypeAll p enums padding r).1 := by
  obtain ⟨es, heq, hextends, hnamed, hforall⟩ := resigns_foldl_addClass
    (s := ⟨enums, padding, (p.programClasses.flatMap ClassDef.methods).map (·.ref.signature), ∅, r⟩) named_of_start
    (p.programClasses.filter (!enums.contains ·.type)) []
  rw [List.nil_append] at heq
  exact ⟨_, hextends.enums, hnamed, heq ▸ hforall⟩

end Retyping

namespace Unboxing

variable {v : View} {o : UnboxingOptions} {r : UnboxingResult} {x : Pieces}

/-- Nothing changes if no enum becomes a number. -/
theorem program_of_none (h : run v o = .ok r) (hnone : ∀ t, r.report.unboxed.contains t = false) : r.program = v.program ∧ r.enums = ∅ := by
  unfold run at h
  obtain ⟨⟨fixed, rejected⟩, -, h⟩ := bind_eq_ok.1 h
  dsimp only at h
  split at h
  · cases h
    exact ⟨rfl, rfl⟩
  · next first rest hkeys =>
    unfold unbox at h
    obtain ⟨_, -, h⟩ := bind_eq_ok.1 h
    obtain ⟨_, -, h⟩ := bind_eq_ok.1 h
    obtain ⟨_, -, h⟩ := bind_eq_ok.1 h
    obtain ⟨_, -, h⟩ := bind_eq_ok.1 h
    obtain ⟨_, -, h⟩ := bind_eq_ok.1 h
    cases h
    have hfirst := hnone first
    rw [contains_unboxed.2 (TreeMap.mem_keys.1 (by rw [hkeys]; exact List.mem_cons_self))] at hfirst
    cases hfirst

namespace Pieces.MakeUp

/-- Local classes have types that no class had. -/
theorem fresh_of_mem_localClasses (h : x.MakeUp v r) {d : ClassDef} (hd : d ∈ x.localClasses) : Fresh v.program d.type := by
  obtain ⟨hnew, -⟩ := dissolveAll_spec (T := fun _ => True) (K := fun _ => True) ⟨fun _ _ _ => trivial, fun _ _ _ => trivial⟩
    (fun _ _ => trivial) (fun t _ c hc => ⟨Program.type_of_class? hc, fun _ _ => trivial⟩) h.dissolve
  obtain ⟨t, u, hu, htype⟩ := hnew d hd
  rw [htype]
  exact h.locals t u hu

/-- A class of an old type is a library class or one with new types. -/
theorem cases_of_type_mem (h : x.MakeUp v r) {d : ClassDef}
    (hd : d ∈ v.program.classes.filter (·.isLibrary) ++ x.localClasses ++ (x.retyped v.program).1 ++ [x.sharedClass])
    (htype : d.type ∈ v.program.classes.map ClassDef.type) :
    (d ∈ v.program.classes ∧ d.isLibrary = true) ∨ d ∈ (x.retyped v.program).1 := by
  simp only [List.mem_append, List.mem_singleton] at hd
  rcases hd with ((hd | hd) | hd) | rfl
  · exact .inl (List.mem_filter.1 hd)
  · exact absurd htype (h.fresh_of_mem_localClasses hd).not_mem
  · exact .inr hd
  · rw [SharedUtility.type_build h.build] at htype
    exact absurd htype h.shared.not_mem

/-- **Classes that are not enums are found under their old types.** -/
theorem class?_retyped (h : x.MakeUp v r) {s : Retyping}
    (hforall : List.Forall₂ (ClassDef.Mirrors s.Resigns) (v.program.programClasses.filter (!x.enums.contains ·.type)) (x.retyped v.program).1)
    {e : ClassDef} (he : e ∈ (x.retyped v.program).1) : r.program.class? e.type = some e := by
  obtain ⟨c, hc, hmirrors⟩ := exists_of_mem_left hforall.flip he
  obtain ⟨hclass, hprogram⟩ := List.mem_filter.1 (List.mem_filter.1 hc).1
  have hnodup : ((x.retyped v.program).1.map ClassDef.type).Nodup := by
    rw [ClassDef.map_type_of_mirrors hforall]
    refine (Program.nodup_types v.program).sublist (List.Sublist.map _ ?_)
    exact List.filter_sublist.trans List.filter_sublist
  rw [h.program]
  apply Program.class?_ofList_of_unique
  · simp [he]
  · intro d hd htype
    rcases h.cases_of_type_mem hd (by rw [htype, hmirrors.type]; exact List.mem_map_of_mem hclass) with ⟨hd, hlibrary⟩ | hd
    · rw [Program.isLibrary_eq, Program.eq_of_type hd hclass (htype.trans hmirrors.type), hprogram] at hlibrary
      cases hlibrary
    · exact List.inj_on_of_nodup_map hnodup hd he htype

end Pieces.MakeUp

/-- **What becomes of the methods of classes that are not enums.** -/
theorem exists_resigns (h : run v o = .ok r) :
    ∃ s : Retyping, s.Named ((v.program.programClasses.flatMap ClassDef.methods).map (·.ref.signature)) ∧
      ∀ c ∈ v.program.programClasses, r.report.unboxed.contains c.type = false →
        ∃ e, r.program.class? c.type = some e ∧ c.Mirrors s.Resigns e := by
  rcases exists_pieces h with ⟨-, hnone⟩ | ⟨x, hx⟩
  · refine ⟨⟨∅, .int, (v.program.programClasses.flatMap ClassDef.methods).map (·.ref.signature), ∅, Recorder.start .enumUnboxing⟩,
      Retyping.named_of_start, fun c hc _ => ⟨c, ?_, rfl, rfl, rfl, ?_⟩⟩
    · rw [(program_of_none h hnone).1]
      exact (Program.mem_programClasses.1 hc).1
    · refine List.forall₂_same.2 fun m _ => ⟨rfl, id, fun _ => .kept ?_⟩
      exact List.any_eq_false.2 fun t _ => by simp
  · obtain ⟨s, -, hnamed, hforall⟩ := Retyping.resigns_retypeAll v.program x.enums x.shared.type x.dissolved
    refine ⟨s, hnamed, fun c hc henum => ?_⟩
    rw [hx.report] at henum
    obtain ⟨e, he, hmirrors⟩ := exists_of_mem_left hforall (List.mem_filter.2 ⟨hc, by simp [henum]⟩)
    refine ⟨e, ?_, hmirrors⟩
    rw [← hmirrors.type]
    exact hx.class?_retyped hforall he

/-- After the unboxing, `m'` has the place that the method `m` had in the class `c`. -/
def Succeeds (r : UnboxingResult) (c : ClassDef) (m m' : MethodDef) : Prop :=
  ∃ (c' : ClassDef) (i : Nat), r.program.class? c.type = some c' ∧ c.methods[i]? = some m ∧ c'.methods[i]? = some m'

theorem exists_succeeds {M : MethodDef → MethodDef → Prop} {c e : ClassDef} (he : r.program.class? c.type = some e) (h : c.Mirrors M e)
    {m : MethodDef} (hm : m ∈ c.methods) : ∃ m', Succeeds r c m m' := by
  obtain ⟨i, hi⟩ := List.mem_iff_getElem?.1 hm
  have hlt : i < e.methods.length := h.methods.length_eq ▸ (List.getElem?_eq_some_iff.1 hi).1
  exact ⟨e.methods[i], e, i, he, hi, List.getElem?_eq_getElem hlt⟩

theorem Succeeds.of_mirrors {M : MethodDef → MethodDef → Prop} {c e : ClassDef} (he : r.program.class? c.type = some e) (h : c.Mirrors M e)
    {m m' : MethodDef} (hm : Succeeds r c m m') : M m m' := by
  obtain ⟨e', i, he', hi, hi'⟩ := hm
  cases he.symm.trans he'
  obtain ⟨hlt, rfl⟩ := List.getElem?_eq_some_iff.1 hi
  obtain ⟨hlt', rfl⟩ := List.getElem?_eq_some_iff.1 hi'
  exact h.methods.get hlt hlt'

/-- The lens leads a method that is not an initializer to the one in its place. -/
theorem Succeeds.exists_lookup (hhoused : v.program.Housed) (h : run v o = .ok r) {c : ClassDef}
    (hc : c ∈ v.program.programClasses) (henum : r.report.unboxed.contains c.type = false) {m m' : MethodDef} (hm : Succeeds r c m m')
    (hinit : m.isInstanceInitializer = false) (context : Option MethodRef) (kind : InvokeKind) :
    ∃ l, r.lens.lookupMethod m.ref context kind v.lens = .ok l ∧ l.ref = m'.ref := by
  have hclass := Program.mem_classes_of_mem_programClasses hc
  rcases run_cases hhoused h with ⟨hsame, hlens, -⟩ | ⟨s, hout⟩
  · obtain ⟨e, i, he, hi, hi'⟩ := hm
    rw [hsame, Program.mem_classes.1 hclass] at he
    cases he
    cases hi.symm.trans hi'
    rw [hlens]
    exact v.lens.lookupMethod_self m.ref context kind
  · obtain ⟨e, he, hmirrors⟩ := hout.program c hc henum
    have hretyped := hm.of_mirrors he hmirrors
    cases hmentions : m.ref.proto.mentions r.report.unboxed with
    | true => exact hout.lookup_of_declared hretyped hinit hmentions context kind
    | false =>
      rw [← eq_of_retyped hinit (.same (by rw [hout.enums]; exact hmentions)) hretyped]
      refine hout.lookup_of_unmentioned ?_ hmentions context kind
      obtain ⟨-, i, -, hi, -⟩ := hm
      rw [hhoused c hclass m (List.mem_of_getElem? hi)]
      exact henum

/-- **Unboxing keeps the override relation.** Of two methods, not initializers, of classes that stay
    classes, both are still there, as they were but for their references, and their signatures are
    the same exactly if they were the same before. The lens leads to where they are. -/
theorem signatures_agree_iff (h : run v o = .ok r) {c d : ClassDef} (hc : c ∈ v.program.programClasses)
    (hd : d ∈ v.program.programClasses) (hcenum : r.report.unboxed.contains c.type = false) (hdenum : r.report.unboxed.contains d.type = false)
    {m n : MethodDef} (hm : m ∈ c.methods) (hn : n ∈ d.methods) (hminit : m.isInstanceInitializer = false)
    (hninit : n.isInstanceInitializer = false) :
    (∃ m', Succeeds r c m m') ∧ (∃ n', Succeeds r d n n') ∧ ∀ m' n', Succeeds r c m m' → Succeeds r d n n' →
      m' = { m with ref := m'.ref } ∧ n' = { n with ref := n'.ref } ∧
      (m'.ref.signature = n'.ref.signature ↔ m.ref.signature = n.ref.signature) ∧
      (v.program.Housed → ∀ context kind, ∃ l, r.lens.lookupMethod m.ref context kind v.lens = .ok l ∧ l.ref = m'.ref) := by
  obtain ⟨s, hnamed, hall⟩ := exists_resigns h
  obtain ⟨c', hc', hcm⟩ := hall c hc hcenum
  obtain ⟨d', hd', hdm⟩ := hall d hd hdenum
  have hused {c : ClassDef} (hc : c ∈ v.program.programClasses) {m : MethodDef} (hm : m ∈ c.methods) :
      m.ref.signature ∈ (v.program.programClasses.flatMap ClassDef.methods).map (·.ref.signature) :=
    List.mem_map.2 ⟨m, List.mem_flatMap.2 ⟨c, hc, hm⟩, rfl⟩
  refine ⟨exists_succeeds hc' hcm hm, exists_succeeds hd' hdm hn, fun m' n' hm' hn' => ?_⟩
  have hresigns := hm'.of_mirrors hc' hcm
  have hresigns' := hn'.of_mirrors hd' hdm
  refine ⟨hresigns.rest, hresigns'.rest, ?_, fun hhoused context kind => ?_⟩
  · exact (hresigns.becomes hminit).eq_iff hnamed (hused hc hm) (hused hd hn) (hresigns'.becomes hninit)
  · exact hm'.exists_lookup hhoused h hc hcenum hminit context kind

/-! ### Two classes with the same method

The enum is handed to methods of two unrelated classes, one of which has the name that the suffix
gives already. -/

namespace Unrelated

def method (holder name : String) (parameter : Descriptor) : MethodDef where
  ref := ⟨Inherited.type holder, name, .void, [parameter]⟩
  access := .publicFlag ||| .abstractFlag
  code := none

def first : ClassDef where
  type := Inherited.type "C"
  access := .publicFlag ||| .abstractFlag
  superclass := some .object
  methods := [method "C" ("m" ++ unboxedSuffix) .int, method "C" "m" (Inherited.type "E")]

def second : ClassDef where
  type := Inherited.type "D"
  access := .publicFlag ||| .abstractFlag
  superclass := some .object
  methods := [method "D" "m" (Inherited.type "E")]

def view : View := { program := .ofList (Inherited.classes.take 3 ++ [first, second]) }

def unboxed : Option (List Descriptor) :=
  match run view {} with
  | .ok r => some r.report.unboxed.toList
  | .error _ => none

theorem exists_run : ∃ r, run view {} = .ok r ∧ r.report.unboxed.toList = [Inherited.type "E"] := by
  have hunboxed : unboxed = some [Inherited.type "E"] := by decide +kernel
  unfold unboxed at hunboxed
  split at hunboxed
  · next r hr => exact ⟨r, hr, Option.some.inj hunboxed⟩
  · cases hunboxed

theorem mem_programClasses {c : ClassDef} (h : c = first ∨ c = second) : c ∈ view.program.programClasses := by
  refine Program.mem_programClasses.2 ⟨Program.class?_ofList (by decide +kernel) ?_, ?_⟩
  · rcases h with rfl | rfl <;> simp
  · rcases h with rfl | rfl <;> rfl

end Unrelated

/-- Both methods get one new name, which is not the one that was taken. -/
theorem signatures_agree_iff_taken :
    ∃ r taken m n, run Unrelated.view {} = .ok r ∧
      Succeeds r Unrelated.first (Unrelated.method "C" ("m" ++ unboxedSuffix) .int) taken ∧
      Succeeds r Unrelated.first (Unrelated.method "C" "m" (Inherited.type "E")) m ∧
      Succeeds r Unrelated.second (Unrelated.method "D" "m" (Inherited.type "E")) n ∧
      m.ref.signature = n.ref.signature ∧ taken.ref.signature ≠ m.ref.signature := by
  obtain ⟨r, hrun, hunboxed⟩ := Unrelated.exists_run
  have hfirst := Unrelated.mem_programClasses (.inl rfl)
  have hsecond := Unrelated.mem_programClasses (.inr rfl)
  have hC : r.report.unboxed.contains Unrelated.first.type = false := Inherited.contains_eq_false hunboxed (by decide)
  have hD : r.report.unboxed.contains Unrelated.second.type = false := Inherited.contains_eq_false hunboxed (by decide)
  have hm : Unrelated.method "C" "m" (Inherited.type "E") ∈ Unrelated.first.methods := by simp [Unrelated.first]
  obtain ⟨⟨m, hm'⟩, ⟨n, hn'⟩, hsame⟩ := signatures_agree_iff hrun hfirst hsecond hC hD hm
    List.mem_cons_self (by decide) (by decide)
  obtain ⟨⟨taken, htaken⟩, -, hdifferent⟩ := signatures_agree_iff hrun hfirst hfirst hC hC
    List.mem_cons_self hm (by decide) (by decide)
  refine ⟨r, taken, m, n, hrun, htaken, hm', hn', ?_, ?_⟩
  · exact (hsame m n hm' hn').2.2.1.2 (by decide)
  · intro heq
    exact absurd ((hdifferent taken m htaken hm').2.2.1.1 heq) (by decide)

end Unboxing

end DexShrinker
