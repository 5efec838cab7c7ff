/-
  DexShrinker/Proofs/Unboxing/Resolution.lean
  ===========================================
  **When unboxing preserves resolution.**

  The hierarchy above a class that is not an enum stays as it is, and every method of such a
  class is where it was, under its new name (`Unboxing.Output.mirrored`). But only declared
  methods are recorded as moved. A method that names an enum is found after the unboxing
  if and only if it is called on the class that declares it; any other method is found as
  before (`Unboxing.resolves_iff_unmentioned_or_declared`).
-/
import DexShrinker.Proofs.Lens.Lookup
import DexShrinker.Proofs.Unboxing.Enums

namespace DexShrinker

open Std (TreeMap TreeSet LawfulEqOrd)

theorem Program.class?_ofList_of_unique {classes : List ClassDef} {c : ClassDef} (hc : c ∈ classes)
    (hunique : ∀ d ∈ classes, d.type = c.type → d = c) : (ofList classes).class? c.type = some c := by
  have hloop (cs : List ClassDef) (p : Program) (h : c ∈ cs ∨ (p.class? c.type).isSome) :
      ((cs.foldl Program.insert p).class? c.type).isSome := by
    induction cs generalizing p with
    | nil => simpa using h
    | cons d cs ih =>
      apply ih
      rw [class?_insert]
      rcases h with h | h
      · rcases List.mem_cons.1 h with rfl | h
        · simp
        · exact .inl h
      · split
        · exact .inr rfl
        · exact .inr h
  obtain ⟨d, hd⟩ := Option.isSome_iff_exists.1 (hloop classes .empty (.inl hc))
  have hd' : (ofList classes).class? c.type = some d := hd
  rw [hd', hunique d (mem_of_class?_ofList hd') (type_of_class? hd')]

/-- No type that a class names as a supertype has come to have a class. -/
def Program.AddsNoParent (p q : Program) : Prop := ∀ c ∈ p.classes, ∀ t ∈ c.supertypes, p.class? t = none → q.class? t = none

namespace Unboxing

/-! ### The program after unboxing -/

/-- A method that may be recorded as moved: one of an enum, or one that names an enum and is
    declared by a program class. -/
def MayMove (p : Program) (enums : TypeSet) (m : MethodRef) : Prop :=
  enums.contains m.holder = true ∨
    (m.proto.mentions enums = true ∧ ∃ c ∈ p.programClasses, ∃ d ∈ c.methods, d.ref = m)

/-- What unboxing gives, where `s` is the state at the end of the retyping. -/
structure Output (v : View) (r : UnboxingResult) (s : Retyping) : Prop where
  enums : s.enums = r.report.unboxed
  hasSubtypes : ∀ t, r.report.unboxed.contains t = true → v.program.hasSubtypes t = false
  sound : s.Sound ((v.program.programClasses.flatMap ClassDef.methods).map (·.ref.signature))
    (r.report.unboxed.contains · = true) (MayMove v.program r.report.unboxed)
  lens : s.recorder.build v.lens = .ok r.lens
  library : ∀ c ∈ v.program.classes, c.isLibrary = true → r.program.class? c.type = some c
  program : ∀ c ∈ v.program.programClasses, r.report.unboxed.contains c.type = false →
    ∃ e, r.program.class? c.type = some e ∧ c.Mirrors s.Retyped e

variable {v : View} {o : UnboxingOptions} {r : UnboxingResult} {s : Retyping}

theorem contains_unboxed {fixed : Fixed} {t : Descriptor} :
    (TreeSet.ofList fixed.keys : TypeSet).contains t = true ↔ t ∈ fixed := by
  rw [TreeSet.contains_ofList, List.contains_iff_mem, TreeMap.mem_keys]

theorem output_of_unbox (hhoused : v.program.Housed) {fixed : Fixed} {rejected : Rejections}
    {first : Descriptor} {report : UnboxingReport} (hanalyze : analyze v o = .ok (fixed, rejected))
    (hreport : report.unboxed = .ofList fixed.keys) (h : unbox v first fixed report = .ok r) :
    ∃ s, Output v r s := by
  unfold unbox at h
  obtain ⟨shared, hshared, h⟩ := bind_eq_ok.1 h
  obtain ⟨locals, hlocals, h⟩ := bind_eq_ok.1 h
  obtain ⟨dissolved, hdissolved, h⟩ := bind_eq_ok.1 h
  obtain ⟨localClasses, methods, recorder⟩ := dissolved
  dsimp only at hdissolved h
  generalize hretyped : retypeAll v.program (.ofList fixed.keys) shared.type recorder = retyped at h
  obtain ⟨others, recorder'⟩ := retyped
  obtain ⟨sharedClass, hbuild, h⟩ := bind_eq_ok.1 h
  obtain ⟨lens, hlens, h⟩ := bind_eq_ok.1 h
  cases h
  have hshared := SharedUtility.type_build hbuild ▸ SharedUtility.type_not_mem (Outcome.lift_eq_ok.1 hshared)
  have hlocals {t : Descriptor} {u : LocalUtility} (hu : locals[t]? = some u) :=
    type_not_mem_of_localUtilities (Outcome.lift_eq_ok.1 hlocals) hu
  have hlens := Outcome.ofExcept_eq_ok.1 hlens
  generalize henums : (TreeSet.ofList fixed.keys : TypeSet) = enums at hdissolved hretyped
  have hfixed (t : Descriptor) (ht : t ∈ fixed) : enums.contains t = true := by
    rw [← henums]
    exact contains_unboxed.2 ht
  obtain ⟨hnew, hconfined⟩ := dissolveAll_spec (T := (enums.contains · = true)) (K := MayMove v.program enums)
    ⟨fun t t' ht => by simp [Recorder.start] at ht, fun m m' hm => by simp [Recorder.start] at hm⟩ hfixed (by
      intro t ht c hc
      have htype := Program.type_of_class? hc
      refine ⟨htype, fun m hm => .inl ?_⟩
      rw [hhoused c (Program.mem_classes.2 (htype ▸ hc)) m hm, htype]
      exact hfixed t ht) hdissolved
  obtain ⟨s, hs, hrecorder, hsound, hforall⟩ := Retyping.forall₂_retypeAll hhoused hconfined
    (fun c hc _ m hm hmentions => .inr ⟨hmentions, c, hc, m, hm, rfl⟩) shared.type
  rw [hretyped] at hrecorder hforall
  obtain rfl : recorder' = s.recorder := hrecorder
  dsimp only at hforall
  -- Utility classes have types that no class had.
  have hold {d : ClassDef} (hd : d ∈ v.program.classes.filter (·.isLibrary) ++ localClasses ++ others ++ [sharedClass])
      (htype : d.type ∈ v.program.classes.map ClassDef.type) :
      (d ∈ v.program.classes ∧ d.isLibrary = true) ∨ d ∈ others := by
    rcases List.mem_append.1 hd with hd | hd
    · rcases List.mem_append.1 hd with hd | hd
      · rcases List.mem_append.1 hd with hd | hd
        · exact .inl (List.mem_filter.1 hd)
        · obtain ⟨t, u, hu, hdtype⟩ := hnew d hd
          exact absurd (hdtype ▸ htype) (hlocals hu)
      · exact .inr hd
    · rw [List.mem_singleton.1 hd] at htype
      exact absurd htype hshared
  have hothers {d : ClassDef} (hd : d ∈ others) : ∃ c ∈ v.program.programClasses, d.type = c.type := by
    obtain ⟨c, hc, hmirrors⟩ := exists_of_mem_left hforall.flip hd
    exact ⟨c, (List.mem_filter.1 hc).1, hmirrors.type⟩
  have hprogram {c : ClassDef} (hc : c ∈ v.program.programClasses) : c ∈ v.program.classes ∧ c.isLibrary = false := by
    obtain ⟨hc, hkind⟩ := List.mem_filter.1 hc
    exact ⟨hc, by rw [Program.isLibrary_eq, hkind, Bool.not_true]⟩
  have hnodup : (others.map ClassDef.type).Nodup := by
    rw [ClassDef.map_type_of_mirrors hforall]
    refine (Program.nodup_types v.program).sublist (List.Sublist.map _ ?_)
    exact List.filter_sublist.trans List.filter_sublist
  rw [henums] at hreport
  refine ⟨s, hs.trans hreport.symm, ?_, hreport ▸ hsound, hlens, ?_, ?_⟩
  · intro t ht
    have ht : enums.contains t = true := hreport ▸ ht
    rw [← henums] at ht
    exact (hasSubtypes_of_analyze hanalyze (contains_unboxed.1 ht)).1
  · intro c hc hlib
    apply Program.class?_ofList_of_unique
    · simp [hc, hlib]
    · intro d hd htype
      rcases hold hd (htype ▸ List.mem_map_of_mem hc) with hd | hd
      · exact Program.eq_of_type hd.1 hc htype
      · obtain ⟨c', hc', htype'⟩ := hothers hd
        obtain ⟨hmem, hkind⟩ := hprogram hc'
        rw [Program.eq_of_type hmem hc (htype'.symm.trans htype), hlib] at hkind
        cases hkind
  · intro c hc henum
    have henum : enums.contains c.type = false := hreport ▸ henum
    obtain ⟨e, he, hmirrors⟩ := exists_of_mem_left hforall (List.mem_filter.2 ⟨hc, by simp [henum]⟩)
    refine ⟨e, ?_, hmirrors⟩
    rw [← hmirrors.type]
    apply Program.class?_ofList_of_unique
    · simp [he]
    · intro d hd htype
      obtain ⟨hmem, hkind⟩ := hprogram hc
      rcases hold hd (by rw [htype, hmirrors.type]; exact List.mem_map_of_mem hmem) with hd | hd
      · rw [← Program.eq_of_type hd.1 hmem (htype.trans hmirrors.type), hd.2] at hkind
        cases hkind
      · exact List.inj_on_of_nodup_map hnodup hd he htype

/-- Unboxing changes nothing if there is nothing to unbox. -/
theorem run_cases (hhoused : v.program.Housed) (h : run v o = .ok r) :
    (r.program = v.program ∧ r.lens = v.lens ∧ ∀ t, r.report.unboxed.contains t = false) ∨ ∃ s, Output v r s := by
  unfold run at h
  obtain ⟨answer, hanalyze, h⟩ := bind_eq_ok.1 h
  obtain ⟨fixed, rejected⟩ := answer
  dsimp only at h
  split at h
  · next hkeys =>
    cases h
    refine .inl ⟨rfl, rfl, fun t => ?_⟩
    simp [hkeys]
  · exact .inr (output_of_unbox hhoused hanalyze rfl h)

theorem initName_of_isInstanceInitializer {d : MethodDef} (h : d.isInstanceInitializer = true) : d.ref.name = MethodRef.initName := by
  simpa [MethodDef.isInstanceInitializer, MethodRef.isInstanceInitializer] using h

/-- A method that is not an initializer goes to one method only. -/
theorem eq_of_retyped {d d₁ d₂ : MethodDef} (hinit : d.isInstanceInitializer = false) (h₁ : s.Retyped d d₁)
    (h₂ : s.Retyped d d₂) : d₁ = d₂ := by
  cases h₁ with
  | same hno =>
    cases h₂ with
    | same _ => rfl
    | initializer hyes => rw [hinit] at hyes; cases hyes
    | renamed hyes => rw [hno] at hyes; cases hyes
  | initializer hyes => rw [hinit] at hyes; cases hyes
  | renamed hyes _ hn =>
    cases h₂ with
    | same hno => rw [hno] at hyes; cases hyes
    | initializer hyes => rw [hinit] at hyes; cases hyes
    | renamed _ _ hn' =>
      cases hn.symm.trans hn'
      rfl

namespace Output

/-! ### Where the lens leads -/

/-- A method that names no enum keeps its name. -/
theorem lookup_of_unmentioned (h : Output v r s) {m : MethodRef} (hholder : r.report.unboxed.contains m.holder = false)
    (hproto : m.proto.mentions r.report.unboxed = false) (context : Option MethodRef) (kind : InvokeKind) :
    ∃ l, r.lens.lookupMethod m context kind v.lens = .ok l ∧ l.ref = m := by
  obtain ⟨-, l, hl, href⟩ := Recorder.exists_lookup_of_build h.lens m context kind
  refine ⟨l, hl, href.trans ?_⟩
  have htypes {t : Descriptor} (ht : r.report.unboxed.contains t = false) : s.recorder.moves.types[t]? = none := by
    cases hmoved : s.recorder.moves.types[t]? with
    | none => rfl
    | some t' =>
      have hcontains := h.sound.confined.types t t' hmoved
      rw [ht] at hcontains
      cases hcontains
  have hmethod : s.recorder.moves.methods[m]? = none := by
    cases hmoved : s.recorder.moves.methods[m]? with
    | none => rfl
    | some m' =>
      rcases h.sound.confined.methods m m' hmoved with hcontains | ⟨hmentions, -⟩
      · rw [hholder] at hcontains
        cases hcontains
      · rw [hproto] at hmentions
        cases hmentions
  have hparts : ∀ t ∈ m.proto.types, s.recorder.moves.types[t.base]? = none := by
    intro t ht
    apply htypes
    exact Bool.eq_false_iff.2 (List.any_eq_false.1 hproto t ht)
  rw [Renaming.mapMethod, TreeMap.getD_eq_getD_getElem?, hmethod, Option.getD_none,
    Renaming.mapHolder_of_none (htypes hholder), Renaming.mapProto_of_none hparts]

/-- A method keeps its name on a class that does not declare it, only the types change. -/
theorem lookup_of_inherited (h : Output v r s) {m : MethodRef} (hholder : r.report.unboxed.contains m.holder = false)
    (hno : ∀ c ∈ v.program.programClasses, ∀ d ∈ c.methods, d.ref ≠ m) (context : Option MethodRef) (kind : InvokeKind) :
    ∃ l, r.lens.lookupMethod m context kind v.lens = .ok l ∧ l.ref.name = m.name := by
  obtain ⟨-, l, hl, href⟩ := Recorder.exists_lookup_of_build h.lens m context kind
  refine ⟨l, hl, ?_⟩
  rw [href, Renaming.mapMethod, TreeMap.getD_eq_getD_getElem?]
  cases hmoved : s.recorder.moves.methods[m]? with
  | none => rfl
  | some m' =>
    rcases h.sound.confined.methods m m' hmoved with hcontains | ⟨-, c, hc, d, hd, href⟩
    · rw [hholder] at hcontains
      cases hcontains
    · exact absurd href (hno c hc d hd)

/-- A declared method that names an enum goes where its declaration goes. -/
theorem lookup_of_declared (h : Output v r s) {d d' : MethodDef} (hd : s.Retyped d d') (hinit : d.isInstanceInitializer = false)
    (hmentions : d.ref.proto.mentions r.report.unboxed = true) (context : Option MethodRef) (kind : InvokeKind) :
    ∃ l, r.lens.lookupMethod d.ref context kind v.lens = .ok l ∧ l.ref = d'.ref := by
  obtain ⟨hconflict, l, hl, href⟩ := Recorder.exists_lookup_of_build h.lens d.ref context kind
  refine ⟨l, hl, ?_⟩
  rw [← h.enums] at hmentions
  cases hd with
  | same hno => rw [hmentions] at hno; cases hno
  | initializer hyes => rw [hinit] at hyes; cases hyes
  | renamed _ _ _ hmoved => rw [href, Renaming.mapMethod, TreeMap.getD_eq_getD_getElem?, hmoved hconflict, Option.getD_some]

/-! ### Resolution after unboxing -/

/-- The hierarchy above a class that is not an enum stays as it is. -/
theorem mirrored (h : Output v r s) (hparents : v.program.AddsNoParent r.program) :
    Program.Mirrored v.program r.program
      (fun t => r.report.unboxed.contains t = false ∧ (v.program.class? t = none → r.program.class? t = none))
      (fun d d' => d' = d ∨ s.Retyped d d') where
  classes t ht := by
    cases hc : v.program.class? t with
    | none =>
      rw [ht.2 hc]
      exact .none
    | some c =>
      obtain rfl := Program.type_of_class? hc
      have hmem := Program.mem_classes.2 hc
      cases hlib : c.isLibrary with
      | true =>
        rw [h.library c hmem hlib]
        exact .some ⟨rfl, rfl, rfl, List.forall₂_same.2 fun d _ => .inl rfl⟩
      | false =>
        have hprogram : c.isProgram = true := by simpa [Program.isLibrary_eq] using hlib
        obtain ⟨e, he, hmirrors⟩ := h.program c (Program.mem_programClasses.2 ⟨hc, hprogram⟩) ht.1
        rw [he]
        exact .some ⟨hmirrors.type, hmirrors.superclass, hmirrors.interfaces, hmirrors.methods.imp fun _ _ => .inr⟩
  closed t c ht hc t' ht' := by
    obtain rfl := Program.type_of_class? hc
    have hmem := Program.mem_classes.2 hc
    refine ⟨?_, hparents c hmem t' ht'⟩
    cases hcontains : r.report.unboxed.contains t' with
    | false => rfl
    | true =>
      -- An enum that became a number has no subtypes.
      have hno := h.hasSubtypes t' hcontains
      have hall := List.any_eq_false.1 hno c hmem
      simp [ht'] at hall

/-- A method that names no enum is found as before. -/
theorem resolve_of_unmentioned (h : Output v r s) (hv : v.program.WellFormed) (hparents : v.program.AddsNoParent r.program)
    {m : MethodRef} {d : MethodDef} {c : ClassDef} (hinit : m.isInstanceInitializer = false)
    (hholder : r.report.unboxed.contains m.holder = false)
    (hproto : m.proto.mentions r.report.unboxed = false) (hc : c ∈ v.program.programClasses) (hdc : d ∈ c.methods)
    (hd : v.program.resolveMethod m = .ok (some d)) : r.program.resolveMethod m = .ok (some d) := by
  have hfind := Program.resolveMethod_eq_some_iff.1 hd
  have hsignature : d.ref.signature = m.signature := by simpa using List.find?_some hfind
  obtain ⟨b, hb⟩ := Program.exists_class_of_resolveMethod hd
  have hforall := (h.mirrored hparents).forall₂_searched hv
    ⟨hholder, fun hnone => absurd (hb.symm.trans hnone) (Option.some_ne_none b)⟩
  obtain ⟨d', hd', hfind'⟩ := Program.exists_find?_of_forall₂ hforall m.signature m.signature (by
    intro x y hxy _
    rcases hxy with rfl | hxy
    · exact Iff.rfl
    · cases hxy with
      | same => exact Iff.rfl
      | initializer hyes =>
        have hname := initName_of_isInstanceInitializer hyes
        have hne : m.name ≠ MethodRef.initName := by simpa [MethodRef.isInstanceInitializer] using hinit
        constructor
        · intro heq
          exact absurd ((congrArg Signature.name heq).symm.trans hname) hne
        · intro heq
          exact absurd ((congrArg Signature.name heq).symm.trans hname) hne
      | @renamed n hmentions _ hn =>
        constructor
        · intro heq
          rw [h.enums, show x.ref.proto = m.proto from congrArg Signature.proto heq, hproto] at hmentions
          cases hmentions
        · intro heq
          -- The new signature is one that no method of a program class had.
          refine absurd ?_ (h.sound.named.fresh _ _ hn)
          rw [show s.renamedSignature x.ref.signature n = m.signature from heq, ← hsignature]
          exact List.mem_map.2 ⟨d, List.mem_flatMap.2 ⟨c, hc, hdc⟩, rfl⟩) hfind
  have hdm : d.ref.proto.mentions s.enums = false := by
    rw [h.enums, show d.ref.proto = m.proto from congrArg Signature.proto hsignature]
    exact hproto
  have hsame : d' = d := by
    rcases hd' with heq | hd'
    · exact heq
    · refine (eq_of_retyped ?_ (.same hdm) hd').symm
      rw [MethodDef.isInstanceInitializer, MethodRef.isInstanceInitializer,
        show d.ref.name = m.name from congrArg Signature.name hsignature]
      exact hinit
  rw [Program.resolveMethod_eq_some_iff, hfind', hsame]

/-- In a class that is not an enum, exactly the methods with the signature of `d` go to methods
    with the signature of what `d` goes to. -/
theorem signature_iff (h : Output v r s) {c : ClassDef} (hc : c ∈ v.program.programClasses) {d x y : MethodDef} {n : String}
    (hinit : d.isInstanceInitializer = false) (hmentions : d.ref.proto.mentions s.enums = true)
    (hn : s.renamed[d.ref.signature]? = some n) (hx : x ∈ c.methods) (hxy : s.Retyped x y) :
    x.ref.signature = d.ref.signature ↔ y.ref.signature = s.renamedSignature d.ref.signature n := by
  cases hxy with
  | same hno =>
    constructor
    · intro heq
      rw [show x.ref.proto = d.ref.proto from congrArg Signature.proto heq, hmentions] at hno
      cases hno
    · intro heq
      refine absurd ?_ (h.sound.named.fresh _ _ hn)
      rw [← heq]
      exact List.mem_map.2 ⟨x, List.mem_flatMap.2 ⟨c, hc, hx⟩, rfl⟩
  | initializer hyes =>
    have hname := initName_of_isInstanceInitializer hyes
    constructor
    · intro heq
      rw [MethodDef.isInstanceInitializer, MethodRef.isInstanceInitializer,
        ← show x.ref.name = d.ref.name from congrArg Signature.name heq, hname] at hinit
      simp at hinit
    · intro heq
      -- The new name is too long for an initializer.
      have hlength := h.sound.named.length _ _ hn
      rw [← show x.ref.name = n from congrArg Signature.name heq, hname,
        show MethodRef.initName.length = 6 by decide, show unboxedSuffix.length = 14 by decide] at hlength
      omega
  | renamed _ _ hn' =>
    constructor
    · intro heq
      rw [heq] at hn'
      cases hn.symm.trans hn'
      rw [heq]
      rfl
    · intro heq
      exact h.sound.named.injective _ _ _ _ hn' hn heq

/-- A method that names an enum is found in the class that declares it. -/
theorem resolve_of_declared (h : Output v r s) {c e : ClassDef} (hc : c ∈ v.program.programClasses)
    (he : r.program.class? c.type = some e) (hmirrors : c.Mirrors s.Retyped e) {d d' : MethodDef}
    (hinit : d.isInstanceInitializer = false) (hmentions : d.ref.proto.mentions r.report.unboxed = true)
    (hholder : d.ref.holder = c.type) (hfirst : Program.FirstIn c.methods d) (hd : s.Retyped d d') :
    r.program.resolveMethod d'.ref = .ok (some d') := by
  rw [← h.enums] at hmentions
  cases hd with
  | same hno => rw [hmentions] at hno; cases hno
  | initializer hyes => rw [hinit] at hyes; cases hyes
  | @renamed n hmentions' hinit' hn hmoved =>
    obtain ⟨d', hd', hfind⟩ := Program.exists_find?_of_forall₂ hmirrors.methods d.ref.signature
      (s.renamedSignature d.ref.signature n) (fun x y hxy hx => h.signature_iff hc hinit hmentions hn hx hxy) hfirst
    obtain rfl := eq_of_retyped hinit (.renamed hmentions' hinit' hn hmoved) hd'
    obtain ⟨ms, hsearched⟩ := Program.exists_searched_eq_append he
    have hholder' : (MethodRef.ofSignature d.ref.holder (s.renamedSignature d.ref.signature n)).holder = c.type := hholder
    rw [Program.resolveMethod_eq_some_iff, hholder', hsearched, List.find?_append]
    change (List.find? (·.ref.signature == s.renamedSignature d.ref.signature n) e.methods).or _ = _
    rw [hfind, Option.some_or]

end Output

/-- A method that is declared by the class on which it is called resolves to a method of that
    class. -/
theorem holder_of_declared (hhoused : v.program.Housed) {m : MethodRef} {d d₁ : MethodDef}
    {c : ClassDef} (hc : c ∈ v.program.classes) (hd₁ : d₁ ∈ c.methods) (href : d₁.ref = m)
    (hd : v.program.resolveMethod m = .ok (some d)) : d.ref.holder = m.holder := by
  have htype : m.holder = c.type := href ▸ hhoused c hc d₁ hd₁
  obtain ⟨ms, hsearched⟩ := Program.exists_searched_eq_append (Program.mem_classes.1 hc)
  obtain ⟨x, hx⟩ : ∃ x, c.methods.find? (·.ref.signature == m.signature) = some x := by
    rw [← Option.isSome_iff_exists, List.find?_isSome]
    exact ⟨d₁, hd₁, by simp [href]⟩
  rw [Program.resolveMethod_eq_some_iff, htype, hsearched, List.find?_append, hx, Option.some_or] at hd
  cases hd
  rw [htype]
  exact hhoused c hc d (List.mem_of_find?_eq_some hx)

theorem getElem?_of_forall₂ {d d' : MethodDef} (hinit : d.isInstanceInitializer = false) (hd : s.Retyped d d')
    {xs ys : List MethodDef} (h : List.Forall₂ s.Retyped xs ys) {i : Nat} (hi : xs[i]? = some d) : ys[i]? = some d' := by
  obtain ⟨hlt, rfl⟩ := List.getElem?_eq_some_iff.1 hi
  have hlt' : i < ys.length := h.length_eq ▸ hlt
  rw [List.getElem?_eq_getElem hlt', eq_of_retyped hinit hd (h.get hlt hlt')]
  rfl

/-- **When unboxing preserves resolution.** A method that resolves to `d` is looked up as one that
    resolves to what `d` has become exactly if it names no enum that became a number or is
    called on the class that declares `d`. -/
theorem resolves_iff_unmentioned_or_declared (hv : v.program.WellFormed) (hhoused : v.program.Housed) (hrun : run v o = .ok r)
    (hparents : v.program.AddsNoParent r.program) {m : MethodRef} {d : MethodDef} {c : ClassDef}
    (hinit : m.isInstanceInitializer = false) (hholder : r.report.unboxed.contains m.holder = false)
    (hd : v.program.resolveMethod m = .ok (some d)) (hc : v.program.class? d.ref.holder = some c)
    (hprogram : c.isProgram = true) (henum : r.report.unboxed.contains c.type = false) (context : Option MethodRef)
    (kind : InvokeKind) :
    ∃ e d' l, r.program.class? c.type = some e ∧ (∀ i : Nat, c.methods[i]? = some d → e.methods[i]? = some d') ∧
      r.lens.lookupMethod m context kind v.lens = .ok l ∧
      (r.program.resolveMethod l.ref = .ok (some d') ↔
        m.proto.mentions r.report.unboxed = false ∨ m.holder = d.ref.holder) := by
  have htype := Program.type_of_class? hc
  rcases run_cases hhoused hrun with ⟨hsame, hlens, hnone⟩ | ⟨s, hout⟩
  · obtain ⟨l, hl, href⟩ := v.lens.lookupMethod_self m context kind
    refine ⟨c, d, l, by rw [hsame, htype]; exact hc, fun i hi => hi, hlens.symm ▸ hl, ?_⟩
    rw [hsame, href]
    refine iff_of_true hd (.inl ?_)
    exact List.any_eq_false.2 fun t _ => by rw [hnone]; exact Bool.false_ne_true
  · have hmem : c ∈ v.program.programClasses := Program.mem_programClasses.2 ⟨htype ▸ hc, hprogram⟩
    have hclass := Program.mem_classes_of_mem_programClasses hmem
    obtain ⟨e, he, hmirrors⟩ := hout.program c hmem henum
    obtain ⟨hsignature, hfirst⟩ := Program.resolveMethod_eq_some_iff_firstIn.1 hd
    have hname : m.name = d.ref.name := congrArg Signature.name hsignature
    have hproto : m.proto = d.ref.proto := congrArg Signature.proto hsignature
    have hinit' : d.isInstanceInitializer = false := by
      rw [MethodDef.isInstanceInitializer, MethodRef.isInstanceInitializer, ← hname]
      exact hinit
    have hdc : d ∈ c.methods := by
      obtain ⟨c', hc', hd'⟩ := List.mem_flatMap.1 (List.mem_of_find?_eq_some hfirst)
      have hmem' := Program.mem_classes_of_mem_searchOrder hc'
      rwa [Program.eq_of_type hclass hmem' (htype.trans (hhoused c' hmem' d hd'))]
    obtain ⟨d', -, hretyped⟩ := exists_of_mem_left hmirrors.methods hdc
    have hplace (i : Nat) := getElem?_of_forall₂ (i := i) hinit' hretyped hmirrors.methods
    cases hmentions : m.proto.mentions r.report.unboxed with
    | false =>
      obtain ⟨l, hl, href⟩ := hout.lookup_of_unmentioned hholder hmentions context kind
      refine ⟨e, d', l, he, hplace, hl, iff_of_true ?_ (.inl rfl)⟩
      rw [href, ← eq_of_retyped hinit' (.same (by rw [hout.enums, ← hproto]; exact hmentions)) hretyped]
      exact hout.resolve_of_unmentioned hv hparents hinit hholder hmentions hmem hdc hd
    | true =>
      by_cases hown : m.holder = d.ref.holder
      · obtain rfl : m = d.ref := MethodRef.ext hown hname hproto
        obtain ⟨l, hl, href⟩ := hout.lookup_of_declared hretyped hinit' hmentions context kind
        refine ⟨e, d', l, he, hplace, hl, iff_of_true ?_ (.inr rfl)⟩
        rw [href]
        obtain ⟨ms, hsearched⟩ := Program.exists_searched_eq_append hc
        rw [hsearched, Program.firstIn_append_of_mem hdc] at hfirst
        exact hout.resolve_of_declared hmem he hmirrors hinit' hmentions htype.symm hfirst hretyped
      · obtain ⟨l, hl, hsame⟩ := hout.lookup_of_inherited hholder (fun c' hc' d₁ hd₁ href =>
          hown (holder_of_declared hhoused (Program.mem_classes_of_mem_programClasses hc') hd₁ href hd).symm) context kind
        refine ⟨e, d', l, he, hplace, hl, iff_of_false (fun hres => ?_) (by simpa using hown)⟩
        have heq : l.ref.name = d'.ref.name :=
          congrArg Signature.name (Program.resolveMethod_eq_some_iff_firstIn.1 hres).1
        refine hretyped.name_ne hout.sound.named ?_ hinit' (heq.symm.trans (hsame.trans hname))
        rw [hout.enums, ← hproto]
        exact hmentions

/-! ### A call on a class that inherits the method

`E` becomes a number. Its constant is handed to a static method of `C`, which is called on `D`,
a class below `C`. -/

namespace Inherited

def type (name : String) : Descriptor := .ofBinaryName ("p/" ++ name)

def constantField : FieldRef := ⟨type "E", "A", type "E"⟩

def called (holder : String) : MethodRef := ⟨type holder, "m", .void, [type "E"]⟩

def initializer : MethodRef := ⟨type "E", MethodRef.initName, .void, [.string, .int]⟩

def classInitializerBody : Body where
  method := ⟨type "E", MethodRef.clinitName, .void⟩
  isStatic := true
  arguments := []
  values := [⟨type "E", .instruction⟩, ⟨.string, .instruction⟩, ⟨.int, .instruction⟩]
  blocks := [{
    body := [⟨some 0, .newInstance (type "E"), 1⟩, ⟨some 1, .constString "A", 1⟩, ⟨some 2, .constInt 0, 1⟩,
      ⟨none, .invoke .direct initializer [0, 1, 2] false, 1⟩, ⟨none, .staticPut constantField 0, 1⟩]
    terminator := .ret none }]

def initializerBody : Body where
  method := initializer
  isStatic := false
  arguments := [0, 1, 2]
  values := [⟨type "E", .argument 0⟩, ⟨.string, .argument 1⟩, ⟨.int, .argument 2⟩]
  blocks := [{
    body := [⟨none, .invoke .direct ⟨.enumBase, MethodRef.initName, .void, [.string, .int]⟩ [0, 1, 2] false, 1⟩]
    terminator := .ret none }]

def calledBody : Body where
  method := called "C"
  isStatic := true
  arguments := [0]
  values := [⟨type "E", .argument 0⟩]
  blocks := [{ terminator := .ret none }]

def mainBody : Body where
  method := ⟨type "D", "main", .void⟩
  isStatic := true
  arguments := []
  values := [⟨type "E", .instruction⟩]
  blocks := [{
    body := [⟨some 0, .staticGet constantField, 1⟩, ⟨none, .invoke .static (called "D") [0] false, 1⟩]
    terminator := .ret none }]

def calledDef : MethodDef where
  ref := called "C"
  access := .publicFlag ||| .staticFlag
  code := some (.body calledBody)

def classes : List ClassDef :=
  [{ type := .object, kind := .library, superclass := none },
    { type := .enumBase, kind := .library, access := .publicFlag ||| .abstractFlag, superclass := some .object },
    { type := type "E"
      access := .publicFlag ||| .finalFlag ||| .enumFlag
      superclass := some .enumBase
      fields := [{ ref := constantField, access := .publicFlag ||| .staticFlag ||| .finalFlag ||| .enumFlag }]
      methods := [
        { ref := classInitializerBody.method, access := .staticFlag, code := some (.body classInitializerBody) },
        { ref := initializer
          access := .privateFlag ||| .constructorFlag
          code := some (.body initializerBody)
          initSummary := some ⟨some (.argument 2), some (.argument 1), ∅⟩ }] },
    { type := type "C", superclass := some .object, methods := [calledDef] },
    { type := type "D"
      superclass := some (type "C")
      methods := [{ ref := mainBody.method, access := .publicFlag ||| .staticFlag, code := some (.body mainBody) }] }]

def view : View := { program := .ofList classes }

theorem wellFormed : view.program.WellFormed where
  isClass := by decide
  acyclic := by
    refine ⟨fun t => if t = .object then 0 else if t = .enumBase ∨ t = type "C" then 1 else 2, ?_⟩
    unfold Program.Ranked
    decide

theorem housed : view.program.Housed := by
  unfold Program.Housed
  decide

theorem addsNoParent (q : Program) : view.program.AddsNoParent q := by
  have hall : ∀ c ∈ view.program.classes, ∀ t ∈ c.supertypes, (view.program.class? t).isSome = true := by decide
  intro c hc t ht hnone
  have hsome := hall c hc t ht
  rw [hnone] at hsome
  cases hsome

/-- The types that become numbers, and the method that a call resolves to afterwards. -/
def outcome (m : MethodRef) : Option (List Descriptor × Option MethodRef) :=
  match run view {} with
  | .ok r =>
    match r.lens.lookupMethod m none .static view.lens with
    | .ok l =>
      match r.program.resolveMethod l.ref with
      | .ok d => some (r.report.unboxed.toList, d.map MethodDef.ref)
      | .error _ => none
    | .error _ => none
  | .error _ => none

theorem exists_of_outcome {m : MethodRef} {types : List Descriptor} {found : Option MethodRef}
    (h : outcome m = some (types, found)) :
    ∃ r l d, run view {} = .ok r ∧ r.report.unboxed.toList = types ∧ r.lens.lookupMethod m none .static view.lens = .ok l ∧
      r.program.resolveMethod l.ref = .ok d ∧ d.map MethodDef.ref = found := by
  unfold outcome at h
  split at h
  · next r hr =>
    split at h
    · next l hl =>
      split at h
      · next d hd =>
        cases h
        exact ⟨r, l, d, hr, rfl, hl, hd, rfl⟩
      · cases h
    · cases h
  · cases h

theorem contains_eq_false {r : UnboxingResult} (h : r.report.unboxed.toList = [type "E"]) {t : Descriptor} (ht : t ≠ type "E") :
    r.report.unboxed.contains t = false := by
  rw [← Bool.not_eq_true, ← TreeSet.mem_iff_contains, ← TreeSet.mem_toList, h, List.mem_singleton]
  exact ht

theorem resolve (holder : String) (h : holder = "C" ∨ holder = "D") :
    view.program.resolveMethod (called holder) = .ok (some calledDef) := by
  rcases h with rfl | rfl
  · rfl
  · rfl

end Inherited

/-- Calls on the class that declares the method. -/
theorem resolves_iff_unmentioned_or_declared_owner :
    ∃ r e d' l, run Inherited.view {} = .ok r ∧ r.report.unboxed.toList = [Inherited.type "E"] ∧
      r.program.class? (Inherited.type "C") = some e ∧ e.methods[0]? = some d' ∧
      r.lens.lookupMethod (Inherited.called "C") none .static Inherited.view.lens = .ok l ∧
      r.program.resolveMethod l.ref = .ok (some d') := by
  have houtcome : Inherited.outcome (Inherited.called "C") =
      some ([Inherited.type "E"], some ⟨Inherited.type "C", "m$enumunboxing$", .void, [.int]⟩) := by
    decide +kernel
  obtain ⟨r, -, -, hrun, hunboxed, -⟩ := Inherited.exists_of_outcome houtcome
  have hclass : Inherited.view.program.class? (Inherited.type "C") = some Inherited.classes[3] := by rfl
  obtain ⟨e, d', l, he, hplace, hl, hiff⟩ := resolves_iff_unmentioned_or_declared Inherited.wellFormed Inherited.housed hrun
    (Inherited.addsNoParent _) rfl (Inherited.contains_eq_false hunboxed (by decide)) (Inherited.resolve "C" (.inl rfl)) hclass
    rfl (Inherited.contains_eq_false hunboxed (by decide)) none .static
  exact ⟨r, e, d', l, hrun, hunboxed, he, hplace 0 rfl, hl, hiff.2 (.inr rfl)⟩

/-- Calls on a class below it resolve to nothing. -/
theorem inherited_call_unresolved :
    ∃ r l h c, run Inherited.view {} = .ok r ∧ (Inherited.called "D").isInstanceInitializer = false ∧
      Inherited.view.programClass? (Inherited.type "D") = some h ∧ r.report.unboxed.contains (Inherited.type "D") = false ∧
      Inherited.view.program.resolveMethod (Inherited.called "D") = .ok (some Inherited.calledDef) ∧
      Inherited.view.programClass? Inherited.calledDef.ref.holder = some c ∧
      r.report.unboxed.contains Inherited.calledDef.ref.holder = false ∧
      r.lens.lookupMethod (Inherited.called "D") none .static Inherited.view.lens = .ok l ∧
      r.program.resolveMethod l.ref = .ok none := by
  have houtcome : Inherited.outcome (Inherited.called "D") = some ([Inherited.type "E"], none) := by decide +kernel
  obtain ⟨r, l, d, hrun, hunboxed, hl, hd, hnone⟩ := Inherited.exists_of_outcome houtcome
  cases d with
  | some d => cases hnone
  | none =>
    exact ⟨r, l, Inherited.classes[4], Inherited.classes[3], hrun, rfl, rfl, Inherited.contains_eq_false hunboxed (by decide),
      Inherited.resolve "D" (.inr rfl), rfl, Inherited.contains_eq_false hunboxed (by decide), hl, hd⟩

end Unboxing

end DexShrinker
