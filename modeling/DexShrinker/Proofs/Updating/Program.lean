/-
  DexShrinker/Proofs/Updating/Program.lean
  ========================================
  **Programs whose bodies can be read.**

  A body fits a method if it can be read and has as many arguments as the method
  (`Code.Fits`). After a pass, a method waits for its body to be brought up to date: either
  the body was put together under the new names and fits as it is, or it still lacks the
  parameters that the layer adds (`MethodDef.Awaits`). The update fills them in, so in the
  end every body fits (`Update.fits_of_methodCode`).
-/
import DexShrinker.Proofs.Program
import DexShrinker.Proofs.Updating.Rebuilt
import DexShrinker.Updating.Program

namespace DexShrinker

/-! ### Bodies that fit -/

/-- The code can be read with `k` arguments. -/
def Code.Fits (k : Nat) : Code → Prop
  | .body c => c.Shaped ∧ c.Each Instr.IsSound ∧ c.arguments.length = k
  | .packed p => p.Readable ∧ p.argumentCount = k

/-- The method has no code, or packed code that fits it. -/
def MethodDef.Ready (m : MethodDef) : Prop := ∀ code, m.code = some code → code.isPacked = true ∧ code.Fits m.argumentTypes.length

/-- The code of the method fits once it has been brought up to date. -/
def MethodDef.Awaits (n : Renaming) (synthesized : List MethodRef) (m : MethodDef) : Prop :=
  ∀ code, m.code = some code →
    (m.ref ∈ synthesized ∧ code.Fits m.argumentTypes.length) ∨
      (m.ref ∉ synthesized ∧ ∃ k j, code.Fits k ∧ n.Pads m.ref j ∧ m.argumentTypes.length = k + j)

theorem MethodDef.Ready.awaits {n : Renaming} {synthesized : List MethodRef} {m m' : MethodDef} (h : m.Ready) (hcode : m'.code = m.code)
    (hsizes : n.Sizes m m') (hno : m'.ref ∉ synthesized) : m'.Awaits n synthesized := by
  intro code hsome
  obtain ⟨k, hpads, hlength⟩ := hsizes
  exact .inr ⟨hno, _, k, (h code (hcode ▸ hsome)).2, hpads, hlength⟩

theorem Code.fits_of_pack {c : Body} {k : Nat} (h : (Code.body c).Fits k) {p : PackedBody} (hp : c.pack = .ok p) : (Code.packed p).Fits k := by
  obtain ⟨hshaped, hsound, harguments⟩ := h
  obtain ⟨hreadable, hcount⟩ := Body.readable_of_pack hshaped hsound hp
  exact ⟨hreadable, hcount.trans harguments⟩

/-- A packed body that fits, unpacked. -/
theorem PackedBody.fits_of_unpack {p : PackedBody} {k : Nat} (h : (Code.packed p).Fits k) {m : MethodRef} {isStatic : Bool} {types : List Descriptor}
    {c : Body} (hc : p.unpack m isStatic types = .ok c) : (Code.body c).Fits k := by
  obtain ⟨hshaped, hholds, hcount⟩ := PackedBody.unpack_spec h.1.bytes hc
  refine ⟨hshaped, fun b hb i hi hdest => ?_, hcount.trans h.2⟩
  rw [← (hholds b hb i hi).1]
  exact hdest

namespace Update

variable {u : Update} {n : Renaming}

/-- What a layer has to satisfy for bodies to be brought up to date across it. -/
structure Crosses (u : Update) (n : Renaming) : Prop where
  across : u.Across n
  self : ∀ f : FieldRef, n.fields[f]? ≠ some f
  void : n.KeepsVoid

theorem fits_of_body (h : u.Crosses n) {m : MethodRef} {j : Nat} (hpads : n.Pads m j) {isStatic : Bool} {c d : Body} (hshaped : c.Shaped)
    (hsound : c.Each Instr.IsNearlySound) (hd : u.body c m isStatic = .ok d) {q : PackedBody} (hq : d.pack = .ok q) :
    (Code.packed q).Fits (c.arguments.length + j) :=
  readable_of_body h.across h.void hpads hshaped hsound hd hq

/-- **Bringing code up to date.** -/
theorem fits_of_methodCode (h : u.Crosses n) {synthesized : List MethodRef} {m : MethodDef} (hm : m.Awaits n synthesized) {code code' : Code}
    (hcode : m.code = some code) {isSynthesized : Bool} (hmem : isSynthesized = true ↔ m.ref ∈ synthesized) {fate : BodyFate}
    (hrun : u.methodCode isSynthesized m code = .ok (code', fate)) : code'.isPacked = true ∧ code'.Fits m.argumentTypes.length := by
  rcases hm code hcode with ⟨hin, hfits⟩ | ⟨hout, k, j, hfits, hpads, hlength⟩
  · rw [hmem.2 hin] at hrun
    cases code with
    | body c =>
      obtain ⟨p, hp, hrun⟩ := bind_eq_ok.1 hrun
      cases hrun
      exact ⟨rfl, Code.fits_of_pack hfits hp⟩
    | packed p =>
      cases hrun
      exact ⟨rfl, hfits⟩
  · rw [Bool.eq_false_iff.2 fun hyes => hout (hmem.1 hyes)] at hrun
    rw [hlength]
    cases code with
    | body c =>
      obtain ⟨d, hd, hrun⟩ := bind_eq_ok.1 hrun
      obtain ⟨q, hq, hrun⟩ := bind_eq_ok.1 hrun
      cases hrun
      obtain ⟨hshaped, hsound, harguments⟩ := hfits
      rw [← harguments]
      exact ⟨rfl, fits_of_body h hpads hshaped (fun b hb i hi => (hsound b hb i hi).nearly) (Outcome.lift_eq_ok.1 hd) hq⟩
    | packed p =>
      obtain ⟨r, hr, hrun⟩ := bind_eq_ok.1 hrun
      obtain ⟨hreadable, hcount⟩ := readable_of_packed h.across h.self h.void hpads hfits.1 hr
      rw [hfits.2] at hcount
      cases r <;> cases hrun <;> exact ⟨rfl, hreadable, hcount⟩

end Update

/-! ### All methods of a program -/

namespace Program

/-- Program classes have class types, methods are in the classes that they name, and class initializers take nothing
    and return nothing. -/
structure Orderly (p : Program) : Prop where
  isClass : ∀ c ∈ p.programClasses, c.type.isClass = true
  housed : p.Housed
  classInitializers : ∀ c ∈ p.programClasses, ∀ m ∈ c.methods, m.isClassInitializer = true → m.ref.proto = .void

/-- Every method of a program class satisfies `P`. -/
def Each (P : MethodDef → Prop) (p : Program) : Prop := ∀ c ∈ p.programClasses, ∀ m ∈ c.methods, P m

/-- The class `d` is `c` with other methods, each of which is related to the one it stands for. -/
structure MapsClass (P : MethodDef → MethodDef → Prop) (c d : ClassDef) : Prop where
  type : d.type = c.type
  kind : d.kind = c.kind
  supertypes : d.supertypes = c.supertypes
  fields : d.fields = c.fields
  library : c.isLibrary = true → d = c
  methods : c.isLibrary = false → List.Forall₂ P c.methods d.methods

/-- Every class of `q` is a class of `p` with other methods. -/
def Maps (P : MethodDef → MethodDef → Prop) (p q : Program) : Prop := ∀ d ∈ q.classes, ∃ c ∈ p.classes, MapsClass P c d

variable {P : MethodDef → MethodDef → Prop} {p q : Program}

theorem maps_of_mapMethodsM {ε σ : Type} {f : MethodDef → σ → Outcome ε (MethodDef × σ)}
    (hf : ∀ m s m' s', f m s = .ok (m', s') → P m m') {s s' : σ} (h : p.mapMethodsM f s = .ok (q, s')) : Maps P p q := by
  have hinsert {out : Program} {c d : ClassDef} (hc : c ∈ p.classes) (hmaps : MapsClass P c d)
      (hout : ∀ t e, out.class? t = some e → ∃ c ∈ p.classes, MapsClass P c e) (t : Descriptor) (e : ClassDef)
      (he : (out.insert d).class? t = some e) : ∃ c ∈ p.classes, MapsClass P c e := by
    rw [class?_insert] at he
    split at he
    · cases he
      exact ⟨c, hc, hmaps⟩
    · exact hout t e he
  have hrun := foldlM_preserves (P := fun x : Program × σ => ∀ t e, x.1.class? t = some e → ∃ c ∈ p.classes, MapsClass P c e)
    (fun x c hc x' hx hstep => ?_) (fun t c hc => by simp at hc) h
  · exact fun d hd => hrun d.type d (mem_classes.1 hd)
  · dsimp only at hstep
    split at hstep
    · next hlib =>
      cases hstep
      exact hinsert hc ⟨rfl, rfl, rfl, rfl, fun _ => rfl, fun hno => by rw [hlib] at hno; cases hno⟩ hx
    · next hlib =>
      obtain ⟨⟨methods, s₁⟩, hmethods, hstep⟩ := bind_eq_ok.1 hstep
      cases hstep
      refine hinsert hc ⟨rfl, rfl, rfl, rfl, fun hyes => absurd hyes hlib, fun _ => ?_⟩ hx
      refine (forall₂_of_run_mapM hmethods).imp fun m m' hmapped => ?_
      obtain ⟨s, t, hrun⟩ := hmapped
      exact hf m s m' t hrun

namespace Maps

theorem imp {P' : MethodDef → MethodDef → Prop} (h : Maps P p q) (himp : ∀ m m', P m m' → P' m m') : Maps P' p q := by
  intro d hd
  obtain ⟨c, hc, hmaps⟩ := h d hd
  exact ⟨c, hc, hmaps.type, hmaps.kind, hmaps.supertypes, hmaps.fields, hmaps.library,
    fun hlib => (hmaps.methods hlib).imp fun m m' => himp m m'⟩

theorem regular (h : Maps P p q) (hp : p.Regular) : q.Regular := by
  refine ⟨fun d hd => ?_⟩
  obtain ⟨c, hc, hmaps⟩ := h d hd
  rw [hmaps.type]
  exact hp.isClass c hc

/-- Where a method of a program class comes from. -/
theorem exists_method (h : Maps P p q) {d : ClassDef} (hd : d ∈ q.programClasses) {m' : MethodDef} (hm' : m' ∈ d.methods) :
    ∃ c ∈ p.programClasses, d.type = c.type ∧ ∃ m ∈ c.methods, P m m' := by
  obtain ⟨hd, hprogram⟩ := List.mem_filter.1 hd
  obtain ⟨c, hc, hmaps⟩ := h d hd
  rw [ClassDef.isProgram, hmaps.kind] at hprogram
  have hlib : c.isLibrary = false := by
    rw [Program.isLibrary_eq, ClassDef.isProgram, hprogram]
    rfl
  obtain ⟨m, hm, hP⟩ := exists_of_mem_left (hmaps.methods hlib).flip hm'
  exact ⟨c, List.mem_filter.2 ⟨hc, hprogram⟩, hmaps.type, m, hm, hP⟩

theorem each {Q R : MethodDef → Prop} (h : Maps P p q) (hP : ∀ m m', P m m' → Q m → R m') (hp : p.Each Q) : q.Each R := by
  intro d hd m' hm'
  obtain ⟨c, hc, -, m, hm, hP'⟩ := h.exists_method hd hm'
  exact hP m m' hP' (hp c hc m hm)

theorem housed (h : Maps P p q) (hP : ∀ m m', P m m' → m'.ref = m.ref) (hp : p.Housed) : q.Housed := by
  intro d hd m' hm'
  obtain ⟨c, hc, hmaps⟩ := h d hd
  rw [hmaps.type]
  cases hlib : c.isLibrary with
  | true =>
    rw [hmaps.library hlib] at hm'
    exact hp c hc m' hm'
  | false =>
    obtain ⟨m, hm, hP'⟩ := exists_of_mem_left (hmaps.methods hlib).flip hm'
    rw [hP m m' hP']
    exact hp c hc m hm

theorem orderly (h : Maps P p q) (hP : ∀ m m', P m m' → m'.ref = m.ref) (hp : p.Orderly) : q.Orderly where
  isClass d hd := by
    obtain ⟨hd, hprogram⟩ := List.mem_filter.1 hd
    obtain ⟨c, hc, hmaps⟩ := h d hd
    rw [hmaps.type]
    refine hp.isClass c (List.mem_filter.2 ⟨hc, ?_⟩)
    rwa [ClassDef.isProgram, ← hmaps.kind]
  housed := h.housed hP hp.housed
  classInitializers := h.each (fun m m' hm hold hinit => by
    rw [MethodDef.isClassInitializer, hP m m' hm] at hinit
    rw [hP m m' hm]
    exact hold hinit) hp.classInitializers

end Maps

end Program

/-- **Bringing a method up to date.** Only its body changes. -/
theorem Update.methodDef_eq_ok {u : Update} {synthesized : List MethodRef} {m m' : MethodDef} {s s' : UpdateStats}
    (h : u.methodDef (.ofList synthesized) m s = .ok (m', s')) :
    m'.ref = m.ref ∧ m'.access = m.access ∧ ∀ code', m'.code = some code' → ∃ code fate, m.code = some code ∧
      u.methodCode (synthesized.contains m.ref) m code = .ok (code', fate) := by
  unfold methodDef at h
  split at h
  · next hnone =>
    cases h
    exact ⟨rfl, rfl, fun code' hcode' => by cases hnone.symm.trans hcode'⟩
  · next code hcode =>
    obtain ⟨⟨code', fate⟩, hmethod, h⟩ := bind_eq_ok.1 h
    cases h
    rw [Std.TreeSet.contains_ofList] at hmethod
    refine ⟨rfl, rfl, ?_⟩
    rintro _ ⟨⟩
    exact ⟨code, fate, hcode, Outcome.mapError_eq_ok.1 hmethod⟩

/-- Every body of the program is that of the same method from before, brought up to date. -/
theorem View.maps_methodCode {v : View} {synthesized : List MethodRef} {q : Program} {stats : UpdateStats}
    (hrun : v.updateCode (.ofList synthesized) = .ok (q, stats)) :
    Program.Maps (fun m m' => ∀ code', m'.code = some code' → ∃ code fate, m.code = some code ∧
      (⟨v.lens, v.codeLens⟩ : Update).methodCode (synthesized.contains m.ref) m code = .ok (code', fate)) v.program q :=
  Program.maps_of_mapMethodsM (fun _ _ _ _ hstep => (Update.methodDef_eq_ok hstep).2.2) hrun

/-- **Bringing all bodies up to date.** -/
theorem View.maps_of_updateCode {v : View} {n : Renaming} (h : (⟨v.lens, v.codeLens⟩ : Update).Crosses n) {synthesized : List MethodRef} {q : Program}
    {stats : UpdateStats} (hrun : v.updateCode (.ofList synthesized) = .ok (q, stats)) :
    Program.Maps (fun m m' => m'.ref = m.ref ∧ m'.access = m.access ∧ (m.Awaits n synthesized → m'.Ready)) v.program q := by
  refine Program.maps_of_mapMethodsM (fun m s m' s' hstep => ?_) hrun
  obtain ⟨href, haccess, hupdated⟩ := Update.methodDef_eq_ok hstep
  refine ⟨href, haccess, fun hawaits code' hcode' => ?_⟩
  obtain ⟨code, fate, hcode, hmethod⟩ := hupdated code' hcode'
  rw [MethodDef.argumentTypes, MethodDef.isStatic, href, haccess]
  exact Update.fits_of_methodCode h hawaits hcode List.contains_iff_mem hmethod

end DexShrinker
