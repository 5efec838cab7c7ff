/-
  DexShrinker/Proofs/Unboxing/LocalClasses.lean
  =============================================
  **When the members of a local class are apart.**

  The methods of a local class are added one after the other. A method that moves there avoids
  those that are there already; the getters and the new `valueOf` avoid nothing. So the methods
  of a local class are pairwise different exactly if its getters are and no method took the
  signature of `valueOf` before it came (`LocalUtility.nodup_methods_iff`).
-/
import DexShrinker.Proofs.Unboxing.Pieces

namespace DexShrinker

open Std (TreeMap LawfulEqOrd)

theorem nodup_append_singleton {α : Type} {xs : List α} {a : α} : (xs ++ [a]).Nodup ↔ xs.Nodup ∧ a ∉ xs := by
  rw [List.nodup_append_comm, List.singleton_append, List.nodup_cons]
  exact And.comm

/-- A name without a dollar sign is only given to what asks for it. -/
theorem eq_of_freshName {name wanted : String} {taken : List String} (h : freshName wanted taken = name) (hname : '$' ∉ name.toList) :
    wanted = name := by
  unfold freshName at h
  split at h
  · rw [← h] at hname
    exact absurd (by simp [numberedFresh, numbered]) hname
  · exact h

namespace LocalUtility

variable {u : LocalUtility} {enums : TypeSet} {enum : Descriptor} {data : EnumData} {s s' : Filling} {m : MethodDef}

/-! ### One method after the other -/

/-- The signature of the new `valueOf`. -/
def valueOfSignature : Signature := ⟨"valueOf", ⟨.int, [.string]⟩⟩

/-- A static method that asks for the signature of the new `valueOf`. -/
def AsksForValueOf (enums : TypeSet) (m : MethodDef) : Prop :=
  m.isStatic = true ∧ (⟨m.ref.name, m.ref.proto.unbox enums⟩ : Signature) = valueOfSignature

instance (enums : TypeSet) (m : MethodDef) : Decidable (AsksForValueOf enums m) := inferInstanceAs (Decidable (_ ∧ _))

theorem movedSignature_eq_iff : movedSignature enums enum m = valueOfSignature ↔ AsksForValueOf enums m := by
  unfold movedSignature AsksForValueOf
  cases m.isStatic with
  | true => simp
  | false =>
    simp only [Bool.false_eq_true, if_false, false_and, iff_false]
    intro heq
    have hname : "_" ++ m.ref.name = "valueOf" := congrArg Signature.name heq
    have hchars := congrArg (List.head? ∘ String.toList) hname
    simp at hchars

/-- The signatures of the methods so far. -/
def Filling.signatures (s : Filling) : List Signature := s.methods.map (·.ref.signature)

/-- A method of the enum that does not come to the local class, not even in another form. -/
def Goes (enum : Descriptor) (m : MethodDef) : Prop :=
  (m.isInstanceInitializer || m.isClassInitializer || m.ref.isEnumValues enum) = true

theorem Goes.name (h : Goes enum m) : m.ref.name ≠ "valueOf" := by
  intro hname
  simp [Goes, MethodDef.isInstanceInitializer, MethodDef.isClassInitializer, MethodRef.isInstanceInitializer,
    MethodRef.isClassInitializer, MethodRef.isEnumValues, hname, MethodRef.initName, MethodRef.clinitName] at h

theorem name_of_isEnumValueOf {m : MethodRef} (h : m.isEnumValueOf enum = true) : m = ⟨enum, "valueOf", ⟨enum, [.string]⟩⟩ := by
  simp only [MethodRef.isEnumValueOf, Bool.and_eq_true, beq_iff_eq] at h
  obtain ⟨⟨⟨hholder, hname⟩, hparameters⟩, hreturn⟩ := h
  exact MethodRef.ext hholder hname (Prototype.ext hreturn hparameters)

/-- What one method of the enum adds. -/
theorem fill_cases (h : u.fill enums enum data s m = .ok s') :
    (Goes enum m ∧ s'.methods = s.methods) ∨
    (∃ d, m.ref.isEnumValueOf enum = true ∧ d.ref = u.valueOf ∧ s'.methods = s.methods ++ [d]) ∨
    (∃ d, ¬ Goes enum m ∧ m.ref.isEnumValueOf enum = false ∧ d.ref.holder = u.type ∧
      d.ref.signature = ⟨freshName (movedSignature enums enum m).name
        ((s.methods.filter (·.ref.proto == (movedSignature enums enum m).proto)).map (·.ref.name)), (movedSignature enums enum m).proto⟩ ∧
      s'.methods = s.methods ++ [d]) := by
  unfold fill at h
  split at h
  · next hgoes =>
    cases h
    exact .inl ⟨hgoes, rfl⟩
  · next hstays =>
    split at h
    · next hvalueOf =>
      obtain ⟨d, hd, h⟩ := bind_eq_ok.1 h
      cases h
      exact .inr (.inl ⟨d, hvalueOf, (assembled_of_valueOfDef .int hd).1, rfl⟩)
    · next hother =>
      unfold moveMethod at h
      obtain ⟨code, -, h⟩ := bind_eq_ok.1 h
      cases h
      exact .inr (.inr ⟨_, hstays, Bool.eq_false_iff.2 hother, rfl, rfl, rfl⟩)

/-- A method that moves avoids what is there. -/
theorem not_mem_of_moved (methods : List MethodDef) (wanted : Signature) :
    (⟨freshName wanted.name ((methods.filter (·.ref.proto == wanted.proto)).map (·.ref.name)), wanted.proto⟩ : Signature) ∉
      methods.map (·.ref.signature) := by
  intro hmem
  obtain ⟨d, hd, heq⟩ := List.mem_map.1 hmem
  apply freshName_not_mem wanted.name ((methods.filter (·.ref.proto == wanted.proto)).map (·.ref.name))
  refine List.mem_map.2 ⟨d, List.mem_filter.2 ⟨hd, ?_⟩, congrArg Signature.name heq⟩
  exact beq_iff_eq.2 (congrArg Signature.proto heq)

/-- It gets the signature of `valueOf` only if it asks for it, and if it asks, somebody has it. -/
theorem valueOf_mem_iff_of_moved (methods : List MethodDef) (wanted : Signature) :
    valueOfSignature ∈ methods.map (·.ref.signature) ++
        [⟨freshName wanted.name ((methods.filter (·.ref.proto == wanted.proto)).map (·.ref.name)), wanted.proto⟩] ↔
      valueOfSignature ∈ methods.map (·.ref.signature) ∨ wanted = valueOfSignature := by
  rw [List.mem_append, List.mem_singleton]
  constructor
  · intro h
    apply h.imp_right
    intro heq
    have hname : wanted.name = "valueOf" := eq_of_freshName (congrArg Signature.name heq).symm (by decide)
    exact Signature.ext hname (congrArg Signature.proto heq).symm
  · rintro (hmem | rfl)
    · exact .inl hmem
    · by_cases htaken : "valueOf" ∈ (methods.filter (·.ref.proto == valueOfSignature.proto)).map (·.ref.name)
      · left
        obtain ⟨d, hd, hname⟩ := List.mem_map.1 htaken
        obtain ⟨hd, hproto⟩ := List.mem_filter.1 hd
        exact List.mem_map.2 ⟨d, hd, Signature.ext hname (beq_iff_eq.1 hproto)⟩
      · right
        rw [freshName, if_neg (by simpa [valueOfSignature] using htaken)]

/-- The method comes as `valueOf` or asks for its signature. -/
def Claims (enums : TypeSet) (enum : Descriptor) (m : MethodDef) : Prop := m.ref.isEnumValueOf enum = true ∨ AsksForValueOf enums m

/-- **One method.** Only `valueOf` can be there already. -/
theorem fill_spec (h : u.fill enums enum data s m = .ok s') :
    (s'.signatures.Nodup ↔ s.signatures.Nodup ∧ (m.ref.isEnumValueOf enum = true → valueOfSignature ∉ s.signatures)) ∧
      (valueOfSignature ∈ s'.signatures ↔ valueOfSignature ∈ s.signatures ∨ Claims enums enum m) := by
  unfold Filling.signatures Claims
  rcases fill_cases h with ⟨hgoes, heq⟩ | ⟨d, hvalueOf, href, heq⟩ | ⟨d, hstays, hother, -, href, heq⟩
  · have hno : ¬ (m.ref.isEnumValueOf enum = true ∨ AsksForValueOf enums m) := by
      rintro (hyes | hyes)
      · exact hgoes.name (congrArg MethodRef.name (name_of_isEnumValueOf hyes))
      · exact hgoes.name (congrArg Signature.name hyes.2)
    rw [heq]
    constructor
    · exact ⟨fun hnodup => ⟨hnodup, fun hyes => absurd (.inl hyes) hno⟩, And.left⟩
    · exact ⟨.inl, fun hor => hor.resolve_right hno⟩
  · have hsignature : d.ref.signature = valueOfSignature := by rw [href]; rfl
    rw [heq, List.map_append, List.map_singleton, nodup_append_singleton, hsignature]
    constructor
    · exact ⟨fun hnodup => ⟨hnodup.1, fun _ => hnodup.2⟩, fun hnodup => ⟨hnodup.1, hnodup.2 hvalueOf⟩⟩
    · simp [hvalueOf]
  · rw [heq, List.map_append, List.map_singleton, nodup_append_singleton, href, valueOf_mem_iff_of_moved, movedSignature_eq_iff, hother]
    constructor
    · exact ⟨fun hnodup => ⟨hnodup.1, fun hyes => by cases hyes⟩, fun hnodup => ⟨hnodup.1, not_mem_of_moved _ _⟩⟩
    · simp

/-- **All methods of the enum.** -/
theorem nodup_foldlM_fill_iff {ms : List MethodDef} (h : ms.foldlM (u.fill enums enum data) s = .ok s') :
    s'.signatures.Nodup ↔ s.signatures.Nodup ∧ ∀ before m after, ms = before ++ m :: after → m.ref.isEnumValueOf enum = true →
      valueOfSignature ∉ s.signatures ∧ ∀ n ∈ before, ¬ Claims enums enum n := by
  induction ms generalizing s with
  | nil =>
    cases h
    simp
  | cons m ms ih =>
    rw [List.foldlM_cons] at h
    obtain ⟨s₁, hs₁, h⟩ := bind_eq_ok.1 h
    obtain ⟨hnodup, hmem⟩ := fill_spec hs₁
    rw [ih h, hnodup, hmem, and_assoc]
    refine and_congr_right fun _ => ?_
    constructor
    · rintro ⟨hhead, htail⟩ before n after heq hn
      cases before with
      | nil =>
        obtain ⟨rfl, -⟩ := List.cons.inj heq
        exact ⟨hhead hn, by simp⟩
      | cons _ before =>
        obtain ⟨rfl, hrest⟩ := List.cons.inj heq
        obtain ⟨hno, hbefore⟩ := htail before n after hrest hn
        rw [not_or] at hno
        exact ⟨hno.1, List.forall_mem_cons.2 ⟨hno.2, hbefore⟩⟩
    · intro hall
      refine ⟨fun hm => (hall [] m ms rfl hm).1, fun before n after heq hn => ?_⟩
      obtain ⟨hno, hbefore⟩ := hall (m :: before) n after (by rw [heq]; rfl) hn
      rw [List.forall_mem_cons] at hbefore
      exact ⟨fun hor => hor.elim hno hbefore.1, hbefore.2⟩

/-! ### A local class -/

theorem refs_getters {s s' : Filling} {fields : List (FieldRef × List StaticValue)}
    (h : fields.foldlM (fun (s : Filling) (f, values) => do return s.addSynthesized (← u.getterDef f (f.type.unbox enums) values)) s =
      (.ok s' : Outcome EnumError Filling)) :
    s'.methods.map MethodDef.ref = s.methods.map MethodDef.ref ++ fields.map fun x => u.getter x.1 (x.1.type.unbox enums) := by
  induction fields generalizing s with
  | nil =>
    cases h
    simp
  | cons x fields ih =>
    rw [List.foldlM_cons] at h
    obtain ⟨s₁, hs₁, h⟩ := bind_eq_ok.1 h
    obtain ⟨d, hd, hs₁⟩ := bind_eq_ok.1 hs₁
    cases hs₁
    rw [ih h, Filling.addSynthesized, List.map_append, List.append_assoc, List.map_singleton, (assembled_of_getterDef .int hd).1]
    rfl

/-- What a local class starts with: the names of the constants, the getters and the class initializer. -/
def startRefs (u : LocalUtility) (enums : TypeSet) (data : EnumData) (hasInitializer : Bool) : List MethodRef :=
  u.nameMethod :: data.fieldValues.keys.map (fun f => u.getter f (f.type.unbox enums)) ++
    if hasInitializer then [⟨u.type, MethodRef.clinitName, .void⟩] else []

/-- **What a local class is made of.** -/
theorem dissolve_cases {c d : ClassDef} {fixed : FixedEnum} {r r' : Recorder} {more : List MethodRef}
    (h : u.dissolve enums c fixed r = .ok (d, more, r')) :
    d.type = u.type ∧ d.isProgram = true ∧ d.fields = c.staticFields.map (u.movedField enums) ∧
      ∃ (hasInitializer : Bool) (s s' : Filling), s.methods.map MethodDef.ref = u.startRefs enums fixed.data hasInitializer ∧
        c.methods.foldlM (u.fill enums c.type fixed.data) s = .ok s' ∧ d.methods = s'.methods := by
  unfold dissolve at h
  obtain ⟨name, hname, h⟩ := bind_eq_ok.1 h
  obtain ⟨s₁, hgetters, h⟩ := bind_eq_ok.1 h
  obtain ⟨s₂, hfill, h⟩ := bind_eq_ok.1 h
  cases h
  have hrefs : s₁.methods.map MethodDef.ref = u.startRefs enums fixed.data false := by
    rw [refs_getters hgetters, startRefs, ← TreeMap.map_fst_toList_eq_keys, List.map_map]
    simp [Filling.addSynthesized, (assembled_of_nameDef .int hname).1, Function.comp_def]
  refine ⟨rfl, rfl, rfl, ?_⟩
  unfold addClassInitializer at hfill
  split at hfill
  · refine ⟨true, _, s₂, ?_, hfill, rfl⟩
    dsimp only
    rw [List.map_append, hrefs]
    simp [startRefs]
  · refine ⟨false, _, s₂, ?_, hfill, rfl⟩
    exact hrefs

theorem supertypes_of_dissolve {c d : ClassDef} {fixed : FixedEnum} {r r' : Recorder} {more : List MethodRef}
    (h : u.dissolve enums c fixed r = .ok (d, more, r')) : d.supertypes = [.object] := by
  unfold dissolve at h
  obtain ⟨_, -, h⟩ := bind_eq_ok.1 h
  obtain ⟨_, -, h⟩ := bind_eq_ok.1 h
  obtain ⟨_, -, h⟩ := bind_eq_ok.1 h
  cases h
  rfl

theorem holder_startRefs (u : LocalUtility) (enums : TypeSet) (data : EnumData) (b : Bool) : ∀ m ∈ u.startRefs enums data b, m.holder = u.type := by
  intro m hm
  simp only [startRefs, List.cons_append, List.mem_cons, List.mem_append, List.mem_map] at hm
  rcases hm with rfl | ⟨f, -, rfl⟩ | hm
  · rfl
  · rfl
  · split at hm
    · rw [List.mem_singleton.1 hm]
    · cases hm

theorem holder_of_fill (hs : ∀ d ∈ s.methods, d.ref.holder = u.type) (h : u.fill enums enum data s m = .ok s') :
    ∀ d ∈ s'.methods, d.ref.holder = u.type := by
  intro d hd
  rcases fill_cases h with ⟨-, heq⟩ | ⟨e, -, href, heq⟩ | ⟨e, -, -, hholder, -, heq⟩
  · exact hs d (heq ▸ hd)
  · rcases List.mem_append.1 (heq ▸ hd) with hd | hd
    · exact hs d hd
    · rw [List.mem_singleton.1 hd, href]
      rfl
  · rcases List.mem_append.1 (heq ▸ hd) with hd | hd
    · exact hs d hd
    · rw [List.mem_singleton.1 hd]
      exact hholder

theorem holder_dissolve {c d : ClassDef} {fixed : FixedEnum} {r r' : Recorder} {more : List MethodRef}
    (h : u.dissolve enums c fixed r = .ok (d, more, r')) : ∀ m ∈ d.methods, m.ref.holder = d.type := by
  obtain ⟨htype, -, -, b, s, s', hrefs, hfill, hmethods⟩ := dissolve_cases h
  rw [hmethods, htype]
  refine foldlM_preserves (P := fun s : Filling => ∀ m ∈ s.methods, m.ref.holder = u.type) (fun _ _ _ _ hs hstep => holder_of_fill hs hstep) ?_ hfill
  exact fun m hm => u.holder_startRefs enums fixed.data b m.ref (hrefs ▸ List.mem_map_of_mem hm)

/-- Getters have names of their own. -/
theorem nodup_startRefs_iff (u : LocalUtility) (enums : TypeSet) (data : EnumData) (b : Bool) :
    (u.startRefs enums data b).Nodup ↔ (data.fieldValues.keys.map fun f => (f.name, f.type.unbox enums)).Nodup := by
  have hgetters : data.fieldValues.keys.map (fun f => u.getter f (f.type.unbox enums)) =
      (data.fieldValues.keys.map fun f => (f.name, f.type.unbox enums)).map fun x => ⟨u.type, "get$" ++ x.1, x.2, [.int]⟩ := by
    rw [List.map_map]
    rfl
  have hinjective : Function.Injective fun x : String × Descriptor => (⟨u.type, "get$" ++ x.1, x.2, [.int]⟩ : MethodRef) := by
    intro x y hxy
    have hname : "get$" ++ x.1 = "get$" ++ y.1 := congrArg MethodRef.name hxy
    exact Prod.ext ((String.append_right_inj _).1 hname) (congrArg (·.proto.returnType) hxy)
  have hnames (f : FieldRef) (type : Descriptor) : (u.getter f type).name ≠ "$name" ∧ (u.getter f type).name ≠ MethodRef.clinitName := by
    constructor
    · intro heq
      have hhead := congrArg (List.head? ∘ String.toList) heq
      simp [getter] at hhead
    · intro heq
      have hhead := congrArg (List.head? ∘ String.toList) heq
      simp [getter, MethodRef.clinitName] at hhead
  unfold startRefs
  rw [List.cons_append, List.nodup_cons, hgetters, List.nodup_append, List.nodup_map_iff hinjective, ← hgetters]
  constructor
  · exact fun h => h.2.1
  · intro h
    refine ⟨fun hmem => ?_, h, ?_, fun m hm n hn => ?_⟩
    · rcases List.mem_append.1 hmem with hmem | hmem
      · obtain ⟨f, -, heq⟩ := List.mem_map.1 hmem
        exact (hnames f _).1 (congrArg MethodRef.name heq)
      · split at hmem
        · exact absurd (congrArg MethodRef.name (List.mem_singleton.1 hmem)) (by simp [nameMethod, MethodRef.clinitName])
        · cases hmem
    · split <;> simp
    · obtain ⟨f, -, rfl⟩ := List.mem_map.1 hm
      split at hn
      · rw [List.mem_singleton.1 hn]
        intro heq
        exact (hnames f _).2 (congrArg MethodRef.name heq)
      · cases hn

theorem valueOf_not_mem_startRefs (u : LocalUtility) (enums : TypeSet) (data : EnumData) (b : Bool) :
    valueOfSignature ∉ (u.startRefs enums data b).map MethodRef.signature := by
  intro hmem
  obtain ⟨m, hm, heq⟩ := List.mem_map.1 hmem
  have hhead := congrArg (List.head? ∘ String.toList ∘ Signature.name) heq
  simp only [startRefs, List.cons_append, List.mem_cons, List.mem_append, List.mem_map] at hm
  rcases hm with rfl | ⟨f, -, rfl⟩ | hm
  · simp [nameMethod, MethodRef.signature, valueOfSignature] at hhead
  · simp [getter, MethodRef.signature, valueOfSignature] at hhead
  · split at hm
    · rw [List.mem_singleton.1 hm] at hhead
      simp [MethodRef.signature, valueOfSignature, MethodRef.clinitName] at hhead
    · cases hm

/-- **The methods of a local class** are pairwise different exactly if the getters are and no method before `valueOf` asks for
    its signature. -/
theorem nodup_methods_iff {c d : ClassDef} {fixed : FixedEnum} {r r' : Recorder} {more : List MethodRef}
    (h : u.dissolve enums c fixed r = .ok (d, more, r')) (honce : (c.methods.map MethodDef.ref).Nodup) :
    (d.methods.map MethodDef.ref).Nodup ↔ (fixed.data.fieldValues.keys.map fun f => (f.name, f.type.unbox enums)).Nodup ∧
      ∀ before m after, c.methods = before ++ m :: after → m.ref.isEnumValueOf c.type = true → ∀ n ∈ before, ¬ AsksForValueOf enums n := by
  obtain ⟨-, -, -, b, s, s', hrefs, hfill, heq⟩ := dissolve_cases h
  have hstart : ∀ d ∈ s.methods, d.ref.holder = u.type := by
    intro d hd
    exact u.holder_startRefs enums fixed.data b d.ref (hrefs ▸ List.mem_map_of_mem hd)
  have hsignatures : s.signatures = (u.startRefs enums fixed.data b).map MethodRef.signature := by
    rw [← hrefs, List.map_map]
    rfl
  rw [nodup_signatures_iff (holder_dissolve h), heq]
  change s'.signatures.Nodup ↔ _
  rw [nodup_foldlM_fill_iff hfill, Filling.signatures, ← nodup_signatures_iff hstart, hrefs, nodup_startRefs_iff]
  refine and_congr_right fun _ => forall_congr' fun before => forall_congr' fun m => forall_congr' fun after =>
    forall_congr' fun hsplit => forall_congr' fun hm => ?_
  constructor
  · intro hall n hn hasks
    exact hall.2 n hn (.inr hasks)
  · intro hall
    refine ⟨?_, fun n hn hclaims => ?_⟩
    · change valueOfSignature ∉ s.signatures
      rw [hsignatures]
      exact u.valueOf_not_mem_startRefs enums fixed.data b
    · rcases hclaims with hvalueOf | hasks
      · -- A second `valueOf` would be the same method.
        rw [hsplit, List.map_append, List.map_cons, List.nodup_append] at honce
        refine honce.2.2 n.ref (List.mem_map_of_mem hn) m.ref List.mem_cons_self ?_
        rw [name_of_isEnumValueOf hvalueOf, name_of_isEnumValueOf hm]
      · exact hall n hn hasks

theorem nodup_movedField_iff (u : LocalUtility) (enums : TypeSet) (fs : List FieldDef) :
    ((fs.map (u.movedField enums)).map FieldDef.ref).Nodup ↔ (fs.map fun f => (f.ref.name, f.ref.type.unbox enums)).Nodup := by
  have heq : (fs.map (u.movedField enums)).map FieldDef.ref =
      (fs.map fun f => (f.ref.name, f.ref.type.unbox enums)).map fun x => ⟨u.type, x.1, x.2⟩ := by
    rw [List.map_map, List.map_map]
    rfl
  rw [heq]
  refine List.nodup_map_iff fun x y hxy => ?_
  exact Prod.ext (congrArg FieldRef.name hxy) (congrArg FieldRef.type hxy)

end LocalUtility

/-! ### Classes of their own

Utility classes are told apart by what their names have before the digits at the end. -/

theorem Descriptor.binaryName?_ofBinaryName (name : String) : (ofBinaryName name).binaryName? = some name := by
  have hchars : (ofBinaryName name).chars = 'L' :: (name.toList ++ [';']) := by simp [ofBinaryName, chars]
  rw [binaryName?, hchars]
  simp
  decide

namespace Utility

/-- The type is that of a utility class: `core`, with digits to make it unique. -/
def Named (core : String) (t : Descriptor) : Prop := ∃ n : String, (∀ c ∈ n.toList, c.isDigit = true) ∧ t = .ofBinaryName (core ++ n)

theorem named_uniqueType (p : Program) {candidate : String → Descriptor} {core : String} (h : ∀ n, candidate n = .ofBinaryName (core ++ n)) :
    Named core (uniqueType p candidate) := by
  obtain ⟨i, hi⟩ : ∃ i : Nat, uniqueType p candidate = candidate (if i = 0 then "" else toString i) := ⟨_, rfl⟩
  rw [hi]
  refine ⟨if i = 0 then "" else toString i, fun c hc => ?_, h _⟩
  split at hc
  · cases hc
  · exact isDigit_of_mem_toString hc

theorem Named.eq_of_eq {a b : String} {t : Descriptor} (ha : ∀ c ∈ a.toList.getLast?, c.isDigit = false)
    (hb : ∀ c ∈ b.toList.getLast?, c.isDigit = false) (h : Named a t) (h' : Named b t) : a = b := by
  obtain ⟨m, hm, rfl⟩ := h
  obtain ⟨n, hn, heq⟩ := h'
  have htext := congrArg String.toList (Descriptor.ofBinaryName_injective heq)
  rw [String.toList_append, String.toList_append] at htext
  exact String.toList_injective (eq_of_append_digits hm hn ha hb htext)

end Utility

theorem LocalUtility.named_type {p : Program} {name : String} {u : LocalUtility} (h : LocalUtility.ofProgram p (.ofBinaryName name) = .ok u) :
    Utility.Named (name ++ "$$EnumUnboxingLocalUtility") u.type := by
  simp only [LocalUtility.ofProgram, Descriptor.withSuffix?, Descriptor.binaryName?_ofBinaryName, Option.map_some] at h
  cases h
  dsimp only
  apply Utility.named_uniqueType
  intro n
  rw [Option.getD_some, String.append_assoc]

theorem SharedUtility.named_type {p : Program} {first : Descriptor} {maxSize : Nat} {u : SharedUtility}
    (h : SharedUtility.ofProgram p first maxSize = .ok u) : ∃ directory, Utility.Named (directory ++ "$$EnumUnboxingSharedUtility") u.type := by
  unfold SharedUtility.ofProgram at h
  split at h
  · cases h
  · cases h
    exact ⟨_, Utility.named_uniqueType p fun n => rfl⟩

/-- Different enums have different local classes. -/
theorem LocalUtility.eq_of_type {p : Program} {a b : String} {u w : LocalUtility} (hu : LocalUtility.ofProgram p (.ofBinaryName a) = .ok u)
    (hw : LocalUtility.ofProgram p (.ofBinaryName b) = .ok w) (h : u.type = w.type) : a = b := by
  have heq := (LocalUtility.named_type hu).eq_of_eq (by simp) (by simp) (h ▸ LocalUtility.named_type hw)
  exact (String.append_left_inj _).1 heq

/-- No local class is the shared one. -/
theorem LocalUtility.type_ne_shared {p : Program} {a : String} {u : LocalUtility} {first : Descriptor} {maxSize : Nat} {w : SharedUtility}
    (hu : LocalUtility.ofProgram p (.ofBinaryName a) = .ok u) (hw : SharedUtility.ofProgram p first maxSize = .ok w) : u.type ≠ w.type := by
  intro h
  obtain ⟨directory, hnamed⟩ := SharedUtility.named_type hw
  have heq := (LocalUtility.named_type hu).eq_of_eq (by simp) (by simp) (h ▸ hnamed)
  -- `Local` and `Shared` end with different letters.
  have hletter := congrArg (fun text : String => text.toList.reverse[7]?) heq
  simp at hletter

namespace Unboxing

/-- **The local classes, one by one.** -/
theorem forall₂_dissolveAll {p : Program} {enums : TypeSet} {fixed : Fixed} {locals : TypeMap LocalUtility} {r r' : Recorder}
    {classes : List ClassDef} {methods : List MethodRef} (hall : ∀ t ∈ fixed, ∃ c u, p.class? t = some c ∧ locals[t]? = some u)
    (h : dissolveAll p enums fixed locals r = .ok (classes, methods, r')) :
    List.Forall₂ (fun x d => ∃ c u r r' more, p.class? x.1 = some c ∧ locals[x.1]? = some u ∧ u.dissolve enums c x.2 r = .ok (d, more, r'))
      fixed.toList classes := by
  have hmem {x : Descriptor × FixedEnum} (hx : x ∈ fixed.toList) : x.1 ∈ fixed :=
    mem_of_getElem? (TreeMap.mem_toList_iff_getElem?_eq_some.1 hx)
  unfold dissolveAll at h
  generalize fixed.toList = xs at h hmem ⊢
  suffices hloop : ∀ out : List ClassDef × List MethodRef × Recorder, ∀ out', xs.foldlM _ out = Except.ok out' →
      ∃ ds, out'.1 = out.1 ++ ds ∧ List.Forall₂ (fun x d => ∃ c u r r' more, p.class? x.1 = some c ∧ locals[x.1]? = some u ∧
        u.dissolve enums c x.2 r = .ok (d, more, r')) xs ds by
    obtain ⟨ds, heq, hforall⟩ := hloop _ _ h
    dsimp only at heq
    rw [heq, List.nil_append]
    exact hforall
  clear h
  induction xs with
  | nil =>
    intro out out' h
    cases h
    exact ⟨[], by simp, .nil⟩
  | cons x xs ih =>
    intro out out' h
    rw [List.foldlM_cons] at h
    obtain ⟨out₁, hstep, h⟩ := bind_eq_ok.1 h
    obtain ⟨c, u, hc, hu⟩ := hall x.1 (hmem List.mem_cons_self)
    simp only [hc, hu] at hstep
    obtain ⟨⟨d, more, r₁⟩, hd, hstep⟩ := bind_eq_ok.1 hstep
    cases hstep
    obtain ⟨ds, heq, hforall⟩ := ih (fun hx => hmem (List.mem_cons_of_mem x hx)) _ _ h
    refine ⟨d :: ds, ?_, .cons ⟨c, u, _, _, _, hc, hu, hd⟩ hforall⟩
    rw [heq]
    simp

end Unboxing

end DexShrinker
