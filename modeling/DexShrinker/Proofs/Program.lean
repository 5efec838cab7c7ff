/-
  DexShrinker/Proofs/Program.lean
  ===============================
  **The classes of a program.**

  The classes of a program are those that are found under their types (`Program.mem_classes`), so the type tells
  a class apart from all others. In well-formed programs these are class types, and the hierarchy has no cycle.
-/
import DexShrinker.Program
import DexShrinker.Proofs.Descriptor
import Mathlib.Data.List.Nodup

namespace DexShrinker

open Std

/-- What is looked up under a name that nothing else has is found. -/
theorem find?_of_nodup {α β : Type} [BEq β] [LawfulBEq β] {f : α → β} {xs : List α} (hnodup : (xs.map f).Nodup) {x : α} (hx : x ∈ xs) :
    xs.find? (f · == f x) = some x := by
  cases hfind : xs.find? (f · == f x) with
  | none =>
    have hall := List.find?_eq_none.1 hfind x hx
    simp at hall
  | some y =>
    have hname : f y = f x := by simpa using List.find?_some hfind
    exact congrArg some (List.inj_on_of_nodup_map hnodup (List.mem_of_find?_eq_some hfind) hx hname)

/-- References of one holder differ exactly if their signatures do. -/
theorem nodup_signatures_iff {ms : List MethodDef} {t : Descriptor} (h : ∀ m ∈ ms, m.ref.holder = t) :
    (ms.map MethodDef.ref).Nodup ↔ (ms.map (·.ref.signature)).Nodup := by
  have heq : ms.map MethodDef.ref = (ms.map (·.ref.signature)).map (MethodRef.ofSignature t) := by
    rw [List.map_map]
    refine List.map_congr_left fun m hm => ?_
    exact MethodRef.ext (h m hm) rfl rfl
  rw [heq]
  refine List.nodup_map_iff fun a b hab => ?_
  exact Signature.ext (congrArg MethodRef.name hab) (congrArg MethodRef.proto hab)

namespace Program

/-- Every class is found under its own type. -/
theorem type_of_class? {p : Program} {t : Descriptor} {c : ClassDef} (h : p.class? t = some c) : c.type = t := p.keyed t c h

@[simp]
theorem class?_empty (t : Descriptor) : empty.class? t = none := by simp [class?, empty]

theorem class?_insert (p : Program) (c : ClassDef) (t : Descriptor) :
    (p.insert c).class? t = if c.type = t then some c else p.class? t := by
  simp only [class?, insert, TreeMap.getElem?_insert]
  by_cases h : c.type = t
  · simp [h]
  · rw [if_neg h, if_neg fun heq => h (LawfulEqOrd.eq_of_compare heq)]

theorem mem_of_class?_ofList {classes : List ClassDef} {t : Descriptor} {c : ClassDef} (h : (ofList classes).class? t = some c) :
    c ∈ classes := by
  have hloop (cs : List ClassDef) (p : Program) (hc : (cs.foldl Program.insert p).class? t = some c) :
      c ∈ cs ∨ p.class? t = some c := by
    induction cs generalizing p with
    | nil => exact .inr hc
    | cons d cs ih =>
      rcases ih (p.insert d) hc with hmem | hget
      · exact .inl (List.mem_cons_of_mem d hmem)
      · rw [class?_insert] at hget
        split at hget
        · cases hget
          exact .inl List.mem_cons_self
        · exact .inr hget
  rcases hloop classes .empty h with hmem | hget
  · exact hmem
  · simp at hget

/-- If no type comes twice, every class is found. -/
theorem class?_ofList {classes : List ClassDef} (hnodup : (classes.map ClassDef.type).Nodup) {c : ClassDef} (hc : c ∈ classes) :
    (ofList classes).class? c.type = some c := by
  have hkeep (cs : List ClassDef) (p : Program) (hno : c.type ∉ cs.map ClassDef.type) :
      (cs.foldl Program.insert p).class? c.type = p.class? c.type := by
    induction cs generalizing p with
    | nil => rfl
    | cons d cs ih =>
      rw [List.map_cons, List.mem_cons, not_or] at hno
      rw [List.foldl_cons, ih (p.insert d) hno.2, class?_insert, if_neg fun heq => hno.1 heq.symm]
  obtain ⟨pre, post, rfl⟩ := List.append_of_mem hc
  rw [List.map_append, List.map_cons, List.nodup_append] at hnodup
  rw [ofList, List.foldl_append, List.foldl_cons, hkeep post _ (List.nodup_cons.1 hnodup.2.1).1, class?_insert, if_pos rfl]

/-- The last class of its type is found. -/
theorem class?_ofList_concat (cs : List ClassDef) (c : ClassDef) : (ofList (cs ++ [c])).class? c.type = some c := by
  rw [ofList, List.foldl_append, List.foldl_cons, List.foldl_nil, class?_insert, if_pos rfl]

theorem classes_eq_map (p : Program) : p.classes = p.classMap.toList.map Prod.snd := by
  have hvalues : p.classes = p.classMap.foldr (fun _ c cs => c :: cs) [] := rfl
  rw [hvalues, TreeMap.foldr_eq_foldr_toList, List.map_eq_foldr]

theorem length_classes (p : Program) : p.classes.length = p.size := by
  rw [classes_eq_map, List.length_map, TreeMap.length_toList, size]

theorem mem_classes {p : Program} {c : ClassDef} : c ∈ p.classes ↔ p.class? c.type = some c := by
  rw [classes_eq_map, List.mem_map]
  constructor
  · rintro ⟨⟨t, d⟩, hmem, rfl⟩
    have hget : p.class? t = some d := TreeMap.mem_toList_iff_getElem?_eq_some.1 hmem
    rwa [type_of_class? hget]
  · intro hget
    exact ⟨(c.type, c), TreeMap.mem_toList_iff_getElem?_eq_some.2 hget, rfl⟩

theorem nodup_types (p : Program) : (p.classes.map ClassDef.type).Nodup := by
  have hkeys : p.classes.map ClassDef.type = p.classMap.keys := by
    rw [classes_eq_map, List.map_map, ← TreeMap.map_fst_toList_eq_keys]
    refine List.map_congr_left fun x hx => ?_
    exact p.keyed x.1 x.2 (TreeMap.mem_toList_iff_getElem?_eq_some.1 hx)
  rw [hkeys]
  exact TreeMap.nodup_keys

theorem mem_programClasses {p : Program} {c : ClassDef} :
    c ∈ p.programClasses ↔ p.class? c.type = some c ∧ c.isProgram = true := by
  rw [programClasses, List.mem_filter, mem_classes]

theorem isLibrary_eq (c : ClassDef) : c.isLibrary = !c.isProgram := by
  unfold ClassDef.isLibrary ClassDef.isProgram
  cases c.kind <;> rfl

/-! ### Well-formed programs -/

/-- The rank falls from every class to its supertypes. -/
def Ranked (classes : List ClassDef) (rank : Descriptor → Nat) : Prop :=
  ∀ c ∈ classes, ∀ s ∈ c.supertypes, rank s < rank c.type

/-- The types of classes are class types. -/
structure Regular (p : Program) : Prop where
  isClass : ∀ c ∈ p.classes, c.type.isClass = true

theorem Regular.notArray {p : Program} (h : p.Regular) (c : ClassDef) (hc : c ∈ p.classes) : c.type.isArray = false :=
  Descriptor.isArray_of_isClass (h.isClass c hc)

/-- Only array types come after a program class of an array type, which is so in any program
    whose descriptors are not malformed. -/
def ArraysLast (p : Program) : Prop :=
  ∀ c ∈ p.programClasses, ∀ d ∈ p.programClasses, c.type.isArray = true → compare c.type d.type = .lt → d.type.isArray = true

theorem Regular.arraysLast {p : Program} (h : p.Regular) : p.ArraysLast := by
  intro c hc _ _ harray _
  rw [h.notArray c (List.mem_filter.1 hc).1] at harray
  cases harray

instance {p : Program} : Coe p.Regular p.ArraysLast := ⟨Regular.arraysLast⟩

/-- The types of classes are class types, and the hierarchy has no cycle. -/
structure WellFormed (p : Program) : Prop where
  isClass : ∀ c ∈ p.classes, c.type.isClass = true
  acyclic : ∃ rank, Ranked p.classes rank

theorem WellFormed.regular {p : Program} (h : p.WellFormed) : p.Regular := ⟨h.isClass⟩

instance {p : Program} : Coe p.WellFormed p.Regular := ⟨WellFormed.regular⟩

theorem WellFormed.notArray {p : Program} (h : p.WellFormed) : ∀ c ∈ p.classes, c.type.isArray = false := h.regular.notArray

/-- No library class names a program class as a supertype. -/
def LibraryClosed (p : Program) : Prop :=
  ∀ c ∈ p.classes, c.isLibrary = true → ∀ d ∈ p.classes, d.type ∈ c.supertypes → d.isLibrary = true

/-- Methods are in the classes that they name as their holders. -/
def Housed (p : Program) : Prop := ∀ c ∈ p.classes, ∀ m ∈ c.methods, m.ref.holder = c.type

/-- Fields are in the classes that they name as their holders. -/
def HousesFields (p : Program) : Prop := ∀ c ∈ p.classes, ∀ f ∈ c.fields, f.ref.holder = c.type

theorem mem_classes_of_mem_programClasses {p : Program} {c : ClassDef} (hc : c ∈ p.programClasses) : c ∈ p.classes :=
  (List.mem_filter.1 hc).1

theorem eq_of_type {p : Program} {c d : ClassDef} (hc : c ∈ p.classes) (hd : d ∈ p.classes)
    (h : c.type = d.type) : c = d :=
  List.inj_on_of_nodup_map (nodup_types p) hc hd h

end Program

end DexShrinker
