/-
  DexShrinker/Proofs/Descriptor.lean
  ==================================
  **Array types and their bases.**

  An array type is its dimensions over a base that is no array (`Descriptor.replaceBase_base`,
  `Descriptor.isArray_base`), and another base can be put under its dimensions
  (`Descriptor.base_replaceBase`), and then yet another one (`Descriptor.mapBase_mapBase`).
-/
import DexShrinker.Reference.Descriptor
import Mathlib.Data.List.TakeWhile

namespace DexShrinker.Descriptor

theorem isArray_of_isClass {t : Descriptor} (h : t.isClass = true) : t.isArray = false := by
  simp only [isClass, isArray, beq_iff_eq, beq_eq_false_iff_ne] at h ⊢
  rw [h]
  decide

theorem isReference_of_isClass {t : Descriptor} (h : t.isClass = true) : t.isReference = true := by
  rw [isReference, h, Bool.true_or]

theorem isReference_of_isArray {t : Descriptor} (h : t.isArray = true) : t.isReference = true := by
  rw [isReference, h, Bool.or_true]

theorem isClass_ofBinaryName (name : String) : (ofBinaryName name).isClass = true := by
  simp [isClass, chars, ofBinaryName]

theorem ofBinaryName_injective : Function.Injective ofBinaryName := by
  intro a b h
  have htext : "L" ++ a ++ ";" = "L" ++ b ++ ";" := congrArg Descriptor.text h
  exact (String.append_right_inj _).1 ((String.append_left_inj _).1 htext)

theorem replaceBase_base {t : Descriptor} (h : t.isArray = true) : t.replaceBase t.base = t := by
  apply Descriptor.ext
  simp only [replaceBase, base, h, if_true]
  rw [← String.ofList_append, List.takeWhile_append_dropWhile]
  exact String.ofList_toList

theorem base_of_isArray {t : Descriptor} (h : t.isArray = false) : t.base = t := by
  simp [base, h]

theorem dropWhile_chars {t : Descriptor} (h : t.isArray = false) : t.chars.dropWhile (· == '[') = t.chars := by
  cases hchars : t.chars with
  | nil => rfl
  | cons c rest =>
    rw [isArray, hchars, List.head?_cons] at h
    exact List.dropWhile_cons_of_neg (by simpa using h)

theorem takeWhile_chars {t : Descriptor} (h : t.isArray = false) : t.chars.takeWhile (· == '[') = [] := by
  have hsplit := List.takeWhile_append_dropWhile (p := (· == '[')) (l := t.chars)
  rw [dropWhile_chars h] at hsplit
  exact List.append_left_eq_self.1 hsplit

theorem base_replaceBase {t b : Descriptor} (h : t.isArray = true) (hb : b.isArray = false) : (t.replaceBase b).base = b := by
  have hall : ∀ c ∈ t.chars.takeWhile (· == '['), (c == '[') = true := by
    intro c hc
    exact (List.mem_takeWhile_imp hc :)
  have hchars : (t.replaceBase b).chars = t.chars.takeWhile (· == '[') ++ b.chars := by simp [replaceBase, chars]
  have harray : (t.replaceBase b).isArray = true := by
    rw [isArray, beq_iff_eq] at h ⊢
    obtain ⟨rest, hrest⟩ := List.head?_eq_some_iff.1 h
    simp [hchars, hrest]
  rw [base, if_pos harray, hchars, List.dropWhile_append_of_pos hall, dropWhile_chars hb]
  exact Descriptor.ext (by simp [chars])

theorem isArray_base (t : Descriptor) : t.base.isArray = false := by
  unfold base
  split
  · rw [isArray, beq_eq_false_iff_ne]
    intro hhead
    simp only [chars, String.toList_ofList] at hhead
    obtain ⟨rest, hrest⟩ := List.head?_eq_some_iff.1 hhead
    have hnot := List.head_dropWhile_not (fun c : Char => c == '[') (l := t.text.toList) (by rw [hrest]; simp)
    simp [hrest] at hnot
  · next h => simpa using h

/-- Another name, and then another one, under the same dimensions. -/
theorem mapBase_mapBase {t : Descriptor} {f g : Descriptor → Descriptor} (hf : (f t.base).isArray = false) :
    (t.mapBase f).mapBase g = t.mapBase fun u => g (f u) := by
  by_cases h : t.isArray = true
  · have hbase : (t.replaceBase (f t.base)).base = f t.base := base_replaceBase h hf
    have hchars : (t.replaceBase (f t.base)).chars = t.chars.takeWhile (· == '[') ++ (f t.base).chars := by
      simp [replaceBase, chars]
    have hall : ∀ c ∈ t.chars.takeWhile (· == '['), (c == '[') = true := by
      intro c hc
      exact (List.mem_takeWhile_imp hc :)
    have harray : (t.replaceBase (f t.base)).isArray = true := by
      rw [isArray, beq_iff_eq] at h ⊢
      obtain ⟨rest, hrest⟩ := List.head?_eq_some_iff.1 h
      simp [hchars, hrest]
    simp only [mapBase, h, if_true, harray, hbase]
    rw [replaceBase, hchars, List.takeWhile_append_of_pos hall, takeWhile_chars hf, List.append_nil]
    rfl
  · have hno : t.isArray = false := by simpa using h
    rw [base_of_isArray hno] at hf
    simp [mapBase, hno, hf]

/-- Arrays go to arrays. -/
theorem isArray_mapBase {t : Descriptor} (h : t.isArray = true) (f : Descriptor → Descriptor) : (t.mapBase f).isArray = true := by
  rw [mapBase, if_pos h]
  rw [isArray, beq_iff_eq] at h ⊢
  obtain ⟨rest, hrest⟩ := List.head?_eq_some_iff.1 h
  simp only [chars] at hrest
  simp [chars, replaceBase, hrest]

theorem mapBase_base (t : Descriptor) : (t.mapBase fun _ => t.base) = t := by
  rw [mapBase]
  split
  · next h => exact replaceBase_base h
  · next h => exact base_of_isArray (by simpa using h)

end DexShrinker.Descriptor
