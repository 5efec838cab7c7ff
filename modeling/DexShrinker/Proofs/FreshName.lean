/-
  DexShrinker/Proofs/FreshName.lean
  =================================
  **Fresh names are fresh.**

  If candidates differ, one of the first `n + 1` is not among `n` taken ones, so the
  search for a free candidate finds one. What comes before the digits at the end of a name tells
  which name was numbered.
-/
import DexShrinker.FreshName
import Mathlib.Data.List.Nodup
import Mathlib.Data.List.Perm.Subperm
import Std.Data.String.ToNat

namespace DexShrinker

variable {α : Type} [BEq α] [LawfulBEq α]

/-- **The first free candidate is free.** -/
theorem firstFree_not_mem {candidate : Nat → α} (hinj : Function.Injective candidate) (taken : List α) :
    candidate (firstFree candidate taken) ∉ taken := by
  have hfree : ∃ i ∈ List.range (taken.length + 1), candidate i ∉ taken := by
    by_contra hno
    have hsub : (List.range (taken.length + 1)).map candidate ⊆ taken := by
      intro x hx
      obtain ⟨i, hi, rfl⟩ := List.mem_map.1 hx
      by_contra hx
      exact hno ⟨i, hi, hx⟩
    have hlen := ((List.nodup_range.map hinj).subperm hsub).length_le
    rw [List.length_map, List.length_range] at hlen
    omega
  obtain ⟨i, hi, hfree⟩ := hfree
  unfold firstFree
  cases hfind : (List.range (taken.length + 1)).find? fun i => !taken.contains (candidate i) with
  | none =>
    have hall := List.find?_eq_none.1 hfind i hi
    simp [hfree] at hall
  | some j =>
    have hj := List.find?_some hfind
    simpa using hj

theorem numbered_injective (name : String) : Function.Injective (numbered name) := by
  intro m n h
  exact Nat.repr_injective (String.append_right_inj _ |>.1 h)

theorem numberedFresh_not_mem (name : String) (taken : List String) : numberedFresh name taken ∉ taken :=
  firstFree_not_mem (fun _ _ h => Nat.succ.inj (numbered_injective name h)) taken

theorem freshName_not_mem (name : String) (taken : List String) : freshName name taken ∉ taken := by
  unfold freshName
  split
  · exact numberedFresh_not_mem name taken
  · next h => simpa using h

/-! ### Digits at the end of a name -/

theorem isDigit_of_mem_toString {i : Nat} {c : Char} (h : c ∈ (toString i).toList) : c.isDigit = true := by
  change c ∈ (String.ofList (Nat.toDigits 10 i)).toList at h
  rw [String.toList_ofList] at h
  exact Nat.isDigit_of_mem_toDigits (by decide) (by decide) h

theorem eq_of_append_digits {a b m n : List Char} (hm : ∀ c ∈ m, c.isDigit = true) (hn : ∀ c ∈ n, c.isDigit = true)
    (ha : ∀ c ∈ a.getLast?, c.isDigit = false) (hb : ∀ c ∈ b.getLast?, c.isDigit = false) (h : a ++ m = b ++ n) : a = b := by
  rcases List.append_eq_append_iff.1 h with ⟨x, hx, hxm⟩ | ⟨x, hx, hxn⟩
  · rcases List.eq_nil_or_concat x with rfl | ⟨y, c, rfl⟩
    · simpa using hx.symm
    · have hno := hb c (by simp [hx])
      rw [hm c (by simp [hxm])] at hno
      cases hno
  · rcases List.eq_nil_or_concat x with rfl | ⟨y, c, rfl⟩
    · simpa using hx
    · have hno := ha c (by simp [hx])
      rw [hn c (by simp [hxn])] at hno
      cases hno

/-- A numbered name tells which name was numbered. -/
theorem eq_of_numbered_eq {name base : String} {m n : Nat} (h : numbered name m = numbered base n) : name = base := by
  have htext := congrArg String.toList h
  simp only [numbered, String.toList_append, List.append_assoc] at htext
  rw [← List.append_assoc, ← List.append_assoc] at htext
  have hsame : name.toList ++ "$".toList = base.toList ++ "$".toList :=
    eq_of_append_digits (fun c => isDigit_of_mem_toString) (fun c => isDigit_of_mem_toString) (by simp) (by simp) htext
  exact String.toList_injective (List.append_cancel_right hsame)

end DexShrinker
