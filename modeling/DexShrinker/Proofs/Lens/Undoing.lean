/-
  DexShrinker/Proofs/Lens/Undoing.lean
  ====================================
  **Undoing two changes of a prototype at once.**

  Changes that start from some argument types can be undone on what they lead to
  (`StartsFrom.restore_apply`): the walk back puts an argument that is gone where its number comes
  up and takes every other one from those that are left, so after as many steps as there were
  arguments it has them all and stops. The newer of two changes leaves the parameters alone that the
  older one adds (`StartsFrom.apply_apply`). So what two changes lead to is what their combination
  leads to, and undoing the combination leads all the way back (`combine_apply_restore`).

  Arguments are numbered by words of thirty-two bits. A list that has an argument for each of the
  words and more cannot be numbered, and a walk over it comes round to its first argument again.
-/
import DexShrinker.Proofs.Lens.Rows

namespace DexShrinker

open Std

namespace ProtoChanges

open ArgumentChange

variable {a b c : ProtoChanges} {types : List Descriptor} {ret : Descriptor}

/-! ### Undoing one change -/

/-- The types of the arguments from number `i` on that stay. -/
def keepFrom (c : ProtoChanges) (i : Nat) (types : List Descriptor) : List Descriptor :=
  (types.mapIdx fun n => c.applyAt (i + n)).filterMap id

theorem keepFrom_zero (c : ProtoChanges) (types : List Descriptor) : c.keepFrom 0 types = c.keep types := by
  simp only [keepFrom, Nat.zero_add, keep]

theorem keepFrom_cons (c : ProtoChanges) (i : Nat) (t : Descriptor) (types : List Descriptor) :
    c.keepFrom i (t :: types) = (applied t (c.argumentAt? i)).toList ++ c.keepFrom (i + 1) types := by
  rw [keepFrom, List.mapIdx_cons, Nat.add_zero, applyAt_eq, keepFrom]
  have hnext : (fun n => c.applyAt (i + (n + 1))) = fun n => c.applyAt (i + 1 + n) := by
    funext n
    rw [Nat.add_comm n 1, Nat.add_assoc]
  rw [hnext]
  cases applied t (c.argumentAt? i) <;> rfl

/-- The walk back from number `i` on finds the arguments again, if it is not told after the last one
    that one more is gone. -/
theorem restoreFrom_keepFrom {fuel : Nat} (i : Nat) (hfuel : types.length ≤ fuel)
    (hold : ∀ n t, types[n]? = some t → ∀ change ∈ c.argumentAt? (i + n), change.old = t)
    (hend : c.keepsAt (i + types.length) = true) : c.restoreFrom fuel i (c.keepFrom i types) = types := by
  induction types generalizing fuel i with
  | nil =>
    cases fuel with
    | zero => rfl
    | succ fuel =>
      rw [keepsAt] at hend
      rcases hget : c.argumentAt? i with _ | (_ | _)
      · simp [restoreFrom, keepFrom, hget]
      · simp [hget, keeps] at hend
      · simp [restoreFrom, keepFrom, hget]
  | cons t types ih =>
    obtain ⟨fuel, rfl⟩ : ∃ k, fuel = k + 1 := ⟨fuel - 1, by simp at hfuel; omega⟩
    have hrest : c.restoreFrom fuel (i + 1) (c.keepFrom (i + 1) types) = types := by
      apply ih
      · simpa using hfuel
      · intro n t' ht'
        have := hold (n + 1) t' (by simpa using ht')
        rwa [Nat.add_comm n 1, ← Nat.add_assoc] at this
      · rwa [List.length_cons, Nat.add_comm types.length 1, ← Nat.add_assoc] at hend
    have hhead := hold 0 t rfl
    rw [Nat.add_zero] at hhead
    rw [keepFrom_cons]
    rcases hget : c.argumentAt? i with _ | (⟨s, k⟩ | ⟨s, s'⟩)
    · simp [restoreFrom, applied, hget, hrest]
    · obtain rfl : s = t := hhead _ hget
      simp [restoreFrom, applied, hget, hrest]
    · obtain rfl : s = t := hhead _ hget
      simp [restoreFrom, applied, hget, hrest]

/-- At most as many arguments are gone as there are changes. -/
theorem length_le_of_keep (c : ProtoChanges) (hn : types.length ≤ UInt32.size) :
    types.length ≤ (c.keep types).length + c.arguments.size := by
  have htotal := place_add_countP c hn
  have hremoved : c.removed.length ≤ c.arguments.size := by
    rw [← TreeMap.length_toList]
    exact List.length_filterMap_le _ _
  have hcount : c.removed.countP (·.toNat < types.length) ≤ c.removed.length := List.countP_le_length
  rw [length_keep]
  omega

theorem apply_eq (c : ProtoChanges) (types : List Descriptor) : c.apply types = c.keep types ++ c.extraTypes := rfl

/-- **What changes lead to can be undone.** -/
theorem StartsFrom.restore_apply (h : c.StartsFrom types) (hn : types.length < UInt32.size) : c.restore (c.apply types) = types := by
  have hkept : (c.apply types).take ((c.apply types).length - c.extra.length) = c.keepFrom 0 types := by
    rw [apply_eq, List.length_append, extraTypes, List.length_map, Nat.add_sub_cancel, List.take_left, keepFrom_zero]
  have hend : c.keepsAt (0 + types.length) = true := by
    rw [Nat.zero_add, keepsAt]
    cases hget : c.argumentAt? types.length with
    | none => rfl
    | some change =>
      have hlast := h.old_of_argumentAt? hn hget
      simp at hlast
  rw [restore, hkept]
  apply restoreFrom_keepFrom 0 _ _ hend
  · rw [keepFrom_zero]
    exact length_le_of_keep c (Nat.le_of_lt hn)
  · simpa using h.old_of_getElem? (Nat.le_of_lt hn)

theorem ReturnsFrom.restoreReturn_returnType (h : c.ReturnsFrom ret) : c.restoreReturn (c.returnType ret) = ret := by
  rw [restoreReturn, returnType]
  cases hget : c.returned with
  | none => rfl
  | some change => exact h change hget

/-! ### Two changes, one after the other -/

/-- The newer changes leave alone what the older ones add. -/
theorem StartsFrom.keep_append {kept extra : List Descriptor} (h : b.StartsFrom kept) (hn : (kept ++ extra).length ≤ UInt32.size) :
    b.keep (kept ++ extra) = b.keep kept ++ extra := by
  induction extra using List.reverseRecOn with
  | nil => simp
  | append_singleton extra t ih =>
    have hnone : b.argumentAt? (kept ++ extra).length = Option.none := by
      rw [Option.eq_none_iff_forall_not_mem]
      intro change hchange
      have hlt := h.old_of_argumentAt? (by simp at hn ⊢; omega) hchange
      rw [List.getElem?_eq_none (by simp)] at hlt
      cases hlt
    rw [← List.append_assoc, keep_append_singleton, ih (by simp at hn ⊢; omega), hnone, List.append_assoc]
    rfl

/-- **Combined changes act like the two in sequence.** If the entries of the older changes are those of
    the argument types they are applied to and the entries of the newer ones are those of the arguments
    that the older ones keep, then the two can be combined. Their combination leads to the types that
    they lead to one after the other, and back from there to the types at the beginning, and it leads
    back to the return type at the beginning. -/
theorem combine_apply_restore (hn : types.length < UInt32.size) (hn' : (a.apply types).length < UInt32.size)
    (ha : a.StartsFrom types) (hb : b.StartsFrom (a.keep types)) :
    ∃ r, a.combine b = .ok r ∧ r.apply types = b.apply (a.apply types) ∧ r.restore (r.apply types) = types ∧
      ∀ ret, a.ReturnsFrom ret → b.ReturnsFrom (a.returnType ret) → r.restoreReturn (b.returnType (a.returnType ret)) = ret := by
  obtain ⟨r, hr, hcombines, hstarts, hkeep⟩ := ha.exists_combine (Nat.le_of_lt hn) hb
  refine ⟨r, hr, ?_, hstarts.restore_apply hn, fun ret hret hret' => ?_⟩
  · rw [apply_eq b, apply_eq a, hb.keep_append (Nat.le_of_lt hn'), apply_eq, hkeep, extraTypes, hcombines.extra, List.map_append,
      List.append_assoc]
    rfl
  · rw [← hcombines.returnType hret]
    exact (hcombines.returnsFrom hret hret').restoreReturn_returnType

/-! ### Sample -/

namespace Detour

def start : List Descriptor := [⟨"LA;"⟩, .int, ⟨"LB;"⟩, .long, ⟨"LC;"⟩]

/-- The first argument and the fourth go, the third gets another type, and so does the result. -/
def forth : ProtoChanges :=
  (((ProtoChanges.none.removeArgument 0 ⟨"LA;"⟩ .none).retypeArgument 2 ⟨"LB;"⟩ ⟨"LX;"⟩).removeArgument 3 .long (some 7)).addParameter
    (.unusedNull ⟨"LN;"⟩) |>.retypeReturn ⟨"LB;"⟩ ⟨"LX;"⟩

/-- Of the three arguments that are left the first goes, the second and the result get back their types, and
    the third gets another one. -/
def back : ProtoChanges :=
  (((ProtoChanges.none.removeArgument 0 .int .none).retypeArgument 1 ⟨"LX;"⟩ ⟨"LB;"⟩).retypeArgument 2 ⟨"LC;"⟩ ⟨"LD;"⟩).addParameter
    (.constantInt 1) |>.retypeReturn ⟨"LX;"⟩ ⟨"LB;"⟩

end Detour

open Detour in
/-- The two lead to the third argument as it was, to the last one in its new type and to both of the new parameters. -/
theorem combine_apply_restore_detour :
    ∃ r, forth.combine back = .ok r ∧ r.apply start = [⟨"LB;"⟩, ⟨"LD;"⟩, ⟨"LN;"⟩, .int] ∧ r.restore (r.apply start) = start ∧
      r.restoreReturn ⟨"LB;"⟩ = ⟨"LB;"⟩ := by
  have hforth : forth.StartsFrom start := by decide
  have hback : back.StartsFrom (forth.keep start) := by decide
  obtain ⟨r, hr, happly, hrestore, hreturn⟩ := combine_apply_restore (by decide) (by decide) hforth hback
  exact ⟨r, hr, happly.trans (by decide), hrestore, hreturn ⟨"LB;"⟩ (by decide) (by decide)⟩

end ProtoChanges

end DexShrinker
