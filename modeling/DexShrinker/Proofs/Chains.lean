/-
  DexShrinker/Proofs/Chains.lean
  ==============================
  **Chains that come round.**

  Loops of the program follow links from one thing to the next, and some of them keep no record of
  where they have been. A chain of more links than there are things with a link meets one of them
  twice (`comesRound_of_isChain`). Where every thing has one link at most, there is no way out once
  it has come round (`transGen_self_of_reflTransGen`).
-/
import Mathlib.Data.List.Chain
import Mathlib.Data.List.Nodup
import Mathlib.Data.List.Perm.Subperm
import Mathlib.Logic.Relation

namespace DexShrinker

open Relation (ReflTransGen TransGen)

variable {α : Type} {R : α → α → Prop} {a b : α}

theorem exists_of_mem_dropLast {xs : List α} (h : xs.IsChain R) : ∀ x ∈ xs.dropLast, ∃ y, R x y := by
  induction xs with
  | nil => simp
  | cons a xs ih =>
    cases xs with
    | nil => simp
    | cons b xs =>
      obtain ⟨hab, hrest⟩ := List.isChain_cons_cons.1 h
      rw [List.dropLast_cons_cons]
      exact List.forall_mem_cons.2 ⟨⟨b, hab⟩, ih hrest⟩

/-- **A chain of more links than there are comes round.** -/
theorem comesRound_of_isChain {linked way : List α} (hlinked : ∀ x y, R x y → x ∈ linked) (hway : (a :: way).IsChain R)
    (hlength : linked.length < way.length) : ∃ u, ReflTransGen R a u ∧ TransGen R u u := by
  have hsubset : (a :: way).dropLast ⊆ linked := by
    intro u hu
    obtain ⟨v, huv⟩ := exists_of_mem_dropLast hway u hu
    exact hlinked u v huv
  have hrepeats : ¬ (a :: way).dropLast.Nodup := by
    intro hnodup
    have hle := (hnodup.subperm hsubset).length_le
    rw [List.length_dropLast, List.length_cons, Nat.add_sub_cancel] at hle
    exact Nat.not_lt.2 hle hlength
  simp only [List.nodup_iff_sublist, not_forall, not_not] at hrepeats
  obtain ⟨u, hu⟩ := hrepeats
  have htwice := hu.trans (List.dropLast_sublist _)
  have hpairwise : (a :: way).Pairwise (TransGen R) := List.isChain_iff_pairwise.1 (hway.imp fun _ _ h => .single h)
  refine ⟨u, ?_, (List.pairwise_cons.1 (hpairwise.sublist htwice)).1 u (List.mem_singleton_self u)⟩
  rcases List.mem_cons.1 (htwice.subset List.mem_cons_self) with rfl | hmem
  · exact .refl
  · exact ((List.pairwise_cons.1 hpairwise).1 u hmem).to_reflTransGen

/-- Who comes round on the only way there is goes on to come round. -/
theorem transGen_self_of_reflTransGen (hR : Relator.RightUnique R) (h : TransGen R a a) (hab : ReflTransGen R a b) : TransGen R b b := by
  induction hab with
  | refl => exact h
  | tail _ hbc ih =>
    obtain ⟨c, hbc', hback⟩ := TransGen.head'_iff.1 ih
    cases hR hbc hbc'
    exact .tail' hback hbc

end DexShrinker
