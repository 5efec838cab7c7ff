/-
  DexShrinker/Proofs/Flow/Ascent.lean
  ===================================
  **A join that changes a state takes it closer to the top.**

  Every state has a standing, a pair of numbers in lexicographic order: its form first, and
  then how much it may still change within this form. The standing of a state that is changed
  by a join falls (`ValueState.standing_join_lt`), since integers only lose known bits,
  bounds only climb in a hierarchy without cycles, and a form never comes back. Standings
  are well-founded and can be taken together over many states.

  The static type of a place may undo a join: a bound that is not below the static type is
  replaced by it. A bound below the static type is not, and then the standing does not rise
  (`ValueState.standing_widen_le`).
-/
import DexShrinker.Proofs.App.Subtyping
import DexShrinker.Proofs.Flow.ValueState

namespace DexShrinker

open Std (TreeSet)

/-! ### Abstract values -/

namespace AbstractValue

def bitCount (v : Int64) : Nat := ((List.range 64).filter (bit v)).length

theorem bitCount_le (v : Int64) : bitCount v ≤ 64 := by
  have hle := List.length_filter_le (bit v) (List.range 64)
  rwa [List.length_range] at hle

theorem filter_and_sublist (v w : Int64) :
    ((List.range 64).filter (bit (v &&& w))).Sublist ((List.range 64).filter (bit v)) := by
  apply List.monotone_filter_right
  intro i hi
  rw [bit_and, Bool.and_eq_true] at hi
  exact hi.1

theorem bitCount_and_le (v w : Int64) : bitCount (v &&& w) ≤ bitCount v := (filter_and_sublist v w).length_le

theorem bitCount_and_lt {v w : Int64} (h : v &&& w ≠ v) : bitCount (v &&& w) < bitCount v := by
  by_contra hle
  apply h
  have heq := (filter_and_sublist v w).eq_of_length_le (Nat.le_of_not_lt hle)
  apply ext_bit
  intro i hi
  have hmem := congrArg (i ∈ ·) heq
  simp only [List.mem_filter, List.mem_range, hi, true_and, eq_iff_iff] at hmem
  exact Bool.eq_iff_iff.2 hmem

/-- The integers are listed as `ofIntegers` lists them. -/
def Listed (values : List Int64) : Prop := sortInts values = values ∧ 2 ≤ values.length ∧ values.length ≤ maxSetSize

instance (values : List Int64) : Decidable (Listed values) := inferInstanceAs (Decidable (_ ∧ _))

/-- How much an abstract value may still change. What does not have the form that joins give
    has more room than anything that has. -/
def room : AbstractValue → Nat
  | bottom => 500
  | set values => if Listed values then 300 - values.length else 400
  | bits ones zeros => if ones ||| zeros = -1 then 400 else 1 + bitCount ones + bitCount zeros
  | null | string _ | single _ => 300
  | unknown => 0

theorem room_pos {a : AbstractValue} (h : a ≠ unknown) : 0 < a.room := by
  cases a with
  | unknown => exact absurd rfl h
  | set values =>
    rw [room]
    split
    · next hlisted =>
      have := hlisted.2.2
      rw [maxSetSize] at this
      omega
    · omega
  | bits ones zeros =>
    rw [room]
    split <;> omega
  | _ => simp [room]

theorem room_le {a : AbstractValue} (h : a ≠ bottom) : a.room ≤ 400 := by
  cases a with
  | bottom => exact absurd rfl h
  | set values =>
    rw [room]
    split <;> omega
  | bits ones zeros =>
    have := bitCount_le ones
    have := bitCount_le zeros
    rw [room]
    split <;> omega
  | _ => simp [room]

/-- What is known about bits has the form of a single integer or little room. -/
theorem room_ofBits (ones zeros : Int64) : (∃ v, ofBits ones zeros = single v) ∨ (ofBits ones zeros).room ≤ 129 := by
  unfold ofBits
  split
  · exact .inr (Nat.zero_le _)
  · split
    · exact .inl ⟨ones, rfl⟩
    · next hne =>
      have := bitCount_le ones
      have := bitCount_le zeros
      right
      rw [room, if_neg hne]
      omega

theorem room_ofBits_le (ones zeros : Int64) : (ofBits ones zeros).room ≤ 300 := by
  rcases room_ofBits ones zeros with ⟨v, hv⟩ | hle
  · rw [hv]
    exact Nat.le_refl 300
  · omega

/-- Bits of two different integers are not those of a single one. -/
theorem room_ofBits_of_admits {ones zeros v w : Int64} (hv : (ofBits ones zeros).admits v = true)
    (hw : (ofBits ones zeros).admits w = true) (hne : v ≠ w) : (ofBits ones zeros).room ≤ 129 := by
  rcases room_ofBits ones zeros with ⟨u, hu⟩ | hle
  · rw [hu, admits_single] at hv hw
    exact absurd (hv.symm.trans hw) hne
  · exact hle

theorem nodup_sortInts (values : List Int64) : (sortInts values).Nodup := by
  refine List.Pairwise.imp ?_ (TreeSet.distinct_toList (t := (.ofList values : TreeSet Int64)))
  intro a b hne
  rintro rfl
  exact hne Std.compare_self

theorem sortInts_congr {xs ys : List Int64} (h : ∀ v, v ∈ xs ↔ v ∈ ys) : sortInts xs = sortInts ys := by
  apply TreeSet.Equiv.toList_eq
  apply TreeSet.Equiv.of_forall_mem_iff
  intro v
  simp [TreeSet.mem_ofList, h v]

@[simp] theorem sortInts_sortInts (values : List Int64) : sortInts (sortInts values) = sortInts values :=
  sortInts_congr fun _ => mem_sortInts

theorem exists_ne_of_two_le {values : List Int64} (hnodup : values.Nodup) (h : 2 ≤ values.length) :
    ∃ v ∈ values, ∃ w ∈ values, v ≠ w := by
  match values, hnodup, h with
  | v :: w :: rest, hnodup, _ =>
    refine ⟨v, by simp, w, by simp, ?_⟩
    rintro rfl
    exact (List.nodup_cons.1 hnodup).1 List.mem_cons_self

theorem ofIntegers_of_two_le {values : List Int64} (h : 2 ≤ values.length) :
    ofIntegers values =
      if values.length ≤ maxSetSize then set values else ofBits (commonBits values).1 (commonBits values).2 := by
  match values, h with
  | v :: w :: rest, _ => simp [ofIntegers]

/-- More integers leave less room. -/
theorem room_ofIntegers_lt {values : List Int64} (hsorted : sortInts values = values) {k : Nat} (hpos : 1 ≤ k)
    (hmax : k ≤ maxSetSize) (hk : k < values.length) : (ofIntegers values).room < 300 - k := by
  obtain ⟨v, hv, w, hw, hne⟩ := exists_ne_of_two_le (hsorted ▸ nodup_sortInts values) (by omega)
  have hv := admits_ofIntegers hv
  have hw := admits_ofIntegers hw
  rw [ofIntegers_of_two_le (by omega)] at hv hw ⊢
  rw [maxSetSize] at hmax
  split at hv
  · next hle =>
    rw [if_pos hle, room, if_pos ⟨hsorted, by omega, hle⟩]
    omega
  · next hle =>
    rw [if_neg hle] at hw ⊢
    have := room_ofBits_of_admits hv hw hne
    omega

theorem room_ofIntegers_le {values : List Int64} (hsorted : sortInts values = values) (hne : values ≠ []) :
    (ofIntegers values).room ≤ 300 := by
  match values, hne with
  | [v], _ => exact Nat.le_refl 300
  | v :: w :: rest, _ =>
    have hlt := room_ofIntegers_lt hsorted (Nat.le_refl 1) (by decide) (by simp)
    omega

/-- What a join does: nothing, or it gives up, or it has seen nothing yet, or it lists
    integers, or it keeps their common bits. -/
theorem join_cases (a b : AbstractValue) :
    a.join b = a ∨ a.join b = unknown ∨ a = bottom ∧ a.join b = b ∨
      (∃ xs ys, a ≠ b ∧ a.integers? = some xs ∧ b.integers? = some ys ∧ a.join b = ofIntegers (sortInts (xs ++ ys))) ∨
      ∃ ones zeros ones' zeros', a.definiteBits? = some (ones, zeros) ∧
        a.join b = ofBits (ones &&& ones') (zeros &&& zeros') := by
  unfold join
  split
  · exact .inr (.inr (.inl ⟨rfl, rfl⟩))
  · exact .inl rfl
  · exact .inl rfl
  · exact .inr (.inl rfl)
  · split
    · exact .inl rfl
    · next hne =>
      split
      · next xs ys hxs hys => exact .inr (.inr (.inr (.inl ⟨xs, ys, hne, hxs, hys, rfl⟩)))
      · split
        · next ha hb => exact .inr (.inr (.inr (.inr ⟨_, _, _, _, ha, rfl⟩)))
        · exact .inr (.inl rfl)

/-- Lists of integers that do not get longer do not change. -/
theorem sortInts_append_eq {xs ys : List Int64} (hsorted : sortInts xs = xs)
    (hlen : (sortInts (xs ++ ys)).length ≤ xs.length) : sortInts (xs ++ ys) = xs := by
  have hnodup : xs.Nodup := hsorted ▸ nodup_sortInts xs
  have hsub : xs ⊆ sortInts (xs ++ ys) := by
    intro v hv
    exact mem_sortInts.2 (List.mem_append_left _ hv)
  have hperm := (hnodup.subperm hsub).perm_of_length_le hlen
  have hcongr : sortInts (sortInts (xs ++ ys)) = sortInts xs := sortInts_congr fun v => hperm.symm.mem_iff
  rwa [sortInts_sortInts, hsorted] at hcongr

theorem room_join_integers {a b : AbstractValue} {xs ys : List Int64} (h : a.join b ≠ a) (hne : a ≠ b)
    (hxs : a.integers? = some xs) (hys : b.integers? = some ys) (hjoin : a.join b = ofIntegers (sortInts (xs ++ ys))) :
    (a.join b).room < a.room := by
  cases a with
  | single v =>
    cases hxs
    have hmem : v ∈ sortInts ([v] ++ ys) := mem_sortInts.2 (by simp)
    by_cases hlen : 1 < (sortInts ([v] ++ ys)).length
    · have hlt := room_ofIntegers_lt (sortInts_sortInts _) (Nat.le_refl 1) (by decide) hlen
      rw [hjoin, room]
      omega
    · have heq : sortInts ([v] ++ ys) = [v] := sortInts_append_eq rfl (Nat.le_of_not_lt hlen)
      rw [hjoin, heq] at h
      exact absurd rfl h
  | set _ =>
    cases hxs
    by_cases hlisted : Listed xs
    · obtain ⟨hsorted, htwo, hmax⟩ := hlisted
      by_cases hlen : xs.length < (sortInts (xs ++ ys)).length
      · have hlt := room_ofIntegers_lt (sortInts_sortInts _) (by omega) hmax hlen
        rw [hjoin, room, if_pos ⟨hsorted, htwo, hmax⟩]
        exact hlt
      · have heq := sortInts_append_eq hsorted (Nat.le_of_not_lt hlen)
        rw [hjoin, heq] at h
        rw [ofIntegers_of_two_le htwo, if_pos hmax] at h
        exact absurd rfl h
    · rw [hjoin, room, if_neg hlisted]
      apply Nat.lt_of_le_of_lt (room_ofIntegers_le (sortInts_sortInts _) _) (by decide)
      -- Two empty sets are equal, so there is an integer on one side.
      intro hnil
      have hempty : ∀ v, v ∉ xs ++ ys := fun v hv => by
        have := mem_sortInts.2 hv
        rw [hnil] at this
        cases this
      obtain ⟨rfl, rfl⟩ : xs = [] ∧ ys = [] := List.append_eq_nil_iff.1 (List.eq_nil_iff_forall_not_mem.2 hempty)
      cases b with
      | set _ =>
        cases hys
        exact hne rfl
      | _ => cases hys
  | _ => cases hxs

theorem room_join_bits {a b : AbstractValue} {ones zeros ones' zeros' : Int64} (h : a.join b ≠ a)
    (hbits : a.definiteBits? = some (ones, zeros)) (hjoin : a.join b = ofBits (ones &&& ones') (zeros &&& zeros')) :
    (a.join b).room < a.room := by
  have hadmits (v : Int64) (hv : a.admits v = true) : (ofBits (ones &&& ones') (zeros &&& zeros')).admits v = true :=
    hjoin ▸ admits_join (.inl hv)
  cases a with
  | single v =>
    rcases room_ofBits (ones &&& ones') (zeros &&& zeros') with ⟨u, hu⟩ | hle
    · have hv := hadmits v (admits_single.2 rfl)
      rw [hu, admits_single] at hv
      rw [hjoin, hu, hv] at h
      exact absurd rfl h
    · rw [hjoin, room]
      omega
  | set values =>
    rw [hjoin, room]
    split
    · next hlisted =>
      obtain ⟨hsorted, htwo, hmax⟩ := hlisted
      obtain ⟨v, hv, w, hw, hne⟩ := exists_ne_of_two_le (hsorted ▸ nodup_sortInts values) htwo
      have hle := room_ofBits_of_admits (hadmits v (admits_set.2 hv)) (hadmits w (admits_set.2 hw)) hne
      rw [maxSetSize] at hmax
      omega
    · exact Nat.lt_of_le_of_lt (room_ofBits_le _ _) (by decide)
  | bits =>
    cases hbits
    rw [hjoin] at h ⊢
    rw [room]
    split
    · exact Nat.lt_of_le_of_lt (room_ofBits_le _ _) (by decide)
    · next hsome =>
      unfold ofBits at h ⊢
      split
      · rw [room]
        omega
      · next hzero =>
        rw [if_neg hzero] at h
        split
        · next hall =>
          -- Bits that are not all known do not become known.
          refine absurd (ext_bit fun i hi => ?_) hsome
          have hbit := congrArg (bit · i) hall
          simp only [bit_or, bit_and, bit_neg_one hi] at hbit ⊢
          grind
        · next hall =>
          rw [if_neg hall] at h
          rw [room, if_neg hall]
          have hones := bitCount_and_le ones ones'
          have hzeros := bitCount_and_le zeros zeros'
          by_cases hsame : ones &&& ones' = ones
          · have hlt := bitCount_and_lt (v := zeros) (w := zeros') fun heq => h (by rw [hsame, heq])
            omega
          · have hlt := bitCount_and_lt hsame
            omega
  | _ => cases hbits

/-- **A join that changes an abstract value leaves less room.** -/
theorem room_join_lt {a b : AbstractValue} (h : a.join b ≠ a) : (a.join b).room < a.room := by
  rcases join_cases a b with heq | heq | ⟨rfl, heq⟩ | ⟨xs, ys, hne, hxs, hys, heq⟩ | ⟨ones, zeros, ones', zeros', hbits, heq⟩
  · exact absurd heq h
  · rw [heq] at h ⊢
    exact room_pos (Ne.symm h)
  · rw [heq] at h ⊢
    exact Nat.lt_of_le_of_lt (room_le h) (by decide)
  · exact room_join_integers h hne hxs hys heq
  · exact room_join_bits h hbits heq

theorem room_join_le (a b : AbstractValue) : (a.join b).room ≤ a.room := by
  by_cases h : a.join b = a
  · exact Nat.le_of_eq (congrArg room h)
  · exact Nat.le_of_lt (room_join_lt h)

end AbstractValue

/-! ### Standings -/

/-- A form, and the room within it, in lexicographic order. -/
structure Standing where
  form : Nat
  room : Nat

namespace Standing

instance : LT Standing := ⟨fun a b => a.form < b.form ∨ a.form = b.form ∧ a.room < b.room⟩

instance : LE Standing := ⟨fun a b => a.form < b.form ∨ a.form = b.form ∧ a.room ≤ b.room⟩

instance : Add Standing := ⟨fun a b => ⟨a.form + b.form, a.room + b.room⟩⟩

variable {a b c d : Standing}

theorem lt_iff : a < b ↔ a.form < b.form ∨ a.form = b.form ∧ a.room < b.room := Iff.rfl

theorem le_iff : a ≤ b ↔ a.form < b.form ∨ a.form = b.form ∧ a.room ≤ b.room := Iff.rfl

@[simp] theorem form_add (a b : Standing) : (a + b).form = a.form + b.form := rfl

@[simp] theorem room_add (a b : Standing) : (a + b).room = a.room + b.room := rfl

theorem mk_lt_mk {form form' room room' : Nat} :
    Standing.mk form room < .mk form' room' ↔ form < form' ∨ form = form' ∧ room < room' := Iff.rfl

theorem mk_le_mk {form form' room room' : Nat} :
    Standing.mk form room ≤ .mk form' room' ↔ form < form' ∨ form = form' ∧ room ≤ room' := Iff.rfl

@[refl] theorem le_refl (a : Standing) : a ≤ a := .inr ⟨rfl, Nat.le_refl _⟩

theorem le_of_lt (h : a < b) : a ≤ b := by
  rw [lt_iff] at h
  rw [le_iff]
  omega

theorem lt_of_le_of_lt (hab : a ≤ b) (hbc : b < c) : a < c := by
  rw [le_iff] at hab
  rw [lt_iff] at hbc ⊢
  omega

theorem lt_of_lt_of_le (hab : a < b) (hbc : b ≤ c) : a < c := by
  rw [le_iff] at hbc
  rw [lt_iff] at hab ⊢
  omega

theorem lt_trans (hab : a < b) (hbc : b < c) : a < c := lt_of_lt_of_le hab (le_of_lt hbc)

theorem le_trans (hab : a ≤ b) (hbc : b ≤ c) : a ≤ c := by
  rw [le_iff] at hab hbc ⊢
  omega

theorem add_lt_add_of_le_of_lt (hab : a ≤ b) (hcd : c < d) : a + c < b + d := by
  rw [le_iff] at hab
  rw [lt_iff] at hcd ⊢
  simp only [form_add, room_add]
  omega

theorem add_lt_add_of_lt_of_le (hab : a < b) (hcd : c ≤ d) : a + c < b + d := by
  rw [le_iff] at hcd
  rw [lt_iff] at hab ⊢
  simp only [form_add, room_add]
  omega

theorem add_le_add (hab : a ≤ b) (hcd : c ≤ d) : a + c ≤ b + d := by
  rw [le_iff] at hab hcd ⊢
  simp only [form_add, room_add]
  omega

/-- The standings of a list taken together. -/
def total : List Standing → Standing
  | [] => ⟨0, 0⟩
  | s :: ss => s + total ss

theorem total_set_lt {ss : List Standing} {i : Nat} {s s' : Standing} (hs : ss[i]? = some s) (hlt : s' < s) :
    total (ss.set i s') < total ss := by
  induction ss generalizing i with
  | nil => simp at hs
  | cons r ss ih =>
    cases i with
    | zero =>
      obtain rfl : r = s := by simpa using hs
      exact add_lt_add_of_lt_of_le hlt (le_refl _)
    | succ i => exact add_lt_add_of_le_of_lt (le_refl r) (ih (by simpa using hs))

theorem wellFounded_lt : WellFounded (· < · : Standing → Standing → Prop) := by
  apply Subrelation.wf _ (InvImage.wf (fun a : Standing => (a.form, a.room)) (Prod.lex Nat.lt_wfRel Nat.lt_wfRel).wf)
  intro a b h
  rcases h with h | ⟨hform, hroom⟩
  · exact .left _ _ h
  · change Prod.Lex _ _ (a.form, a.room) (b.form, b.room)
    rw [hform]
    exact .right _ hroom

end Standing

namespace Nullability

def room : Nullability → Nat
  | bottom => 2
  | definitelyNull | definitelyNotNull => 1
  | maybeNull => 0

theorem room_join_lt {n m : Nullability} (h : n.join m ≠ n) : (n.join m).room < n.room := by
  revert h
  cases n <;> cases m <;> decide

theorem room_join_le (n m : Nullability) : (n.join m).room ≤ n.room := by
  cases n <;> cases m <;> decide

end Nullability

variable {p : Program} {static : Descriptor} {rank : Descriptor → Nat}

namespace DynamicType

/-- The bound, if there is one, says more than the static type of a reference. -/
def Fits (p : Program) (static : Descriptor) (d : DynamicType) : Prop :=
  ∀ t ∈ d.bound?, static.isPrimitive = false ∧ p.isSubtype t static = true

instance (p : Program) (static : Descriptor) (d : DynamicType) : Decidable (d.Fits p static) :=
  inferInstanceAs (Decidable (∀ t ∈ d.bound?, _))

variable {d e : DynamicType}

theorem fits_of_bound? (h : d.bound? = none) : Fits p static d := by
  intro t ht
  cases h.symm.trans ht

theorem fits_unknown : Fits p static .unknown := fits_of_bound? rfl

theorem fits_bounded {t : Descriptor} {isExact : Bool} {n : Nullability} :
    Fits p static (.bounded t isExact n) ↔ static.isPrimitive = false ∧ p.Below t static := by
  rw [← Program.isSubtype_iff]
  constructor
  · intro h
    exact h t rfl
  · rintro h t' ht'
    cases ht'
    exact h

theorem fits_join (hstatic : p.Joinable static) (hd : d.Fits p static) (he : e.Fits p static) : (d.join p e).Fits p static := by
  unfold join
  split
  · exact he
  · exact hd
  · exact fits_unknown
  · exact fits_unknown
  · rw [fits_bounded] at hd he
    split
    · exact fits_bounded.2 hd
    · exact fits_bounded.2 ⟨hd.1, hstatic _ _ hd.2 he.2⟩

theorem fits_withNullability (h : d.Fits p static) (n : Nullability) : (d.withNullability n).Fits p static := by
  cases d <;> exact h

/-- After a cast to a type below the static one, the bound fits whatever it was. -/
theorem fits_cast (hp : p.Rooted) {t : Descriptor} (hstatic : static.isPrimitive = false) (ht : p.Below t static)
    (d : DynamicType) : (d.cast p t).Fits p static := by
  cases d with
  | bottom => exact fits_of_bound? rfl
  | unknown => exact fits_bounded.2 ⟨hstatic, ht⟩
  | bounded s isExact n =>
    rw [cast]
    split
    · next hs => exact fits_bounded.2 ⟨hstatic, (Program.isSubtype_iff.1 hs).trans hp ht⟩
    · exact fits_bounded.2 ⟨hstatic, ht⟩

/-- A bound that fits is not cut back. -/
theorem widen_of_fits (h : d.Fits p static) : d.widen p static = d ∨ d.widen p static = .unknown := by
  cases d with
  | bottom => exact .inl rfl
  | unknown => exact .inl rfl
  | bounded t isExact n =>
    rw [widen, if_pos (h t rfl).2]
    dsimp only
    split
    · exact .inr rfl
    · exact .inl rfl

theorem widenReceiver_cases (holder : Descriptor) (d : DynamicType) :
    d.widenReceiver holder = d ∨ d.widenReceiver holder = .unknown := by
  cases d with
  | bottom => exact .inl rfl
  | unknown => exact .inl rfl
  | bounded t isExact n =>
    rw [widenReceiver]
    split
    · exact .inr rfl
    · exact .inl rfl

/-- How far a dynamic type is from the top. -/
def standing (rank : Descriptor → Nat) : DynamicType → Standing
  | bottom => .mk 2 0
  | bounded t isExact n => .mk 1 (Program.height rank t + isExact.toNat + n.room)
  | unknown => .mk 0 0

theorem standing_unknown_le (d : DynamicType) : standing rank .unknown ≤ d.standing rank := by
  cases d <;> simp [standing, Standing.le_iff]

/-- **A join that changes a dynamic type takes it closer to the top.** -/
theorem standing_join_lt (hp : p.Rooted) (hrank : Program.Ranked p.classes rank) (h : d.join p e ≠ d) :
    (d.join p e).standing rank < d.standing rank := by
  cases d with
  | bottom =>
    cases e with
    | bottom => exact absurd rfl h
    | _ => simp [join, standing, Standing.lt_iff]
  | unknown =>
    cases e <;> exact absurd rfl h
  | bounded t isExact n =>
    cases e with
    | bottom => exact absurd rfl h
    | unknown => simp [join, standing, Standing.lt_iff]
    | bounded t' isExact' n' =>
      have hn := n.room_join_le n'
      rw [join] at h ⊢
      split
      · next heq =>
        rw [if_pos heq] at h
        rw [standing, standing, Standing.mk_lt_mk]
        refine .inr ⟨rfl, ?_⟩
        by_cases hsame : n.join n' = n
        · cases isExact <;> cases isExact' <;> simp_all
        · have hlt := Nullability.room_join_lt hsame
          have hexact : (isExact && isExact').toNat ≤ isExact.toNat := by cases isExact <;> cases isExact' <;> decide
          omega
      · next heq =>
        rw [if_neg heq] at h
        rw [below, standing, standing, Standing.mk_lt_mk]
        refine .inr ⟨rfl, ?_⟩
        by_cases hbound : p.leastUpperBound t t' = t
        · rw [hbound] at h ⊢
          by_cases hsame : n.join n' = n
          · cases isExact <;> simp_all [below]
          · have hlt := Nullability.room_join_lt hsame
            simp only [Bool.toNat_false]
            omega
        · have hlt := Program.height_leastUpperBound_lt hp hrank hbound
          simp only [Bool.toNat_false]
          omega

end DynamicType

namespace Knowledge

def Fits (p : Program) (static : Descriptor) (k : Knowledge) : Prop := k.dynamicType.Fits p static

instance (p : Program) (static : Descriptor) (k : Knowledge) : Decidable (k.Fits p static) :=
  inferInstanceAs (Decidable (k.dynamicType.Fits p static))

variable {a b c : Knowledge}

theorem fits_joinableType (h : a.Fits p static) : a.joinableType.Fits p static := by
  cases a with
  | array n => cases n <;> exact DynamicType.fits_of_bound? rfl
  | receiver d => exact DynamicType.fits_withNullability h _
  | _ => exact h

theorem fits_join (hstatic : p.Joinable static) (h : a.join p b = .ok c) (ha : a.Fits p static) (hb : b.Fits p static) :
    c.Fits p static := by
  unfold join at h
  split at h
  · cases h
    exact DynamicType.fits_unknown
  · cases h
  · cases h
  · cases h
    exact DynamicType.fits_unknown
  · cases h
    exact DynamicType.fits_join hstatic ha hb
  · cases h
    exact DynamicType.fits_join hstatic (fits_joinableType ha) (fits_joinableType hb)

theorem fits_widen (h : a.Fits p static) : (a.widen p static).Fits p static := by
  cases a with
  | object v d =>
    rcases DynamicType.widen_of_fits (d := d) h with heq | heq
    · rw [widen, heq]
      exact h
    · rw [widen, heq]
      exact DynamicType.fits_unknown
  | receiver d =>
    rcases DynamicType.widenReceiver_cases static d with heq | heq
    · rw [widen, heq]
      exact h
    · rw [widen, heq]
      exact DynamicType.fits_unknown
  | _ => exact h

/-- How far what is known is from the top. Arrays and receivers become objects, and objects
    stay objects. -/
def standing (rank : Descriptor → Nat) : Knowledge → Standing
  | array n => .mk 6 n.room
  | primitive v => .mk 6 v.room
  | receiver d => .mk 6 0 + d.standing rank
  | object v d => .mk 1 v.room + d.standing rank

theorem standing_object_lt (v : AbstractValue) (d : DynamicType) (room : Nat) : (object v d).standing rank < .mk 6 room := by
  cases d <;> simp [standing, DynamicType.standing, Standing.lt_iff]

theorem standing_receiver_le (d : DynamicType) : Standing.mk 6 0 ≤ (receiver d).standing rank := by
  cases d <;> simp [standing, DynamicType.standing, Standing.le_iff]

/-- **A join that changes what is known takes it closer to the top.** -/
theorem standing_join_lt (hp : p.Rooted) (hrank : Program.Ranked p.classes rank) (h : a.join p b = .ok c) (hne : c ≠ a) :
    c.standing rank < a.standing rank := by
  cases a with
  | primitive v =>
    cases b with
    | primitive w =>
      cases h
      exact Standing.lt_iff.2 (.inr ⟨rfl, AbstractValue.room_join_lt fun heq => hne (congrArg _ heq)⟩)
    | _ => cases h
  | array n =>
    cases b with
    | primitive w => cases h
    | array m =>
      cases h
      exact Standing.lt_iff.2 (.inr ⟨rfl, Nullability.room_join_lt fun heq => hne (congrArg _ heq)⟩)
    | _ =>
      cases h
      exact standing_object_lt _ _ _
  | receiver d =>
    cases b with
    | primitive w => cases h
    | receiver e =>
      cases h
      exact Standing.add_lt_add_of_le_of_lt (Standing.le_refl _) (DynamicType.standing_join_lt hp hrank fun heq => hne (congrArg _ heq))
    | _ =>
      cases h
      exact Standing.lt_of_lt_of_le (standing_object_lt _ _ 0) (standing_receiver_le d)
  | object v d =>
    have hobject (w : AbstractValue) (e : DynamicType) (hne : object (v.join w) (d.join p e) ≠ object v d) :
        (object (v.join w) (d.join p e)).standing rank < (object v d).standing rank := by
      by_cases hd : d.join p e = d
      · rw [hd] at hne ⊢
        have hlt := AbstractValue.room_join_lt (a := v) (b := w) fun heq => hne (by rw [heq])
        exact Standing.add_lt_add_of_lt_of_le (Standing.mk_lt_mk.2 (.inr ⟨rfl, hlt⟩)) (Standing.le_refl _)
      · have hle := v.room_join_le w
        exact Standing.add_lt_add_of_le_of_lt (Standing.mk_le_mk.2 (.inr ⟨rfl, hle⟩)) (DynamicType.standing_join_lt hp hrank hd)
    cases b with
    | primitive w => cases h
    | _ =>
      cases h
      exact hobject _ _ hne

theorem standing_widen_le (h : a.Fits p static) : (a.widen p static).standing rank ≤ a.standing rank := by
  cases a with
  | object v d =>
    rcases DynamicType.widen_of_fits (d := d) h with heq | heq
    · rw [widen, heq]
    · rw [widen, heq]
      exact Standing.add_le_add (Standing.le_refl _) (DynamicType.standing_unknown_le d)
  | receiver d =>
    rcases DynamicType.widenReceiver_cases static d with heq | heq
    · rw [widen, heq]
    · rw [widen, heq]
      exact Standing.add_le_add (Standing.le_refl _) (DynamicType.standing_unknown_le d)
  | _ => exact Standing.le_refl _

theorem standing_pos (k : Knowledge) : Standing.mk 0 0 < k.standing rank := by
  cases k with
  | object v d | receiver d => cases d <;> simp [standing, DynamicType.standing, Standing.lt_iff]
  | _ => simp [standing, Standing.lt_iff]

theorem standing_lt (k : Knowledge) : k.standing rank < Standing.mk 9 0 := by
  cases k with
  | object v d | receiver d => cases d <;> simp [standing, DynamicType.standing, Standing.lt_iff]
  | _ => simp [standing, Standing.lt_iff]

end Knowledge

namespace ValueState

/-- The bound of the state, if there is one, says more than the static type of a reference. -/
def Fits (p : Program) (static : Descriptor) : ValueState → Prop
  | concrete s => s.known.Fits p static
  | bottom | unknown => True

instance (p : Program) (static : Descriptor) (s : ValueState) : Decidable (s.Fits p static) :=
  match s with
  | concrete s => inferInstanceAs (Decidable (s.known.Fits p static))
  | bottom | unknown => isTrue trivial

variable {s a b c : ValueState} {j : Joiner}

theorem fits_ofKnowledge {k : Knowledge} (h : k.Fits p static) (flows : InFlows) : (ofKnowledge k flows).Fits p static := by
  unfold ofKnowledge
  split
  · trivial
  · exact h

theorem fits_join (hj : j.program.Joinable static) (h : a.join j b = .ok c) (ha : a.Fits j.program static)
    (hb : b.Fits j.program static) : c.Fits j.program static := by
  unfold join at h
  split at h
  · cases h
    exact ha
  · cases h
    trivial
  · cases h
    exact hb
  · cases h
    trivial
  · obtain ⟨k, hk, h⟩ := bind_eq_ok.1 h
    cases h
    split
    · trivial
    · exact fits_ofKnowledge (Knowledge.fits_join hj hk ha hb) _

theorem fits_widen (h : s.Fits p static) : (s.widen p static).Fits p static := by
  cases s with
  | concrete s => exact fits_ofKnowledge (Knowledge.fits_widen h) _
  | _ => exact h

theorem fits_toReceiver (h : s.Fits p static) : s.toReceiver.Fits p static := by
  unfold toReceiver
  split
  · dsimp only
    split
    · trivial
    · exact DynamicType.fits_withNullability h _
  · exact h

theorem fits_clearInFlow (h : s.Fits p static) : s.clearInFlow.Fits p static := by
  cases s with
  | concrete s =>
    unfold clearInFlow
    dsimp only
    split
    · trivial
    · exact h
  | _ => exact h

@[simp] theorem inFlow_ofKnowledge_nil (k : Knowledge) : (ofKnowledge k []).inFlow = [] := by
  unfold ofKnowledge
  split <;> rfl

@[simp] theorem inFlow_clearInFlow (s : ValueState) : s.clearInFlow.inFlow = [] := by
  cases s with
  | concrete s =>
    unfold clearInFlow
    dsimp only
    split <;> rfl
  | _ => rfl

theorem inFlow_widen (h : s.inFlow = []) : (s.widen p static).inFlow = [] := by
  cases s with
  | concrete s =>
    obtain ⟨k, flows⟩ := s
    obtain rfl : flows = [] := h
    exact inFlow_ofKnowledge_nil _
  | _ => rfl

theorem inFlow_toReceiver (h : s.inFlow = []) : s.toReceiver.inFlow = [] := by
  unfold toReceiver
  split
  · dsimp only
    split
    · rfl
    · exact h
  · exact h

/-- A join of states without sources is a join of what is known. -/
theorem join_concrete (k l : Knowledge) :
    (concrete ⟨k, []⟩).join j (concrete ⟨l, []⟩) = (do return ofKnowledge (← k.join j.program l) []) := by
  rw [join]
  cases k.join j.program l with
  | error e => rfl
  | ok known =>
    have hunion : InFlows.union [] [] = [] := rfl
    simp only [hunion, ok_bind, List.length_nil, gt_iff_lt, Nat.not_lt_zero, if_false]

theorem inFlow_join (h : a.join j b = .ok c) (ha : a.inFlow = []) (hb : b.inFlow = []) : c.inFlow = [] := by
  cases a with
  | bottom =>
    cases b <;> cases h <;> exact hb
  | unknown =>
    cases b <;> cases h <;> rfl
  | concrete s =>
    cases b with
    | bottom =>
      cases h
      exact ha
    | unknown =>
      cases h
      rfl
    | concrete t =>
      obtain ⟨k, flows⟩ := s
      obtain ⟨l, flows'⟩ := t
      obtain rfl : flows = [] := ha
      obtain rfl : flows' = [] := hb
      rw [join_concrete] at h
      obtain ⟨known, -, h⟩ := bind_eq_ok.1 h
      cases h
      exact inFlow_ofKnowledge_nil known

/-- How far a state is from the top. -/
def standing (rank : Descriptor → Nat) : ValueState → Standing
  | bottom => .mk 9 0
  | concrete s => s.known.standing rank
  | unknown => .mk 0 0

theorem standing_ofKnowledge_le (k : Knowledge) (flows : InFlows) : (ofKnowledge k flows).standing rank ≤ k.standing rank := by
  unfold ofKnowledge
  split
  · exact Standing.le_of_lt k.standing_pos
  · exact Standing.le_refl _

/-- **A join that changes a state takes it closer to the top.** -/
theorem standing_join_lt (hp : j.program.Rooted) (hrank : Program.Ranked j.program.classes rank) (h : a.join j b = .ok c)
    (ha : a.inFlow = []) (hb : b.inFlow = []) (hne : c ≠ a) : c.standing rank < a.standing rank := by
  cases a with
  | bottom =>
    cases b with
    | bottom =>
      cases h
      exact absurd rfl hne
    | unknown =>
      cases h
      simp [standing, Standing.lt_iff]
    | concrete t =>
      cases h
      exact t.known.standing_lt
  | unknown =>
    cases b <;> cases h <;> exact absurd rfl hne
  | concrete s =>
    cases b with
    | bottom =>
      cases h
      exact absurd rfl hne
    | unknown =>
      cases h
      exact s.known.standing_pos
    | concrete t =>
      obtain ⟨k, flows⟩ := s
      obtain ⟨l, flows'⟩ := t
      obtain rfl : flows = [] := ha
      obtain rfl : flows' = [] := hb
      rw [join_concrete] at h
      obtain ⟨known, hknown, h⟩ := bind_eq_ok.1 h
      cases h
      by_cases hsame : known = k
      · -- The same is known as before, so the state is given up on.
        subst hsame
        unfold ofKnowledge at hne ⊢
        split at hne
        · next hunknown =>
          rw [if_pos hunknown]
          exact known.standing_pos
        · exact absurd rfl hne
      · exact Standing.lt_of_le_of_lt (standing_ofKnowledge_le known []) (Knowledge.standing_join_lt hp hrank hknown hsame)

/-- **A static type that a state fits does not set it back.** -/
theorem standing_widen_le (h : s.Fits p static) : (s.widen p static).standing rank ≤ s.standing rank := by
  cases s with
  | concrete s => exact Standing.le_trans (standing_ofKnowledge_le _ _) (Knowledge.standing_widen_le h)
  | _ => exact Standing.le_refl _

end ValueState

end DexShrinker
