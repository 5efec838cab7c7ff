/-
  DexShrinker/Proofs/Flow/Semilattice.lean
  ========================================
  **Abstract values in canonical form are a semilattice.**

  Integers have three forms, and a join may change the form. What a value says of integers is
  its outline: the list of them, as long as it is short enough, and the bits that they have in
  common. A canonical value is known by its outline (`eq_of_outline`), and a join is a union of
  lists with a limit and an intersection of bits (`listing_join`, `knownBits_join`), whatever
  the forms are. So joins of canonical values can be taken in any order.
-/
import DexShrinker.Proofs.Flow.Absorption

namespace DexShrinker.AbstractValue

variable {a b c : AbstractValue}

/-! ### Canonical forms -/

/-- The forms that joins give to values. -/
def Canonical : AbstractValue → Prop
  | set values => Listed values
  | bits ones zeros => ones ||| zeros ≠ 0 ∧ ones ||| zeros ≠ -1
  | bottom | null | single _ | string _ | unknown => True

/-- Something is known of integers, or nothing at all. -/
def Numeric (a : AbstractValue) : Prop := a = unknown ∨ a.Normal

theorem Canonical.cases (h : a.Canonical) : a = bottom ∨ a.Sole ∨ a.Numeric := by
  cases a with
  | bottom => exact .inl rfl
  | null => exact .inr (.inl (.inl rfl))
  | string s => exact .inr (.inl (.inr ⟨s, rfl⟩))
  | unknown => exact .inr (.inr (.inl rfl))
  | single v => exact .inr (.inr (.inr trivial))
  | _ => exact .inr (.inr (.inr h))

theorem Numeric.canonical (h : a.Numeric) : a.Canonical := by
  rcases h with rfl | h
  · trivial
  · cases a <;> first | exact h | exact h.elim

theorem Sole.not_numeric (h : a.Sole) : ¬ a.Numeric := by
  rcases h with rfl | ⟨s, rfl⟩ <;> rintro (h | h) <;> cases h

theorem Numeric.ne_bottom (h : a.Numeric) : a ≠ bottom := by
  rintro rfl
  rcases h with h | h <;> cases h

theorem numeric_join (ha : a.Numeric) (hb : b.Numeric) : (a.join b).Numeric := by
  rcases ha with rfl | ha
  · exact .inl (unknown_join b)
  · rcases hb with rfl | hb
    · exact .inl (join_unknown a)
    · exact normal_join (.inl ha)

theorem canonical_join (ha : a.Canonical) (hb : b.Canonical) : (a.join b).Canonical := by
  rcases ha.cases with rfl | hsole | hnum
  · exact hb
  · rw [sole_join hsole]
    split
    · exact ha
    · trivial
  · rcases hb.cases with rfl | hsole' | hnum'
    · rwa [join_bottom]
    · rw [join_sole hsole']
      split
      · exact hb
      · trivial
    · exact (numeric_join hnum hnum').canonical

/-! ### Outlines -/

/-- The bits that are known. -/
def knownBits (a : AbstractValue) : Int64 × Int64 := a.definiteBits?.getD (0, 0)

theorem bit_foldl_commonWith (values : List Int64) (acc : Int64 × Int64) {i : Nat} (hi : i < 64) :
    bit (values.foldl commonWith acc).1 i = (bit acc.1 i && values.all (bit · i)) ∧
      bit (values.foldl commonWith acc).2 i = (bit acc.2 i && values.all (!bit · i)) := by
  induction values generalizing acc with
  | nil => simp
  | cons v values ih =>
    obtain ⟨hones, hzeros⟩ := ih (commonWith acc v)
    rw [List.foldl_cons, hones, hzeros]
    simp [commonWith, bit_not v hi, Bool.and_assoc]

theorem bit_commonBits (values : List Int64) {i : Nat} (hi : i < 64) :
    bit (commonBits values).1 i = values.all (bit · i) ∧ bit (commonBits values).2 i = values.all (!bit · i) := by
  have h := bit_foldl_commonWith values (-1, -1) hi
  simpa [commonBits_eq, bit_neg_one hi] using h

theorem commonBits_sortInts_append (xs ys : List Int64) :
    commonBits (sortInts (xs ++ ys)) = ((commonBits xs).1 &&& (commonBits ys).1, (commonBits xs).2 &&& (commonBits ys).2) := by
  have hall (p : Int64 → Bool) : (sortInts (xs ++ ys)).all p = (xs.all p && ys.all p) := by
    rw [Bool.eq_iff_iff, Bool.and_eq_true, List.all_eq_true, List.all_eq_true, List.all_eq_true]
    constructor
    · intro h
      exact ⟨fun v hv => h v (mem_sortInts.2 (List.mem_append_left _ hv)),
        fun v hv => h v (mem_sortInts.2 (List.mem_append_right _ hv))⟩
    · intro h v hv
      rcases List.mem_append.1 (mem_sortInts.1 hv) with hv | hv
      · exact h.1 v hv
      · exact h.2 v hv
  refine Prod.ext (ext_bit fun i hi => ?_) (ext_bit fun i hi => ?_)
  · rw [bit_and, (bit_commonBits _ hi).1, (bit_commonBits _ hi).1, (bit_commonBits _ hi).1, hall]
  · rw [bit_and, (bit_commonBits _ hi).2, (bit_commonBits _ hi).2, (bit_commonBits _ hi).2, hall]

theorem commonBits_singleton (v : Int64) : commonBits [v] = (v, ~~~v) := by
  simp [commonBits]

/-- Listed integers show their bits. -/
theorem knownBits_of_integers {xs : List Int64} (h : a.integers? = some xs) : a.knownBits = commonBits xs := by
  cases a with
  | single v =>
    cases h
    exact (commonBits_singleton v).symm
  | set values =>
    cases h
    rfl
  | _ => cases h

theorem knownBits_ofBits {ones zeros : Int64} (h : ones ||| zeros ≠ -1) :
    (ofBits ones zeros).knownBits = (ones, zeros) ∧ (ofBits ones zeros).integers? = none := by
  rw [ofBits, if_neg h]
  split
  · next hzero =>
    obtain ⟨rfl, rfl⟩ : ones = 0 ∧ zeros = 0 := by
      have hbit (i : Nat) : bit ones i = false ∧ bit zeros i = false := by
        simpa using congrArg (bit · i) hzero
      exact ⟨ext_bit fun i _ => by rw [(hbit i).1, bit_zero], ext_bit fun i _ => by rw [(hbit i).2, bit_zero]⟩
    exact ⟨rfl, rfl⟩
  · exact ⟨rfl, rfl⟩

/-- Two different integers do not agree in all bits. -/
theorem commonBits_ne_all {values : List Int64} (hnodup : values.Nodup) (h : 2 ≤ values.length) :
    (commonBits values).1 ||| (commonBits values).2 ≠ -1 := by
  obtain ⟨v, hv, w, hw, hne⟩ := exists_ne_of_two_le hnodup h
  intro hall
  apply hne
  refine ext_bit fun i hi => ?_
  have hbit := congrArg (bit · i) hall
  have hv := hasBits_iff.1 (hasBits_commonBits hv) i hi
  have hw := hasBits_iff.1 (hasBits_commonBits hw) i hi
  simp only [bit_or, bit_neg_one hi] at hbit
  grind

/-- The list of integers within the limit. -/
def limited (values : List Int64) : Option (List Int64) := if values.length ≤ maxSetSize then some values else none

theorem outline_ofIntegers {values : List Int64} (hsorted : sortInts values = values) (hne : values ≠ []) :
    (ofIntegers values).knownBits = commonBits values ∧ (ofIntegers values).integers? = limited values := by
  match values, hne with
  | [v], _ => exact ⟨(commonBits_singleton v).symm, rfl⟩
  | v :: w :: rest, _ =>
    have htwo : 2 ≤ (v :: w :: rest).length := by simp
    rw [ofIntegers_of_two_le htwo, limited]
    split
    · exact ⟨rfl, rfl⟩
    · exact knownBits_ofBits (commonBits_ne_all (hsorted ▸ nodup_sortInts _) htwo)

theorem Numeric.integers?_ne_nil (h : a.Numeric) {xs : List Int64} (hxs : a.integers? = some xs) : xs ≠ [] := by
  rintro rfl
  rcases h with rfl | h
  · cases hxs
  · cases a with
    | set values =>
      cases hxs
      exact absurd h.2.1 (by decide)
    | _ => cases hxs

theorem Numeric.sortInts_integers (h : a.Numeric) {xs : List Int64} (hxs : a.integers? = some xs) : sortInts xs = xs := by
  rcases h with rfl | h
  · cases hxs
  · cases a with
    | single v =>
      cases hxs
      rfl
    | set values =>
      cases hxs
      exact h.1
    | _ => cases hxs

theorem Numeric.limited_integers (h : a.Numeric) {xs : List Int64} (hxs : a.integers? = some xs) : limited xs = some xs := by
  rcases h with rfl | h
  · cases hxs
  · cases a with
    | single v =>
      cases hxs
      rfl
    | set values =>
      cases hxs
      exact if_pos h.2.2
    | _ => cases hxs

/-- What is not listed is not known completely. -/
theorem Numeric.knownBits_ne_all (h : a.Numeric) (hnone : a.integers? = none) : a.knownBits.1 ||| a.knownBits.2 ≠ -1 := by
  rcases h with rfl | h
  · decide
  · cases a with
    | bits ones zeros => exact h.2
    | single v => cases hnone
    | set values => cases hnone
    | _ => exact h.elim

/-- **A value is known by its outline.** -/
theorem eq_of_outline (ha : a.Numeric) (hb : b.Numeric) (hints : a.integers? = b.integers?) (hbits : a.knownBits = b.knownBits) :
    a = b := by
  rcases ha with rfl | ha
  · rcases hb with rfl | hb
    · rfl
    · cases b with
      | bits ones zeros =>
        obtain ⟨rfl, rfl⟩ := Prod.mk.inj hbits
        exact absurd rfl hb.1
      | single v => cases hints
      | set values => cases hints
      | _ => exact hb.elim
  · rcases hb with rfl | hb
    · cases a with
      | bits ones zeros =>
        obtain ⟨rfl, rfl⟩ := Prod.mk.inj hbits
        exact absurd rfl ha.1
      | single v => cases hints
      | set values => cases hints
      | _ => exact ha.elim
    · cases a with
      | single v =>
        cases b with
        | single w =>
          cases hints
          rfl
        | set values =>
          cases hints
          exact absurd hb.2.1 (by simp)
        | bits ones zeros => cases hints
        | _ => exact hb.elim
      | set values =>
        cases b with
        | single w =>
          cases hints
          exact absurd ha.2.1 (by simp)
        | set values' =>
          cases hints
          rfl
        | bits ones zeros => cases hints
        | _ => exact hb.elim
      | bits ones zeros =>
        cases b with
        | bits ones' zeros' =>
          obtain ⟨rfl, rfl⟩ := Prod.mk.inj hbits
          rfl
        | single w => cases hints
        | set values => cases hints
        | _ => exact hb.elim
      | _ => exact ha.elim

/-- The integers of both sides, within the limit. -/
def listing (xs ys : Option (List Int64)) : Option (List Int64) :=
  xs.bind fun xs => ys.bind fun ys => limited (sortInts (xs ++ ys))

theorem and_or_and_ne_all {o z : Int64} (o' z' : Int64) (h : o ||| z ≠ -1) : o &&& o' ||| z &&& z' ≠ -1 := by
  intro hall
  apply h
  refine ext_bit fun i hi => ?_
  have hbit := congrArg (bit · i) hall
  simp only [bit_or, bit_and, bit_neg_one hi] at hbit ⊢
  grind

/-- The outline of a join of two values of which at least one is not listed. -/
theorem outline_join_bits (ha : a.Numeric) (hb : b.Numeric) (hnone : a.integers? = none ∨ b.integers? = none) :
    (a.join b).knownBits = (a.knownBits.1 &&& b.knownBits.1, a.knownBits.2 &&& b.knownBits.2) ∧
      (a.join b).integers? = none := by
  have hbits {c : AbstractValue} (hc : c.Normal) : c.definiteBits? = some c.knownBits := by
    cases c <;> first | rfl | exact hc.elim
  rcases ha with rfl | ha
  · rw [unknown_join]
    exact ⟨by simp [knownBits, definiteBits?], rfl⟩
  · rcases hb with rfl | hb
    · rw [join_unknown]
      exact ⟨by simp [knownBits, definiteBits?], rfl⟩
    · by_cases heq : a = b
      · subst heq
        rw [join_self]
        exact ⟨by simp, hnone.elim id id⟩
      · have hjoin : a.join b = ofBits (a.knownBits.1 &&& b.knownBits.1) (a.knownBits.2 &&& b.knownBits.2) := by
          unfold join
          split
          · exact ha.elim
          · exact hb.elim
          · exact ha.elim
          · exact hb.elim
          · rw [if_neg heq]
            split
            · next hxs hys =>
              rcases hnone with hnone | hnone
              · cases hnone.symm.trans hxs
              · cases hnone.symm.trans hys
            · rw [hbits ha, hbits hb]
        rw [hjoin]
        apply knownBits_ofBits
        rcases hnone with hnone | hnone
        · exact and_or_and_ne_all _ _ (Numeric.knownBits_ne_all (.inr ha) hnone)
        · have hne := and_or_and_ne_all a.knownBits.1 a.knownBits.2 (Numeric.knownBits_ne_all (.inr hb) hnone)
          rwa [Int64.and_comm b.knownBits.1, Int64.and_comm b.knownBits.2] at hne

/-- The outline of a join of two values that are listed. -/
theorem outline_join_integers (ha : a.Numeric) (hb : b.Numeric) {xs ys : List Int64} (hxs : a.integers? = some xs)
    (hys : b.integers? = some ys) :
    (a.join b).knownBits = commonBits (sortInts (xs ++ ys)) ∧ (a.join b).integers? = limited (sortInts (xs ++ ys)) := by
  by_cases heq : a = b
  · subst heq
    cases hxs.symm.trans hys
    have hsame : sortInts (xs ++ xs) = xs := (sortInts_congr (by simp)).trans (ha.sortInts_integers hxs)
    rw [join_self, hsame, ha.limited_integers hxs, knownBits_of_integers hxs]
    exact ⟨rfl, hxs⟩
  · have hjoin : a.join b = ofIntegers (sortInts (xs ++ ys)) := by
      unfold join
      split
      · cases hxs
      · cases hys
      · cases hxs
      · cases hys
      · rw [if_neg heq, hxs, hys]
    rw [hjoin]
    apply outline_ofIntegers (sortInts_sortInts _)
    intro hnil
    obtain ⟨v, hv⟩ := List.exists_mem_of_ne_nil _ (ha.integers?_ne_nil hxs)
    have hmem : v ∈ sortInts (xs ++ ys) := mem_sortInts.2 (List.mem_append_left _ hv)
    rw [hnil] at hmem
    cases hmem

/-- A join has the bits that both sides have. -/
theorem knownBits_join (ha : a.Numeric) (hb : b.Numeric) :
    (a.join b).knownBits = (a.knownBits.1 &&& b.knownBits.1, a.knownBits.2 &&& b.knownBits.2) := by
  cases hxs : a.integers? with
  | none => exact (outline_join_bits ha hb (.inl hxs)).1
  | some xs =>
    cases hys : b.integers? with
    | none => exact (outline_join_bits ha hb (.inr hys)).1
    | some ys =>
      rw [(outline_join_integers ha hb hxs hys).1, knownBits_of_integers hxs, knownBits_of_integers hys, commonBits_sortInts_append]

/-- A join lists the integers of both sides, within the limit. -/
theorem listing_join (ha : a.Numeric) (hb : b.Numeric) : (a.join b).integers? = listing a.integers? b.integers? := by
  cases hxs : a.integers? with
  | none => exact (outline_join_bits ha hb (.inl hxs)).2
  | some xs =>
    cases hys : b.integers? with
    | none => exact (outline_join_bits ha hb (.inr hys)).2
    | some ys => exact (outline_join_integers ha hb hxs hys).2

theorem listing_comm (xs ys : Option (List Int64)) : listing xs ys = listing ys xs := by
  cases xs with
  | none => cases ys <;> rfl
  | some xs =>
    cases ys with
    | none => rfl
    | some ys =>
      have hsame : sortInts (xs ++ ys) = sortInts (ys ++ xs) := sortInts_congr (by simp [or_comm])
      exact congrArg limited hsame

theorem length_sortInts_le {xs ys : List Int64} (h : xs ⊆ ys) : (sortInts xs).length ≤ (sortInts ys).length := by
  refine ((nodup_sortInts xs).subperm fun v hv => ?_).length_le
  exact mem_sortInts.2 (h (mem_sortInts.1 hv))

/-- Lists that become too long on the way are too long in the end. -/
theorem listing_assoc (xs ys zs : Option (List Int64)) : listing (listing xs ys) zs = listing xs (listing ys zs) := by
  cases xs with
  | none => rfl
  | some xs =>
    cases ys with
    | none => cases zs <;> rfl
    | some ys =>
      cases zs with
      | none =>
        simp only [listing, Option.bind_some, Option.bind_none]
        cases limited (sortInts (xs ++ ys)) <;> rfl
      | some zs =>
        have hleft : listing (limited (sortInts (xs ++ ys))) (some zs) = limited (sortInts (xs ++ (ys ++ zs))) := by
          have hsame : sortInts (sortInts (xs ++ ys) ++ zs) = sortInts (xs ++ (ys ++ zs)) := sortInts_congr (by simp [or_assoc])
          by_cases hle : (sortInts (xs ++ ys)).length ≤ maxSetSize
          · simp [listing, limited, if_pos hle, hsame]
          · have hlt : (sortInts (xs ++ ys)).length ≤ (sortInts (xs ++ (ys ++ zs))).length :=
              length_sortInts_le (by simp [← List.append_assoc])
            simp [listing, limited, if_neg hle]
            omega
        have hright : listing (some xs) (limited (sortInts (ys ++ zs))) = limited (sortInts (xs ++ (ys ++ zs))) := by
          have hsame : sortInts (xs ++ sortInts (ys ++ zs)) = sortInts (xs ++ (ys ++ zs)) := sortInts_congr (by simp)
          by_cases hle : (sortInts (ys ++ zs)).length ≤ maxSetSize
          · simp [listing, limited, if_pos hle, hsame]
          · have hlt : (sortInts (ys ++ zs)).length ≤ (sortInts (xs ++ (ys ++ zs))).length := length_sortInts_le (by simp)
            simp [listing, limited, if_neg hle]
            omega
        exact hleft.trans hright.symm

/-! ### Joins in any order -/

theorem join_comm (ha : a.Canonical) (hb : b.Canonical) : a.join b = b.join a := by
  rcases ha.cases with rfl | hsole | hnum
  · exact (join_bottom b).symm
  · rw [sole_join hsole, join_sole hsole]
  · rcases hb.cases with rfl | hsole | hnum'
    · exact join_bottom a
    · rw [sole_join hsole, join_sole hsole]
    · apply eq_of_outline (numeric_join hnum hnum') (numeric_join hnum' hnum)
      · rw [listing_join hnum hnum', listing_join hnum' hnum, listing_comm]
      · rw [knownBits_join hnum hnum', knownBits_join hnum' hnum, Int64.and_comm a.knownBits.1, Int64.and_comm a.knownBits.2]

/-- What has no bits is not the join of anything else. -/
theorem eq_of_join_eq_sole (hc : c.Sole) (ha : a.Canonical) (hb : b.Canonical) (hne : a ≠ bottom) (hne' : b ≠ bottom)
    (h : a.join b = c) : a = c ∧ b = c := by
  rcases ha.cases with rfl | hsole | hnum
  · exact absurd rfl hne
  · rw [sole_join hsole] at h
    split at h
    · next heq =>
      subst h
      exact ⟨rfl, heq.resolve_left hne'⟩
    · rcases hc with rfl | ⟨s, rfl⟩ <;> cases h
  · rcases hb.cases with rfl | hsole | hnum'
    · exact absurd rfl hne'
    · rw [join_sole hsole] at h
      split at h
      · next heq =>
        subst h
        exact ⟨heq.resolve_left hne, rfl⟩
      · rcases hc with rfl | ⟨s, rfl⟩ <;> cases h
    · exact absurd (h ▸ numeric_join hnum hnum') hc.not_numeric

theorem join_ne_bottom (ha : a.Canonical) (hb : b.Canonical) (hne : a ≠ bottom) (hne' : b ≠ bottom) : a.join b ≠ bottom := by
  rcases ha.cases with rfl | hsole | hnum
  · exact absurd rfl hne
  · rw [sole_join hsole]
    split
    · exact hne
    · simp
  · rcases hb.cases with rfl | hsole | hnum'
    · exact absurd rfl hne'
    · rw [join_sole hsole]
      split
      · exact hne'
      · simp
    · exact (numeric_join hnum hnum').ne_bottom

theorem join_assoc_sole (hc : c.Sole) (ha : a.Canonical) (hb : b.Canonical) : (a.join b).join c = a.join (b.join c) := by
  by_cases hne : a = bottom
  · subst hne
    rfl
  by_cases hne' : b = bottom
  · subst hne'
    rw [join_bottom]
    rfl
  rw [join_sole hc (a.join b), join_sole hc b]
  simp only [join_ne_bottom ha hb hne hne', hne', false_or]
  by_cases heq : b = c
  · subst heq
    rw [if_pos rfl, join_sole hc a]
    by_cases hab : a = b
    · simp [hab]
    · simp only [hne, hab, or_self, if_false]
      exact ite_eq_right_iff.2 Eq.symm
  · rw [if_neg heq, join_unknown, if_neg]
    intro h
    exact heq (eq_of_join_eq_sole hc ha hb hne hne' h).2

theorem join_assoc (ha : a.Canonical) (hb : b.Canonical) (hc : c.Canonical) : (a.join b).join c = a.join (b.join c) := by
  have hcomm := join_comm ha hb
  rcases hc.cases with rfl | hsole | hc'
  · rw [join_bottom, join_bottom]
  · exact join_assoc_sole hsole ha hb
  · rcases ha.cases with rfl | hsole | ha'
    · rfl
    · -- Seen from the other end, the value without bits comes last.
      rw [join_comm (canonical_join ha hb) hc, join_comm ha hb, ← join_assoc_sole hsole hc hb,
        join_comm ha (canonical_join hb hc), join_comm hb hc]
    · rcases hb.cases with rfl | hsole | hb'
      · rw [join_bottom]
        rfl
      · rw [join_comm (canonical_join ha hb) hc, ← join_assoc_sole hsole hc ha, join_comm hc ha, join_assoc_sole hsole ha hc,
          join_comm hc hb]
      · have hab := numeric_join ha' hb'
        have hbc := numeric_join hb' hc'
        apply eq_of_outline (numeric_join hab hc') (numeric_join ha' hbc)
        · rw [listing_join hab hc', listing_join ha' hb', listing_join ha' hbc, listing_join hb' hc', listing_assoc]
        · rw [knownBits_join hab hc', knownBits_join ha' hb', knownBits_join ha' hbc, knownBits_join hb' hc']
          simp only [Int64.and_assoc]

theorem join_right_comm (ha : a.Canonical) (hb : b.Canonical) (hc : c.Canonical) : (a.join b).join c = (a.join c).join b := by
  rw [join_assoc ha hb hc, join_comm hb hc, join_assoc ha hc hb]

/-- What a value has taken in, its joins have taken in. -/
theorem join_join_of_join_eq (ha : a.Canonical) (hb : b.Canonical) (hc : c.Canonical) (h : a.join c = a) :
    (a.join b).join c = a.join b := by
  rw [join_right_comm ha hb hc, h]

/-- A bitwise or of a canonical value is one. -/
theorem canonical_orInteger {n : Int64} (h : a.orInteger n = .ok b) : b.Canonical := by
  have hbits (ones zeros : Int64) : (ofBits ones zeros).Canonical := Numeric.canonical (normal_ofBits ones zeros)
  cases a with
  | bottom =>
    cases h
    trivial
  | null => cases h
  | string s => cases h
  | single v =>
    cases h
    trivial
  | set values =>
    cases h
    by_cases hnil : sortInts (values.map (· ||| n)) = []
    · rw [hnil]
      trivial
    · exact Numeric.canonical (normal_ofIntegers (sortInts_sortInts _) hnil)
  | bits ones zeros =>
    cases h
    exact hbits _ _
  | unknown =>
    cases h
    exact hbits _ _

end DexShrinker.AbstractValue
