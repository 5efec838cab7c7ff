/-
  DexShrinker/Proofs/Flow/Bitwise.lean
  ====================================
  **Joins and bitwise ors of well-formed abstract values.**

  A well-formed value is canonical, and knows of no bit that it is both set and clear. Joins and
  bitwise ors keep this (`wellFormed_join`, `wellFormed_orInteger`), and joins are those of a
  semilattice (`join_semilattice`).

  An or changes the outline of a value in a simple way: it maps the listed integers, and it moves the
  bits of the constant from the clear to the set ones (`knownBits_orInteger`). The form may change:
  a list gets shorter, and bits that are all known become a single integer. What is known about bits
  is enough to tell that integer from any other form (`eq_single_of_knownBits`), which is where
  it matters that bits do not contradict each other. So an or is monotone, whatever the forms are.
-/
import DexShrinker.Proofs.Flow.Semilattice

namespace DexShrinker.AbstractValue

variable {a b c : AbstractValue}

/-! ### Bits that do not contradict each other -/

/-- No bit is known to be both set and clear. -/
def Consistent : AbstractValue → Prop
  | bits ones zeros => ones &&& zeros = 0
  | _ => True

/-- The form that joins give to values, with bits that some integer has. -/
structure WellFormed (a : AbstractValue) : Prop where
  canonical : a.Canonical
  consistent : a.Consistent

/-- Bits of an integer do not contradict each other. -/
theorem HasBits.disjoint {v ones zeros : Int64} (h : HasBits v ones zeros) : ones &&& zeros = 0 := by
  refine ext_bit fun i hi => ?_
  have hbit := hasBits_iff.1 h i hi
  rw [bit_and, bit_zero]
  grind

theorem disjoint_and {ones zeros : Int64} (h : ones &&& zeros = 0) (ones' zeros' : Int64) :
    (ones &&& ones') &&& (zeros &&& zeros') = 0 := by
  refine ext_bit fun i _ => ?_
  have hbit := congrArg (bit · i) h
  simp only [bit_and, bit_zero] at hbit ⊢
  grind

theorem disjoint_or {ones zeros : Int64} (h : ones &&& zeros = 0) (n : Int64) : (ones ||| n) &&& (zeros &&& ~~~n) = 0 := by
  refine ext_bit fun i hi => ?_
  have hbit := congrArg (bit · i) h
  simp only [bit_and, bit_or, bit_not n hi, bit_zero] at hbit ⊢
  grind

theorem consistent_ofBits {ones zeros : Int64} (h : ones &&& zeros = 0) : (ofBits ones zeros).Consistent := by
  unfold ofBits
  split
  · trivial
  · split
    · trivial
    · exact h

theorem consistent_ofIntegers (values : List Int64) : (ofIntegers values).Consistent := by
  match values with
  | [] => trivial
  | [v] => trivial
  | v :: w :: rest =>
    rw [ofIntegers_of_two_le (by simp)]
    split
    · trivial
    · exact consistent_ofBits (hasBits_commonBits List.mem_cons_self).disjoint

theorem WellFormed.disjoint (h : a.WellFormed) {ones zeros : Int64} (hbits : a.definiteBits? = some (ones, zeros)) :
    ones &&& zeros = 0 := by
  cases a with
  | single v =>
    cases hbits
    exact (hasBits_self _).disjoint
  | set values =>
    have hlisted : Listed values := h.canonical
    obtain ⟨v, hv⟩ := List.exists_mem_of_length_pos (Nat.lt_of_lt_of_le Nat.zero_lt_two hlisted.2.1)
    have hdisjoint := (hasBits_commonBits hv).disjoint
    rwa [Option.some.inj hbits] at hdisjoint
  | bits ones' zeros' =>
    cases hbits
    exact h.consistent
  | _ => cases hbits

/-! ### Joins -/

/-- **A join of well-formed values is well formed.** -/
theorem wellFormed_join (ha : a.WellFormed) (hb : b.WellFormed) : (a.join b).WellFormed := by
  refine ⟨canonical_join ha.canonical hb.canonical, ?_⟩
  rcases join_cases a b with heq | heq | ⟨-, heq⟩ | ⟨xs, ys, -, -, -, heq⟩ | ⟨ones, zeros, ones', zeros', hbits, heq⟩
  · rw [heq]
    exact ha.consistent
  · rw [heq]
    trivial
  · rw [heq]
    exact hb.consistent
  · rw [heq]
    exact consistent_ofIntegers _
  · rw [heq]
    exact consistent_ofBits (disjoint_and (ha.disjoint hbits) ones' zeros')

/-- **Well-formed values are a semilattice,** with nothing seen at the bottom and nothing known at the
    top, and a join admits what its sides admit. -/
theorem join_semilattice (ha : a.WellFormed) (hb : b.WellFormed) (hc : c.WellFormed) :
    (a.join b).WellFormed ∧ a.join b = b.join a ∧ (a.join b).join c = a.join (b.join c) ∧ a.join a = a ∧
      (bottom.join a = a ∧ a.join bottom = a) ∧ (unknown.join a = unknown ∧ a.join unknown = unknown) ∧
      ∀ v, a.admits v = true ∨ b.admits v = true → (a.join b).admits v = true :=
  ⟨wellFormed_join ha hb, join_comm ha.canonical hb.canonical, join_assoc ha.canonical hb.canonical hc.canonical,
    join_self a, ⟨rfl, join_bottom a⟩, ⟨unknown_join a, join_unknown a⟩, fun _ => admits_join⟩

/-- One integer more than the limit leaves known bits, which meet other known bits in any order. -/
theorem join_semilattice_overLimit :
    let a := set [0, 2, 4, 6, 8, 10, 12, 14]
    let b := single 16
    let c := bits 0 (-16)
    a.WellFormed ∧ b.WellFormed ∧ c.WellFormed ∧ a.join b = bits 0 (-31) ∧ (a.join b).WellFormed ∧
      (a.join b).join c = a.join (b.join c) ∧ (a.join b).admits 16 = true := by
  intro a b c
  have ha : a.WellFormed := ⟨(by decide +kernel : Listed _), trivial⟩
  have hb : b.WellFormed := ⟨trivial, trivial⟩
  have hc : c.WellFormed := ⟨⟨by decide, by decide⟩, (by decide : (0 : Int64) &&& -16 = 0)⟩
  obtain ⟨hjoin, -, hassoc, -, -, -, hadmits⟩ := join_semilattice ha hb hc
  exact ⟨ha, hb, hc, by decide +kernel, hjoin, hassoc, hadmits 16 (.inr (by decide))⟩

/-! ### The outline of an or -/

/-- What is known about bits after the bits of `n` have been set. -/
def withBits (n : Int64) (known : Int64 × Int64) : Int64 × Int64 := (known.1 ||| n, known.2 &&& ~~~n)

theorem knownBits_ofBits_of_disjoint {ones zeros : Int64} (h : ones &&& zeros = 0) :
    (ofBits ones zeros).knownBits = (ones, zeros) := by
  by_cases hall : ones ||| zeros = -1
  · have hzero : ones ||| zeros ≠ 0 := by
      rw [hall]
      decide
    have hzeros : ~~~ones = zeros := by
      refine ext_bit fun i hi => ?_
      have hnone := congrArg (bit · i) h
      have hbit := congrArg (bit · i) hall
      simp only [bit_and, bit_or, bit_zero, bit_neg_one hi] at hnone hbit
      rw [bit_not ones hi]
      grind
    rw [ofBits, if_neg hzero, if_pos hall]
    change (ones, ~~~ones) = (ones, zeros)
    rw [hzeros]
  · exact (knownBits_ofBits hall).1

theorem commonBits_map_or {values : List Int64} (hne : values ≠ []) (n : Int64) :
    commonBits (sortInts (values.map (· ||| n))) = withBits n (commonBits values) := by
  have hall (p : Int64 → Bool) : (sortInts (values.map (· ||| n))).all p = values.all fun v => p (v ||| n) := by
    rw [Bool.eq_iff_iff, List.all_eq_true, List.all_eq_true]
    constructor
    · intro h v hv
      exact h _ (mem_sortInts.2 (List.mem_map.2 ⟨v, hv, rfl⟩))
    · intro h w hw
      obtain ⟨v, hv, rfl⟩ := List.mem_map.1 (mem_sortInts.1 hw)
      exact h v hv
  obtain ⟨w, hw⟩ := List.exists_mem_of_ne_nil _ hne
  refine Prod.ext (ext_bit fun i hi => ?_) (ext_bit fun i hi => ?_)
  · rw [withBits, bit_or, (bit_commonBits _ hi).1, (bit_commonBits _ hi).1, hall]
    cases hn : bit n i <;> simp [hn]
  · -- If the bit is set in `n`, it is set in some integer, since there is one.
    rw [withBits, bit_and, bit_not n hi, (bit_commonBits _ hi).2, (bit_commonBits _ hi).2, hall]
    cases hn : bit n i
    · simp [hn]
    · simpa [hn] using ⟨w, hw⟩

theorem orInteger_of_integers {xs : List Int64} (hxs : a.integers? = some xs) (n : Int64) :
    a.orInteger n = .ok (ofIntegers (sortInts (xs.map (· ||| n)))) := by
  cases a with
  | single v =>
    cases hxs
    rfl
  | set values =>
    cases hxs
    rfl
  | _ => cases hxs

theorem orInteger_of_bits (ha : a.Numeric) (hnone : a.integers? = none) (n : Int64) :
    a.orInteger n = .ok (ofBits (withBits n a.knownBits).1 (withBits n a.knownBits).2) := by
  rcases ha with rfl | ha
  · simp [orInteger, withBits, knownBits, definiteBits?]
  · cases a with
    | bits ones zeros => rfl
    | single v => cases hnone
    | set values => cases hnone
    | _ => exact ha.elim

/-- A value of which all bits are known is a single integer. -/
theorem eq_single_of_knownBits (ha : a.Numeric) (hall : a.knownBits.1 ||| a.knownBits.2 = -1) : a = single a.knownBits.1 := by
  cases hxs : a.integers? with
  | none => exact absurd hall (ha.knownBits_ne_all hxs)
  | some xs =>
    rcases ha with rfl | ha
    · cases hxs
    · cases a with
      | single v => rfl
      | set values =>
        have hlisted : Listed values := ha
        have hnodup : values.Nodup := hlisted.1 ▸ nodup_sortInts values
        exact absurd hall (commonBits_ne_all hnodup hlisted.2.1)
      | _ => cases hxs

/-! ### Ors -/

theorem consistent_orInteger (ha : a.WellFormed) {n : Int64} (h : a.orInteger n = .ok b) : b.Consistent := by
  cases a with
  | bottom =>
    cases h
    trivial
  | null => cases h
  | string s => cases h
  | single v =>
    cases h
    trivial
  | set values =>
    cases h
    exact consistent_ofIntegers _
  | bits ones zeros =>
    cases h
    exact consistent_ofBits (disjoint_or ha.consistent n)
  | unknown =>
    cases h
    exact consistent_ofBits (by simp)

/-- **An or of a well-formed value is well formed.** -/
theorem wellFormed_orInteger (ha : a.WellFormed) {n : Int64} (h : a.orInteger n = .ok b) : b.WellFormed :=
  ⟨canonical_orInteger h, consistent_orInteger ha h⟩

/-- Only null and strings cannot be taken as integers. -/
theorem exists_orInteger (hsole : ¬ a.Sole) (n : Int64) : ∃ b, a.orInteger n = .ok b := by
  cases a with
  | null => exact absurd (.inl rfl) hsole
  | string s => exact absurd (.inr ⟨s, rfl⟩) hsole
  | _ => exact ⟨_, rfl⟩

theorem WellFormed.disjoint_knownBits (h : a.WellFormed) : a.knownBits.1 &&& a.knownBits.2 = 0 := by
  cases hbits : a.definiteBits? with
  | none => simp [knownBits, hbits]
  | some known =>
    rw [knownBits, hbits, Option.getD_some]
    exact h.disjoint hbits

theorem numeric_orInteger (ha : a.Numeric) {n : Int64} (h : a.orInteger n = .ok b) : b.Numeric := by
  cases hxs : a.integers? with
  | none =>
    rw [orInteger_of_bits ha hxs] at h
    cases h
    exact normal_ofBits _ _
  | some xs =>
    rw [orInteger_of_integers hxs] at h
    cases h
    obtain ⟨v, hv⟩ := List.exists_mem_of_ne_nil _ (ha.integers?_ne_nil hxs)
    have hmem : v ||| n ∈ sortInts (xs.map (· ||| n)) := mem_sortInts.2 (List.mem_map.2 ⟨v, hv, rfl⟩)
    exact normal_ofIntegers (sortInts_sortInts _) (List.ne_nil_of_mem hmem)

/-- The ors of listed integers are listed. -/
theorem integers_orInteger (ha : a.Numeric) {xs : List Int64} (hxs : a.integers? = some xs) {n : Int64}
    (h : a.orInteger n = .ok b) : b.integers? = some (sortInts (xs.map (· ||| n))) := by
  rw [orInteger_of_integers hxs] at h
  cases h
  obtain ⟨v, hv⟩ := List.exists_mem_of_ne_nil _ (ha.integers?_ne_nil hxs)
  have hmem : v ||| n ∈ sortInts (xs.map (· ||| n)) := mem_sortInts.2 (List.mem_map.2 ⟨v, hv, rfl⟩)
  rw [(outline_ofIntegers (sortInts_sortInts _) (List.ne_nil_of_mem hmem)).2]
  apply if_pos
  have hshort : (sortInts (xs.map (· ||| n))).length ≤ (xs.map (· ||| n)).length :=
    ((nodup_sortInts _).subperm fun w hw => mem_sortInts.1 hw).length_le
  have hlimit : xs.length ≤ maxSetSize := by
    by_contra hlong
    have hnone := ha.limited_integers hxs
    rw [limited, if_neg hlong] at hnone
    cases hnone
  rw [List.length_map] at hshort
  exact Nat.le_trans hshort hlimit

/-- **An or sets the bits of the constant.** -/
theorem knownBits_orInteger (hwell : a.WellFormed) (ha : a.Numeric) {n : Int64} (h : a.orInteger n = .ok b) :
    b.knownBits = withBits n a.knownBits := by
  cases hxs : a.integers? with
  | none =>
    rw [orInteger_of_bits ha hxs] at h
    cases h
    exact knownBits_ofBits_of_disjoint (disjoint_or hwell.disjoint_knownBits n)
  | some xs =>
    rw [knownBits_of_integers (integers_orInteger ha hxs h), knownBits_of_integers hxs]
    exact commonBits_map_or (ha.integers?_ne_nil hxs) n

/-! ### Monotony -/

/-- What has taken in listed integers, and lists its own, lists them too. -/
theorem subset_of_join_eq (ha : a.Numeric) (hb : b.Numeric) (h : a.join b = b) {ys : List Int64} (hys : b.integers? = some ys) :
    ∃ xs, a.integers? = some xs ∧ xs ⊆ ys := by
  have hlisting := listing_join ha hb
  rw [h, hys] at hlisting
  cases hxs : a.integers? with
  | none =>
    rw [hxs] at hlisting
    cases hlisting
  | some xs =>
    refine ⟨xs, rfl, fun v hv => ?_⟩
    rw [hxs] at hlisting
    change some ys = limited (sortInts (xs ++ ys)) at hlisting
    unfold limited at hlisting
    split at hlisting
    · rw [Option.some.inj hlisting]
      exact mem_sortInts.2 (List.mem_append_left _ hv)
    · cases hlisting

theorem join_orInteger_of_integers (ha : a.Numeric) (hb : b.Numeric) {xs ys : List Int64} (hxs : a.integers? = some xs)
    (hys : b.integers? = some ys) (hsub : xs ⊆ ys) {n : Int64} {r s : AbstractValue} (hr : a.orInteger n = .ok r)
    (hs : b.orInteger n = .ok s) : r.join s = s := by
  have hr' := numeric_orInteger ha hr
  have hs' := numeric_orInteger hb hs
  have hlist := integers_orInteger hb hys hs
  obtain ⟨hbits, hints⟩ := outline_join_integers hr' hs' (integers_orInteger ha hxs hr) hlist
  have hsame : sortInts (sortInts (xs.map (· ||| n)) ++ sortInts (ys.map (· ||| n))) = sortInts (ys.map (· ||| n)) := by
    refine sortInts_congr fun v => ?_
    rw [List.mem_append, mem_sortInts, mem_sortInts, or_iff_right_iff_imp]
    exact fun hv => List.map_subset _ hsub hv
  rw [hsame] at hbits hints
  apply eq_of_outline (numeric_join hr' hs') hs'
  · rw [hints, hs'.limited_integers hlist, hlist]
  · rw [hbits, knownBits_of_integers hlist]

/-- A value whose integers are not listed takes in what has all of its bits. -/
theorem join_eq_of_knownBits (ha : a.Numeric) (hb : b.Numeric) (hbits : (a.join b).knownBits = b.knownBits)
    (hnone : b.integers? = none ∨ b.knownBits.1 ||| b.knownBits.2 = -1) : a.join b = b := by
  rcases hnone with hnone | hall
  · apply eq_of_outline (numeric_join ha hb) hb ?_ hbits
    rw [listing_join ha hb, hnone]
    cases a.integers? <;> rfl
  · have hjoin := eq_single_of_knownBits (numeric_join ha hb) (hbits ▸ hall)
    rw [hjoin, hbits]
    exact (eq_single_of_knownBits hb hall).symm

theorem withBits_and (n : Int64) (k l : Int64 × Int64) :
    withBits n (k.1 &&& l.1, k.2 &&& l.2) = ((withBits n k).1 &&& (withBits n l).1, (withBits n k).2 &&& (withBits n l).2) := by
  refine Prod.ext (ext_bit fun i _ => ?_) (ext_bit fun i hi => ?_)
  · simp only [withBits, bit_and, bit_or]
    grind
  · simp only [withBits, bit_and, bit_not n hi]
    grind

/-- The bits of an or are as many as those of a join, whatever they are taken of. -/
theorem join_orInteger_of_bits (hwella : a.WellFormed) (hwellb : b.WellFormed) (ha : a.Numeric) (hb : b.Numeric)
    (hnone : b.integers? = none) (h : a.join b = b) {n : Int64} {r s : AbstractValue} (hr : a.orInteger n = .ok r)
    (hs : b.orInteger n = .ok s) : r.join s = s := by
  have hr' := numeric_orInteger ha hr
  have hs' := numeric_orInteger hb hs
  have hbits := knownBits_join ha hb
  rw [h] at hbits
  apply join_eq_of_knownBits hr' hs'
  · rw [knownBits_join hr' hs', knownBits_orInteger hwella ha hr, knownBits_orInteger hwellb hb hs, ← withBits_and, ← hbits]
  · rw [or_iff_not_imp_right]
    intro hall
    rw [knownBits_orInteger hwellb hb hs] at hall
    rw [orInteger_of_bits hb hnone] at hs
    cases hs
    exact (knownBits_ofBits hall).2

/-- **An or is monotone,** whatever forms it goes through. -/
theorem join_orInteger (hwella : a.WellFormed) (hwellb : b.WellFormed) (hsolea : ¬ a.Sole) (hsoleb : ¬ b.Sole) (h : a.join b = b)
    {n : Int64} {r s : AbstractValue} (hr : a.orInteger n = .ok r) (hs : b.orInteger n = .ok s) : r.join s = s := by
  rcases hwella.canonical.cases with rfl | hsole | ha
  · cases hr
    rfl
  · exact absurd hsole hsolea
  · rcases hwellb.canonical.cases with rfl | hsole | hb
    · rw [join_bottom] at h
      exact absurd h ha.ne_bottom
    · exact absurd hsole hsoleb
    · cases hys : b.integers? with
      | none => exact join_orInteger_of_bits hwella hwellb ha hb hys h hr hs
      | some ys =>
        obtain ⟨xs, hxs, hsub⟩ := subset_of_join_eq ha hb h hys
        exact join_orInteger_of_integers ha hb hxs hys hsub hr hs

/-- **A bitwise or of an abstract value** ends well for anything but null and strings, admits the ors of
    what the value admits, is well formed, and is monotone. -/
theorem orInteger_sound_mono (ha : a.WellFormed) (hsole : ¬ a.Sole) (n : Int64) :
    ∃ r, a.orInteger n = .ok r ∧ (∀ v, a.admits v = true → r.admits (v ||| n) = true) ∧ r.WellFormed ∧
      ∀ b : AbstractValue, b.WellFormed → ¬ b.Sole → a.join b = b → ∃ s, b.orInteger n = .ok s ∧ r.join s = s := by
  obtain ⟨r, hr⟩ := exists_orInteger hsole n
  refine ⟨r, hr, fun v hv => admits_orInteger hr hv, wellFormed_orInteger ha hr, fun b hb hsoleb h => ?_⟩
  obtain ⟨s, hs⟩ := exists_orInteger hsoleb n
  exact ⟨s, hs, join_orInteger ha hb hsole hsoleb h hr hs⟩

/-- Two integers, and all that have no bit beyond the lowest three, become the same integer. -/
theorem orInteger_sound_mono_complete :
    let a := set [1, 2]
    let b := bits 0 (-8)
    a.WellFormed ∧ b.WellFormed ∧ a.join b = b ∧ ∃ r s, a.orInteger 7 = .ok r ∧ b.orInteger 7 = .ok s ∧ s = single 7 ∧
      r.WellFormed ∧ r.admits (1 ||| 7) = true ∧ r.join s = s := by
  intro a b
  have ha : a.WellFormed := ⟨(by decide +kernel : Listed _), trivial⟩
  have hb : b.WellFormed := ⟨⟨by decide, by decide⟩, (by decide : (0 : Int64) &&& -8 = 0)⟩
  have hjoin : a.join b = b := by decide +kernel
  obtain ⟨r, hr, hadmits, hwell, hmono⟩ := orInteger_sound_mono ha (by simp [Sole, a]) 7
  obtain ⟨s, hs, hle⟩ := hmono b hb (by simp [Sole, b]) hjoin
  have hsingle : b.orInteger 7 = .ok (single 7) := by decide +kernel
  exact ⟨ha, hb, hjoin, r, s, hr, hs, Except.ok.inj (hs.symm.trans hsingle), hwell, hadmits 1 (by decide), hle⟩

end DexShrinker.AbstractValue
