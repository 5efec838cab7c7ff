/-
  DexShrinker/Proofs/Flow/Absorption.lean
  =======================================
  **What a state has taken in it keeps.**

  A state has taken in another one if a join with it changes nothing. Joins are no least upper
  bounds of an order: known bits and bounds on classes depend on how they were reached. But
  for what a call passes, which is simple (`MethodState.Simple`), a join has taken in what either
  side has (`MethodState.lasting_absorbs`), and so does every join after it. Where calls are kept
  apart by their receivers, this holds case by case (`MethodState.Lasting.atCase`).
-/
import DexShrinker.Proofs.Flow.Ascent

namespace DexShrinker

/-! ### Integers -/

namespace AbstractValue

/-- The form that joins give to integers. -/
def Normal : AbstractValue → Prop
  | single _ => True
  | set values => Listed values
  | bits ones zeros => ones ||| zeros ≠ 0 ∧ ones ||| zeros ≠ -1
  | bottom | null | string _ | unknown => False

theorem normal_ofBits (ones zeros : Int64) : ofBits ones zeros = unknown ∨ (ofBits ones zeros).Normal := by
  unfold ofBits
  split
  · exact .inl rfl
  · next hzero =>
    split
    · exact .inr trivial
    · next hall => exact .inr ⟨hzero, hall⟩

theorem normal_ofIntegers {values : List Int64} (hsorted : sortInts values = values) (hne : values ≠ []) :
    ofIntegers values = unknown ∨ (ofIntegers values).Normal := by
  by_cases htwo : 2 ≤ values.length
  · rw [ofIntegers_of_two_le htwo]
    split
    · next hmax => exact .inr ⟨hsorted, htwo, hmax⟩
    · exact normal_ofBits _ _
  · obtain ⟨v, rfl⟩ : ∃ v, values = [v] := by
      apply List.length_eq_one_iff.1
      have := List.length_pos_iff.2 hne
      omega
    exact .inr trivial

theorem normal_join {a b : AbstractValue} (h : a.Normal ∨ b.Normal) : a.join b = unknown ∨ (a.join b).Normal := by
  have hlist (xs ys : List Int64) (hne : xs ++ ys ≠ []) :
      ofIntegers (sortInts (xs ++ ys)) = unknown ∨ (ofIntegers (sortInts (xs ++ ys))).Normal := by
    obtain ⟨v, hv⟩ := List.exists_mem_of_ne_nil _ hne
    exact normal_ofIntegers (sortInts_sortInts _) (List.ne_nil_of_mem (mem_sortInts.2 hv))
  have hintegers {c : AbstractValue} (hc : c.Normal) {xs : List Int64} (hxs : c.integers? = some xs) : xs ≠ [] := by
    cases c with
    | single v =>
      cases hxs
      exact List.cons_ne_nil _ _
    | set values =>
      cases hxs
      rintro rfl
      exact absurd hc.2.1 (by decide)
    | _ => cases hxs
  unfold join
  split
  · exact h.elim False.elim .inr
  · exact h.elim .inr False.elim
  · exact .inl rfl
  · exact .inl rfl
  · split
    · next heq =>
      subst heq
      exact .inr (h.elim id id)
    · split
      · next xs ys hxs hys =>
        apply hlist
        rw [Ne, List.append_eq_nil_iff, not_and_or]
        exact h.imp (hintegers · hxs) (hintegers · hys)
      · split
        · exact normal_ofBits _ _
        · exact .inl rfl

theorem join_bottom (a : AbstractValue) : a.join bottom = a := by
  cases a <;> rfl

theorem join_unknown (a : AbstractValue) : a.join unknown = unknown := by
  cases a <;> rfl

theorem unknown_join (a : AbstractValue) : unknown.join a = unknown := by
  cases a <;> rfl

@[simp] theorem join_self (a : AbstractValue) : a.join a = a := by
  cases a <;> simp [join]

/-- A normal value that admits an integer has taken it in. -/
theorem join_single {a : AbstractValue} {n : Int64} (h : a.Normal) (hn : a.admits n = true) : a.join (single n) = a := by
  cases a with
  | single v => rw [admits_single.1 hn, join_self]
  | set values =>
    obtain ⟨hsorted, htwo, hmax⟩ := h
    have hlist : sortInts (values ++ [n]) = values := by
      refine (sortInts_congr fun v => ?_).trans hsorted
      rw [List.mem_append, List.mem_singleton]
      refine ⟨fun hv => ?_, .inl⟩
      rcases hv with hv | rfl
      · exact hv
      · exact admits_set.1 hn
    change ofIntegers (sortInts (values ++ [n])) = set values
    rw [hlist, ofIntegers_of_two_le htwo, if_pos hmax]
  | bits ones zeros =>
    obtain ⟨hones, hzeros⟩ := admits_bits.1 hn
    have hcleared : zeros &&& ~~~n = zeros := by
      refine ext_bit fun i hi => ?_
      have hbit := congrArg (bit · i) hzeros
      simp only [bit_and, bit_zero] at hbit
      rw [bit_and, bit_not n hi]
      grind
    change ofBits (ones &&& n) (zeros &&& ~~~n) = bits ones zeros
    rw [Int64.and_comm ones, hones, hcleared, ofBits, if_neg h.1, if_neg h.2]
  | _ => exact h.elim

theorem normal_of_join_single {a : AbstractValue} {n : Int64} (h : a.join (single n) = a) :
    a = unknown ∨ a.Normal ∧ a.admits n = true := by
  have hadmits : a.admits n = true := by
    rw [← h]
    exact admits_join (.inr (admits_single.2 rfl))
  have hnormal := normal_join (a := a) (b := single n) (.inr trivial)
  rw [h] at hnormal
  exact hnormal.imp_right fun hnormal => ⟨hnormal, hadmits⟩

/-- The values that are known of an operand on the spot. -/
def Simple : AbstractValue → Prop
  | set _ | bits _ _ => False
  | bottom | null | single _ | string _ | unknown => True

/-- Values of which no bits are known. -/
def Sole (a : AbstractValue) : Prop := a = null ∨ ∃ s, a = string s

theorem join_sole {b : AbstractValue} (hb : b.Sole) (a : AbstractValue) :
    a.join b = if a = bottom ∨ a = b then b else unknown := by
  rcases hb with rfl | ⟨s, rfl⟩
  · cases a <;> simp [join, integers?, definiteBits?]
  · cases a with
    | string t => by_cases heq : t = s <;> simp [join, integers?, definiteBits?, heq]
    | _ => simp [join, integers?, definiteBits?]

theorem sole_join {a : AbstractValue} (ha : a.Sole) (b : AbstractValue) :
    a.join b = if b = bottom ∨ b = a then a else unknown := by
  rcases ha with rfl | ⟨s, rfl⟩
  · cases b <;> simp [join, integers?, definiteBits?]
  · cases b with
    | string t => by_cases heq : t = s <;> simp [join, integers?, definiteBits?, heq, Ne.symm]
    | _ => simp [join, integers?, definiteBits?]

theorem join_sole_eq_iff {a b : AbstractValue} (hb : b.Sole) : a.join b = a ↔ a = b ∨ a = unknown := by
  rw [join_sole hb]
  rcases hb with rfl | ⟨s, rfl⟩
  · cases a <;> simp
  · cases a with
    | string t => by_cases heq : t = s <;> simp [heq]
    | _ => simp

theorem absorbs_join_sole {a b c : AbstractValue} (hc : c.Sole) (h : a.join c = a ∨ b.join c = b) :
    (a.join b).join c = a.join b := by
  rw [join_sole_eq_iff hc, join_sole_eq_iff hc] at h
  rw [join_sole_eq_iff hc]
  rcases h with (rfl | rfl) | (rfl | rfl)
  · rw [sole_join hc]
    split
    · exact .inl rfl
    · exact .inr rfl
  · exact .inr (unknown_join b)
  · rw [join_sole hc]
    split
    · exact .inl rfl
    · exact .inr rfl
  · exact .inr (join_unknown a)

/-- **A join has taken in what either side has.** -/
theorem absorbs_join {a b c : AbstractValue} (hc : c.Simple) (h : a.join c = a ∨ b.join c = b) :
    (a.join b).join c = a.join b := by
  have hunknown (hany : a = unknown ∨ b = unknown) : (a.join b).join c = a.join b := by
    rcases hany with rfl | rfl
    · rw [unknown_join, unknown_join]
    · rw [join_unknown, unknown_join]
  cases c with
  | bottom => exact join_bottom _
  | unknown =>
    rw [join_unknown, join_unknown] at h
    exact hunknown (h.imp Eq.symm Eq.symm)
  | single n =>
    have hnormal : (a = unknown ∨ b = unknown) ∨ (a.Normal ∧ a.admits n = true) ∨ (b.Normal ∧ b.admits n = true) := by
      rcases h with h | h
      · exact (normal_of_join_single h).imp .inl .inl
      · exact (normal_of_join_single h).imp .inr .inr
    rcases hnormal with hany | hnormal
    · exact hunknown hany
    · rcases normal_join (hnormal.imp And.left And.left) with heq | hjoin
      · rw [heq, unknown_join]
      · exact join_single hjoin (admits_join (hnormal.imp And.right And.right))
  | null => exact absorbs_join_sole (.inl rfl) h
  | string s => exact absorbs_join_sole (.inr ⟨s, rfl⟩) h
  | _ => exact hc.elim

end AbstractValue

/-! ### Bounds -/

namespace Program

variable {p : Program} {a b c : Descriptor}

/-- The type `b` is at the top or above `a`. -/
def Over (p : Program) (b a : Descriptor) : Prop := b = .object ∨ p.Below a b

theorem over_object (hp : p.Rooted) : p.Over b .object ↔ b = .object := by
  constructor
  · rintro (rfl | h)
    · rfl
    · rcases h.isReference with heq | ⟨-, href⟩
      · exact heq.symm
      · exact (h.antisymm hp (.top href)).symm
  · exact .inl

theorem Over.trans (hp : p.Rooted) (hab : p.Over b a) (hbc : p.Over c b) : p.Over c a := by
  rcases hab with rfl | hab
  · exact .inl ((over_object hp).1 hbc)
  · exact hbc.imp_right fun hbc => hab.trans hp hbc

theorem over_leastUpperBound (hp : p.Rooted) (a b : Descriptor) :
    p.Over (p.leastUpperBound a b) a ∧ p.Over (p.leastUpperBound a b) b := by
  rcases leastUpperBound_cases a b with ⟨h, heq⟩ | ⟨h, heq⟩ | ⟨x, y, hx, hy, rfl, rfl, -⟩ | ⟨h, h'⟩ | heq
  · rw [heq]
    exact ⟨.inr h, .inr (.refl b)⟩
  · rw [heq]
    exact ⟨.inr (.refl a), .inr h⟩
  · obtain ⟨hleft, hright⟩ := below_leastUpperBound hp.topped (Descriptor.isReference_toArray x) (Descriptor.isReference_toArray y)
    exact ⟨.inr hleft, .inr hright⟩
  · exact ⟨.inr (hp.topped.below_of_transGen h), .inr h'⟩
  · exact ⟨.inl heq, .inl heq⟩

theorem leastUpperBound_eq_left_iff (hp : p.Rooted) : p.leastUpperBound b a = b ↔ p.Over b a := by
  constructor
  · intro h
    have hover := (over_leastUpperBound hp b a).2
    rwa [h] at hover
  · rintro (rfl | h)
    · exact (over_object hp).1 (over_leastUpperBound hp .object a).1
    · rw [leastUpperBound]
      split
      · next hba => exact h.antisymm hp (isSubtype_iff.1 hba)
      · rw [if_pos (isSubtype_iff.2 h)]

end Program

theorem Nullability.absorbs_join {n m k : Nullability} (h : n.join k = n ∨ m.join k = m) :
    (n.join m).join k = n.join m := by
  revert h
  cases n <;> cases m <;> cases k <;> decide

namespace DynamicType

variable {p : Program} {d e a : DynamicType}

/-- The bound `d` says no more than `a`. -/
def Covers (p : Program) : DynamicType → DynamicType → Prop
  | unknown, _ => True
  | _, bottom => True
  | bounded t e n, bounded t' e' n' => p.Over t t' ∧ n.join n' = n ∧ (e = true → t' = t ∧ e' = true)
  | _, _ => False

theorem join_eq_left_iff (hp : p.Rooted) : d.join p a = d ↔ d.Covers p a := by
  cases d with
  | unknown => cases a <;> simp [join, Covers]
  | bottom => cases a <;> simp [join, Covers]
  | bounded t e n =>
    cases a with
    | bottom => simp [join, Covers]
    | unknown => simp [join, Covers]
    | bounded t' e' n' =>
      simp only [join, Covers]
      split
      · next heq =>
        subst heq
        cases e <;> cases e' <;> simp [Program.Over, Program.Below.refl]
      · next hne =>
        rw [below, bounded.injEq, Program.leastUpperBound_eq_left_iff hp]
        cases e <;> simp [Ne.symm hne]

/-- **A join has taken in what either side has.** -/
theorem absorbs_join (hp : p.Rooted) (h : d.join p a = d ∨ e.join p a = e) : (d.join p e).join p a = d.join p e := by
  rw [join_eq_left_iff hp, join_eq_left_iff hp] at h
  rw [join_eq_left_iff hp]
  cases d with
  | unknown => cases e <;> exact trivial
  | bottom =>
    cases a with
    | bottom => cases e <;> exact trivial
    | _ => exact h.resolve_left id
  | bounded t f n =>
    cases e with
    | unknown => exact trivial
    | bottom =>
      cases a with
      | bottom => exact trivial
      | _ => exact h.resolve_right id
    | bounded t' f' n' =>
      cases a with
      | bottom =>
        simp only [join]
        split <;> exact trivial
      | unknown => exact (h.elim id id).elim
      | bounded s g k =>
        have hnull : (n.join n').join k = n.join n' := Nullability.absorbs_join (h.imp (·.2.1) (·.2.1))
        simp only [join]
        split
        · next heq =>
          subst heq
          refine ⟨h.elim And.left And.left, hnull, fun hexact => ?_⟩
          obtain ⟨hf, hf'⟩ := Bool.and_eq_true_iff.1 hexact
          exact h.elim (·.2.2 hf) (·.2.2 hf')
        · obtain ⟨hleft, hright⟩ := Program.over_leastUpperBound hp t t'
          refine ⟨?_, hnull, fun hexact => Bool.noConfusion hexact⟩
          rcases h with h | h
          · exact h.1.trans hp hleft
          · exact h.1.trans hp hright

@[simp] theorem join_self (p : Program) (d : DynamicType) : d.join p d = d := by
  cases d with
  | bounded t e n => cases n <;> simp [join, Nullability.join]
  | _ => rfl

theorem withNullability_join (p : Program) (d e : DynamicType) :
    (d.join p e).withNullability .definitelyNotNull =
      (d.withNullability .definitelyNotNull).join p (e.withNullability .definitelyNotNull) := by
  cases d with
  | bounded t x n =>
    cases e with
    | bounded t' x' n' =>
      simp only [join, withNullability]
      by_cases heq : t = t'
      · simp [heq, Nullability.join]
      · simp [heq, Nullability.join, below]
    | _ => rfl
  | _ => cases e <;> rfl

end DynamicType

/-! ### What is known -/

namespace Knowledge

variable {p : Program} {k l m a : Knowledge}

/-- What is known of an operand on the spot. -/
def Simple (k : Knowledge) : Prop := k.abstractValue.Simple

/-- A join of references is a join of values and of types, whatever kinds of references they
    are. -/
theorem join_reference (hk : k.isPrimitive = false) (h : k.join p l = .ok m) :
    m.isPrimitive = false ∧ m.abstractValue = k.abstractValue.join l.abstractValue ∧
      m.joinableType = k.joinableType.join p l.joinableType := by
  cases k with
  | primitive v => cases hk
  | array n =>
    cases l with
    | primitive v => cases h
    | array n' =>
      cases h
      cases n <;> cases n' <;> simp [isPrimitive, Nullability.join, abstractValue, joinableType, AbstractValue.join,
        DynamicType.join]
    | _ =>
      cases h
      exact ⟨rfl, rfl, rfl⟩
  | object v d =>
    cases l with
    | primitive v => cases h
    | _ =>
      cases h
      exact ⟨rfl, rfl, rfl⟩
  | receiver d =>
    cases l with
    | primitive v => cases h
    | receiver e =>
      cases h
      exact ⟨rfl, rfl, DynamicType.withNullability_join p d e⟩
    | _ =>
      cases h
      exact ⟨rfl, rfl, rfl⟩

/-- Only a join of two arrays is one, and only a join of two receivers. -/
theorem kinds_of_join (h : k.join p l = .ok m) :
    (∀ n, m = array n → ∃ x y, k = array x ∧ l = array y ∧ n = x.join y) ∧
      ∀ d, m = receiver d → ∃ x y, k = receiver x ∧ l = receiver y ∧ d = x.join p y := by
  cases k <;> cases l <;> cases h <;> simp

theorem isPrimitive_of_join (h : k.join p l = .ok m) : l.isPrimitive = k.isPrimitive ∧ m.isPrimitive = k.isPrimitive := by
  cases k <;> cases l <;> cases h <;> exact ⟨rfl, rfl⟩

theorem join_object (v : AbstractValue) (d : DynamicType) (ha : a.isPrimitive = false) :
    (object v d).join p a = .ok (object (v.join a.abstractValue) (d.join p a.joinableType)) := by
  cases a with
  | primitive w => cases ha
  | _ => rfl

/-- The join of two values has taken in what one of them has. -/
def Passes (k l a : Knowledge) : Prop :=
  k.abstractValue.join a.abstractValue = k.abstractValue ∨ l.abstractValue.join a.abstractValue = l.abstractValue →
    (k.abstractValue.join l.abstractValue).join a.abstractValue = k.abstractValue.join l.abstractValue

theorem Simple.passes (ha : a.Simple) : Passes k l a := AbstractValue.absorbs_join ha

theorem absorbs_join_primitive {v w : AbstractValue} (hvalue : Passes (primitive v) (primitive w) a)
    (habs : (primitive v).join p a = .ok (primitive v) ∨ (primitive w).join p a = .ok (primitive w)) :
    (primitive (v.join w)).join p a = .ok (primitive (v.join w)) := by
  cases a with
  | primitive u =>
    have hvalues : v.join u = v ∨ w.join u = w := by simpa [join] using habs
    exact congrArg (fun v => Except.ok (primitive v)) (hvalue hvalues)
  | _ =>
    rcases habs with habs | habs
    · cases habs
    · cases habs

/-- **A join has taken in what either side has.** -/
theorem absorbs_join (hp : p.Rooted) (hvalue : Passes k l a) (h : k.join p l = .ok m) (habs : k.join p a = .ok k ∨ l.join p a = .ok l) :
    m.join p a = .ok m := by
  obtain ⟨hl, hm⟩ := isPrimitive_of_join h
  cases hk : k.isPrimitive with
  | true =>
    rw [hk] at hl
    cases k with
    | primitive v =>
      cases l with
      | primitive w =>
        cases h
        exact absorbs_join_primitive hvalue habs
      | _ => cases hl
    | _ => cases hk
  | false =>
    rw [hk] at hl hm
    have hprimitive : a.isPrimitive = false := by
      rcases habs with habs | habs
      · exact (isPrimitive_of_join habs).1.trans hk
      · exact (isPrimitive_of_join habs).1.trans hl
    cases m with
    | primitive v => cases hm
    | object v d =>
      obtain ⟨-, heq, htype⟩ := join_reference hk h
      have hvalues : k.abstractValue.join a.abstractValue = k.abstractValue ∨ l.abstractValue.join a.abstractValue = l.abstractValue :=
        habs.imp (fun habs => (join_reference hk habs).2.1.symm) fun habs => (join_reference hl habs).2.1.symm
      have htypes : k.joinableType.join p a.joinableType = k.joinableType ∨ l.joinableType.join p a.joinableType = l.joinableType :=
        habs.imp (fun habs => (join_reference hk habs).2.2.symm) fun habs => (join_reference hl habs).2.2.symm
      change v = _ at heq
      change d = _ at htype
      rw [join_object v d hprimitive, heq, htype, hvalue hvalues, DynamicType.absorbs_join hp htypes]
    | array n =>
      obtain ⟨x, y, rfl, rfl, rfl⟩ := (kinds_of_join h).1 n rfl
      have harrays : ∃ z, a = array z ∧ (x.join z = x ∨ y.join z = y) := by
        rcases habs with habs | habs
        · obtain ⟨_, z, hx, rfl, heq⟩ := (kinds_of_join habs).1 x rfl
          cases hx
          exact ⟨z, rfl, .inl heq.symm⟩
        · obtain ⟨_, z, hy, rfl, heq⟩ := (kinds_of_join habs).1 y rfl
          cases hy
          exact ⟨z, rfl, .inr heq.symm⟩
      obtain ⟨z, rfl, hz⟩ := harrays
      rw [join, Nullability.absorbs_join hz]
    | receiver d =>
      obtain ⟨x, y, rfl, rfl, rfl⟩ := (kinds_of_join h).2 d rfl
      have hreceivers : ∃ z, a = receiver z ∧ (x.join p z = x ∨ y.join p z = y) := by
        rcases habs with habs | habs
        · obtain ⟨_, z, hx, rfl, heq⟩ := (kinds_of_join habs).2 x rfl
          cases hx
          exact ⟨z, rfl, .inl heq.symm⟩
        · obtain ⟨_, z, hy, rfl, heq⟩ := (kinds_of_join habs).2 y rfl
          cases hy
          exact ⟨z, rfl, .inr heq.symm⟩
      obtain ⟨z, rfl, hz⟩ := hreceivers
      rw [join, DynamicType.absorbs_join hp hz]

theorem join_self (p : Program) (k : Knowledge) : k.join p k = .ok k := by
  cases k with
  | array n => cases n <;> rfl
  | object v d =>
    have heq : (object v d).join p (object v d) = .ok (object (v.join v) (d.join p d)) := rfl
    rw [heq, AbstractValue.join_self, DynamicType.join_self]
  | primitive v => rw [join, AbstractValue.join_self]
  | receiver d => rw [join, DynamicType.join_self]

end Knowledge

/-! ### Sources -/

namespace InFlows

theorem ofList_congr {a b : List InFlow} (h : ∀ f, f ∈ a ↔ f ∈ b) : ofList a = ofList b := by
  apply Std.TreeSet.Equiv.toList_eq
  apply Std.TreeSet.Equiv.of_forall_mem_iff
  intro f
  simp [Std.TreeSet.mem_ofList, h f]

theorem absorbs_union {a b c : InFlows} (h : a.union c = a ∨ b.union c = b) : (a.union b).union c = a.union b := by
  have hsub (f : InFlow) (hf : f ∈ c) : f ∈ a ∨ f ∈ b := by
    rcases h with h | h
    · exact .inl (h ▸ mem_union.2 (.inr hf))
    · exact .inr (h ▸ mem_union.2 (.inr hf))
  refine ofList_congr fun f => ?_
  rw [List.mem_append, mem_union, List.mem_append]
  exact ⟨fun hf => hf.elim id (hsub f), .inl⟩

end InFlows

/-! ### States of places -/

namespace ValueState

variable {j : Joiner} {a b m : ValueState}

/-- What is known of an operand, and the source that it comes from, if any. -/
def Simple (j : Joiner) : ValueState → Prop
  | bottom => False
  | unknown => True
  | concrete s =>
    s.known.Simple ∧ s.known.isUnknown = false ∧ s.inFlow.union s.inFlow = s.inFlow ∧ s.inFlow.length ≤ j.maxInFlow

theorem join_bottom (j : Joiner) (a : ValueState) : a.join j .bottom = .ok a := by
  cases a <;> rfl

theorem join_unknown (j : Joiner) (a : ValueState) : a.join j .unknown = .ok .unknown := by
  cases a <;> rfl

theorem unknown_join (j : Joiner) (a : ValueState) : unknown.join j a = .ok .unknown := by
  cases a <;> rfl

/-- What it is for a state to have taken in another one. -/
theorem join_concrete_eq_iff {t : ConcreteState} :
    a.join j (.concrete t) = .ok a ↔ a = .unknown ∨ ∃ s, a = .concrete s ∧ s.known.join j.program t.known = .ok s.known ∧
      s.known.isUnknown = false ∧ s.inFlow.union t.inFlow = s.inFlow ∧ s.inFlow.length ≤ j.maxInFlow := by
  cases a with
  | bottom => simp [join]
  | unknown => simp [unknown_join]
  | concrete s =>
    simp only [join, reduceCtorEq, false_or, concrete.injEq]
    constructor
    · intro h
      obtain ⟨k, hk, h⟩ := bind_eq_ok.1 h
      have h := pure_eq_ok.1 h
      split at h
      · cases h
      · next hlength =>
        unfold ofKnowledge at h
        split at h
        · cases h
        · next hknown =>
          obtain ⟨known, flows⟩ := s
          obtain ⟨rfl, hflows⟩ := ConcreteState.mk.inj (ValueState.concrete.inj h)
          simp only [hflows] at hlength
          exact ⟨_, rfl, hk, by simpa using hknown, hflows, by simpa using hlength⟩
    · rintro ⟨_, rfl, hk, hknown, hflows, hlength⟩
      rw [hk, ok_bind, hflows, if_neg (by omega), ofKnowledge, hknown]
      rfl

theorem join_self_of_simple (h : a.Simple j) : a.join j a = .ok a := by
  cases a with
  | bottom => exact h.elim
  | unknown => rfl
  | concrete s =>
    obtain ⟨-, hknown, hflows, hlength⟩ := h
    exact join_concrete_eq_iff.2 (.inr ⟨s, rfl, Knowledge.join_self _ _, hknown, hflows, hlength⟩)

/-- What is known of the values is passed on by joins. -/
def Passes (a b c : ValueState) : Prop :=
  ∀ s t u, a = concrete s → b = concrete t → c = concrete u → Knowledge.Passes s.known t.known u.known

theorem Simple.passes {c : ValueState} (hc : c.Simple j) : Passes a b c := by
  rintro s t u - - rfl
  exact hc.1.passes

/-- **A join has taken in what either side has.** -/
theorem absorbs_join (hp : j.program.Rooted) {c : ValueState} (hvalue : Passes a b c) (h : a.join j b = .ok m)
    (habs : a.join j c = .ok a ∨ b.join j c = .ok b) : m.join j c = .ok m := by
  have hunknown (hany : a = .unknown ∨ b = .unknown) : m.join j c = .ok m := by
    rcases hany with rfl | rfl
    · rw [unknown_join] at h
      cases h
      exact unknown_join j c
    · rw [join_unknown] at h
      cases h
      exact unknown_join j c
  cases c with
  | bottom => exact join_bottom j m
  | unknown =>
    rw [join_unknown, join_unknown] at habs
    exact hunknown (habs.imp (fun habs => (Except.ok.inj habs).symm) fun habs => (Except.ok.inj habs).symm)
  | concrete t =>
    cases a with
    | bottom =>
      have habs := habs.resolve_left (by simp [join])
      cases b with
      | bottom => simp [join] at habs
      | _ =>
        cases h
        exact habs
    | unknown => exact hunknown (.inl rfl)
    | concrete s =>
      cases b with
      | bottom =>
        cases h
        exact habs.resolve_right (by simp [join])
      | unknown => exact hunknown (.inr rfl)
      | concrete s' =>
        have hparts : (s.known.join j.program t.known = .ok s.known ∧ s.inFlow.union t.inFlow = s.inFlow) ∨
            (s'.known.join j.program t.known = .ok s'.known ∧ s'.inFlow.union t.inFlow = s'.inFlow) := by
          rw [join_concrete_eq_iff, join_concrete_eq_iff] at habs
          rcases habs with (habs | ⟨_, habs, hknown, -, hflows, -⟩) | (habs | ⟨_, habs, hknown, -, hflows, -⟩)
          · cases habs
          · cases habs
            exact .inl ⟨hknown, hflows⟩
          · cases habs
          · cases habs
            exact .inr ⟨hknown, hflows⟩
        rw [join] at h
        obtain ⟨k, hk, h⟩ := bind_eq_ok.1 h
        have h := pure_eq_ok.1 h
        split at h
        · subst h
          exact unknown_join j _
        · next hlength =>
          unfold ofKnowledge at h
          split at h
          · subst h
            exact unknown_join j _
          · next hknown =>
            subst h
            refine join_concrete_eq_iff.2 (.inr ⟨_, rfl, ?_, by simpa using hknown, ?_, by simpa using hlength⟩)
            · exact Knowledge.absorbs_join hp (hvalue s s' t rfl rfl rfl) hk (hparts.imp And.left And.left)
            · exact InFlows.absorbs_union (hparts.imp And.right And.right)

end ValueState

/-! ### States of methods -/

namespace MethodState

variable {j : Joiner} {a b m : MethodState}

/-- What a call passes. -/
def Simple (j : Joiner) : MethodState → Prop
  | monomorphic arguments => (∀ a ∈ arguments, a.Simple j) ∧ arguments.all ValueState.isUnknown = false
  | unknown => True
  | bottom | polymorphic _ => False

theorem unknown_join (j : Joiner) (a : MethodState) : unknown.join j a = .ok unknown := by
  cases a <;> rfl

theorem forall₂_zip_self_iff {ours theirs : List ValueState} (hlength : ours.length = theirs.length) :
    List.Forall₂ (fun p z => p.1.join j p.2 = .ok z) (ours.zip theirs) ours ↔
      List.Forall₂ (fun x y => x.join j y = .ok x) ours theirs := by
  induction ours generalizing theirs with
  | nil =>
    obtain rfl := List.length_eq_zero_iff.1 hlength.symm
    simp
  | cons x ours ih =>
    cases theirs with
    | nil => cases hlength
    | cons y theirs => rw [List.zip_cons_cons, List.forall₂_cons, List.forall₂_cons, ih (Nat.succ.inj hlength)]

theorem bottom_join (j : Joiner) (a : MethodState) : bottom.join j a = .ok a := by
  cases a <;> rfl

/-- Calls are joined argument by argument. -/
theorem joinArguments_eq_ok_iff {ours theirs : List ValueState} :
    joinArguments j ours theirs = .ok m ↔ (ours.length ≠ theirs.length ∧ m = unknown) ∨ ours.length = theirs.length ∧
      ∃ joined, List.Forall₂ (fun p z => p.1.join j p.2 = .ok z) (ours.zip theirs) joined ∧ m = ofArguments joined := by
  unfold joinArguments
  split
  · next hlength =>
    simp only [hlength, ne_eq, not_true_eq_false, false_and, true_and, false_or]
    rw [bind_eq_ok]
    refine exists_congr fun joined => ?_
    rw [mapM_eq_ok_iff, pure_eq_ok, eq_comm (a := m)]
  · next hlength =>
    simp only [hlength, ne_eq, not_false_eq_true, true_and, false_and, or_false]
    rw [pure_eq_ok, eq_comm]

/-- What it is for a state to have taken in a call. -/
theorem join_monomorphic_eq_iff {theirs : List ValueState} :
    a.join j (monomorphic theirs) = .ok a ↔ a = unknown ∨ ∃ ours, a = monomorphic ours ∧
      ours.all ValueState.isUnknown = false ∧ List.Forall₂ (fun x y => x.join j y = .ok x) ours theirs := by
  cases a with
  | bottom => simp [join]
  | polymorphic cases => simp [join]
  | unknown => simp [unknown_join]
  | monomorphic ours =>
    rw [join, joinArguments_eq_ok_iff]
    constructor
    · rintro (⟨-, heq⟩ | ⟨hlength, joined, hjoined, heq⟩)
      · cases heq
      · unfold ofArguments at heq
        split at heq
        · cases heq
        · next hall =>
          obtain rfl := monomorphic.inj heq
          exact .inr ⟨ours, rfl, by simpa using hall, (forall₂_zip_self_iff hlength).1 hjoined⟩
    · rintro (heq | ⟨ours', heq, hall, htaken⟩)
      · cases heq
      · obtain rfl := monomorphic.inj heq
        refine .inr ⟨htaken.length_eq, ours, (forall₂_zip_self_iff htaken.length_eq).2 htaken, ?_⟩
        rw [ofArguments, hall]
        rfl

theorem join_self_of_simple (h : a.Simple j) : a.join j a = .ok a := by
  cases a with
  | bottom => exact h.elim
  | polymorphic cases => exact h.elim
  | unknown => rfl
  | monomorphic arguments =>
    refine join_monomorphic_eq_iff.2 (.inr ⟨arguments, rfl, h.2, ?_⟩)
    exact List.forall₂_same.2 fun x hx => ValueState.join_self_of_simple (h.1 x hx)

theorem forall₂_absorbs (hp : j.program.Rooted) {xs ys zs cs : List ValueState} (hlength : xs.length = ys.length)
    (hcs : ∀ c ∈ cs, c.Simple j) (hzs : List.Forall₂ (fun p z => p.1.join j p.2 = .ok z) (xs.zip ys) zs)
    (habs : List.Forall₂ (fun x y => x.join j y = .ok x) xs cs ∨ List.Forall₂ (fun x y => x.join j y = .ok x) ys cs) :
    List.Forall₂ (fun x y => x.join j y = .ok x) zs cs := by
  induction xs generalizing ys zs cs with
  | nil =>
    obtain rfl := List.length_eq_zero_iff.1 hlength.symm
    cases hzs
    exact habs.elim id id
  | cons x xs ih =>
    cases ys with
    | nil => cases hlength
    | cons y ys =>
      cases cs with
      | nil => rcases habs with habs | habs <;> cases habs
      | cons c cs =>
        rw [List.zip_cons_cons] at hzs
        rw [List.forall₂_cons, List.forall₂_cons] at habs
        cases hzs with
        | cons hz hzs =>
          refine .cons ?_ (ih (Nat.succ.inj hlength) (fun c hc => hcs c (List.mem_cons_of_mem _ hc)) hzs (habs.imp And.right And.right))
          exact ValueState.absorbs_join hp (hcs c List.mem_cons_self).passes hz (habs.imp And.left And.left)

theorem absorbs_join_monomorphic (hp : j.program.Rooted) {cs : List ValueState} (hcs : ∀ c ∈ cs, c.Simple j) (h : a.join j b = .ok m)
    (habs : a.join j (monomorphic cs) = .ok a ∨ b.join j (monomorphic cs) = .ok b) : m.join j (monomorphic cs) = .ok m := by
  have hunknown (heq : m = unknown) : m.join j (monomorphic cs) = .ok m := by
    rw [heq]
    exact unknown_join j _
  have htaken {xs : List ValueState} (habs : (monomorphic xs).join j (monomorphic cs) = .ok (monomorphic xs)) :
      List.Forall₂ (fun x y => x.join j y = .ok x) xs cs := by
    rcases join_monomorphic_eq_iff.1 habs with heq | ⟨_, heq, -, htaken⟩
    · cases heq
    · cases heq
      exact htaken
  cases a with
  | bottom =>
    rw [bottom_join] at h
    cases h
    exact habs.resolve_left (by simp [join])
  | unknown =>
    rw [unknown_join] at h
    exact hunknown (Except.ok.inj h).symm
  | polymorphic xs =>
    have habs := habs.resolve_left (by simp [join])
    cases b with
    | bottom => simp [join] at habs
    | polymorphic ys => simp [join] at habs
    | _ => exact hunknown (Except.ok.inj h).symm
  | monomorphic xs =>
    cases b with
    | bottom =>
      cases h
      exact habs.resolve_right (by simp [join])
    | monomorphic ys =>
      rw [join] at h
      rcases joinArguments_eq_ok_iff.1 h with ⟨-, heq⟩ | ⟨hlength, zs, hzs, rfl⟩
      · exact hunknown heq
      · by_cases hall : zs.all ValueState.isUnknown = true
        · exact hunknown (if_pos hall)
        · rw [ofArguments, if_neg hall]
          refine join_monomorphic_eq_iff.2 (.inr ⟨zs, rfl, by simpa using hall, ?_⟩)
          exact forall₂_absorbs hp hlength hcs hzs (habs.imp htaken htaken)
    | _ => exact hunknown (Except.ok.inj h).symm

/-- **States keep the calls that they have taken in.** -/
theorem lasting_absorbs (hp : j.program.Rooted) {c : MethodState} (hc : c.Simple j) : Lasting j fun s => s.join j c = .ok s where
  unknown := unknown_join j c
  not_bottom := by
    intro heq
    rw [bottom_join] at heq
    cases heq
    exact hc
  join := by
    intro a b m h habs
    cases c with
    | bottom => exact hc.elim
    | polymorphic cases => exact hc.elim
    | monomorphic cs => exact absorbs_join_monomorphic hp hc.1 h habs
    | unknown =>
      rw [join_unknown, join_unknown] at habs
      rcases habs with habs | habs
      · cases habs
        rw [unknown_join] at h
        cases h
        rfl
      · cases habs
        rw [join_unknown] at h
        cases h
        rfl

end MethodState

/-! ### Cases of receivers -/

open Std

instance : LawfulEqOrd DynamicType where
  eq_of_compare {a b} h := by
    obtain ⟨hrank, h⟩ := compareLex_eq_eq.1 h
    obtain ⟨hbound, h⟩ := compareLex_eq_eq.1 h
    obtain ⟨hexact, hnull⟩ := compareLex_eq_eq.1 h
    replace hrank : a.rank = b.rank := eq_of_compareOn hrank
    replace hbound : a.bound? = b.bound? := eq_of_compareOn hbound
    replace hexact : a.isExact = b.isExact := eq_of_compareOn hexact
    have hrank_inj : ∀ n n' : Nullability, n.rank = n'.rank → n = n' := by
      intro n n'
      cases n <;> cases n' <;> simp [Nullability.rank]
    replace hnull : a.nullability = b.nullability := hrank_inj _ _ (eq_of_compareOn hnull)
    cases a <;> cases b <;> simp_all [DynamicType.rank, DynamicType.bound?, DynamicType.isExact, DynamicType.nullability]

namespace MethodState

variable {j : Joiner} {Q : MethodState → Prop} {bound : DynamicType}

theorem caseOf_cons (b b' : DynamicType) (s : MethodState) (cases : List (DynamicType × MethodState)) :
    caseOf ((b, s) :: cases) b' = if b = b' then s else caseOf cases b' := by
  by_cases heq : b = b'
  · simp [caseOf, heq]
  · simp [caseOf, List.lookup_cons, beq_false_of_ne (Ne.symm heq), heq]

/-- One case is set, and the others stay as they are. -/
theorem caseOf_setCase (b b' : DynamicType) (s : MethodState) (cases : List (DynamicType × MethodState)) :
    caseOf (setCase b s cases) b' = if b = b' then s else caseOf cases b' := by
  induction cases with
  | nil => exact caseOf_cons b b' s []
  | cons first rest ih =>
    obtain ⟨b₁, t⟩ := first
    rw [setCase]
    split
    · exact caseOf_cons b b' s _
    · next heq =>
      obtain rfl := LawfulEqOrd.eq_of_compare heq
      rw [caseOf_cons, caseOf_cons]
      split <;> rfl
    · next hgt =>
      have hne : b ≠ b₁ := by
        rintro rfl
        rw [compare_self] at hgt
        cases hgt
      rw [caseOf_cons, caseOf_cons, ih]
      by_cases heq : b₁ = b'
      · rw [if_pos heq, if_pos heq, if_neg (heq ▸ hne)]
      · rw [if_neg heq, if_neg heq]

/-- The calls on receivers with a bound are kept apart, and have the property. -/
def AtCase (Q : MethodState → Prop) (bound : DynamicType) : MethodState → Prop
  | polymorphic cases => Q (caseOf cases bound)
  | unknown => True
  | bottom | monomorphic _ => False

theorem mem_of_caseOf (hQ : Lasting j Q) {cases : List (DynamicType × MethodState)} (h : Q (caseOf cases bound)) :
    (bound, caseOf cases bound) ∈ cases := by
  unfold caseOf at h ⊢
  cases hlookup : cases.lookup bound with
  | none =>
    rw [hlookup] at h
    exact absurd h hQ.not_bottom
  | some s =>
    obtain ⟨before, after, rfl, -⟩ := List.lookup_eq_some_iff.1 hlookup
    simp

theorem caseOf_of_joinCases (hQ : Lasting j Q) {ours theirs joined : List (DynamicType × MethodState)}
    (h : joinCases j ours theirs = .ok joined) (hcase : Q (caseOf ours bound) ∨ ∃ s, (bound, s) ∈ theirs ∧ Q s) :
    Q (caseOf joined bound) := by
  induction theirs generalizing ours with
  | nil =>
    rw [joinCases] at h
    cases h
    exact hcase.resolve_right fun ⟨s, hs, _⟩ => absurd hs List.not_mem_nil
  | cons first theirs ih =>
    obtain ⟨b, s⟩ := first
    rw [joinCases] at h
    obtain ⟨x, hx, h⟩ := bind_eq_ok.1 h
    refine ih h ?_
    rw [caseOf_setCase]
    split
    · next heq =>
      subst heq
      rcases hcase with hours | ⟨s', hs', htheirs⟩
      · exact .inl (hQ.join hx (.inl hours))
      · rcases List.mem_cons.1 hs' with heq | hs'
        · cases heq
          exact .inl (hQ.join hx (.inr htheirs))
        · exact .inr ⟨s', hs', htheirs⟩
    · next hne =>
      refine hcase.imp_right fun ⟨s', hs', htheirs⟩ => ⟨s', (List.mem_cons.1 hs').resolve_left ?_, htheirs⟩
      rintro heq
      exact hne (Prod.mk.inj heq).1.symm

/-- **What lasts in states lasts in their cases.** -/
theorem Lasting.atCase (hQ : Lasting j Q) (bound : DynamicType) : Lasting j (AtCase Q bound) where
  unknown := trivial
  not_bottom := id
  join {a b c} h hcase := by
    have hunknown (heq : c = .unknown) : AtCase Q bound c := by
      rw [heq]
      trivial
    cases a with
    | bottom =>
      rw [bottom_join] at h
      cases h
      exact hcase.resolve_left id
    | unknown =>
      rw [unknown_join] at h
      exact hunknown (Except.ok.inj h).symm
    | monomorphic ours =>
      cases b with
      | bottom | monomorphic _ => exact (hcase.elim id id).elim
      | _ => exact hunknown (Except.ok.inj h).symm
    | polymorphic ours =>
      cases b with
      | bottom =>
        cases h
        exact hcase.resolve_right id
      | polymorphic theirs =>
        rw [MethodState.join] at h
        obtain ⟨joined, hjoined, h⟩ := bind_eq_ok.1 h
        cases h
        unfold ofCases
        split
        · trivial
        · exact caseOf_of_joinCases hQ hjoined (hcase.imp_right fun htheirs => ⟨_, mem_of_caseOf hQ htheirs, htheirs⟩)
      | _ => exact hunknown (Except.ok.inj h).symm

theorem atCase_ofBound {s : MethodState} (hs : Q s) (bound : DynamicType) : AtCase Q bound (ofBound bound s) := by
  unfold ofBound
  split
  · trivial
  · rw [AtCase, caseOf_cons, if_pos rfl]
    exact hs

end MethodState

end DexShrinker
