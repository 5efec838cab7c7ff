/-
  DexShrinker/Proofs/Flow/Retention.lean
  ======================================
  **What a place has taken in it keeps, although its static type cuts states back.**

  A join of unrelated bounds may go above the static type of a place, and then the static type
  takes its place. So a state that was joined into that of a place may not be below it
  afterwards. It makes no difference any more nevertheless: joining it again changes nothing,
  or goes above the static type again and is cut back to what was there
  (`ValueState.Retains`). A place at its limit stays there whatever else is joined
  (`ValueState.keeps_join_widen`), since the bound of a join is never below that of its sides.
-/
import DexShrinker.Proofs.Flow.Semilattice

namespace DexShrinker

/-! ### Canonical states -/

namespace AbstractValue

variable {a b c : AbstractValue}

/-- A join has taken in what one of its sides has. -/
theorem Canonical.passes (ha : a.Canonical) (hb : b.Canonical) (hc : c.Canonical) (h : a.join c = a ∨ b.join c = b) :
    (a.join b).join c = a.join b := by
  rcases h with h | h
  · exact join_join_of_join_eq ha hb hc h
  · rw [join_assoc ha hb hc, h]

end AbstractValue

namespace DynamicType

/-- What the static type leaves of a bound. -/
theorem widen_cases (p : Program) (static : Descriptor) (d : DynamicType) :
    d.widen p static = d ∨ d.widen p static = unknown ∨
      ∃ t e n, d = bounded t e n ∧ n ≠ .maybeNull ∧ d.widen p static = bounded static false n := by
  cases d with
  | bottom => exact .inl rfl
  | unknown => exact .inl rfl
  | bounded t e n =>
    cases hsub : p.isSubtype t static with
    | true =>
      by_cases hall : (!e && t == static && n.isMaybeNull) = true
      · exact .inr (.inl (by simp [widen, hsub, hall]))
      · exact .inl (by simp only [widen, hsub, if_true, hall]; rfl)
    | false =>
      by_cases hnull : n = .maybeNull
      · exact .inr (.inl (by simp [widen, hsub, hnull, Nullability.isMaybeNull]))
      · exact .inr (.inr ⟨t, e, n, rfl, hnull, by simp [widen, hsub, Nullability.isMaybeNull, hnull]⟩)

theorem unknown_join (p : Program) (d : DynamicType) : unknown.join p d = unknown := by
  cases d <;> rfl

theorem join_unknown (p : Program) (d : DynamicType) : d.join p unknown = unknown := by
  cases d <;> rfl

theorem join_bottom (p : Program) (d : DynamicType) : d.join p bottom = d := by
  cases d <;> rfl

/-- A bound above the static type is cut back to it. -/
theorem widen_of_over {p : Program} (hp : p.Rooted) {static w : Descriptor} {n : Nullability} (hover : p.Over w static) :
    (bounded w false n).widen p static = if n = .maybeNull then unknown else bounded static false n := by
  have hwiden {t : Descriptor} (ht : t = static) :
      (if !false && t == static && n.isMaybeNull then unknown else bounded t false n) =
        if n = .maybeNull then unknown else bounded static false n := by
    subst ht
    simp [Nullability.isMaybeNull]
  cases hsub : p.isSubtype w static with
  | true =>
    have hbelow := Program.isSubtype_iff.1 hsub
    have heq : w = static := by
      rcases hover with rfl | habove
      · exact ((Program.over_object hp).1 (.inr hbelow)).symm
      · exact hbelow.antisymm hp habove
    simp only [widen, hsub, if_true]
    exact hwiden heq
  | false =>
    simp only [widen, hsub, Bool.false_eq_true, if_false]
    exact hwiden rfl

theorem nullability_join (p : Program) (d e : DynamicType) : (d.join p e).nullability = d.nullability.join e.nullability := by
  cases d with
  | bottom => rfl
  | unknown =>
    cases e with
    | bounded t x n => cases n <;> rfl
    | _ => rfl
  | bounded t x n =>
    cases e with
    | bottom => cases n <;> rfl
    | unknown => cases n <;> rfl
    | bounded t' x' n' =>
      rw [join]
      split <;> rfl

/-- A join with the static type itself goes no further than the static type. -/
theorem widen_join_static {p : Program} (hp : p.Rooted) (static : Descriptor) (n : Nullability) (d : DynamicType) :
    ((bounded static false n).join p d).widen p static =
      if n.join d.nullability = .maybeNull then unknown else bounded static false (n.join d.nullability) := by
  cases d with
  | bottom =>
    have hbottom : n.join .bottom = n := by cases n <;> rfl
    rw [nullability, hbottom]
    exact widen_of_over hp (.inr (.refl static))
  | unknown =>
    have hmaybe : n.join .maybeNull = .maybeNull := by cases n <;> rfl
    rw [nullability, hmaybe]
    rfl
  | bounded t e n' =>
    rw [join, nullability]
    split
    · exact widen_of_over hp (.inr (.refl static))
    · exact widen_of_over hp (Program.over_leastUpperBound hp static t).1

end DynamicType

namespace Knowledge

variable {p : Program} {k l m : Knowledge}

/-- What is known of the value has canonical form. -/
def Canonical (k : Knowledge) : Prop := k.abstractValue.Canonical

theorem canonical_array (n : Nullability) : (array n).Canonical := by
  cases n <;> trivial

theorem canonical_join (h : k.join p l = .ok m) (hk : k.Canonical) (hl : l.Canonical) : m.Canonical := by
  cases hprim : k.isPrimitive with
  | true =>
    cases k with
    | primitive v =>
      cases l with
      | primitive w =>
        cases h
        exact AbstractValue.canonical_join hk hl
      | _ => cases h
    | _ => cases hprim
  | false =>
    have hvalue := AbstractValue.canonical_join hk hl
    rwa [← (join_reference hprim h).2.1] at hvalue

theorem canonical_widen (hk : k.Canonical) (static : Descriptor) : (k.widen p static).Canonical := by
  cases k <;> exact hk

def array? : Knowledge → Option Nullability
  | array n => some n
  | _ => none

def receiver? : Knowledge → Option DynamicType
  | receiver d => some d
  | _ => none

/-- A join goes part by part. Kinds of references are lost where they meet others. -/
theorem parts_of_join (h : k.join p l = .ok m) :
    m.abstractValue = k.abstractValue.join l.abstractValue ∧ m.joinableType = k.joinableType.join p l.joinableType ∧
      m.array? = (k.array?.bind fun n => l.array?.map n.join) ∧
      m.receiver? = k.receiver?.bind fun d => l.receiver?.map (d.join p) := by
  cases hprimitive : k.isPrimitive with
  | true =>
    cases k with
    | primitive v =>
      cases l <;> cases h
      exact ⟨rfl, rfl, rfl, rfl⟩
    | _ => cases hprimitive
  | false =>
    obtain ⟨-, hvalue, htype⟩ := join_reference hprimitive h
    refine ⟨hvalue, htype, ?_⟩
    cases k <;> cases l <;> cases h <;> exact ⟨rfl, rfl⟩

theorem isUnknown_iff : k.isUnknown = true ↔ k.abstractValue = .unknown ∧ k.joinableType = .unknown ∧
    (∀ n, k.array? = some n → n = .maybeNull) ∧ ∀ d, k.receiver? = some d → d = .unknown := by
  cases k with
  | array n => cases n <;> simp [isUnknown, abstractValue, joinableType, array?, receiver?, Nullability.isMaybeNull]
  | object v d =>
    cases v <;> simp [isUnknown, abstractValue, joinableType, dynamicType, array?, receiver?, AbstractValue.isUnknown,
      DynamicType.isUnknown]
  | primitive v =>
    cases v <;> simp [isUnknown, abstractValue, joinableType, dynamicType, array?, receiver?, AbstractValue.isUnknown]
  | receiver d =>
    cases d <;> simp [isUnknown, abstractValue, joinableType, array?, receiver?, DynamicType.isUnknown, DynamicType.withNullability]

/-- Nothing is known of a join with what nothing is known of. -/
theorem isUnknown_join (h : k.join p l = .ok m) (hany : k.isUnknown = true ∨ l.isUnknown = true) : m.isUnknown = true := by
  obtain ⟨hvalue, htype, harray, hreceiver⟩ := parts_of_join h
  have hmaybe (n : Nullability) : n.join .maybeNull = .maybeNull ∧ Nullability.maybeNull.join n = .maybeNull := by
    cases n <;> exact ⟨rfl, rfl⟩
  rw [isUnknown_iff, isUnknown_iff] at hany
  rw [isUnknown_iff, hvalue, htype, harray, hreceiver]
  refine ⟨?_, ?_, fun n hn => ?_, fun d hd => ?_⟩
  · rcases hany with hk | hl
    · rw [hk.1, AbstractValue.unknown_join]
    · rw [hl.1, AbstractValue.join_unknown]
  · rcases hany with hk | hl
    · rw [hk.2.1, DynamicType.unknown_join]
    · rw [hl.2.1, DynamicType.join_unknown]
  · obtain ⟨x, hx, y, hy, rfl⟩ : ∃ x, k.array? = some x ∧ ∃ y, l.array? = some y ∧ x.join y = n := by
      simpa [Option.bind_eq_some_iff] using hn
    rcases hany with hk | hl
    · rw [hk.2.2.1 x hx, (hmaybe y).2]
    · rw [hl.2.2.1 y hy, (hmaybe x).1]
  · obtain ⟨x, hx, y, hy, rfl⟩ : ∃ x, k.receiver? = some x ∧ ∃ y, l.receiver? = some y ∧ x.join p y = d := by
      simpa [Option.bind_eq_some_iff] using hd
    rcases hany with hk | hl
    · rw [hk.2.2.2 x hx, DynamicType.unknown_join]
    · rw [hl.2.2.2 y hy, DynamicType.join_unknown]

theorem isUnknown_widen (hk : k.isUnknown = true) (static : Descriptor) : (k.widen p static).isUnknown = true := by
  cases k with
  | object v d =>
    obtain ⟨hv, hd⟩ := Bool.and_eq_true_iff.1 hk
    obtain rfl : d = .unknown := eq_of_beq hd
    exact hk
  | receiver d =>
    obtain rfl : d = .unknown := eq_of_beq hk
    exact hk
  | _ => exact hk

theorem canonical_cast (hk : k.Canonical) (t : Descriptor) : (k.cast p t).Canonical := by
  cases k <;> exact hk

end Knowledge

namespace ValueState

variable {j : Joiner} {static : Descriptor} {m c x q : ValueState}

/-- What is known of the value has canonical form. -/
def Canonical : ValueState → Prop
  | concrete s => s.known.Canonical
  | bottom | unknown => True

theorem canonical_ofKnowledge {k : Knowledge} (hk : k.Canonical) (flows : InFlows) : (ofKnowledge k flows).Canonical := by
  unfold ofKnowledge
  split
  · trivial
  · exact hk

theorem canonical_join (h : m.join j x = .ok q) (hm : m.Canonical) (hx : x.Canonical) : q.Canonical := by
  unfold join at h
  split at h
  · cases h
    exact hm
  · cases h
    trivial
  · cases h
    exact hx
  · cases h
    trivial
  · obtain ⟨k, hk, h⟩ := bind_eq_ok.1 h
    have h := pure_eq_ok.1 h
    split at h
    · subst h
      trivial
    · subst h
      exact canonical_ofKnowledge (Knowledge.canonical_join hk hm hx) _

theorem canonical_widen (h : m.Canonical) (p : Program) (static : Descriptor) : (m.widen p static).Canonical := by
  cases m with
  | concrete s => exact canonical_ofKnowledge (Knowledge.canonical_widen h static) _
  | _ => trivial

theorem canonical_toReceiver (h : m.Canonical) : m.toReceiver.Canonical := by
  unfold toReceiver
  split
  · dsimp only
    split
    · trivial
    · trivial
  · exact h

theorem canonical_clearInFlow (h : m.Canonical) : m.clearInFlow.Canonical := by
  unfold clearInFlow
  split
  · split
    · trivial
    · exact h
  · exact h

theorem canonical_apply {p : Program} {lookup : FlowSource → ValueState} {f : FlowFunction} {s : ConcreteState} {out : ValueState}
    (h : f.apply p lookup s = .ok out) (hs : s.known.Canonical) (hlookup : ∀ y, (lookup y).Canonical) : out.Canonical := by
  cases f with
  | identity y =>
    cases h
    exact hs
  | cast y t =>
    cases h
    exact Knowledge.canonical_cast hs t
  | or y n =>
    unfold FlowFunction.apply at h
    cases hk : s.known with
    | primitive v =>
      simp only [hk] at h
      obtain ⟨w, hw, h⟩ := bind_eq_ok.1 h
      cases h
      exact canonical_ofKnowledge (k := .primitive w) (AbstractValue.canonical_orInteger hw) _
    | _ => simp [hk] at h
  | fieldRead y f =>
    cases h
    exact hlookup _
  | unknown =>
    cases h
    trivial

theorem passes_of_canonical (hm : m.Canonical) (hx : x.Canonical) (hc : c.Canonical) : Passes m x c := by
  rintro s t u rfl rfl rfl
  exact AbstractValue.Canonical.passes hm hx hc

/-- A state without sources and with its value in canonical form. -/
def Plain (m : ValueState) : Prop := m.inFlow = [] ∧ m.Canonical

theorem plain_join (h : m.join j x = .ok q) (hm : m.Plain) (hx : x.Plain) : q.Plain :=
  ⟨inFlow_join h hm.1 hx.1, canonical_join h hm.2 hx.2⟩

theorem plain_widen (h : m.Plain) (p : Program) (static : Descriptor) : (m.widen p static).Plain :=
  ⟨inFlow_widen h.1, canonical_widen h.2 p static⟩

theorem plain_toReceiver (h : m.Plain) : m.toReceiver.Plain := ⟨inFlow_toReceiver h.1, canonical_toReceiver h.2⟩

theorem plain_clearInFlow (h : m.Canonical) : m.clearInFlow.Plain := ⟨inFlow_clearInFlow m, canonical_clearInFlow h⟩

/-! ### What a place has taken in -/

/-- A state makes no difference to a place of type `static` any more: joining it changes
    nothing, or nothing that the static type leaves. -/
def Retains (j : Joiner) (static : Descriptor) (m c : ValueState) : Prop :=
  ∃ joined, m.join j c = .ok joined ∧ (joined = m ∨ joined.widen j.program static = m)

instance (j : Joiner) (static : Descriptor) (m c : ValueState) : Decidable (Retains j static m c) :=
  match h : m.join j c with
  | .ok joined => decidable_of_iff (joined = m ∨ joined.widen j.program static = m) (by simp [Retains, h])
  | .error _ => isFalse (by simp [Retains, h])

/-- The bound of a place is its static type, and a state says nothing else that is new. -/
def AtLimit (static : Descriptor) (m c : ValueState) : Prop :=
  ∃ v n k, m = concrete ⟨.object v (.bounded static false n), []⟩ ∧ c = concrete ⟨k, []⟩ ∧ n ≠ .maybeNull ∧
    k.isPrimitive = false ∧ v.join k.abstractValue = v ∧ n.join k.joinableType.nullability = n

/-- A state is below that of a place, or the place is at its limit. -/
def Keeps (j : Joiner) (static : Descriptor) (m c : ValueState) : Prop := m.join j c = .ok m ∨ AtLimit static m c

theorem ofKnowledge_bounded (v : AbstractValue) (t : Descriptor) (e : Bool) (n : Nullability) (flows : InFlows) :
    ofKnowledge (.object v (.bounded t e n)) flows = concrete ⟨.object v (.bounded t e n), flows⟩ := by
  simp [ofKnowledge, Knowledge.isUnknown, DynamicType.isUnknown]

theorem widen_ofKnowledge (p : Program) (static : Descriptor) (k : Knowledge) :
    (ofKnowledge k []).widen p static = ofKnowledge (k.widen p static) [] := by
  cases hk : k.isUnknown with
  | true =>
    rw [ofKnowledge, if_pos hk, ofKnowledge, if_pos (Knowledge.isUnknown_widen hk static)]
    rfl
  | false =>
    rw [ofKnowledge, if_neg (by simp [hk])]
    rfl

/-- An object without a bound takes in what its value does. -/
theorem join_ofKnowledge_unknown {v : AbstractValue} {k : Knowledge} (hprimitive : k.isPrimitive = false)
    (hv : v.join k.abstractValue = v) :
    (ofKnowledge (.object v .unknown) []).join j (concrete ⟨k, []⟩) = .ok (ofKnowledge (.object v .unknown) []) := by
  cases hknown : (Knowledge.object v .unknown).isUnknown with
  | true =>
    rw [ofKnowledge, if_pos hknown]
    exact unknown_join j _
  | false =>
    rw [ofKnowledge, if_neg (by simp [hknown])]
    refine join_concrete_eq_iff.2 (.inr ⟨_, rfl, ?_, hknown, rfl, Nat.zero_le _⟩)
    rw [Knowledge.join_object v _ hprimitive, hv, DynamicType.unknown_join]

/-- What the static type leaves of a state has taken in what the state has, or the place is at
    its limit. -/
theorem keeps_widen (h : q.join j c = .ok q) (hq : q.Plain) (hc : c.Plain) (static : Descriptor) :
    Keeps j static (q.widen j.program static) c := by
  cases c with
  | bottom => exact .inl (join_bottom j _)
  | unknown =>
    rw [join_unknown] at h
    cases h
    exact .inl rfl
  | concrete t =>
    rcases join_concrete_eq_iff.1 h with rfl | ⟨s, rfl, hknown, hnot, -⟩
    · exact .inl (unknown_join j _)
    · obtain ⟨k, flows⟩ := s
      obtain ⟨l, flows'⟩ := t
      obtain rfl : flows = [] := hq.1
      obtain rfl : flows' = [] := hc.1
      have hsame (hwiden : k.widen j.program static = k) :
          Keeps j static ((concrete ⟨k, []⟩).widen j.program static) (concrete ⟨l, []⟩) := by
        have heq : (concrete ⟨k, []⟩).widen j.program static = concrete ⟨k, []⟩ := by
          rw [widen, hwiden, ofKnowledge, if_neg (by simpa using hnot)]
        refine .inl ?_
        rwa [heq]
      cases k with
      | primitive v => exact hsame rfl
      | array n => exact hsame rfl
      | receiver d =>
        rcases DynamicType.widenReceiver_cases static d with heq | heq
        · exact hsame (by rw [Knowledge.widen, heq])
        · refine .inl ?_
          rw [widen, Knowledge.widen, heq]
          exact unknown_join j _
      | object v d =>
        have hprimitive : l.isPrimitive = false := (Knowledge.isPrimitive_of_join hknown).1
        have hparts : Except.ok (Knowledge.object (v.join l.abstractValue) (d.join j.program l.joinableType)) =
            (Except.ok (Knowledge.object v d) : Guarded Knowledge) := (Knowledge.join_object v d hprimitive).symm.trans hknown
        obtain ⟨hv, hd⟩ := Knowledge.object.inj (Except.ok.inj hparts)
        rcases DynamicType.widen_cases j.program static d with heq | heq | ⟨t, e, n, rfl, hn, heq⟩
        · exact hsame (by rw [Knowledge.widen, heq])
        · refine .inl ?_
          rw [widen, Knowledge.widen, heq]
          exact join_ofKnowledge_unknown hprimitive hv
        · refine .inr ⟨v, n, l, ?_, rfl, hn, hprimitive, hv, ?_⟩
          · rw [widen, Knowledge.widen, heq, ofKnowledge_bounded]
          · have hnull := DynamicType.nullability_join j.program (.bounded t e n) l.joinableType
            rw [hd] at hnull
            exact hnull.symm

/-- A join has taken in its right side, unless the static type leaves nothing of it. -/
theorem join_join_right (hp : j.program.Rooted) (h : m.join j c = .ok q) (hm : m.Plain) (hc : c.Plain) :
    q.join j c = .ok q ∨ ∀ static, q.widen j.program static = unknown := by
  cases c with
  | bottom => exact .inl (join_bottom j q)
  | unknown =>
    rw [join_unknown] at h
    cases h
    exact .inl rfl
  | concrete t =>
    obtain ⟨l, flows⟩ := t
    obtain rfl : flows = [] := hc.1
    cases hl : l.isUnknown with
    | false =>
      have hself : (concrete ⟨l, []⟩).join j (concrete ⟨l, []⟩) = .ok (concrete ⟨l, []⟩) :=
        join_concrete_eq_iff.2 (.inr ⟨_, rfl, Knowledge.join_self _ l, hl, rfl, Nat.zero_le _⟩)
      exact .inl (absorbs_join hp (passes_of_canonical hm.2 hc.2 hc.2) h (.inr hself))
    | true =>
      cases m with
      | bottom =>
        cases h
        refine .inr fun static => ?_
        rw [widen, ofKnowledge, if_pos]
        exact Knowledge.isUnknown_widen hl static
      | unknown =>
        rw [unknown_join] at h
        cases h
        exact .inl rfl
      | concrete s =>
        obtain ⟨k, flows⟩ := s
        obtain rfl : flows = [] := hm.1
        rw [join_concrete] at h
        obtain ⟨known, hknown, h⟩ := bind_eq_ok.1 h
        have h := pure_eq_ok.1 h
        rw [ofKnowledge, if_pos (Knowledge.isUnknown_join hknown (.inr hl))] at h
        subst h
        exact .inl rfl

/-- What arrives at a place is kept by it. -/
theorem keeps_of_join (hp : j.program.Rooted) (h : m.join j c = .ok q) (hm : m.Plain) (hc : c.Plain) (static : Descriptor) :
    Keeps j static (q.widen j.program static) c := by
  rcases join_join_right hp h hm hc with hself | hwiden
  · exact keeps_widen hself (plain_join h hm hc) hc static
  · rw [hwiden static]
    exact .inl (unknown_join j c)

/-- A place at its limit stays there. -/
theorem atLimit_join_widen (hp : j.program.Rooted) (h : m.join j x = .ok q) (hm : m.Canonical) (hx : x.Plain) (hc : c.Canonical)
    (hlimit : AtLimit static m c) : Keeps j static (q.widen j.program static) c := by
  obtain ⟨v, n, k, rfl, rfl, hn, hprimitive, hv, hnull⟩ := hlimit
  cases x with
  | bottom =>
    cases h
    refine .inr ⟨v, n, k, ?_, rfl, hn, hprimitive, hv, hnull⟩
    rw [widen, Knowledge.widen, DynamicType.widen_of_over hp (.inr (.refl static)), if_neg hn, ofKnowledge_bounded]
  | unknown =>
    cases h
    exact .inl (unknown_join j _)
  | concrete t =>
    obtain ⟨l, flows⟩ := t
    obtain rfl : flows = [] := hx.1
    rw [join_concrete] at h
    obtain ⟨known, hknown, h⟩ := bind_eq_ok.1 h
    obtain rfl := pure_eq_ok.1 h
    rw [Knowledge.join_object v _ (Knowledge.isPrimitive_of_join hknown).1] at hknown
    cases hknown
    have hv' : (v.join l.abstractValue).join k.abstractValue = v.join l.abstractValue :=
      AbstractValue.Canonical.passes (a := v) (b := l.abstractValue) hm hx.2 hc (.inl hv)
    rw [widen_ofKnowledge, Knowledge.widen, DynamicType.widen_join_static hp]
    split
    · exact .inl (join_ofKnowledge_unknown hprimitive hv')
    · next hn' => exact .inr ⟨_, _, k, ofKnowledge_bounded _ _ _ _ _, rfl, hn', hprimitive, hv', Nullability.absorbs_join (.inl hnull)⟩

/-- **A place keeps what it has taken in, whatever else arrives.** -/
theorem keeps_join_widen (hp : j.program.Rooted) (h : m.join j x = .ok q) (hm : m.Plain) (hx : x.Plain) (hc : c.Plain)
    (hkeeps : Keeps j static m c) : Keeps j static (q.widen j.program static) c := by
  rcases hkeeps with habsorbed | hlimit
  · have hq := absorbs_join hp (passes_of_canonical hm.2 hx.2 hc.2) h (.inl habsorbed)
    exact keeps_widen hq (plain_join h hm hx) hc static
  · exact atLimit_join_widen hp h hm.2 hx hc.2 hlimit

/-- **What a place keeps makes no difference to it.** -/
theorem Keeps.retains (hp : j.program.Rooted) (h : Keeps j static m c) : Retains j static m c := by
  rcases h with habsorbed | ⟨v, n, k, rfl, rfl, hn, hprimitive, hv, hnull⟩
  · exact ⟨m, habsorbed, .inl rfl⟩
  · rw [Retains, join_concrete, Knowledge.join_object v _ hprimitive, hv]
    refine ⟨_, rfl, .inr ?_⟩
    rw [widen_ofKnowledge, Knowledge.widen, DynamicType.widen_join_static hp, hnull, if_neg hn, ofKnowledge_bounded]

end ValueState

end DexShrinker
