/-
  DexShrinker/Proofs/Flow/Order.lean
  ==================================
  **Up to their bounds, states can be joined in any order.**

  The least upper bound of two types need not be the least one: of a class and an interface
  above it this is the interface, but of two classes below the interface it is a common
  superclass. So the bound of a join depends on the order of its parts
  (`ValueState.joinAll_depends_on_order`). Nothing else does: without their bounds states are
  joined part by part, and every part is a semilattice (`ValueState.loosen_join_right_comm`). The
  bound does not either, as long as it is a type to which joins are kept, such as a class that
  no interface leads to (`ValueState.joinAll_perm`).
-/
import DexShrinker.Proofs.Flow.AtRest

namespace DexShrinker

/-! ### Bounds -/

theorem Nullability.join_comm (n m : Nullability) : n.join m = m.join n := by
  cases n <;> cases m <;> rfl

theorem Nullability.join_right_comm (n m k : Nullability) : (n.join m).join k = (n.join k).join m := by
  cases n <;> cases m <;> cases k <;> rfl

theorem Program.Over.antisymm {p : Program} (hp : p.Rooted) {a b : Descriptor} (hab : p.Over b a) (hba : p.Over a b) : a = b := by
  rcases hab with rfl | hab
  · exact (Program.over_object hp).1 hba
  · rcases hba with rfl | hba
    · exact ((Program.over_object hp).1 (.inr hab)).symm
    · exact hab.antisymm hp hba

namespace DynamicType

variable {p : Program} {d e f : DynamicType}

/-- The same, whatever class it is that an object may be below. -/
def loosen : DynamicType → DynamicType
  | bounded _ false n => bounded .object false n
  | d => d

/-- Only the same exact bound on both sides is kept. -/
theorem join_bounded (p : Program) (t t' : Descriptor) (x x' : Bool) (n n' : Nullability) :
    ∃ w y, (bounded t x n).join p (bounded t' x' n') = bounded w y (n.join n') ∧
      (y = true ↔ t = t' ∧ x = true ∧ x' = true) ∧ (y = true → w = t) := by
  rw [join]
  split
  · next heq => exact ⟨t, x && x', rfl, by simp [heq], fun _ => rfl⟩
  · next hne => exact ⟨_, false, rfl, by simp [hne], by simp⟩

theorem loosen_bounded (t : Descriptor) (x : Bool) (n : Nullability) :
    (bounded t x n).loosen = if x = true then bounded t true n else bounded .object false n := by
  cases x <;> rfl

@[simp] theorem loosen_eq_bottom_iff : d.loosen = bottom ↔ d = bottom := by
  cases d with
  | bounded t x n => cases x <;> simp [loosen]
  | _ => simp [loosen]

@[simp] theorem loosen_eq_unknown_iff : d.loosen = unknown ↔ d = unknown := by
  cases d with
  | bounded t x n => cases x <;> simp [loosen]
  | _ => simp [loosen]

theorem loosen_withNullability (h : d.loosen = e.loosen) (n : Nullability) :
    (d.withNullability n).loosen = (e.withNullability n).loosen := by
  have hcomm (d : DynamicType) : (d.withNullability n).loosen = d.loosen.withNullability n := by
    cases d with
    | bounded t x m => cases x <;> rfl
    | _ => rfl
  rw [hcomm, hcomm, h]

theorem loosen_join_bounded (p : Program) (t t' : Descriptor) (x x' : Bool) (n n' : Nullability) :
    ((bounded t x n).join p (bounded t' x' n')).loosen =
      if t = t' ∧ x = true ∧ x' = true then bounded t true (n.join n') else bounded .object false (n.join n') := by
  obtain ⟨w, y, heq, hy, hw⟩ := join_bounded p t t' x x' n n'
  rw [heq, loosen_bounded]
  grind

/-- A join without bounds depends on its left side without bounds. -/
theorem loosen_join_congr (h : d.loosen = e.loosen) (f : DynamicType) : (d.join p f).loosen = (e.join p f).loosen := by
  cases d with
  | bottom => rw [loosen_eq_bottom_iff.1 h.symm]
  | unknown => rw [loosen_eq_unknown_iff.1 h.symm]
  | bounded t x n =>
    cases e with
    | bottom => cases loosen_eq_bottom_iff.1 h
    | unknown => cases loosen_eq_unknown_iff.1 h
    | bounded t' x' n' =>
      cases f with
      | bottom => exact h
      | unknown => rfl
      | bounded t'' x'' n'' =>
        rw [loosen_join_bounded, loosen_join_bounded]
        rw [loosen_bounded, loosen_bounded] at h
        grind

theorem loosen_join_comm (p : Program) (d e : DynamicType) : (d.join p e).loosen = (e.join p d).loosen := by
  cases d <;> cases e <;> try rfl
  rw [loosen_join_bounded, loosen_join_bounded, Nullability.join_comm]
  grind

theorem loosen_join_right_comm (p : Program) (d e f : DynamicType) :
    ((d.join p e).join p f).loosen = ((d.join p f).join p e).loosen := by
  cases e with
  | bottom => rw [join_bottom, join_bottom]
  | unknown => rw [join_unknown, unknown_join, join_unknown]
  | bounded t' x' n' =>
    cases f with
    | bottom => rw [join_bottom, join_bottom]
    | unknown => rw [join_unknown, join_unknown, unknown_join]
    | bounded t'' x'' n'' =>
      cases d with
      | bottom => exact loosen_join_comm p _ _
      | unknown => rw [unknown_join, unknown_join, unknown_join]
      | bounded t x n =>
        obtain ⟨w, y, heq, hy, hw⟩ := join_bounded p t t' x x' n n'
        obtain ⟨w', y', heq', hy', hw'⟩ := join_bounded p t t'' x x'' n n''
        rw [heq, heq', loosen_join_bounded, loosen_join_bounded, Nullability.join_right_comm n n' n'']
        grind

theorem isSome_bound?_congr (h : d.loosen = e.loosen) : d.bound?.isSome = e.bound?.isSome := by
  have hloosen (d : DynamicType) : d.loosen.bound?.isSome = d.bound?.isSome := by
    cases d with
    | bounded t x n => cases x <;> rfl
    | _ => rfl
  rw [← hloosen, h, hloosen]

theorem eq_of_loosen_eq (h : d.loosen = e.loosen) (hbound : d.bound? = e.bound?) : d = e := by
  cases d with
  | bottom => exact (loosen_eq_bottom_iff.1 h.symm).symm
  | unknown => exact (loosen_eq_unknown_iff.1 h.symm).symm
  | bounded t x n =>
    cases e with
    | bounded t' x' n' =>
      cases hbound
      rw [loosen_bounded, loosen_bounded] at h
      grind
    | _ => cases hbound

/-- No object is known but ones of types that `t` is over. -/
def Under (p : Program) (t : Descriptor) : DynamicType → Prop
  | bottom => True
  | bounded s _ _ => p.Over t s
  | unknown => False

theorem under_of_join (hp : p.Rooted) {t : Descriptor} (h : (d.join p e).Under p t) : d.Under p t ∧ e.Under p t := by
  cases d with
  | bottom => exact ⟨trivial, h⟩
  | unknown =>
    rw [unknown_join] at h
    exact h.elim
  | bounded s x n =>
    cases e with
    | bottom => exact ⟨h, trivial⟩
    | unknown => exact h.elim
    | bounded s' x' n' =>
      rw [join] at h
      split at h
      · next heq => exact ⟨h, heq ▸ h⟩
      · obtain ⟨hleft, hright⟩ := Program.over_leastUpperBound hp s s'
        exact ⟨hleft.trans hp h, hright.trans hp h⟩

/-- A type to which joins are kept stays over them. -/
theorem under_join {t : Descriptor} (ht : p.Joinable t) (hd : d.Under p t) (he : e.Under p t) : (d.join p e).Under p t := by
  cases d with
  | bottom => exact he
  | unknown => exact hd.elim
  | bounded s x n =>
    cases e with
    | bottom => exact hd
    | unknown => exact he.elim
    | bounded s' x' n' =>
      rw [join]
      split
      · exact hd
      · change p.Over t (p.leastUpperBound s s')
        rcases hd with rfl | hd
        · exact .inl rfl
        · rcases he with rfl | he
          · exact .inl rfl
          · exact .inr (ht s s' hd he)

end DynamicType

/-! ### What is known -/

namespace Knowledge

variable {p : Program} {k l m k' l' m' : Knowledge}

/-- The same, whatever class it is that an object may be below. -/
def loosen : Knowledge → Knowledge
  | object v d => object v d.loosen
  | receiver d => receiver d.loosen
  | k => k

/-- Without its bound, what is known is known by its parts. -/
theorem loosen_eq_iff : k.loosen = l.loosen ↔ k.isPrimitive = l.isPrimitive ∧ k.abstractValue = l.abstractValue ∧
    k.joinableType.loosen = l.joinableType.loosen ∧ k.array? = l.array? ∧
    k.receiver?.map DynamicType.loosen = l.receiver?.map DynamicType.loosen := by
  constructor
  · intro h
    cases k <;> cases l <;> simp only [loosen, array.injEq, object.injEq, primitive.injEq, receiver.injEq, reduceCtorEq] at h
    · subst h
      exact ⟨rfl, rfl, rfl, rfl, rfl⟩
    · exact ⟨rfl, h.1, h.2, rfl, rfl⟩
    · exact ⟨rfl, h, rfl, rfl, rfl⟩
    · exact ⟨rfl, rfl, DynamicType.loosen_withNullability h _, rfl, congrArg some h⟩
  · rintro ⟨hprimitive, hvalue, htype, harray, hreceiver⟩
    cases k <;> cases l <;> simp [isPrimitive, array?, receiver?] at hprimitive harray hreceiver
    · rw [harray]
    · rename_i v d w e
      obtain rfl : v = w := hvalue
      exact congrArg (object v) htype
    · exact congrArg primitive hvalue
    · exact congrArg receiver hreceiver

@[simp] theorem isUnknown_loosen (k : Knowledge) : k.loosen.isUnknown = k.isUnknown := by
  have htype (d : DynamicType) : d.loosen.isUnknown = d.isUnknown := by
    cases d with
    | bounded t x n => cases x <;> rfl
    | _ => rfl
  cases k with
  | object v d => exact congrArg (v.isUnknown && ·) (htype d)
  | receiver d => exact htype d
  | _ => rfl

theorem eq_of_loosen_eq (h : k.loosen = l.loosen) (hbound : k.joinableType.bound? = l.joinableType.bound?) : k = l := by
  have hnull (d : DynamicType) (n : Nullability) : (d.withNullability n).bound? = d.bound? := by cases d <;> rfl
  cases k <;> cases l <;> simp only [loosen, array.injEq, object.injEq, primitive.injEq, receiver.injEq, reduceCtorEq] at h ⊢
  · exact h
  · exact ⟨h.1, DynamicType.eq_of_loosen_eq h.2 hbound⟩
  · exact h
  · simp only [joinableType, hnull] at hbound
    exact DynamicType.eq_of_loosen_eq h hbound

theorem exists_join (h : k.isPrimitive = l.isPrimitive) : ∃ m, k.join p l = .ok m := by
  cases k <;> cases l <;> first | exact ⟨_, rfl⟩ | cases h

/-- Joins without bounds depend on their left sides without bounds. -/
theorem loosen_join_congr (hk : k.loosen = k'.loosen) (h : k.join p l = .ok m) (h' : k'.join p l = .ok m') : m.loosen = m'.loosen := by
  obtain ⟨hprimitive, hvalue, htype, harray, hreceiver⟩ := loosen_eq_iff.1 hk
  obtain ⟨hv, ht, ha, hr⟩ := parts_of_join h
  obtain ⟨hv', ht', ha', hr'⟩ := parts_of_join h'
  refine loosen_eq_iff.2 ⟨?_, ?_, ?_, ?_, ?_⟩
  · rw [(isPrimitive_of_join h).2, (isPrimitive_of_join h').2, hprimitive]
  · rw [hv, hv', hvalue]
  · rw [ht, ht', DynamicType.loosen_join_congr htype]
  · rw [ha, ha', harray]
  · rw [hr, hr']
    revert hreceiver
    cases k.receiver? <;> cases k'.receiver? <;> cases l.receiver? <;> simp
    exact fun hloosen => DynamicType.loosen_join_congr hloosen _

theorem loosen_join_comm (hk : k.Canonical) (hl : l.Canonical) (h : k.join p l = .ok m) (h' : l.join p k = .ok m') :
    m.loosen = m'.loosen := by
  obtain ⟨hv, ht, ha, hr⟩ := parts_of_join h
  obtain ⟨hv', ht', ha', hr'⟩ := parts_of_join h'
  refine loosen_eq_iff.2 ⟨?_, ?_, ?_, ?_, ?_⟩
  · rw [(isPrimitive_of_join h).2, (isPrimitive_of_join h').2, (isPrimitive_of_join h).1]
  · rw [hv, hv', AbstractValue.join_comm hk hl]
  · rw [ht, ht', DynamicType.loosen_join_comm]
  · rw [ha, ha']
    cases k.array? <;> cases l.array? <;> simp [Nullability.join_comm]
  · rw [hr, hr']
    cases k.receiver? <;> cases l.receiver? <;> simp [DynamicType.loosen_join_comm]

theorem loosen_join_right_comm {a b ka kb kab kba : Knowledge} (hk : k.Canonical) (ha : a.Canonical) (hb : b.Canonical)
    (h₁ : k.join p a = .ok ka) (h₂ : ka.join p b = .ok kab) (h₃ : k.join p b = .ok kb) (h₄ : kb.join p a = .ok kba) :
    kab.loosen = kba.loosen := by
  obtain ⟨hv₁, ht₁, ha₁, hr₁⟩ := parts_of_join h₁
  obtain ⟨hv₂, ht₂, ha₂, hr₂⟩ := parts_of_join h₂
  obtain ⟨hv₃, ht₃, ha₃, hr₃⟩ := parts_of_join h₃
  obtain ⟨hv₄, ht₄, ha₄, hr₄⟩ := parts_of_join h₄
  refine loosen_eq_iff.2 ⟨?_, ?_, ?_, ?_, ?_⟩
  · rw [(isPrimitive_of_join h₂).2, (isPrimitive_of_join h₁).2, (isPrimitive_of_join h₄).2, (isPrimitive_of_join h₃).2]
  · rw [hv₂, hv₁, hv₄, hv₃, AbstractValue.join_right_comm hk ha hb]
  · rw [ht₂, ht₁, ht₄, ht₃, DynamicType.loosen_join_right_comm]
  · rw [ha₂, ha₁, ha₄, ha₃]
    cases k.array? <;> cases a.array? <;> cases b.array? <;> simp
    exact Nullability.join_right_comm _ _ _
  · rw [hr₂, hr₁, hr₄, hr₃]
    cases k.receiver? <;> cases a.receiver? <;> cases b.receiver? <;> simp
    exact DynamicType.loosen_join_right_comm p _ _ _

end Knowledge

/-! ### Sources -/

namespace InFlows

variable {a b c : InFlows}

theorem union_comm (a b : InFlows) : a.union b = b.union a := ofList_congr (by simp [or_comm])

theorem union_right_comm (a b c : InFlows) : (a.union b).union c = (a.union c).union b :=
  ofList_congr fun f => by
    simp only [List.mem_append, mem_union]
    tauto

theorem nodup_union (a b : InFlows) : (a.union b).Nodup := by
  have hdistinct := Std.TreeSet.distinct_toList (t := (.ofList (a ++ b) : Std.TreeSet InFlow))
  refine List.Pairwise.imp (fun {x y} hne => ?_) hdistinct
  rintro rfl
  exact hne Std.compare_self

/-- Sources only become more. -/
theorem length_union_le (a b c : InFlows) : (a.union b).length ≤ ((a.union b).union c).length :=
  ((nodup_union a b).subperm fun _ hf => mem_union.2 (.inl hf)).length_le

end InFlows

/-! ### States -/

namespace ValueState

variable {j : Joiner} {a b c x y : ValueState} {isPrimitive : Bool}

/-- The same, whatever class it is that an object may be below. -/
def loosen : ValueState → ValueState
  | concrete s => concrete ⟨s.known.loosen, s.inFlow⟩
  | s => s

theorem bottom_join (j : Joiner) (a : ValueState) : bottom.join j a = .ok a := by
  cases a <;> rfl

/-- The state is one of a number, or of a reference. -/
def OfKind (isPrimitive : Bool) (s : ValueState) : Prop := ∀ t, s = concrete t → t.known.isPrimitive = isPrimitive

/-- A state as joins take it: in canonical form, and of a number or of a reference. -/
def Regular (isPrimitive : Bool) (s : ValueState) : Prop := s.Canonical ∧ s.OfKind isPrimitive

/-- What is known with its sources, unless there are too many or nothing is known. -/
def limited (j : Joiner) (k : Knowledge) (flows : InFlows) : ValueState :=
  if flows.length > j.maxInFlow ∨ k.isUnknown = true then unknown else concrete ⟨k, flows⟩

theorem join_concretes {s t : ConcreteState} {k : Knowledge} (h : s.known.join j.program t.known = .ok k) :
    (concrete s).join j (concrete t) = .ok (limited j k (s.inFlow.union t.inFlow)) := by
  rw [join, h, ok_bind]
  change Except.ok (if (s.inFlow.union t.inFlow).length > j.maxInFlow then unknown else _) = _
  by_cases hmax : (s.inFlow.union t.inFlow).length > j.maxInFlow
  · rw [if_pos hmax, limited, if_pos (.inl hmax)]
  · rw [if_neg hmax, ofKnowledge, limited]
    simp only [hmax, false_or]

theorem exists_of_join_concretes {s t : ConcreteState} (h : (concrete s).join j (concrete t) = .ok c) :
    ∃ k, s.known.join j.program t.known = .ok k ∧ c = limited j k (s.inFlow.union t.inFlow) := by
  cases hk : s.known.join j.program t.known with
  | error e => rw [join, hk] at h; cases h
  | ok k =>
    rw [join_concretes hk] at h
    exact ⟨k, rfl, (Except.ok.inj h).symm⟩

theorem loosen_limited {k k' : Knowledge} (h : k.loosen = k'.loosen) (flows : InFlows) :
    (limited j k flows).loosen = (limited j k' flows).loosen := by
  have hunknown : k.isUnknown = k'.isUnknown := by rw [← k.isUnknown_loosen, h, k'.isUnknown_loosen]
  rw [limited, limited, hunknown]
  split
  · rfl
  · rw [loosen, h]
    rfl

theorem exists_join_ofKind (ha : a.OfKind isPrimitive) (hb : b.OfKind isPrimitive) :
    ∃ c, a.join j b = .ok c ∧ c.OfKind isPrimitive := by
  cases a with
  | bottom => cases b <;> exact ⟨_, rfl, hb⟩
  | unknown => exact ⟨_, unknown_join j b, nofun⟩
  | concrete s =>
    cases b with
    | bottom => exact ⟨_, rfl, ha⟩
    | unknown => exact ⟨_, rfl, nofun⟩
    | concrete t =>
      obtain ⟨k, hk⟩ := Knowledge.exists_join (p := j.program) ((ha s rfl).trans (hb t rfl).symm)
      refine ⟨_, join_concretes hk, ?_⟩
      intro u hu
      unfold limited at hu
      split at hu
      · cases hu
      · cases hu
        exact (Knowledge.isPrimitive_of_join hk).2.trans (ha s rfl)

/-- Two joins are one of what is known and of all sources. -/
theorem join_join_concrete {s t u : ConcreteState} {m m' : ValueState} (hs : (concrete s).OfKind isPrimitive)
    (ht : (concrete t).OfKind isPrimitive) (hu : (concrete u).OfKind isPrimitive) (h : (concrete s).join j (concrete t) = .ok m)
    (h' : m.join j (concrete u) = .ok m') :
    ∃ k k', s.known.join j.program t.known = .ok k ∧ k.join j.program u.known = .ok k' ∧
      m' = limited j k' ((s.inFlow.union t.inFlow).union u.inFlow) := by
  obtain ⟨k, hk⟩ := Knowledge.exists_join (p := j.program) ((hs s rfl).trans (ht t rfl).symm)
  obtain ⟨k', hk'⟩ := Knowledge.exists_join (p := j.program) (k := k) (l := u.known)
    (((Knowledge.isPrimitive_of_join hk).2.trans (hs s rfl)).trans (hu u rfl).symm)
  refine ⟨k, k', hk, hk', ?_⟩
  rw [join_concretes hk] at h
  cases h
  rw [limited] at h'
  split at h'
  · next hwhy =>
    -- What is given up on is given up on in the end.
    have hwhy' : ((s.inFlow.union t.inFlow).union u.inFlow).length > j.maxInFlow ∨ k'.isUnknown = true :=
      hwhy.imp (Nat.lt_of_lt_of_le · (InFlows.length_union_le _ _ _)) fun hk => Knowledge.isUnknown_join hk' (.inl hk)
    rw [unknown_join] at h'
    rw [limited, if_pos hwhy']
    exact (Except.ok.inj h').symm
  · rw [join_concretes hk'] at h'
    exact (Except.ok.inj h').symm

/-- **Up to bounds, states can be joined in any order.** -/
theorem loosen_join_right_comm {ax axy ay ayx : ValueState} (ha : a.Regular isPrimitive) (hx : x.Regular isPrimitive)
    (hy : y.Regular isPrimitive) (h₁ : a.join j x = .ok ax) (h₂ : ax.join j y = .ok axy) (h₃ : a.join j y = .ok ay)
    (h₄ : ay.join j x = .ok ayx) : axy.loosen = ayx.loosen := by
  cases x with
  | bottom =>
    rw [join_bottom] at h₁ h₄
    cases h₁
    cases h₄
    cases h₂.symm.trans h₃
    rfl
  | unknown =>
    rw [join_unknown] at h₁ h₄
    cases h₁
    cases h₄
    rw [unknown_join] at h₂
    cases h₂
    rfl
  | concrete s =>
    cases y with
    | bottom =>
      rw [join_bottom] at h₂ h₃
      cases h₂
      cases h₃
      cases h₁.symm.trans h₄
      rfl
    | unknown =>
      rw [join_unknown] at h₂ h₃
      cases h₂
      cases h₃
      rw [unknown_join] at h₄
      cases h₄
      rfl
    | concrete t =>
      cases a with
      | bottom =>
        cases h₁
        cases h₃
        obtain ⟨k, hk⟩ := Knowledge.exists_join (p := j.program) ((hx.2 s rfl).trans (hy.2 t rfl).symm)
        obtain ⟨l, hl⟩ := Knowledge.exists_join (p := j.program) ((hy.2 t rfl).trans (hx.2 s rfl).symm)
        rw [join_concretes hk] at h₂
        rw [join_concretes hl] at h₄
        cases h₂
        cases h₄
        rw [InFlows.union_comm]
        exact loosen_limited (Knowledge.loosen_join_comm hx.1 hy.1 hk hl) _
      | unknown =>
        rw [unknown_join] at h₁ h₃
        cases h₁
        cases h₃
        rw [unknown_join] at h₂ h₄
        cases h₂
        cases h₄
        rfl
      | concrete r =>
        obtain ⟨k, k', hk, hk', rfl⟩ := join_join_concrete ha.2 hx.2 hy.2 h₁ h₂
        obtain ⟨l, l', hl, hl', rfl⟩ := join_join_concrete ha.2 hy.2 hx.2 h₃ h₄
        rw [InFlows.union_right_comm]
        exact loosen_limited (Knowledge.loosen_join_right_comm ha.1 hx.1 hy.1 hk hk' hl hl') _

/-- A join without its bound depends on its left side without its bound. -/
theorem loosen_join_congr {a' c' : ValueState} (ha : a.loosen = a'.loosen) (h : a.join j b = .ok c) (h' : a'.join j b = .ok c') :
    c.loosen = c'.loosen := by
  cases a with
  | bottom =>
    cases a' with
    | bottom => rw [Except.ok.inj (h.symm.trans h')]
    | _ => cases ha
  | unknown =>
    cases a' with
    | unknown => rw [Except.ok.inj (h.symm.trans h')]
    | _ => cases ha
  | concrete s =>
    cases a' with
    | concrete s' =>
      obtain ⟨hknown, hflows⟩ := ConcreteState.mk.inj (concrete.inj ha)
      cases b with
      | bottom =>
        cases h
        cases h'
        exact ha
      | unknown =>
        cases h
        cases h'
        rfl
      | concrete t =>
        obtain ⟨k, hk, rfl⟩ := exists_of_join_concretes h
        obtain ⟨k', hk', rfl⟩ := exists_of_join_concretes h'
        rw [hflows]
        exact loosen_limited (Knowledge.loosen_join_congr hknown hk hk') _
    | _ => cases ha

/-! ### Lists of states -/

theorem exists_join_regular (ha : a.Regular isPrimitive) (hb : b.Regular isPrimitive) :
    ∃ c, a.join j b = .ok c ∧ c.Regular isPrimitive := by
  obtain ⟨c, hc, hkind⟩ := exists_join_ofKind (j := j) ha.2 hb.2
  exact ⟨c, hc, canonical_join hc ha.1 hb.1, hkind⟩

/-- The join of all states of a list, one after the other. -/
def joinAll (j : Joiner) (l : List ValueState) : Guarded ValueState := l.foldlM (join j) bottom

theorem foldlM_join_congr {l : List ValueState} (hl : ∀ s ∈ l, s.Regular isPrimitive) {a a' : ValueState}
    (ha : a.Regular isPrimitive) (ha' : a'.Regular isPrimitive) (hloosen : a.loosen = a'.loosen) :
    ∃ r r', l.foldlM (join j) a = .ok r ∧ l.foldlM (join j) a' = .ok r' ∧ r.loosen = r'.loosen := by
  induction l generalizing a a' with
  | nil => exact ⟨a, a', rfl, rfl, hloosen⟩
  | cons x l ih =>
    obtain ⟨hx, hl⟩ := List.forall_mem_cons.1 hl
    obtain ⟨c, hc, hcj⟩ := exists_join_regular (j := j) ha hx
    obtain ⟨c', hc', hcj'⟩ := exists_join_regular (j := j) ha' hx
    rw [List.foldlM_cons, List.foldlM_cons, hc, hc']
    exact ih hl hcj hcj' (loosen_join_congr hloosen hc hc')

theorem foldlM_join_perm {l l' : List ValueState} (hperm : l.Perm l') (hl : ∀ s ∈ l, s.Regular isPrimitive)
    {a a' : ValueState} (ha : a.Regular isPrimitive) (ha' : a'.Regular isPrimitive) (hloosen : a.loosen = a'.loosen) :
    ∃ r r', l.foldlM (join j) a = .ok r ∧ l'.foldlM (join j) a' = .ok r' ∧ r.loosen = r'.loosen := by
  induction hperm generalizing a a' with
  | nil => exact ⟨a, a', rfl, rfl, hloosen⟩
  | cons x hperm ih =>
    obtain ⟨hx, hl⟩ := List.forall_mem_cons.1 hl
    obtain ⟨c, hc, hcj⟩ := exists_join_regular (j := j) ha hx
    obtain ⟨c', hc', hcj'⟩ := exists_join_regular (j := j) ha' hx
    rw [List.foldlM_cons, List.foldlM_cons, hc, hc']
    exact ih hl hcj hcj' (loosen_join_congr hloosen hc hc')
  | swap x y l =>
    obtain ⟨hy, hl⟩ := List.forall_mem_cons.1 hl
    obtain ⟨hx, hl⟩ := List.forall_mem_cons.1 hl
    obtain ⟨c, hc, hcj⟩ := exists_join_regular (j := j) ha hy
    obtain ⟨d, hd, hdj⟩ := exists_join_regular (j := j) hcj hx
    obtain ⟨e, he, hej⟩ := exists_join_regular (j := j) ha hx
    obtain ⟨f, hf, -⟩ := exists_join_regular (j := j) hej hy
    obtain ⟨c', hc', hcj'⟩ := exists_join_regular (j := j) ha' hx
    obtain ⟨d', hd', hdj'⟩ := exists_join_regular (j := j) hcj' hy
    have hsame : d.loosen = d'.loosen :=
      (loosen_join_right_comm ha hy hx hc hd he hf).trans (loosen_join_congr (loosen_join_congr hloosen he hc') hf hd')
    simp only [List.foldlM_cons, hc, hc', hd, hd', ok_bind]
    exact foldlM_join_congr hl hdj hdj' hsame
  | trans hperm _ ih ih' =>
    obtain ⟨r, s, hr, hs, hrs⟩ := ih hl ha ha rfl
    obtain ⟨s', r', hs', hr', hrs'⟩ := ih' (fun x hx => hl x (hperm.mem_iff.2 hx)) ha ha' hloosen
    cases hs.symm.trans hs'
    exact ⟨r, r', hr, hr', hrs.trans hrs'⟩

/-! ### Bounds that joins are kept to -/

/-- The bound on the object, if there is one. -/
def bound? : ValueState → Option Descriptor
  | concrete s => s.known.joinableType.bound?
  | _ => none

/-- No object is known but ones of types that `t` is over. -/
def Under (p : Program) (t : Descriptor) : ValueState → Prop
  | bottom => True
  | concrete s => s.known.joinableType.Under p t
  | unknown => False

theorem under_of_bound? {p : Program} {t : Descriptor} (h : a.bound? = some t) : a.Under p t := by
  cases a with
  | concrete s =>
    change s.known.joinableType.Under p t
    cases htype : s.known.joinableType with
    | bounded t' x n =>
      rw [bound?, htype] at h
      cases h
      exact .inr (.refl t)
    | _ => rw [bound?, htype] at h; cases h
  | _ => cases h

theorem Under.over {p : Program} {t t' : Descriptor} (h : a.Under p t) (hbound : a.bound? = some t') : p.Over t t' := by
  cases a with
  | concrete s =>
    change s.known.joinableType.Under p t at h
    cases htype : s.known.joinableType with
    | bounded t' x n =>
      rw [bound?, htype] at hbound
      rw [htype] at h
      cases hbound
      exact h
    | _ => rw [bound?, htype] at hbound; cases hbound
  | _ => cases hbound

theorem isSome_bound?_congr (h : a.loosen = b.loosen) : a.bound?.isSome = b.bound?.isSome := by
  cases a <;> cases b <;> try cases h
  all_goals try rfl
  obtain ⟨hknown, -⟩ := ConcreteState.mk.inj (concrete.inj h)
  exact DynamicType.isSome_bound?_congr (Knowledge.loosen_eq_iff.1 hknown).2.2.1

theorem eq_of_loosen_eq (h : a.loosen = b.loosen) (hbound : a.bound? = b.bound?) : a = b := by
  cases a <;> cases b <;> try cases h
  all_goals try rfl
  rename_i s t
  obtain ⟨hknown, hflows⟩ := ConcreteState.mk.inj (concrete.inj h)
  cases s
  cases t
  cases Knowledge.eq_of_loosen_eq hknown hbound
  cases hflows
  rfl

theorem under_of_join (hp : j.program.Rooted) {t : Descriptor} (h : a.join j b = .ok c) (hc : c.Under j.program t) :
    a.Under j.program t ∧ b.Under j.program t := by
  cases a with
  | bottom =>
    rw [bottom_join] at h
    cases h
    exact ⟨trivial, hc⟩
  | unknown =>
    rw [unknown_join] at h
    cases h
    exact hc.elim
  | concrete s =>
    cases b with
    | bottom =>
      cases h
      exact ⟨hc, trivial⟩
    | unknown =>
      cases h
      exact hc.elim
    | concrete u =>
      obtain ⟨k, hk, rfl⟩ := exists_of_join_concretes h
      unfold limited at hc
      split at hc
      · exact hc.elim
      · change k.joinableType.Under j.program t at hc
        rw [(Knowledge.parts_of_join hk).2.1] at hc
        exact DynamicType.under_of_join hp hc

theorem under_join {t : Descriptor} (ht : j.program.Joinable t) (h : a.join j b = .ok c) (hc : c ≠ unknown)
    (ha : a.Under j.program t) (hb : b.Under j.program t) : c.Under j.program t := by
  cases a with
  | bottom =>
    rw [bottom_join] at h
    cases h
    exact hb
  | unknown => exact ha.elim
  | concrete s =>
    cases b with
    | bottom =>
      cases h
      exact ha
    | unknown => exact hb.elim
    | concrete u =>
      obtain ⟨k, hk, rfl⟩ := exists_of_join_concretes h
      unfold limited at hc ⊢
      split at hc
      · exact absurd rfl hc
      · next hwhy =>
        rw [if_neg hwhy]
        change k.joinableType.Under j.program t
        rw [(Knowledge.parts_of_join hk).2.1]
        exact DynamicType.under_join ht ha hb

/-- What all states together are below, each of them is below. -/
theorem under_of_foldlM_join (hp : j.program.Rooted) {t : Descriptor} {l : List ValueState} {r : ValueState}
    (h : l.foldlM (join j) a = .ok r) (hr : r.Under j.program t) :
    a.Under j.program t ∧ ∀ s ∈ l, s.Under j.program t := by
  induction l generalizing a with
  | nil =>
    cases h
    exact ⟨hr, nofun⟩
  | cons x l ih =>
    rw [List.foldlM_cons] at h
    obtain ⟨c, hc, h⟩ := bind_eq_ok.1 h
    obtain ⟨hunder, hl⟩ := ih h
    obtain ⟨ha, hx⟩ := under_of_join hp hc hunder
    exact ⟨ha, List.forall_mem_cons.2 ⟨hx, hl⟩⟩

theorem unknown_foldlM_join (j : Joiner) (l : List ValueState) : l.foldlM (join j) unknown = .ok unknown := by
  induction l with
  | nil => rfl
  | cons x l ih => rw [List.foldlM_cons, unknown_join, ok_bind, ih]

/-- A type to which joins are kept stays over all states together. -/
theorem under_foldlM_join {t : Descriptor} (ht : j.program.Joinable t) {l : List ValueState} {r : ValueState}
    (h : l.foldlM (join j) a = .ok r) (hr : r ≠ unknown) (ha : a.Under j.program t) (hl : ∀ s ∈ l, s.Under j.program t) :
    r.Under j.program t := by
  induction l generalizing a with
  | nil =>
    cases h
    exact ha
  | cons x l ih =>
    obtain ⟨hx, hl⟩ := List.forall_mem_cons.1 hl
    rw [List.foldlM_cons] at h
    obtain ⟨c, hc, h⟩ := bind_eq_ok.1 h
    have hknown : c ≠ unknown := by
      rintro rfl
      cases (unknown_foldlM_join j l).symm.trans h
      exact hr rfl
    exact ih h (under_join ht hc hknown ha hx) hl

/-- What the states are together below, they are below in any order. -/
theorem over_of_perm (hp : j.program.Rooted) {l l' : List ValueState} (hperm : l.Perm l') {r r' : ValueState}
    (h : joinAll j l = .ok r) (h' : joinAll j l' = .ok r') {t t' : Descriptor} (ht : j.program.Joinable t)
    (hr : r.bound? = some t) (hr' : r'.bound? = some t') : j.program.Over t t' := by
  obtain ⟨-, hl⟩ := under_of_foldlM_join hp h (under_of_bound? hr)
  have hknown : r' ≠ unknown := by
    rintro rfl
    cases hr'
  exact (under_foldlM_join ht h' hknown trivial fun s hs => hl s (hperm.mem_iff.2 hs)).over hr'

/-- **States are joined in any order, up to a bound to which joins are not kept.** -/
theorem joinAll_perm (hp : j.program.Rooted) {l l' : List ValueState} (hperm : l.Perm l') (hl : ∀ s ∈ l, s.Regular isPrimitive) :
    ∃ r r', joinAll j l = .ok r ∧ joinAll j l' = .ok r' ∧ r.loosen = r'.loosen ∧
      ((∀ t, r.bound? = some t → j.program.Joinable t) → (∀ t, r'.bound? = some t → j.program.Joinable t) → r = r') := by
  have hbottom : Regular isPrimitive bottom := ⟨trivial, nofun⟩
  obtain ⟨r, r', h, h', hloosen⟩ := foldlM_join_perm (j := j) hperm hl hbottom hbottom rfl
  refine ⟨r, r', h, h', hloosen, fun hr hr' => eq_of_loosen_eq hloosen ?_⟩
  have hsome := isSome_bound?_congr hloosen
  cases ht : r.bound? with
  | none =>
    rw [ht] at hsome
    exact (Option.isSome_eq_false_iff.1 hsome.symm |> Option.isNone_iff_eq_none.1).symm
  | some t =>
    rw [ht] at hsome
    obtain ⟨t', ht'⟩ := Option.isSome_iff_exists.1 hsome.symm
    rw [ht', (over_of_perm hp hperm h h' (hr t ht) ht ht').antisymm hp (over_of_perm hp hperm.symm h' h (hr' t' ht') ht' ht)]

namespace Samples

open FlowGraph

/-- Some object of a type, or null. -/
def ofBound (t : Descriptor) : ValueState := concrete ⟨.object .unknown (.below t .maybeNull), []⟩

theorem regular_ofBound (t : Descriptor) : (ofBound t).Regular false := by
  refine ⟨trivial, ?_⟩
  rintro s h
  cases h
  rfl

def null (t : Descriptor) : ValueState := concrete ⟨.object .null (.bounded t true .definitelyNull), []⟩

theorem regular_null (t : Descriptor) : (null t).Regular false := by
  refine ⟨trivial, ?_⟩
  rintro s h
  cases h
  rfl

end Samples

open FlowGraph Samples in
/-- A null and objects of two classes meet in the superclass of both, in any order. -/
theorem joinAll_perm_overClass :
    let l := [null (Exchange.type "X"), ofBound (Exchange.type "X"), ofBound (Exchange.type "Y")]
    ∃ r, joinAll (Exchange.joiner Exchange.overClass) l = .ok r ∧ joinAll (Exchange.joiner Exchange.overClass) l.reverse = .ok r ∧
      r.bound? = some (Exchange.type "B") := by
  intro l
  have hl : ∀ s ∈ l, s.Regular false := by
    simp only [l, List.forall_mem_cons]
    exact ⟨regular_null _, regular_ofBound _, regular_ofBound _, nofun⟩
  have hbound : (joinAll (Exchange.joiner Exchange.overClass) l).toOption.all (·.bound? = some (Exchange.type "B")) := by
    decide +kernel
  have hbound' : (joinAll (Exchange.joiner Exchange.overClass) l.reverse).toOption.all (·.bound? = some (Exchange.type "B")) := by
    decide +kernel
  obtain ⟨r, r', h, h', -, heq⟩ := joinAll_perm (j := Exchange.joiner Exchange.overClass) Exchange.rooted l.reverse_perm.symm hl
  rw [h] at hbound
  rw [h'] at hbound'
  replace hbound : r.bound? = some (Exchange.type "B") := of_decide_eq_true hbound
  replace hbound' : r'.bound? = some (Exchange.type "B") := of_decide_eq_true hbound'
  obtain rfl := heq (fun t ht => Option.some.inj (hbound.symm.trans ht) ▸ Exchange.joinable)
    (fun t ht => Option.some.inj (hbound'.symm.trans ht) ▸ Exchange.joinable)
  exact ⟨r, h, h', hbound⟩

open FlowGraph Samples in
/-- A class that is an `I` meets it in `I`, but two such classes meet in the top. -/
theorem joinAll_depends_on_order :
    let i := ofBound (Exchange.type "I")
    let x := ofBound (Exchange.type "X")
    let y := ofBound (Exchange.type "Y")
    (Exchange.joiner Meeting.overInterface).program.Rooted ∧ (∀ s ∈ [i, x, y], s.Regular false) ∧ [i, x, y].Perm [x, y, i] ∧
      joinAll (Exchange.joiner Meeting.overInterface) [i, x, y] = .ok i ∧
      joinAll (Exchange.joiner Meeting.overInterface) [x, y, i] = .ok (ofBound .object) := by
  intro i x y
  refine ⟨Meeting.rooted, ?_, by decide +kernel, by decide +kernel, by decide +kernel⟩
  simp only [List.forall_mem_cons]
  exact ⟨regular_ofBound _, regular_ofBound _, regular_ofBound _, nofun⟩

end ValueState

end DexShrinker
