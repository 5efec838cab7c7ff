/-
  DexShrinker/Proofs/Flow/ValueState.lean
  =======================================
  **States forget nothing they have been told.**

  There are two things that a state of a place can be told: an integer that gets there, and a
  source of values. It shows them for good (`ValueState.Shows`): joins, cuts by the static
  type and the step to a receiver keep both. The same holds of the states of all arguments
  of a method, as long as calls are not kept apart by their receivers, and of collections
  of states.

  An integer is compared with known bits one bit at a time (`AbstractValue.hasBits_iff`). From
  there, what an abstract value admits is also admitted by its join with another one, on
  either side, and a bitwise or of it is admitted by the abstract or.
-/
import DexShrinker.Flow.MethodState
import DexShrinker.Proofs.Outcome
import Mathlib.Data.List.Basic

namespace DexShrinker

open Std

/-! ### Abstract values -/

namespace AbstractValue

/-! ### Bits -/

/-- A bit of an integer. -/
def bit (v : Int64) (i : Nat) : Bool := v.toBitVec.getLsbD i

theorem ext_bit {v w : Int64} (h : ∀ i < 64, bit v i = bit w i) : v = w :=
  Int64.toBitVec_inj.1 (BitVec.eq_of_getLsbD_eq h)

@[simp] theorem bit_and (v w : Int64) (i : Nat) : bit (v &&& w) i = (bit v i && bit w i) := by
  simp [bit]

@[simp] theorem bit_or (v w : Int64) (i : Nat) : bit (v ||| w) i = (bit v i || bit w i) := by
  simp [bit]

theorem bit_not (v : Int64) {i : Nat} (hi : i < 64) : bit (~~~v) i = !bit v i := by
  simp [bit, hi]

theorem bit_neg_one {i : Nat} (hi : i < 64) : bit (-1) i = true := by
  have hall : ∀ i : Fin 64, bit (-1) i = true := by decide
  exact hall ⟨i, hi⟩

@[simp] theorem bit_zero (i : Nat) : bit 0 i = false := by
  simp [bit]

@[simp] theorem admits_single {v w : Int64} : (single w).admits v = true ↔ w = v := by
  rw [admits, beq_iff_eq]

@[simp] theorem admits_set {values : List Int64} {v : Int64} : (set values).admits v = true ↔ v ∈ values := by
  rw [admits, List.contains_iff_mem]

/-- The integer has the first bits set and the second ones clear. -/
def HasBits (v ones zeros : Int64) : Prop := v &&& ones = ones ∧ v &&& zeros = 0

theorem admits_bits {v ones zeros : Int64} : (bits ones zeros).admits v = true ↔ HasBits v ones zeros := by
  simp [admits, HasBits]

theorem hasBits_iff {v ones zeros : Int64} :
    HasBits v ones zeros ↔ ∀ i < 64, (bit ones i = true → bit v i = true) ∧ (bit zeros i = true → bit v i = false) := by
  constructor
  · rintro ⟨hones, hzeros⟩ i _
    have hone := congrArg (bit · i) hones
    have hzero := congrArg (bit · i) hzeros
    simp only [bit_and, bit_zero] at hone hzero
    grind
  · intro h
    constructor
    · refine ext_bit fun i hi => ?_
      have := h i hi
      rw [bit_and]
      grind
    · refine ext_bit fun i hi => ?_
      have := h i hi
      rw [bit_and, bit_zero]
      grind

theorem HasBits.weaken {v ones zeros : Int64} (h : HasBits v ones zeros) (ones' zeros' : Int64) :
    HasBits v (ones &&& ones') (zeros &&& zeros') := by
  rw [hasBits_iff] at h ⊢
  intro i hi
  have := h i hi
  simp only [bit_and]
  grind

/-- What is known about bits is as good as what they stand for. -/
theorem HasBits.admits_ofBits {v ones zeros : Int64} (h : HasBits v ones zeros) : (ofBits ones zeros).admits v = true := by
  unfold ofBits
  split
  · rfl
  · split
    · next hall =>
      -- All bits are known, so there is only one such integer.
      have heq : ones = v := by
        refine ext_bit fun i hi => ?_
        have hbit := congrArg (bit · i) hall
        simp only [bit_or, bit_neg_one hi] at hbit
        have := (hasBits_iff.1 h) i hi
        grind
      exact admits_single.2 heq
    · exact admits_bits.2 h

theorem hasBits_self (v : Int64) : HasBits v v (~~~v) := by
  rw [hasBits_iff]
  intro i hi
  rw [bit_not v hi]
  grind

/-! ### Integers one by one -/

/-- The bits that are common so far, after one more integer. -/
def commonWith (acc : Int64 × Int64) (v : Int64) : Int64 × Int64 := (acc.1 &&& v, acc.2 &&& ~~~v)

theorem commonBits_eq (values : List Int64) : commonBits values = values.foldl commonWith (-1, -1) := rfl

/-- Common bits are bits of every integer. -/
theorem hasBits_commonBits {values : List Int64} {v : Int64} (hv : v ∈ values) :
    HasBits v (commonBits values).1 (commonBits values).2 := by
  have hloop (xs : List Int64) (acc : Int64 × Int64) (h : HasBits v acc.1 acc.2 ∨ v ∈ xs) :
      HasBits v (xs.foldl commonWith acc).1 (xs.foldl commonWith acc).2 := by
    induction xs generalizing acc with
    | nil =>
      rcases h with h | h
      · exact h
      · cases h
    | cons x xs ih =>
      refine ih _ ?_
      rcases h with h | h
      · exact .inl (h.weaken _ _)
      · rcases List.mem_cons.1 h with rfl | h
        · have hself := (hasBits_self v).weaken acc.1 acc.2
          simp only [Int64.and_comm v, Int64.and_comm (~~~v)] at hself
          exact .inl hself
        · exact .inr h
  rw [commonBits_eq]
  exact hloop values (-1, -1) (.inr hv)

@[simp] theorem mem_sortInts {values : List Int64} {v : Int64} : v ∈ sortInts values ↔ v ∈ values := by
  simp [sortInts, TreeSet.mem_toList, TreeSet.mem_ofList]

theorem admits_ofIntegers {values : List Int64} {v : Int64} (hv : v ∈ values) : (ofIntegers values).admits v = true := by
  unfold ofIntegers
  split
  · cases hv
  · exact admits_single.2 (List.mem_singleton.1 hv).symm
  · split
    · exact admits_set.2 hv
    · exact (hasBits_commonBits hv).admits_ofBits

theorem admits_iff_mem_integers {a : AbstractValue} {values : List Int64} (h : a.integers? = some values) {v : Int64} :
    a.admits v = true ↔ v ∈ values := by
  cases a with
  | single w =>
    cases h
    rw [admits_single, List.mem_singleton, eq_comm]
  | set values' =>
    cases h
    exact admits_set
  | _ => cases h

theorem hasBits_of_admits {a : AbstractValue} {ones zeros : Int64} (h : a.definiteBits? = some (ones, zeros)) {v : Int64}
    (hv : a.admits v = true) : HasBits v ones zeros := by
  cases a with
  | single w =>
    obtain rfl := admits_single.1 hv
    cases h
    exact hasBits_self _
  | set values =>
    have hbits := hasBits_commonBits (admits_set.1 hv)
    simp only [definiteBits?, Option.some.injEq] at h
    rwa [h] at hbits
  | bits ones' zeros' =>
    cases h
    exact admits_bits.1 hv
  | _ => cases h

/-! ### Joins -/

/-- **A join admits what either side admits.** -/
theorem admits_join {a b : AbstractValue} {v : Int64} (h : a.admits v = true ∨ b.admits v = true) :
    (a.join b).admits v = true := by
  unfold join
  split
  · simpa [admits] using h
  · simpa [admits] using h
  · rfl
  · rfl
  · split
    · next heq =>
      subst heq
      simpa using h
    · split
      · next xs ys hxs hys =>
        refine admits_ofIntegers (mem_sortInts.2 (List.mem_append.2 ?_))
        rwa [← admits_iff_mem_integers hxs, ← admits_iff_mem_integers hys]
      · split
        · next onesA zerosA onesB zerosB hA hB =>
          refine HasBits.admits_ofBits ?_
          rcases h with h | h
          · exact (hasBits_of_admits hA h).weaken _ _
          · have hbits := (hasBits_of_admits hB h).weaken onesA zerosA
            rwa [Int64.and_comm onesB, Int64.and_comm zerosB] at hbits
        · rfl

/-- **An abstract or admits every or.** -/
theorem admits_orInteger {a b : AbstractValue} {c v : Int64} (h : a.orInteger c = .ok b) (hv : a.admits v = true) :
    b.admits (v ||| c) = true := by
  have hset (ones zeros : Int64) (hbits : HasBits v ones zeros) : HasBits (v ||| c) (ones ||| c) (zeros &&& ~~~c) := by
    rw [hasBits_iff] at hbits ⊢
    intro i hi
    have := hbits i hi
    simp only [bit_or, bit_and, bit_not c hi]
    grind
  cases a with
  | bottom => cases hv
  | null => cases hv
  | string s => cases hv
  | single w =>
    obtain rfl := admits_single.1 hv
    cases h
    simp [admits]
  | set values =>
    cases h
    exact admits_ofIntegers (mem_sortInts.2 (List.mem_map.2 ⟨v, admits_set.1 hv, rfl⟩))
  | bits ones zeros =>
    cases h
    exact (hset ones zeros (admits_bits.1 hv)).admits_ofBits
  | unknown =>
    cases h
    have hbits := hset 0 0 (by simp [HasBits])
    simpa using hbits.admits_ofBits

end AbstractValue

/-! ### Orders of sources -/

theorem MethodParameter.ext {a b : MethodParameter} (hm : a.method = b.method) (hi : a.index = b.index) : a = b := by
  cases a
  cases b
  simp_all

instance : LawfulEqOrd MethodParameter where
  eq_of_compare h :=
    let ⟨hm, hi⟩ := compareLex_eq_eq.1 h
    MethodParameter.ext (eq_of_compareOn hm) (eq_of_compareOn hi)

instance : LawfulEqOrd FlowSource where
  eq_of_compare {a b} h := by
    obtain ⟨hp, hf⟩ := compareLex_eq_eq.1 h
    replace hp : a.parameter? = b.parameter? := eq_of_compareOn hp
    replace hf : a.field? = b.field? := eq_of_compareOn hf
    cases a <;> cases b <;> simp_all [FlowSource.parameter?, FlowSource.field?]

instance : LawfulEqOrd FlowFunction where
  eq_of_compare {a b} h := by
    obtain ⟨hrank, h⟩ := compareLex_eq_eq.1 h
    obtain ⟨hsource, h⟩ := compareLex_eq_eq.1 h
    obtain ⟨htype, h⟩ := compareLex_eq_eq.1 h
    obtain ⟨hconstant, hfield⟩ := compareLex_eq_eq.1 h
    replace hrank : a.rank = b.rank := eq_of_compareOn hrank
    replace hsource : a.source? = b.source? := eq_of_compareOn hsource
    replace htype : a.type? = b.type? := eq_of_compareOn htype
    replace hconstant : a.constant? = b.constant? := eq_of_compareOn hconstant
    replace hfield : a.field? = b.field? := eq_of_compareOn hfield
    cases a <;> cases b <;> simp_all [FlowFunction.rank, FlowFunction.source?, FlowFunction.type?, FlowFunction.constant?,
      FlowFunction.field?]

instance : LawfulEqOrd InFlow where
  eq_of_compare {a b} h := by
    obtain ⟨hfunction, hsource⟩ := compareLex_eq_eq.1 h
    replace hfunction : a.function? = b.function? := eq_of_compareOn hfunction
    replace hsource : a.source? = b.source? := eq_of_compareOn hsource
    cases a <;> cases b <;> simp_all [InFlow.function?, InFlow.source?]

@[simp] theorem InFlows.mem_union {a b : InFlows} {f : InFlow} : f ∈ a.union b ↔ f ∈ a ∨ f ∈ b := by
  simp [InFlows.union, InFlows.ofList, TreeSet.mem_toList, TreeSet.mem_ofList]

/-! ### What a state shows -/

/-- Something that a state of a place can be told. -/
inductive Evidence where
  /-- The integer gets to the place. -/
  | value (n : Int64)
  /-- Values get to the place from this source. -/
  | flow (f : InFlow)

/-- The integer is one that what is known allows. -/
def Knowledge.Admits (n : Int64) : Knowledge → Prop
  | .primitive a => a.admits n = true
  | _ => False

namespace ValueState

/-- The state allows for the evidence. -/
def Shows (e : Evidence) : ValueState → Prop
  | bottom => False
  | unknown => True
  | concrete s =>
    match e with
    | .value n => s.known.Admits n
    | .flow f => f ∈ s.inFlow

variable {e : Evidence}

@[simp] theorem shows_unknown : unknown.Shows e := trivial

@[simp] theorem not_shows_bottom : ¬ bottom.Shows e := id

theorem shows_ofKnowledge {k : Knowledge} {flows : InFlows} (h : (concrete ⟨k, flows⟩).Shows e) :
    (ofKnowledge k flows).Shows e := by
  unfold ofKnowledge
  split
  · trivial
  · exact h

theorem shows_ofInFlow (static : Descriptor) (f : InFlow) : (ofInFlow static f).Shows (.flow f) :=
  List.mem_singleton.2 rfl

theorem Shows.widen {s : ValueState} (h : s.Shows e) (p : Program) (static : Descriptor) : (s.widen p static).Shows e := by
  cases s with
  | bottom => exact h
  | unknown => exact h
  | concrete s =>
    refine shows_ofKnowledge ?_
    cases e with
    | flow f => exact h
    | value n =>
      cases hk : s.known with
      | primitive a => simpa [Shows, Knowledge.widen, hk] using h
      | _ => simp [Shows, Knowledge.Admits, hk] at h

theorem Shows.toReceiver {s : ValueState} (h : s.Shows e) : s.toReceiver.Shows e := by
  unfold ValueState.toReceiver
  split
  · dsimp only
    split
    · trivial
    · cases e with
      | flow f => exact h
      | value n => exact h.elim
  · exact h

/-- Without its sources a state still shows integers. -/
theorem Shows.clearInFlow {s : ValueState} {n : Int64} (h : s.Shows (.value n)) : s.clearInFlow.Shows (.value n) := by
  cases s with
  | bottom => exact h
  | unknown => exact h
  | concrete s =>
    unfold ValueState.clearInFlow
    simp only
    split
    · next hbottom =>
      cases hk : s.known with
      | primitive a =>
        rw [hk] at hbottom
        cases a with
        | bottom => simp [Shows, Knowledge.Admits, hk, AbstractValue.admits] at h
        | _ => cases hbottom
      | _ => simp [Shows, Knowledge.Admits, hk] at h
    · exact h

theorem Knowledge.admits_join {p : Program} {a b c : Knowledge} {n : Int64} (h : a.join p b = .ok c)
    (hn : a.Admits n ∨ b.Admits n) : c.Admits n := by
  cases a <;> cases b <;> simp only [Knowledge.Admits, or_self, or_false, false_or] at hn <;> try cases h
  exact AbstractValue.admits_join hn

/-- **A join shows what either side shows.** -/
theorem shows_join {j : Joiner} {a b c : ValueState} (h : a.join j b = .ok c) (he : a.Shows e ∨ b.Shows e) : c.Shows e := by
  unfold join at h
  split at h
  · cases h
    simpa using he
  · cases h
    trivial
  · cases h
    simpa using he
  · cases h
    trivial
  · next s t =>
    obtain ⟨k, hk, h⟩ := bind_eq_ok.1 h
    cases h
    split
    · trivial
    · refine shows_ofKnowledge ?_
      cases e with
      | flow f => exact InFlows.mem_union.2 he
      | value n => exact Knowledge.admits_join hk he

end ValueState

/-! ### Methods -/

namespace MethodState

/-- The state allows for the evidence about an argument, whatever the receiver is. -/
def Shows (i : Nat) (e : Evidence) : MethodState → Prop
  | unknown => True
  | monomorphic arguments => ∃ a, arguments[i]? = some a ∧ a.Shows e
  | bottom | polymorphic _ => False

variable {i : Nat} {e : Evidence}

@[simp] theorem shows_unknown : unknown.Shows i e := trivial

@[simp] theorem not_shows_bottom : ¬ bottom.Shows i e := id

theorem shows_ofArguments {arguments : List ValueState} (h : (monomorphic arguments).Shows i e) :
    (ofArguments arguments).Shows i e := by
  unfold ofArguments
  split
  · trivial
  · exact h

theorem shows_joinArguments {j : Joiner} {ours theirs : List ValueState} {s : MethodState}
    (h : joinArguments j ours theirs = .ok s) (he : (monomorphic ours).Shows i e ∨ (monomorphic theirs).Shows i e) :
    s.Shows i e := by
  unfold joinArguments at h
  split at h
  · next hlength =>
    obtain ⟨joined, hjoined, h⟩ := bind_eq_ok.1 h
    cases h
    refine shows_ofArguments ?_
    obtain ⟨a, b, ha, hb, hab⟩ : ∃ a b, ours[i]? = some a ∧ theirs[i]? = some b ∧ (a.Shows e ∨ b.Shows e) := by
      rcases he with ⟨a, ha, hshows⟩ | ⟨b, hb, hshows⟩
      · obtain ⟨hi, -⟩ := List.getElem?_eq_some_iff.1 ha
        exact ⟨a, _, ha, List.getElem?_eq_getElem (hlength ▸ hi), .inl hshows⟩
      · obtain ⟨hi, -⟩ := List.getElem?_eq_some_iff.1 hb
        exact ⟨_, b, List.getElem?_eq_getElem (hlength ▸ hi), hb, .inr hshows⟩
    have hzip : (ours.zip theirs)[i]? = some (a, b) := by
      rw [List.getElem?_zip_eq_some]
      exact ⟨ha, hb⟩
    obtain ⟨c, hc, hjoin⟩ := getElem?_of_mapM hjoined hzip
    exact ⟨c, hc, ValueState.shows_join hjoin hab⟩
  · cases h
    trivial

theorem join_bottom (j : Joiner) (s : MethodState) : s.join j .bottom = .ok s := by
  cases s <;> rfl

theorem join_unknown (j : Joiner) (s : MethodState) : s.join j .unknown = .ok .unknown := by
  cases s <;> rfl

/-- **A join shows what either side shows.** -/
theorem shows_join {j : Joiner} {a b c : MethodState} (h : a.join j b = .ok c) (he : a.Shows i e ∨ b.Shows i e) :
    c.Shows i e := by
  cases a with
  | bottom =>
    rw [join] at h
    cases h
    exact he.resolve_left not_shows_bottom
  | unknown =>
    rw [join] at h
    cases h
    trivial
  | monomorphic ours =>
    cases b with
    | bottom =>
      cases h
      exact he.resolve_right not_shows_bottom
    | monomorphic theirs => exact shows_joinArguments h he
    | polymorphic _ | unknown =>
      cases h
      trivial
  | polymorphic ours =>
    cases b with
    | bottom | polymorphic _ => exact (he.elim id id).elim
    | monomorphic _ | unknown =>
      cases h
      trivial

/-- Joins do not take back that states have the property. -/
structure Lasting (j : Joiner) (Q : MethodState → Prop) : Prop where
  unknown : Q unknown
  not_bottom : ¬ Q bottom
  join : ∀ {a b c : MethodState}, a.join j b = .ok c → Q a ∨ Q b → Q c

theorem lasting_shows (j : Joiner) (i : Nat) (e : Evidence) : Lasting j (Shows i e) :=
  ⟨shows_unknown, not_shows_bottom, shows_join⟩

end MethodState

/-! ### Collections -/

namespace MethodStates

theorem state_insert (c : MethodStates) (m m' : MethodRef) (s : MethodState) :
    (MethodStates.state (c.insert m s) m') = if m = m' then s else c.state m' := by
  simp [state, TreeMap.getD_insert]

/-- Adding to a collection is a join in one place. -/
theorem state_add {j : Joiner} {c c' : MethodStates} {m : MethodRef} {s : MethodState} (h : c.add j m s = .ok c') :
    ∃ joined, (c.state m).join j s = .ok joined ∧ ∀ m', c'.state m' = if m = m' then joined else c.state m' := by
  unfold add at h
  split at h
  · cases h
    refine ⟨_, MethodState.join_bottom j _, fun m' => ?_⟩
    split
    · next heq => rw [heq]
    · rfl
  · cases h
    exact ⟨_, MethodState.join_unknown j _, fun m' => state_insert c m m' _⟩
  · obtain ⟨joined, hjoin, h⟩ := bind_eq_ok.1 h
    cases h
    exact ⟨joined, hjoin, fun m' => state_insert c m m' _⟩

theorem mem_toList_of_state {states : MethodStates} {m : MethodRef} (h : states.state m ≠ .bottom) :
    (m, states.state m) ∈ states.toList := by
  rw [TreeMap.mem_toList_iff_getElem?_eq_some]
  cases hm : states[m]? with
  | none => simp [state, TreeMap.getD_eq_getD_getElem?, hm] at h
  | some s => simp [state, TreeMap.getD_eq_getD_getElem?, hm]

end MethodStates

namespace MethodState.Lasting

variable {j : Joiner} {Q : MethodState → Prop} {c c' more : MethodStates} {m m' : MethodRef} {s : MethodState}

theorem ne_bottom (hQ : Lasting j Q) (hs : Q s) : s ≠ .bottom := by
  rintro rfl
  exact hQ.not_bottom hs

theorem add (hQ : Lasting j Q) (h : c.add j m s = .ok c') (hs : Q s) : Q (c'.state m) := by
  obtain ⟨joined, hjoin, hstate⟩ := MethodStates.state_add h
  rw [hstate, if_pos rfl]
  exact hQ.join hjoin (.inr hs)

theorem of_add (hQ : Lasting j Q) (h : c.add j m s = .ok c') (hs : Q (c.state m')) : Q (c'.state m') := by
  obtain ⟨joined, hjoin, hstate⟩ := MethodStates.state_add h
  rw [hstate]
  split
  · next heq =>
    subst heq
    exact hQ.join hjoin (.inl hs)
  · exact hs

theorem addAll (hQ : Lasting j Q) (h : c.addAll j more = .ok c') (hs : Q (c.state m) ∨ Q (more.state m)) :
    Q (c'.state m) := by
  have hpreserves : ∀ b, ∀ x ∈ more.toList, ∀ b', Q (MethodStates.state b m) → b.add j x.1 x.2 = .ok b' →
      Q (MethodStates.state b' m) := fun _ _ _ _ hb hadd => hQ.of_add hadd hb
  rcases hs with hs | hs
  · exact foldlM_preserves hpreserves hs h
  · exact foldlM_establishes (MethodStates.mem_toList_of_state (hQ.ne_bottom hs)) (fun _ _ hadd => hQ.add hadd hs)
      hpreserves h

end MethodState.Lasting

namespace FieldStates

theorem state_insert (c : FieldStates) (f f' : FieldRef) (s : ValueState) :
    (FieldStates.state (c.insert f s) f') = if f = f' then s else c.state f' := by
  simp [state, TreeMap.getD_insert]

theorem state_setState (c : FieldStates) (f f' : FieldRef) (s : ValueState) :
    (c.setState f s).state f' = if f = f' then s else c.state f' := by
  unfold setState
  split
  · cases s <;> simp_all [state, TreeMap.getD_erase, ValueState.isBottom]
  · exact state_insert c f f' s

variable {j : Joiner} {c c' more : FieldStates} {f f' : FieldRef} {s : ValueState} {e : Evidence}

/-- Adding to a collection is a join in one place. -/
theorem state_add (h : c.add j f s = .ok c') :
    ∃ joined, (c.state f).join j s = .ok joined ∧ ∀ f', c'.state f' = if f = f' then joined else c.state f' := by
  unfold add at h
  split at h
  · cases h
    cases s with
    | bottom =>
      refine ⟨c.state f, rfl, fun f' => ?_⟩
      split
      · next heq => rw [heq]
      · rfl
    | _ => contradiction
  · obtain ⟨joined, hjoin, h⟩ := bind_eq_ok.1 h
    cases h
    exact ⟨joined, hjoin, fun f' => state_insert c f f' _⟩

theorem shows_add (h : c.add j f s = .ok c') (hs : s.Shows e) : (c'.state f).Shows e := by
  obtain ⟨joined, hjoin, hstate⟩ := state_add h
  rw [hstate, if_pos rfl]
  exact ValueState.shows_join hjoin (.inr hs)

theorem shows_of_add (h : c.add j f s = .ok c') (hs : (c.state f').Shows e) : (c'.state f').Shows e := by
  obtain ⟨joined, hjoin, hstate⟩ := state_add h
  rw [hstate]
  split
  · next heq =>
    subst heq
    exact ValueState.shows_join hjoin (.inl hs)
  · exact hs

theorem mem_toList_of_state (h : more.state f ≠ .bottom) : (f, more.state f) ∈ more.toList := by
  rw [TreeMap.mem_toList_iff_getElem?_eq_some]
  cases hf : more[f]? with
  | none => simp [state, TreeMap.getD_eq_getD_getElem?, hf] at h
  | some s => simp [state, TreeMap.getD_eq_getD_getElem?, hf]

theorem shows_addAll (h : c.addAll j more = .ok c') (hs : (c.state f).Shows e ∨ (more.state f).Shows e) :
    (c'.state f).Shows e := by
  have hpreserves : ∀ b, ∀ x ∈ more.toList, ∀ b', (FieldStates.state b f).Shows e → b.add j x.1 x.2 = .ok b' →
      (FieldStates.state b' f).Shows e := fun _ _ _ _ hb hadd => shows_of_add hadd hb
  rcases hs with hs | hs
  · exact foldlM_preserves hpreserves hs h
  · have hbottom : more.state f ≠ .bottom := by
      intro heq
      rw [heq] at hs
      exact hs
    exact foldlM_establishes (mem_toList_of_state hbottom) (fun _ _ hadd => shows_add hadd hs) hpreserves h

end FieldStates

end DexShrinker
