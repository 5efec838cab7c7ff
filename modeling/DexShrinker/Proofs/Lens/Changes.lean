/-
  DexShrinker/Proofs/Lens/Changes.lean
  ====================================
  **One change of a prototype after another.**

  Changes that come later count the arguments that the earlier ones keep. `place` says which
  number a kept argument has after a change, and going back to the former number undoes it as
  long as no number wraps around (`place_formerIndex`). So two changes in a row are described
  entry by entry (`Combines`), and they can be combined whenever the later one only numbers
  arguments that are there (`Within.exists_combine`).
-/
import DexShrinker.Lens.Changes
import DexShrinker.Proofs.Outcome
import Mathlib.Data.List.Induction
import Mathlib.Data.Nat.Count

namespace DexShrinker

open Std

/-! ### Changes of one argument -/

namespace ArgumentChange

/-- The type that the argument had. -/
def old : ArgumentChange → Descriptor
  | removed t _ => t
  | retyped t _ => t

/-- A new type is another type. -/
def IsProper : ArgumentChange → Prop
  | removed .. => True
  | retyped t t' => t ≠ t'

instance : DecidablePred IsProper
  | removed .. => .isTrue trivial
  | retyped t t' => inferInstanceAs (Decidable (t ≠ t'))

/-- The argument is not gone. -/
def keeps : Option ArgumentChange → Bool
  | some (removed ..) => false
  | _ => true

/-- The type that an argument of type `t` has now. -/
def applied (t : Descriptor) : Option ArgumentChange → Option Descriptor
  | none => some t
  | some (removed ..) => none
  | some (retyped _ t') => some t'

/-- An older change and then a newer one. Nothing happens to an argument that is gone. -/
def after : Option ArgumentChange → Option ArgumentChange → Option ArgumentChange
  | none, newer => newer
  | some (removed t k), _ => some (removed t k)
  | older, none => older
  | some (retyped t _), some (removed _ k) => some (removed t k)
  | some (retyped t _), some (retyped _ t') => if t = t' then none else some (retyped t t')

/-- The newer change starts from the type that the older one led to. -/
def Meets (older newer : Option ArgumentChange) : Prop :=
  ∀ t t' change, older = some (retyped t t') → newer = some change → change.old = t'

@[simp] theorem after_none (x : Option ArgumentChange) : after x none = x := by
  rcases x with _ | (_ | _) <;> rfl

theorem after_of_not_keeps {x : Option ArgumentChange} (h : keeps x = false) (y : Option ArgumentChange) : after x y = x := by
  rcases x with _ | (_ | _)
  · cases h
  · rfl
  · cases h

theorem keeps_after (x y : Option ArgumentChange) : keeps (after x y) = (keeps x && keeps y) := by
  rcases x with _ | (_ | ⟨t, t'⟩) <;> rcases y with _ | (_ | ⟨s, s'⟩) <;> try rfl
  simp only [after]
  split <;> rfl

theorem isProper_after {x y : Option ArgumentChange} (hx : ∀ change ∈ x, change.IsProper) (hy : ∀ change ∈ y, change.IsProper) :
    ∀ change ∈ after x y, change.IsProper := by
  rcases x with _ | (_ | ⟨t, t'⟩) <;> rcases y with _ | (_ | ⟨s, s'⟩) <;> first | exact hx | exact hy | skip
  · intro change hchange
    cases hchange
    trivial
  · intro change hchange
    simp only [after] at hchange
    split at hchange
    · cases hchange
    · next hne =>
      cases hchange
      exact hne

theorem old_after {x y : Option ArgumentChange} {change change' : ArgumentChange} (hx : x = some change)
    (h : after x y = some change') : change'.old = change.old := by
  subst hx
  rcases change with _ | ⟨t, t'⟩ <;> rcases y with _ | (_ | ⟨s, s'⟩)
  case retyped.some.retyped =>
    simp only [after] at h
    split at h
    · cases h
    · cases h
      rfl
  all_goals
    cases h
    rfl

/-- What becomes of an argument of the type that the older change starts from. -/
theorem applied_after {x y : Option ArgumentChange} {t : Descriptor} (hx : ∀ change ∈ x, change.old = t) :
    applied t (after x y) = (applied t x).bind fun t' => applied t' y := by
  rcases x with _ | (_ | ⟨s, s'⟩) <;> rcases y with _ | (_ | ⟨r, r'⟩) <;> try rfl
  obtain rfl : s = t := hx _ rfl
  simp only [after]
  split
  · next heq => simp [applied, heq]
  · rfl

/-- **Three changes of one argument.** -/
theorem after_assoc {x y z : Option ArgumentChange} (hx : ∀ change ∈ x, change.IsProper) (hz : ∀ change ∈ z, change.IsProper)
    (hxy : Meets x y) (hyz : Meets y z) : after (after x y) z = after x (after y z) := by
  rcases x with _ | (_ | ⟨a, b⟩)
  · rfl
  · rfl
  rcases y with _ | (_ | ⟨c, d⟩)
  · rw [after_none]
    rfl
  · rfl
  obtain rfl : c = b := hxy a b _ rfl rfl
  have hne : a ≠ c := hx _ rfl
  rcases z with _ | (⟨e, k⟩ | ⟨e, f⟩)
  · simp only [after_none]
  · -- Gone in the end: the type is the first one, also if the second change went back to it.
    obtain rfl : e = d := hyz c d _ rfl rfl
    by_cases had : a = e <;> simp [after, had]
  · obtain rfl : e = d := hyz c d _ rfl rfl
    have hne' : e ≠ f := hz _ rfl
    by_cases hae : a = e
    · subst hae
      by_cases hcf : c = f
      · simp [after, hcf]
      · simp [after, hcf, hne']
    · by_cases hcf : c = f
      · subst hcf
        simp [after, hae, hne]
      · simp [after, hae, hcf]

end ArgumentChange

namespace ProtoChanges

open ArgumentChange

/-! ### Numbers of arguments -/

theorem toNat_toUInt32 {n : Nat} (h : n < UInt32.size) : n.toUInt32.toNat = n := UInt32.toNat_ofNat_of_lt' h

theorem argumentAt?_toNat (c : ProtoChanges) (i : ArgumentIndex) : c.argumentAt? i.toNat = c.argument? i := by
  rw [argumentAt?, Nat.toUInt32_eq, UInt32.ofNat_toNat]

/-- The argument at a position stays. -/
def keepsAt (c : ProtoChanges) (n : Nat) : Bool := keeps (c.argumentAt? n)

/-- The position of an argument among those that stay. -/
def place (c : ProtoChanges) (n : Nat) : Nat := Nat.count (c.keepsAt · = true) n

/-- Only the first `n` arguments change. -/
def Within (c : ProtoChanges) (n : Nat) : Prop := ∀ x ∈ c.arguments.toList, x.1.toNat < n

instance (c : ProtoChanges) (n : Nat) : Decidable (c.Within n) := inferInstanceAs (Decidable (∀ x ∈ c.arguments.toList, _))

variable {a b c ab bc r r' : ProtoChanges}

theorem mem_toList {i : ArgumentIndex} {change : ArgumentChange} : (i, change) ∈ c.arguments.toList ↔ c.argument? i = some change :=
  TreeMap.mem_toList_iff_getElem?_eq_some

theorem Within.lt {n : Nat} (h : c.Within n) {i : ArgumentIndex} {change : ArgumentChange} (hi : c.argument? i = some change) :
    i.toNat < n :=
  h _ (mem_toList.2 hi)

theorem place_succ (c : ProtoChanges) (n : Nat) : c.place (n + 1) = c.place n + if c.keepsAt n then 1 else 0 :=
  Nat.count_succ _ n

theorem argumentAt?_none (n : Nat) : ProtoChanges.none.argumentAt? n = Option.none := by
  simp [argumentAt?, argument?, ProtoChanges.none]

theorem toList_none : ProtoChanges.none.arguments.toList = [] := rfl

theorem within_none (n : Nat) : ProtoChanges.none.Within n := by
  intro x hx
  rw [toList_none] at hx
  cases hx

theorem place_none (n : Nat) : ProtoChanges.none.place n = n := by
  induction n with
  | zero => rfl
  | succ n ih =>
    have hkeep : ProtoChanges.none.keepsAt n = true := by
      rw [keepsAt, argumentAt?_none]
      rfl
    rw [place_succ, ih, if_pos hkeep]

theorem place_le (c : ProtoChanges) (n : Nat) : c.place n ≤ n := Nat.count_le _

theorem mem_removed {i : ArgumentIndex} : i ∈ c.removed ↔ keeps (c.argument? i) = false := by
  simp only [removed, List.mem_filterMap, Prod.exists]
  constructor
  · rintro ⟨j, change, hmem, h⟩
    rw [mem_toList] at hmem
    cases change with
    | removed t k =>
      cases h
      rw [hmem]
      rfl
    | retyped t t' => cases h
  · intro h
    cases hget : c.argument? i with
    | none =>
      rw [hget] at h
      cases h
    | some change =>
      rw [hget] at h
      cases change with
      | removed t k => exact ⟨i, _, mem_toList.2 hget, rfl⟩
      | retyped t t' => cases h

theorem pairwise_removed (c : ProtoChanges) : c.removed.Pairwise (· < ·) := by
  refine List.Pairwise.filterMap _ (R := fun x y => compare x.1 y.1 = .lt) ?_ TreeMap.ordered_keys_toList
  rintro ⟨i, change⟩ ⟨j, change'⟩ hlt i' hi' j' hj'
  cases change <;> cases hi'
  cases change' <;> cases hj'
  exact compare_eq_lt.1 hlt

theorem nodup_removed (c : ProtoChanges) : c.removed.Nodup := (pairwise_removed c).imp fun h => UInt32.ne_of_lt h

theorem countP_lt_succ (l : List ArgumentIndex) (n : Nat) :
    l.countP (·.toNat < n + 1) = l.countP (·.toNat < n) + l.countP (·.toNat = n) := by
  induction l with
  | nil => rfl
  | cons i l ih =>
    simp only [List.countP_cons, ih, decide_eq_true_eq]
    split <;> split <;> split <;> omega

/-- Every argument before a position either stays or is gone. -/
theorem place_add_countP (c : ProtoChanges) {n : Nat} (hn : n ≤ UInt32.size) :
    c.place n + c.removed.countP (·.toNat < n) = n := by
  induction n with
  | zero => simp [place]
  | succ n ih =>
    have hself : ∀ i : ArgumentIndex, i.toNat = n ↔ i = n.toUInt32 := by
      intro i
      constructor
      · rintro rfl
        exact UInt32.ofNat_toNat.symm
      · rintro rfl
        exact toNat_toUInt32 hn
    have hcount : c.removed.countP (·.toNat = n) = if c.keepsAt n then 0 else 1 := by
      have hcongr : c.removed.countP (·.toNat = n) = c.removed.count n.toUInt32 :=
        List.countP_congr fun i _ => by simp [hself]
      rw [hcongr, (nodup_removed c).count]
      simp only [mem_removed, keepsAt, argumentAt?]
      by_cases hkeep : keeps (c.argument? n.toUInt32) = true <;> simp [hkeep]
    rw [place_succ, countP_lt_succ, hcount]
    have hrest := ih (Nat.le_of_succ_le hn)
    split <;> omega

theorem place_mono (c : ProtoChanges) {m n : Nat} (h : m ≤ n) : c.place m ≤ c.place n := Nat.count_monotone _ h

theorem place_inj {m n : Nat} (hm : c.keepsAt m = true) (hn : c.keepsAt n = true) (h : c.place m = c.place n) : m = n :=
  Nat.count_injective hm hn h

/-- Counting up over what is gone, as long as nothing wraps around. -/
theorem formerIndex_spec {removed : List ArgumentIndex} (hsorted : removed.Pairwise (· < ·)) {i : ArgumentIndex}
    (hi : i.toNat + removed.length < UInt32.size) :
    formerIndex removed i ∉ removed ∧
      (formerIndex removed i).toNat = i.toNat + removed.countP (·.toNat < (formerIndex removed i).toNat) := by
  induction removed generalizing i with
  | nil => simp [formerIndex]
  | cons r removed ih =>
    rw [List.length_cons] at hi
    have hrest := (List.pairwise_cons.1 hsorted).1
    rw [formerIndex]
    by_cases hle : r ≤ i
    · rw [if_pos hle]
      have hnext : (i + 1).toNat = i.toNat + 1 := by
        rw [UInt32.toNat_add]
        exact Nat.mod_eq_of_lt (by simp [UInt32.size] at hi ⊢; omega)
      obtain ⟨hnot, heq⟩ := ih (List.pairwise_cons.1 hsorted).2 (i := i + 1) (by omega)
      have hlt : r.toNat < (formerIndex removed (i + 1)).toNat := by
        have := UInt32.le_iff_toNat_le.1 hle
        omega
      constructor
      · rw [List.mem_cons, not_or]
        constructor
        · intro h
          rw [h] at hlt
          exact absurd hlt (Nat.lt_irrefl _)
        · exact hnot
      · rw [List.countP_cons_of_pos (by simpa using hlt)]
        omega
    · rw [if_neg hle]
      have hlt : i < r := UInt32.not_le.1 hle
      have hall : ∀ r' ∈ r :: removed, i < r' := by
        intro r' hr'
        rcases List.mem_cons.1 hr' with rfl | hr'
        · exact hlt
        · exact UInt32.lt_trans hlt (hrest r' hr')
      constructor
      · intro hmem
        exact UInt32.lt_irrefl _ (hall i hmem)
      · have hzero : (r :: removed).countP (·.toNat < i.toNat) = 0 := by
          apply List.countP_eq_zero.2
          intro r' hr'
          have := UInt32.lt_iff_toNat_lt.1 (hall r' hr')
          simp only [decide_eq_true_eq]
          omega
        omega

/-- **Back to the former number and forth again.** -/
theorem place_formerIndex {n : Nat} (hc : c.Within n) (hn : n ≤ UInt32.size) {i : ArgumentIndex} (hi : i.toNat < c.place n) :
    c.keepsAt (formerIndex c.removed i).toNat = true ∧ c.place (formerIndex c.removed i).toNat = i.toNat := by
  have hlength : c.removed.countP (·.toNat < n) = c.removed.length := by
    apply List.countP_eq_length.2
    intro j hj
    cases hget : c.argument? j with
    | none =>
      rw [mem_removed, hget] at hj
      cases hj
    | some change => simpa using hc.lt hget
  have htotal := place_add_countP c hn
  obtain ⟨hnot, heq⟩ := formerIndex_spec (pairwise_removed c) (i := i) (by omega)
  have hkeep : c.keepsAt (formerIndex c.removed i).toNat = true := by
    rw [mem_removed, Bool.not_eq_false] at hnot
    rwa [keepsAt, argumentAt?_toNat]
  have hplace := place_add_countP c (Nat.le_of_lt (UInt32.toNat_lt_size (formerIndex c.removed i)))
  exact ⟨hkeep, by omega⟩

/-! ### Two changes -/

/-- What combining does with one entry of the newer changes. -/
def combineEntry (c : ProtoChanges) (arguments : TreeMap ArgumentIndex ArgumentChange) (x : ArgumentIndex × ArgumentChange) :
    Guarded (TreeMap ArgumentIndex ArgumentChange) := do
  match ← combineAt (c.argument? (formerIndex c.removed x.1)) x.2 with
  | some change => return arguments.insert (formerIndex c.removed x.1) change
  | Option.none => return arguments.erase (formerIndex c.removed x.1)

theorem combineArguments_eq : a.combineArguments b = b.arguments.toList.foldlM a.combineEntry a.arguments := rfl

theorem combineAt_eq {x : Option ArgumentChange} (h : keeps x = true) (change : ArgumentChange) :
    combineAt x change = .ok (after x (some change)) := by
  rcases x with _ | (_ | _)
  · rfl
  · cases h
  · cases change <;> rfl

theorem combineEntry_spec {i j : ArgumentIndex} (change : ArgumentChange) (hi : formerIndex c.removed j = i)
    (h : c.keepsAt i.toNat = true) (arguments : TreeMap ArgumentIndex ArgumentChange) :
    ∃ arguments', c.combineEntry arguments (j, change) = .ok arguments' ∧
      ∀ k, arguments'[k]? = if k = i then after (c.argument? i) (some change) else arguments[k]? := by
  rw [keepsAt, argumentAt?_toNat] at h
  rw [combineEntry, hi, combineAt_eq h, ok_bind]
  cases hafter : after (c.argument? i) (some change) with
  | none =>
    refine ⟨_, rfl, fun k => ?_⟩
    rw [TreeMap.getElem?_erase]
    simp only [Std.compare_eq_iff_eq, eq_comm (a := i)]
  | some change' =>
    refine ⟨_, rfl, fun k => ?_⟩
    rw [TreeMap.getElem?_insert]
    simp only [Std.compare_eq_iff_eq, eq_comm (a := i)]

/-- The changes `r` are those of `a` and then those of `b`. -/
structure Combines (a b r : ProtoChanges) : Prop where
  argument : ∀ n < UInt32.size, r.argumentAt? n = after (a.argumentAt? n) (b.argumentAt? (a.place n))
  extra : r.extra = a.extra ++ b.extra
  returned : r.returned = combineReturned a.returned b.returned

theorem Combines.none (c : ProtoChanges) : Combines c none c where
  argument n _ := by rw [argumentAt?_none, after_none]
  extra := by simp [ProtoChanges.none]
  returned := by
    rw [ProtoChanges.none]
    cases c.returned <;> rfl

/-- Every entry of the newer changes ends up at its former number. -/
theorem foldlM_combineEntry {n : Nat} (ha : a.Within n) (hn : n ≤ UInt32.size) (l : List (ArgumentIndex × ArgumentChange))
    (hkeys : l.Pairwise (·.1 ≠ ·.1)) (hl : ∀ x ∈ l, x.1.toNat < a.place n) :
    ∃ arguments, l.foldlM a.combineEntry a.arguments = .ok arguments ∧
      (∀ x ∈ l, arguments[formerIndex a.removed x.1]? = after (a.argument? (formerIndex a.removed x.1)) (some x.2)) ∧
      ∀ k, (∀ x ∈ l, formerIndex a.removed x.1 ≠ k) → arguments[k]? = a.argument? k := by
  induction l using List.reverseRecOn with
  | nil => exact ⟨a.arguments, rfl, by simp, fun k _ => rfl⟩
  | append_singleton l x ih =>
    rw [List.pairwise_append] at hkeys
    obtain ⟨hfront, -, hlast⟩ := hkeys
    obtain ⟨arguments, hfold, hin, hout⟩ := ih hfront fun y hy => hl y (List.mem_append_left _ hy)
    have hx := place_formerIndex ha hn (hl x (by simp))
    obtain ⟨arguments', hstep, hget⟩ := combineEntry_spec x.2 rfl hx.1 arguments
    -- Different entries belong to different former numbers.
    have hne : ∀ y ∈ l, formerIndex a.removed y.1 ≠ formerIndex a.removed x.1 := by
      intro y hy heq
      have hy' := place_formerIndex ha hn (hl y (List.mem_append_left _ hy))
      apply hlast y hy x (by simp)
      rw [heq] at hy'
      exact UInt32.toNat_inj.1 (hy'.2.symm.trans hx.2)
    refine ⟨arguments', ?_, ?_, ?_⟩
    · rw [List.foldlM_append, hfold, ok_bind, List.foldlM_cons, hstep]
      rfl
    · intro y hy
      rcases List.mem_append.1 hy with hy | hy
      · rw [hget, if_neg (hne y hy), hin y hy]
      · obtain rfl := List.mem_singleton.1 hy
        rw [hget, if_pos rfl]
    · intro k hk
      rw [hget, if_neg (hk x (by simp)).symm, hout k fun y hy => hk y (List.mem_append_left _ hy)]

/-- **Two changes can be combined** when the newer one numbers arguments that are there. -/
theorem Within.exists_combine {n : Nat} (ha : a.Within n) (hn : n ≤ UInt32.size) (hb : b.Within (a.place n)) :
    ∃ r, a.combine b = .ok r ∧ Combines a b r := by
  obtain ⟨arguments, hfold, hin, hout⟩ := foldlM_combineEntry ha hn b.arguments.toList
    (TreeMap.distinct_keys_toList.imp fun h heq => h (Std.compare_eq_iff_eq.2 heq)) hb
  refine ⟨⟨arguments, a.extra ++ b.extra, combineReturned a.returned b.returned⟩, ?_, ?_, rfl, rfl⟩
  · rw [combine, combineArguments_eq, hfold]
    rfl
  · intro k hk
    have hk' := toNat_toUInt32 hk
    have hj := toNat_toUInt32 (Nat.lt_of_le_of_lt (place_le a k) hk)
    show arguments[k.toUInt32]? = after (a.argument? k.toUInt32) (b.argument? (a.place k).toUInt32)
    by_cases hkeep : a.keepsAt k = true
    · cases hget : b.argument? (a.place k).toUInt32 with
      | none =>
        rw [after_none]
        apply hout
        intro x hx heq
        have hplace := (place_formerIndex ha hn (hb x hx)).2
        rw [heq, hk'] at hplace
        rw [hplace, Nat.toUInt32_eq, UInt32.ofNat_toNat, mem_toList.1 hx] at hget
        cases hget
      | some change =>
        have hmem := mem_toList.2 hget
        have hformer := place_formerIndex ha hn (hb _ hmem)
        have heq : formerIndex a.removed (a.place k).toUInt32 = k.toUInt32 := by
          apply UInt32.toNat_inj.1
          rw [hk']
          apply place_inj hformer.1 hkeep
          rw [hformer.2, hj]
        have := hin _ hmem
        rwa [heq] at this
    · rw [after_of_not_keeps (by simpa [keepsAt, argumentAt?] using hkeep)]
      apply hout
      intro x hx heq
      have hformer := (place_formerIndex ha hn (hb x hx)).1
      rw [heq, hk'] at hformer
      exact hkeep hformer

theorem Combines.place (h : Combines a b r) {n : Nat} (hn : n ≤ UInt32.size) : r.place n = b.place (a.place n) := by
  induction n with
  | zero => simp [ProtoChanges.place]
  | succ n ih =>
    have hkeep : r.keepsAt n = (a.keepsAt n && b.keepsAt (a.place n)) := by
      rw [keepsAt, h.argument n hn, keeps_after]
      rfl
    rw [place_succ, ih (Nat.le_of_succ_le hn), place_succ, hkeep]
    by_cases ha : a.keepsAt n = true
    · simp [ha, place_succ]
    · simp [ha]

theorem Combines.within (h : Combines a b r) {n : Nat} (ha : a.Within n) (hb : b.Within (a.place n)) : r.Within n := by
  intro x hx
  by_contra hlt
  have hget : r.argumentAt? x.1.toNat = some x.2 := by
    rw [argumentAt?_toNat]
    exact mem_toList.1 hx
  rw [h.argument _ (UInt32.toNat_lt_size x.1)] at hget
  have hnone : a.argumentAt? x.1.toNat = Option.none := by
    rw [argumentAt?_toNat, Option.eq_none_iff_forall_not_mem]
    intro change hchange
    exact hlt (ha.lt hchange)
  have hnone' : b.argumentAt? (a.place x.1.toNat) = Option.none := by
    rw [argumentAt?, Option.eq_none_iff_forall_not_mem]
    intro change hchange
    have hlt' := hb.lt hchange
    rw [toNat_toUInt32 (Nat.lt_of_le_of_lt (place_le a _) (UInt32.toNat_lt_size x.1))] at hlt'
    exact absurd hlt' (Nat.not_lt.2 (place_mono a (Nat.le_of_not_lt hlt)))
  rw [hnone, hnone'] at hget
  cases hget

/-- The same changes, however they are stored. -/
structure Alike (r r' : ProtoChanges) : Prop where
  argument : ∀ i, r.argument? i = r'.argument? i
  extra : r.extra = r'.extra
  returned : r.returned = r'.returned

theorem Combines.alike (h : Combines a b r) (h' : Combines a b r') : Alike r r' where
  argument i := by
    rw [← argumentAt?_toNat, ← argumentAt?_toNat, h.argument _ (UInt32.toNat_lt_size i),
      h'.argument _ (UInt32.toNat_lt_size i)]
  extra := by rw [h.extra, h'.extra]
  returned := by rw [h.returned, h'.returned]

end ProtoChanges

end DexShrinker
