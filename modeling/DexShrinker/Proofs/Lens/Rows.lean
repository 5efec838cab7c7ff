/-
  DexShrinker/Proofs/Lens/Rows.lean
  =================================
  **Rows of changes.**

  Changes of a prototype that start from the types that the earlier ones leave (`Fits`) lead to
  the same types combined as one by one, and combining them is associative (`Combines.assoc`).
  The argument number of a later change is counted among the arguments that the earlier ones keep
  in both ways of combining, and a change back to the first type disappears in both.

  So a row of such changes (`Composable`) may be cut anywhere and combined in two parts
  (`Composable.combine_append`).

  Looking something up through a stack of layers is looking it up through the lower ones and
  then looking up the result through the upper ones. For types and prototypes this is all there
  is to say. A method also brings along what a call has to do to its arguments. What the upper
  layers do is then counted among the arguments that the lower ones keep, and it is combined on
  its own before it is put on top of what the lower ones do (`lookups_split`).
-/
import DexShrinker.Proofs.Lens.Changes
import DexShrinker.Proofs.Lens.Lookup

namespace DexShrinker

open Std

/-- A change of a return type as one of an argument. -/
def ReturnChange.retyped (change : ReturnChange) : ArgumentChange := .retyped change.old change.new

namespace ProtoChanges

open ArgumentChange

variable {a b c ab bc r r' : ProtoChanges}

/-! ### Changes that fit the types they start from -/

/-- No change is one to the same type. -/
structure Proper (c : ProtoChanges) : Prop where
  argument : ∀ x ∈ c.arguments.toList, x.2.IsProper
  returned : ∀ change ∈ c.returned, change.old ≠ change.new

/-- The changes of arguments start from these types. -/
def StartsFrom (c : ProtoChanges) (types : List Descriptor) : Prop := ∀ x ∈ c.arguments.toList, types[x.1.toNat]? = some x.2.old

/-- The change of the return type, if there is one, starts from this type. -/
def ReturnsFrom (c : ProtoChanges) (ret : Descriptor) : Prop := ∀ change ∈ c.returned, change.old = ret

/-- The changes start from these argument types and this return type. -/
structure Fits (c : ProtoChanges) (types : List Descriptor) (ret : Descriptor) : Prop extends Proper c where
  old : ∀ x ∈ c.arguments.toList, types[x.1.toNat]? = some x.2.old
  oldReturned : ∀ change ∈ c.returned, change.old = ret

instance (c : ProtoChanges) (types : List Descriptor) : Decidable (c.StartsFrom types) :=
  inferInstanceAs (Decidable (∀ x ∈ c.arguments.toList, _))

instance (c : ProtoChanges) (ret : Descriptor) : Decidable (c.ReturnsFrom ret) := inferInstanceAs (Decidable (∀ change ∈ c.returned, _))

instance (c : ProtoChanges) : Decidable c.Proper :=
  decidable_of_iff ((∀ x ∈ c.arguments.toList, x.2.IsProper) ∧ ∀ change ∈ c.returned, change.old ≠ change.new)
    ⟨fun h => ⟨h.1, h.2⟩, fun h => ⟨h.1, h.2⟩⟩

instance (c : ProtoChanges) (types : List Descriptor) (ret : Descriptor) : Decidable (c.Fits types ret) :=
  decidable_of_iff
    (c.Proper ∧ (∀ x ∈ c.arguments.toList, types[x.1.toNat]? = some x.2.old) ∧ ∀ change ∈ c.returned, change.old = ret)
    ⟨fun h => ⟨h.1, h.2.1, h.2.2⟩, fun h => ⟨h.1, h.2, h.3⟩⟩

/-- The types of the arguments that stay. -/
def keep (c : ProtoChanges) (types : List Descriptor) : List Descriptor := (types.mapIdx c.applyAt).filterMap id

/-- The return type after the change. -/
def returnType (c : ProtoChanges) (ret : Descriptor) : Descriptor := (c.returned.map ReturnChange.new).getD ret

variable {types : List Descriptor} {ret ret' : Descriptor}

/-! What is recorded is proper. -/

theorem Proper.none : Proper none where
  argument x hx := by
    rw [toList_none] at hx
    cases hx
  returned _ h := nomatch h

theorem Proper.insert (h : c.Proper) (i : ArgumentIndex) (change : ArgumentChange) (hchange : change.IsProper) :
    Proper { c with arguments := c.arguments.insert i change } where
  argument x hx := by
    rw [mem_toList, argument?, TreeMap.getElem?_insert] at hx
    split at hx
    · cases hx
      exact hchange
    · exact h.argument x (mem_toList.2 hx)
  returned := h.returned

theorem Proper.removeArgument (h : c.Proper) (i : ArgumentIndex) (type : Descriptor) (constant : Option Int64) :
    (c.removeArgument i type constant).Proper :=
  h.insert i (.removed type constant) trivial

theorem Proper.retypeArgument (h : c.Proper) (i : ArgumentIndex) (old new : Descriptor) :
    (c.retypeArgument i old new).Proper := by
  rw [ProtoChanges.retypeArgument]
  split
  · exact h
  · next hne => exact h.insert i (.retyped old new) hne

theorem Proper.addParameter (h : c.Proper) (extra : ExtraParameter) : (c.addParameter extra).Proper := ⟨h.argument, h.returned⟩

theorem Proper.retypeReturn (h : c.Proper) (old new : Descriptor) : (c.retypeReturn old new).Proper := by
  rw [ProtoChanges.retypeReturn]
  split
  · exact h
  · next hne =>
    constructor
    · exact h.argument
    · intro change hchange
      cases hchange
      exact hne

theorem Fits.none (types : List Descriptor) (ret : Descriptor) : Fits none types ret where
  toProper := Proper.none
  old x hx := by
    rw [toList_none] at hx
    cases hx
  oldReturned _ h := nomatch h

@[simp] theorem keep_none (types : List Descriptor) : ProtoChanges.none.keep types = types := by
  have hat : ProtoChanges.none.applyAt = fun _ t => some t := by
    funext n t
    rw [applyAt, argumentAt?_none]
  rw [keep, hat]
  simp [List.mapIdx_eq_zipIdx_map, List.filterMap_map]

@[simp] theorem returnType_none (ret : Descriptor) : ProtoChanges.none.returnType ret = ret := rfl

theorem Fits.startsFrom (h : c.Fits types ret) : c.StartsFrom types := h.old

theorem Fits.returnsFrom (h : c.Fits types ret) : c.ReturnsFrom ret := h.oldReturned

theorem StartsFrom.within (h : c.StartsFrom types) : c.Within types.length := by
  intro x hx
  exact (List.getElem?_eq_some_iff.1 (h x hx)).1

theorem StartsFrom.old_of_argumentAt? (h : c.StartsFrom types) {n : Nat} (hn : n < UInt32.size) {change : ArgumentChange}
    (hchange : c.argumentAt? n = some change) : types[n]? = some change.old := by
  have := h _ (mem_toList.2 hchange)
  rwa [toNat_toUInt32 hn] at this

theorem StartsFrom.old_of_getElem? (h : c.StartsFrom types) (hn : types.length ≤ UInt32.size) :
    ∀ n t, types[n]? = some t → ∀ change ∈ c.argumentAt? n, change.old = t := by
  intro n t ht change hchange
  have hlt := (List.getElem?_eq_some_iff.1 ht).1
  rw [h.old_of_argumentAt? (by omega) hchange] at ht
  exact Option.some_inj.1 ht

theorem Proper.argumentAt? (h : c.Proper) (n : Nat) : ∀ change ∈ c.argumentAt? n, change.IsProper := fun _ hchange =>
  h.argument _ (mem_toList.2 hchange)

theorem applyAt_eq (c : ProtoChanges) (n : Nat) (t : Descriptor) : c.applyAt n t = applied t (c.argumentAt? n) := by
  rw [applyAt]
  rcases c.argumentAt? n with _ | (_ | _) <;> rfl

theorem keep_append_singleton (c : ProtoChanges) (types : List Descriptor) (t : Descriptor) :
    c.keep (types ++ [t]) = c.keep types ++ (applied t (c.argumentAt? types.length)).toList := by
  rw [keep, List.mapIdx_concat, List.filterMap_append, ← applyAt_eq, keep]
  cases c.applyAt types.length t <;> rfl

theorem length_keep (c : ProtoChanges) (types : List Descriptor) : (c.keep types).length = c.place types.length := by
  induction types using List.reverseRecOn with
  | nil => simp [keep, place]
  | append_singleton types t ih =>
    rw [keep_append_singleton, List.length_append, ih, List.length_append, List.length_singleton, place_succ, keepsAt]
    rcases c.argumentAt? types.length with _ | (_ | _) <;> rfl

/-- A kept argument is found at its place. -/
theorem getElem?_keep (c : ProtoChanges) (types : List Descriptor) {n : Nat} (hn : c.keepsAt n = true) :
    (c.keep types)[c.place n]? = types[n]?.bind fun t => applied t (c.argumentAt? n) := by
  induction types using List.reverseRecOn with
  | nil => simp [keep]
  | append_singleton types t ih =>
    rw [keep_append_singleton]
    rcases Nat.lt_trichotomy n types.length with hlt | rfl | hgt
    · have hplace : c.place n < (c.keep types).length := by
        rw [length_keep]
        exact Nat.count_strict_mono hn hlt
      rw [List.getElem?_append_left hplace, ih, List.getElem?_append_left hlt]
    · rw [← length_keep, List.getElem?_append_right (Nat.le_refl _), List.getElem?_append_right (Nat.le_refl _)]
      simp only [Nat.sub_self, List.getElem?_cons_zero, Option.bind_some]
      cases applied t (c.argumentAt? types.length) <;> rfl
    · rw [List.getElem?_eq_none (l := types ++ [t]) (by simp; omega), ← keep_append_singleton, List.getElem?_eq_none]
      · rfl
      · rw [length_keep]
        exact place_mono c (by simp; omega)

/-- The newer changes start from what the older ones lead to. -/
theorem StartsFrom.meets (ha : a.StartsFrom types) (hb : b.StartsFrom (a.keep types)) {n : Nat} (hn : n < UInt32.size) :
    Meets (a.argumentAt? n) (b.argumentAt? (a.place n)) := by
  intro t t' change hx hy
  have hkeep : a.keepsAt n = true := by
    rw [keepsAt, hx]
    rfl
  have hold := hb.old_of_argumentAt? (Nat.lt_of_le_of_lt (place_le a n) hn) hy
  rw [getElem?_keep a types hkeep, ha.old_of_argumentAt? hn hx, hx] at hold
  exact (Option.some_inj.1 hold).symm

/-! ### Return types

A return type changes as the type of one argument that stays. -/

theorem map_combineReturned (x y : Option ReturnChange) :
    (combineReturned x y).map ReturnChange.retyped = after (x.map ReturnChange.retyped) (y.map ReturnChange.retyped) := by
  rcases x with _ | x <;> rcases y with _ | y <;> try rfl
  simp only [combineReturned, Option.map_some, ReturnChange.retyped, after]
  split <;> rfl

theorem map_retyped_inj {x y : Option ReturnChange} (h : x.map ReturnChange.retyped = y.map ReturnChange.retyped) : x = y := by
  apply Option.map_injective _ h
  rintro ⟨t, t'⟩ ⟨s, s'⟩ heq
  cases heq
  rfl

theorem applied_returned (c : ProtoChanges) (ret : Descriptor) :
    applied ret (c.returned.map ReturnChange.retyped) = some (c.returnType ret) := by
  rw [returnType]
  cases c.returned <;> rfl

theorem Proper.returned' (h : c.Proper) : ∀ change ∈ c.returned.map ReturnChange.retyped, change.IsProper := by
  intro change hchange
  obtain ⟨x, hx, rfl⟩ := Option.map_eq_some_iff.1 hchange
  exact h.returned x hx

theorem ReturnsFrom.retyped (h : c.ReturnsFrom ret) : ∀ change ∈ c.returned.map ReturnChange.retyped, change.old = ret := by
  intro change hchange
  obtain ⟨x, hx, rfl⟩ := Option.map_eq_some_iff.1 hchange
  exact h x hx

theorem ReturnsFrom.meets (hb : b.ReturnsFrom (a.returnType ret)) :
    Meets (a.returned.map ReturnChange.retyped) (b.returned.map ReturnChange.retyped) := by
  intro t t' change hx hy
  rw [hb.retyped change hy]
  have happlied := applied_returned a ret
  rw [hx] at happlied
  exact (Option.some_inj.1 happlied).symm

/-! ### What two changes lead to -/

namespace Combines

theorem returnType (h : Combines a b r) (ha : a.ReturnsFrom ret) : r.returnType ret = b.returnType (a.returnType ret) := by
  apply Option.some_inj.1
  rw [← applied_returned, h.returned, map_combineReturned, applied_after ha.retyped, applied_returned, Option.bind_some,
    applied_returned]

/-- Combined or one by one, the same arguments stay and have the same types. -/
theorem keep (h : Combines a b r) (hn : types.length ≤ UInt32.size)
    (ha : ∀ n t, types[n]? = some t → ∀ change ∈ a.argumentAt? n, change.old = t) :
    r.keep types = b.keep (a.keep types) := by
  induction types using List.reverseRecOn with
  | nil => simp [ProtoChanges.keep]
  | append_singleton types t ih =>
    rw [List.length_append, List.length_singleton] at hn
    have hfront := ih (by omega) fun n t hn => ha n t (by
      rw [List.getElem?_append_left (List.getElem?_eq_some_iff.1 hn).1]
      exact hn)
    rw [keep_append_singleton, keep_append_singleton a, hfront, h.argument _ hn, applied_after (ha _ t (by simp))]
    cases applied t (a.argumentAt? types.length) with
    | none => simp
    | some t' => rw [Option.bind_some, Option.toList_some, keep_append_singleton, length_keep]

theorem proper (h : Combines a b r) (ha : a.Proper) (hb : b.Proper) : r.Proper where
  argument x hx := by
    rw [mem_toList, ← argumentAt?_toNat, h.argument _ (UInt32.toNat_lt_size x.1)] at hx
    exact isProper_after (ha.argumentAt? _) (hb.argumentAt? _) _ hx
  returned change hchange := by
    have hmap : change.retyped ∈ (combineReturned a.returned b.returned).map ReturnChange.retyped := by
      rw [← h.returned]
      exact Option.mem_map_of_mem _ hchange
    rw [map_combineReturned] at hmap
    exact isProper_after ha.returned' hb.returned' _ hmap

theorem startsFrom (h : Combines a b r) (ha : a.StartsFrom types) (hb : b.StartsFrom (a.keep types)) : r.StartsFrom types := by
  intro x hx
  have hlt := UInt32.toNat_lt_size x.1
  rw [mem_toList, ← argumentAt?_toNat, h.argument _ hlt] at hx
  cases hget : a.argumentAt? x.1.toNat with
  | some change => rw [old_after hget hx, ha.old_of_argumentAt? hlt hget]
  | none =>
    rw [hget] at hx
    have hold := hb.old_of_argumentAt? (Nat.lt_of_le_of_lt (place_le a _) hlt) hx
    have hkeep : a.keepsAt x.1.toNat = true := by
      rw [keepsAt, hget]
      rfl
    rw [getElem?_keep a types hkeep, hget] at hold
    simpa [applied] using hold

theorem returnsFrom (h : Combines a b r) (ha : a.ReturnsFrom ret) (hb : b.ReturnsFrom (a.returnType ret)) : r.ReturnsFrom ret := by
  intro change hchange
  have hmap : change.retyped ∈ (combineReturned a.returned b.returned).map ReturnChange.retyped := by
    rw [← h.returned]
    exact Option.mem_map_of_mem _ hchange
  rw [map_combineReturned] at hmap
  cases hget : a.returned.map ReturnChange.retyped with
  | some change' =>
    rw [← ha.retyped change' hget]
    exact old_after hget hmap
  | none =>
    rw [hget] at hmap
    have hret := hb.retyped _ hmap
    have happlied := applied_returned a ret
    rw [hget] at happlied
    rw [Option.some_inj.1 happlied]
    exact hret

theorem fits (h : Combines a b r) (ha : a.Fits types ret) (hb : b.Fits (a.keep types) (a.returnType ret)) : r.Fits types ret where
  toProper := h.proper ha.toProper hb.toProper
  old := h.startsFrom ha.startsFrom hb.startsFrom
  oldReturned := h.returnsFrom ha.returnsFrom hb.returnsFrom

/-- **Combining is associative** along changes that start from what the older ones lead to. -/
theorem assoc (ha : a.Fits types ret) (hb : b.Fits (a.keep types) (a.returnType ret))
    (hc : c.Fits (b.keep (a.keep types)) (b.returnType (a.returnType ret)))
    (hab : Combines a b ab) (hbc : Combines b c bc) (h : Combines ab c r) : Combines a bc r where
  argument n hn := by
    have hplace := Nat.lt_of_le_of_lt (place_le a n) hn
    rw [h.argument n hn, hab.argument n hn, hbc.argument _ hplace, hab.place (Nat.le_of_lt hn)]
    by_cases hkeep : a.keepsAt n = true
    · apply after_assoc
      · exact ha.argumentAt? n
      · exact hc.argumentAt? _
      · exact ha.startsFrom.meets hb.startsFrom hn
      · exact hb.startsFrom.meets hc.startsFrom hplace
    · have hgone : keeps (a.argumentAt? n) = false := by simpa [keepsAt] using hkeep
      simp only [after_of_not_keeps hgone]
  extra := by rw [h.extra, hab.extra, hbc.extra, List.append_assoc]
  returned := by
    apply map_retyped_inj
    rw [h.returned, map_combineReturned, hab.returned, map_combineReturned, map_combineReturned, hbc.returned,
      map_combineReturned]
    exact after_assoc ha.returned' hc.returned' hb.returnsFrom.meets hc.returnsFrom.meets

end Combines

theorem StartsFrom.exists_combine (hn : types.length ≤ UInt32.size) (ha : a.StartsFrom types) (hb : b.StartsFrom (a.keep types)) :
    ∃ r, a.combine b = .ok r ∧ Combines a b r ∧ r.StartsFrom types ∧ r.keep types = b.keep (a.keep types) := by
  have hwithin := hb.within
  rw [length_keep] at hwithin
  obtain ⟨r, hr, h⟩ := ha.within.exists_combine hn hwithin
  exact ⟨r, hr, h, h.startsFrom ha hb, h.keep hn (ha.old_of_getElem? hn)⟩

theorem Fits.exists_combine (hn : types.length ≤ UInt32.size) (ha : a.Fits types ret)
    (hb : b.Fits (a.keep types) (a.returnType ret)) :
    ∃ r, a.combine b = .ok r ∧ Combines a b r ∧ r.Fits types ret ∧ r.keep types = b.keep (a.keep types) ∧
      r.returnType ret = b.returnType (a.returnType ret) := by
  obtain ⟨r, hr, h, -, hkeep⟩ := ha.startsFrom.exists_combine hn hb.startsFrom
  exact ⟨r, hr, h, h.fits ha hb, hkeep, h.returnType ha.returnsFrom⟩

/-! ### Rows of changes -/

/-- Every change of the row starts from the types that those before it leave, and numbers only
    the arguments that they keep. -/
def Composable : List Descriptor → Descriptor → List ProtoChanges → Prop
  | _, _, [] => True
  | types, ret, c :: rest => c.Fits types ret ∧ Composable (c.keep types) (c.returnType ret) rest

instance decidableComposable : ∀ types ret row, Decidable (Composable types ret row)
  | _, _, [] => .isTrue trivial
  | types, ret, c :: rest =>
    have := decidableComposable (c.keep types) (c.returnType ret) rest
    inferInstanceAs (Decidable (c.Fits types ret ∧ Composable (c.keep types) (c.returnType ret) rest))

/-- Combining a row up to some point. -/
theorem Composable.foldlM_combine {lower upper : List ProtoChanges} (hn : types.length ≤ UInt32.size) (ha : a.Fits types ret)
    (hrow : Composable (a.keep types) (a.returnType ret) (lower ++ upper)) :
    ∃ r, lower.foldlM combine a = .ok r ∧ r.Fits types ret ∧ Composable (r.keep types) (r.returnType ret) upper := by
  induction lower generalizing a with
  | nil => exact ⟨a, rfl, ha, hrow⟩
  | cons c lower ih =>
    obtain ⟨hc, hrest⟩ := hrow
    obtain ⟨r, hr, -, hfits, hkeep, hret⟩ := ha.exists_combine hn hc
    rw [← hkeep, ← hret] at hrest
    obtain ⟨r', hr', h⟩ := ih hfits hrest
    refine ⟨r', ?_, h⟩
    rw [List.foldlM_cons, hr, ok_bind, hr']

/-- Combining the rest of a row on top of what was combined before, and on its own. -/
theorem Composable.foldlM_combines {upper : List ProtoChanges} (hn : types.length ≤ UInt32.size) (ha : a.Fits types ret)
    (hb : b.Fits (a.keep types) (a.returnType ret)) (hab : Combines a b ab)
    (hrow : Composable (b.keep (a.keep types)) (b.returnType (a.returnType ret)) upper) :
    ∃ r r', upper.foldlM combine ab = .ok r ∧ upper.foldlM combine b = .ok r' ∧ Combines a r' r ∧
      r'.Fits (a.keep types) (a.returnType ret) := by
  -- Both folds stay in step: what is combined on top is `a` and then what is combined on its own.
  induction upper generalizing b ab with
  | nil => exact ⟨ab, b, rfl, rfl, hab, hb⟩
  | cons c upper ih =>
    obtain ⟨hc, hrest⟩ := hrow
    have hkept : (a.keep types).length ≤ UInt32.size := by
      rw [length_keep]
      exact Nat.le_trans (place_le a _) hn
    obtain ⟨bc, hbc, hcombines, hfits, hkeep, hret⟩ := hb.exists_combine hkept hc
    obtain ⟨r, hr, hcombines', -, -, -⟩ := (hab.fits ha hb).exists_combine hn (b := c) (by
      rw [hab.keep hn (ha.startsFrom.old_of_getElem? hn), hab.returnType ha.returnsFrom]
      exact hc)
    have hassoc := Combines.assoc ha hb hc hab hcombines hcombines'
    rw [← hkeep, ← hret] at hrest
    obtain ⟨s, s', hs, hs', h⟩ := ih hfits hassoc hrest
    refine ⟨s, s', ?_, ?_, h⟩
    · rw [List.foldlM_cons, hr, ok_bind, hs]
    · rw [List.foldlM_cons, hbc, ok_bind, hs']

/-- **A row may be cut anywhere** and combined in two parts. -/
theorem Composable.combine_append {lower upper : List ProtoChanges} (hn : types.length ≤ UInt32.size)
    (hrow : Composable types ret (lower ++ upper)) :
    ∃ whole first second both, (lower ++ upper).foldlM combine .none = .ok whole ∧ lower.foldlM combine .none = .ok first ∧
      upper.foldlM combine .none = .ok second ∧ first.combine second = .ok both ∧ Alike whole both := by
  have hstart : Composable (ProtoChanges.none.keep types) (ProtoChanges.none.returnType ret) (lower ++ upper) := by
    rw [keep_none, returnType_none]
    exact hrow
  obtain ⟨first, hfirst, hfits, hrest⟩ := hstart.foldlM_combine hn (Fits.none types ret)
  have hrest' : Composable (ProtoChanges.none.keep (first.keep types)) (ProtoChanges.none.returnType (first.returnType ret)) upper := by
    rw [keep_none, returnType_none]
    exact hrest
  obtain ⟨whole, second, hwhole, hsecond, hcombines, hfits'⟩ := hrest'.foldlM_combines hn hfits (Fits.none _ _) (Combines.none first)
  obtain ⟨both, hboth, hcombines', -⟩ := hfits.exists_combine hn hfits'
  refine ⟨whole, first, second, both, ?_, hfirst, hsecond, hboth, hcombines.alike hcombines'⟩
  rw [List.foldlM_append, hfirst, ok_bind, hwhole]

/-! ### Rows that only count right -/

/-- Every change of the row numbers only arguments that those before it keep, of `n` in the beginning. What the types
    are does not matter. -/
def CountsFrom : Nat → List ProtoChanges → Prop
  | _, [] => True
  | n, c :: rest => c.Within n ∧ CountsFrom (c.place n) rest

theorem CountsFrom.exists_foldlM {row : List ProtoChanges} {n : Nat} (hn : n ≤ UInt32.size) (ha : a.Within n)
    (hrow : CountsFrom (a.place n) row) : ∃ r, row.foldlM combine a = .ok r := by
  induction row generalizing a with
  | nil => exact ⟨a, rfl⟩
  | cons c row ih =>
    obtain ⟨hc, hrest⟩ := hrow
    obtain ⟨r, hr, hcombines⟩ := ha.exists_combine hn hc
    rw [← hcombines.place hn] at hrest
    obtain ⟨r', hr'⟩ := ih (hcombines.within ha hc) hrest
    refine ⟨r', ?_⟩
    rw [List.foldlM_cons, hr, ok_bind, hr']

/-- **A row that counts right can be combined.** -/
theorem CountsFrom.exists_combined {row : List ProtoChanges} {n : Nat} (hn : n ≤ UInt32.size) (hrow : CountsFrom n row) :
    ∃ r, row.foldlM combine .none = .ok r := by
  apply CountsFrom.exists_foldlM hn (within_none n)
  rwa [place_none]

theorem countsFrom_singleton (c : ProtoChanges) : CountsFrom UInt32.size [c] :=
  ⟨fun x _ => UInt32.toNat_lt_size x.1, trivial⟩

end ProtoChanges

open ProtoChanges

/-! ### The way of a call -/

namespace Renaming

/-- Where a call goes, layer by layer. -/
def follow (rs : List Renaming) (m : MethodRef) (kind : InvokeKind) : MethodRef × InvokeKind :=
  rs.foldl (fun x r => (r.mapMethod x.1, r.invokeKinds.getD (r.mapMethod x.1) x.2)) (m, kind)

/-- The changes that a call of `m` meets, layer by layer. -/
def callTrail : List Renaming → MethodRef → List ProtoChanges
  | [], _ => []
  | r :: rs, m => r.changesForCall m (r.mapMethod m) :: callTrail rs (r.mapMethod m)

theorem follow_append (lower upper : List Renaming) (m : MethodRef) (kind : InvokeKind) :
    follow (lower ++ upper) m kind = follow upper (follow lower m kind).1 (follow lower m kind).2 := by
  rw [follow, List.foldl_append]
  rfl

theorem callTrail_append (lower upper : List Renaming) (m : MethodRef) (kind : InvokeKind) :
    callTrail (lower ++ upper) m = callTrail lower m ++ callTrail upper (follow lower m kind).1 := by
  induction lower generalizing m kind with
  | nil => rfl
  | cons r lower ih => exact congrArg (r.changesForCall m (r.mapMethod m) :: ·) (ih _ _)

end Renaming

namespace Lens

open Renaming

/-- A lens with renamings on top of it, the first one lowest. -/
def stack (l : Lens) (rs : List Renaming) : Lens := rs.foldl (fun l r => l.push (.renames r)) l

theorem layers_stack (l : Lens) (rs : List Renaming) : (l.stack rs).layers = (rs.map Layer.renames).reverse ++ l.layers := by
  induction rs generalizing l with
  | nil => rfl
  | cons r rs ih =>
    rw [stack, List.foldl_cons, ← stack, ih]
    simp [push]

theorem stack_append (l : Lens) (lower upper : List Renaming) : l.stack (lower ++ upper) = (l.stack lower).stack upper := by
  rw [stack, List.foldl_append]
  rfl

theorem forward_stack (l : Lens) (rs : List Renaming) : (l.stack rs).forward l = rs := by
  have hall : ∀ layer ∈ (rs.map Layer.renames).reverse, (!layer.isClear) = true := by
    intro layer hlayer
    obtain ⟨r, -, rfl⟩ := List.mem_map.1 (List.mem_reverse.1 hlayer)
    rfl
  have hdepth : (l.stack rs).depth - l.depth = (rs.map Layer.renames).reverse.length := by
    simp [depth, layers_stack]
  rw [forward, hdepth, layers_stack, List.take_left, List.takeWhile_eq_self_iff.2 hall]
  simp [List.filterMap_map, Function.comp_def, Layer.moves?]

/-- A call goes its way whatever happens to its arguments. -/
theorem foldlM_stepMethod (rs : List Renaming) (m : MethodLookup) :
    rs.foldlM stepMethod m = (callTrail rs m.ref).foldlM combine m.changes >>= fun changes =>
      .ok ⟨(follow rs m.ref m.kind).1, (follow rs m.ref m.kind).2, changes⟩ := by
  induction rs generalizing m with
  | nil => rfl
  | cons r rs ih =>
    rw [List.foldlM_cons, callTrail, List.foldlM_cons, stepMethod]
    cases m.changes.combine (r.changesForCall m.ref (r.mapMethod m.ref)) with
    | error e => rfl
    | ok changes => exact ih _

theorem lookupMethod_stack {l : Lens} {rs : List Renaming} {m : MethodRef} {changes : ProtoChanges}
    (h : (callTrail rs m).foldlM combine .none = .ok changes) (kind : InvokeKind) :
    (l.stack rs).lookupMethod m none kind l = .ok ⟨(follow rs m kind).1, (follow rs m kind).2, changes⟩ := by
  rw [lookupMethod, forward_stack, foldlM_stepMethod, h]
  show Except.ok (settleSuper none _) = _
  simp [settleSuper]

/-- A lookup does not fail if the changes on the way count right. -/
theorem exists_lookupMethod {l code : Lens} {m : MethodRef} {n : Nat} (hn : n ≤ UInt32.size)
    (h : CountsFrom n (callTrail (l.forward code) m)) (context : Option MethodRef) (kind : InvokeKind) :
    ∃ result, l.lookupMethod m context kind code = .ok result := by
  obtain ⟨changes, hchanges⟩ := h.exists_combined hn
  rw [lookupMethod, foldlM_stepMethod, hchanges]
  exact ⟨_, rfl⟩

/-- **Lookups may stop on the way.** From any lens up a stack of layers, with a stop at any
    height, types and prototypes are found as without the stop. A method whose changes along the
    stack start from its argument types and its return type is found, with and without the stop,
    under the same name and with the same kind of call, and what the call has to do to its
    arguments on the first part of the way and then on the second is what it has to do on the
    whole. -/
theorem lookups_split (l : Lens) (lower upper : List Renaming) :
    (∀ t, ((l.stack lower).stack upper).lookupType t l =
      ((l.stack lower).stack upper).lookupType ((l.stack lower).lookupType t l) (l.stack lower)) ∧
    (∀ p, ((l.stack lower).stack upper).lookupProto p l =
      ((l.stack lower).stack upper).lookupProto ((l.stack lower).lookupProto p l) (l.stack lower)) ∧
    ∀ m kind types ret, types.length ≤ UInt32.size → Composable types ret (callTrail (lower ++ upper) m) →
      ∃ whole first second changes,
        ((l.stack lower).stack upper).lookupMethod m none kind l = .ok whole ∧
        (l.stack lower).lookupMethod m none kind l = .ok first ∧
        ((l.stack lower).stack upper).lookupMethod first.ref none first.kind (l.stack lower) = .ok second ∧
        first.changes.combine second.changes = .ok changes ∧
        whole.ref = second.ref ∧ whole.kind = second.kind ∧ Alike whole.changes changes := by
  refine ⟨?_, ?_, ?_⟩
  · intro t
    rw [lookupType, ← stack_append, forward_stack, stack_append, lookupType, lookupType, forward_stack, forward_stack,
      List.foldl_append]
  · intro p
    rw [lookupProto, ← stack_append, forward_stack, stack_append, lookupProto, lookupProto, forward_stack, forward_stack,
      List.foldl_append]
  · intro m kind types ret hn hrow
    rw [callTrail_append lower upper m kind] at hrow
    obtain ⟨whole, first, second, changes, hwhole, hfirst, hsecond, hchanges, halike⟩ := hrow.combine_append hn
    rw [← callTrail_append] at hwhole
    have hlookup := lookupMethod_stack (l := l) hwhole kind
    rw [stack_append, follow_append] at hlookup
    exact ⟨_, _, _, changes, hlookup, lookupMethod_stack hfirst kind, lookupMethod_stack hsecond _, hchanges, rfl, rfl, halike⟩

/-- The static method `A.m`, which takes a number, an `A` and a number. -/
def narrowing : MethodRef := ⟨⟨"LA;"⟩, "m", ⟨.void, [.int, ⟨"LA;"⟩, .int]⟩⟩

/-- It becomes `B.m`, loses its first argument and takes a `B` for the `A`. -/
def narrowingLower : List Renaming :=
  let moved : MethodRef := ⟨⟨"LB;"⟩, "m", ⟨.void, [⟨"LB;"⟩, .int]⟩⟩
  let changes := (ProtoChanges.none.removeArgument 0 .int (some 7)).retypeArgument 1 ⟨"LA;"⟩ ⟨"LB;"⟩
  [(((Recorder.start .treeFixer).moveMethod narrowing moved).recordCall narrowing changes).layer]

/-- The `B` is an `A` again, and then the last number goes as well. -/
def narrowingUpper : List Renaming :=
  let lower : MethodRef := ⟨⟨"LB;"⟩, "m", ⟨.void, [⟨"LB;"⟩, .int]⟩⟩
  let moved : MethodRef := ⟨⟨"LB;"⟩, "m", ⟨.void, [⟨"LA;"⟩, .int]⟩⟩
  let last : MethodRef := ⟨⟨"LB;"⟩, "m", ⟨.void, [⟨"LA;"⟩]⟩⟩
  [(((Recorder.start .treeFixer).moveMethod lower moved).recordCall lower
      (ProtoChanges.none.retypeArgument 0 ⟨"LB;"⟩ ⟨"LA;"⟩)).layer,
    (((Recorder.start .treeFixer).moveMethod moved last).recordCall moved (ProtoChanges.none.removeArgument 1 .int none)).layer]

theorem lookups_split_narrowing :
    Composable [.int, ⟨"LA;"⟩, .int] .void (callTrail (narrowingLower ++ narrowingUpper) narrowing) ∧
      ∃ whole first second changes,
        ((identity.stack narrowingLower).stack narrowingUpper).lookupMethod narrowing none .static identity = .ok whole ∧
        (identity.stack narrowingLower).lookupMethod narrowing none .static identity = .ok first ∧
        ((identity.stack narrowingLower).stack narrowingUpper).lookupMethod first.ref none first.kind
          (identity.stack narrowingLower) = .ok second ∧
        first.changes.combine second.changes = .ok changes ∧
        whole.ref = second.ref ∧ whole.kind = second.kind ∧ Alike whole.changes changes := by
  have hrow : Composable [.int, ⟨"LA;"⟩, .int] .void (callTrail (narrowingLower ++ narrowingUpper) narrowing) := by
    decide +kernel
  exact ⟨hrow, (lookups_split identity narrowingLower narrowingUpper).2.2 narrowing .static _ _ (by decide) hrow⟩

end Lens

end DexShrinker
