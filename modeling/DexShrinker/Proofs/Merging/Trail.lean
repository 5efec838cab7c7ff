/-
  DexShrinker/Proofs/Merging/Trail.lean
  =====================================
  **Placing methods one after the other.**

  A trail lists methods with what they become, in the order in which they are placed. The
  signatures in use when a method comes up are those that the methods before it were given
  (`Placement.Trail.reserved_eq`). All methods that override something in sight come first
  (`Placement.exists_trail`), so two methods never get the same signature, as long as no two
  virtual methods that come from different classes had the same one before
  (`Placement.Trail.ref_inj`).
-/
import DexShrinker.Proofs.Merging.Places

namespace DexShrinker

theorem map_insertBy {α β : Type} {le : α → α → Bool} {le' : β → β → Bool} {f : α → β} (h : ∀ a b, le' (f a) (f b) = le a b)
    (x : α) (ys : List α) : (insertBy le x ys).map f = insertBy le' (f x) (ys.map f) := by
  induction ys with
  | nil => rfl
  | cons y ys ih =>
    simp only [insertBy, List.map_cons, h]
    split
    · rfl
    · rw [List.map_cons, ih]

/-- Sorting by a key that a map keeps. -/
theorem map_sortBy {α β : Type} (le : α → α → Bool) {le' : β → β → Bool} {f : α → β} (h : ∀ a b, le' (f a) (f b) = le a b)
    (xs : List α) : (sortBy le xs).map f = sortBy le' (xs.map f) := by
  induction xs with
  | nil => rfl
  | cons x xs ih =>
    have hcons (le : α → α → Bool) : sortBy le (x :: xs) = insertBy le x (sortBy le xs) := rfl
    rw [hcons, map_insertBy h, ih]
    rfl

theorem InitMerge.pad_injective (proto : Prototype) (argument : Descriptor) : Function.Injective (pad proto argument) := by
  intro i j h
  simpa [pad, Prototype.append] using congrArg (fun q : Prototype => q.parameters.length) h

namespace Placement

/-- The listed methods are placed one after the other and become what they are listed with. -/
inductive Trail (p : Placement) (holder : Descriptor) : MethodState → List (MethodDef × MethodDef) → MethodState → Prop
  | nil (st : MethodState) : Trail p holder st [] st
  | cons {st last : MethodState} (m : MethodDef) {rest : List (MethodDef × MethodDef)}
      (h : Trail p holder (p.placeMethod holder st m).2 rest last) :
      Trail p holder st ((m, (p.placeMethod holder st m).1) :: rest) last

variable {p : Placement} {holder : Descriptor}

namespace Trail

variable {st last : MethodState} {xs ys : List (MethodDef × MethodDef)}

theorem of_append (h : Trail p holder st (xs ++ ys) last) : ∃ mid, Trail p holder st xs mid ∧ Trail p holder mid ys last := by
  induction xs generalizing st with
  | nil => exact ⟨st, .nil st, h⟩
  | cons x xs ih =>
    cases h with
    | cons m h =>
      obtain ⟨mid, hxs, hys⟩ := ih h
      exact ⟨mid, .cons m hxs, hys⟩

/-- What every placement of a method preserves. -/
theorem preserves {Inv : MethodState → Prop} (h : Trail p holder st xs last)
    (hstep : ∀ st, ∀ x ∈ xs, Inv st → Inv (p.placeMethod holder st x.1).2) (hst : Inv st) : Inv last := by
  induction h with
  | nil => exact hst
  | cons m _ ih =>
    exact ih (fun st x hx => hstep st x (List.mem_cons_of_mem _ hx)) (hstep _ _ List.mem_cons_self hst)

theorem reserved_eq (h : Trail p holder st xs last) : last.reserved = st.reserved ++ xs.map (·.2.ref.signature) := by
  induction h with
  | nil => simp
  | cons m _ ih =>
    rw [ih]
    simp [placeMethod]

end Trail

/-- The method overrides one that is in sight. -/
def overrides (p : Placement) (t : VirtualTable) (m : MethodDef) : Bool :=
  m.isVirtual && (t.overridden? p.program m.ref).isSome

theorem foldl_placeMethod_eq (p : Placement) (holder : Descriptor) (items : List (MethodDef × Nat)) (st : MethodState) (acc : List (MethodDef × Nat)) :
    ∃ (xs : List ((MethodDef × MethodDef) × Nat)) (last : MethodState), Trail p holder st (xs.map Prod.fst) last ∧
      xs.map (fun x => (x.1.1, x.2)) = items ∧
      items.foldl (fun ((placed, st) : List (MethodDef × Nat) × MethodState) (m, i) =>
        let (m, st) := p.placeMethod holder st m
        (placed ++ [(m, i)], st)) (acc, st) = (acc ++ xs.map fun x => (x.1.2, x.2), last) := by
  induction items generalizing st acc with
  | nil => exact ⟨[], st, .nil st, rfl, by simp⟩
  | cons item items ih =>
    obtain ⟨xs, last, htrail, hitems, hfold⟩ := ih (p.placeMethod holder st item.1).2
      (acc ++ [((p.placeMethod holder st item.1).1, item.2)])
    refine ⟨((item.1, (p.placeMethod holder st item.1).1), item.2) :: xs, last, .cons item.1 htrail, by rw [List.map_cons, hitems], ?_⟩
    rw [List.foldl_cons]
    simpa using hfold

/-- **The trail of a class.** Methods that override come first. -/
theorem exists_trail (p : Placement) (holder : Descriptor) (st : MethodState) (methods : List MethodDef) :
    let r := p.placeMethods holder st methods
    ∃ first rest, Trail p holder st (first ++ rest) r.2 ∧ (first ++ rest).Perm (methods.zip r.1) ∧
      methods.length = r.1.length ∧ (∀ x ∈ first, p.overrides st.table x.1 = true) ∧ ∀ x ∈ rest, p.overrides st.table x.1 = false := by
  let isFirst (x : MethodDef × Nat) : Bool := p.overrides st.table x.1
  let items := methods.zipIdx.filter isFirst ++ methods.zipIdx.filter (!isFirst ·)
  have hperm : items.Perm methods.zipIdx := List.filter_append_perm _ _
  obtain ⟨xs, last, htrail, hitems, hfold⟩ := foldl_placeMethod_eq p holder items st []
  have hr : p.placeMethods holder st methods =
      ((sortBy (fun a b => a.2 ≤ b.2) (xs.map fun x => (x.1.2, x.2))).map Prod.fst, last) := by
    rw [List.nil_append] at hfold
    simp only [placeMethods, List.partition_eq_filter_filter]
    exact congrArg (fun q : List (MethodDef × Nat) × MethodState =>
      ((sortBy (fun a b => decide (a.2 ≤ b.2)) q.1).map Prod.fst, q.2)) hfold
  -- Sorting puts the old methods and what they became into the same order.
  let sorted := sortBy (fun a b => decide (a.2 ≤ b.2)) xs
  have hnew : (sortBy (fun a b => decide (a.2 ≤ b.2)) (xs.map fun x => (x.1.2, x.2))).map Prod.fst = sorted.map (·.1.2) := by
    rw [← map_sortBy (fun a b => decide (a.2 ≤ b.2)) (fun _ _ => rfl), List.map_map]
    rfl
  have hold : sorted.map (·.1.1) = methods := by
    have heq : sorted.map (·.1.1) = (sortBy (fun a b => decide (a.2 ≤ b.2)) items).map Prod.fst := by
      rw [← hitems, ← map_sortBy (fun a b => decide (a.2 ≤ b.2)) (fun _ _ => rfl), List.map_map]
      rfl
    rw [heq]
    have hindex : (items.map Prod.snd).Perm (List.range methods.length) := by
      refine (hperm.map Prod.snd).trans ?_
      simp [List.range_eq_range']
    have hsame := forall₂_sorted (R := Eq) hindex fun z hz => ⟨z.1, hperm.mem_iff.1 hz, rfl⟩
    exact (List.forall₂_eq_eq_eq ▸ hsame :).symm
  have hzip : methods.zip (p.placeMethods holder st methods).1 = sorted.map Prod.fst := by
    rw [hr]
    simp only
    rw [hnew, ← hold, List.zip_map', List.map_congr_left]
    intro x _
    rfl
  have hsplit : ∃ first rest, xs.map Prod.fst = first ++ rest ∧ first.map Prod.fst = (methods.zipIdx.filter isFirst).map Prod.fst ∧
      rest.map Prod.fst = (methods.zipIdx.filter (!isFirst ·)).map Prod.fst := by
    refine List.map_eq_append_iff.1 ?_ |>.imp fun first h => h.imp fun rest h => h
    rw [List.map_map, ← List.map_append]
    change _ = items.map Prod.fst
    rw [← hitems, List.map_map]
    rfl
  obtain ⟨first, rest, hxs, hfirst, hrest⟩ := hsplit
  refine ⟨first, rest, ?_, ?_, ?_, fun x hx => ?_, fun x hx => ?_⟩
  · rw [← hxs, hr]
    exact htrail
  · rw [← hxs, hzip]
    exact ((perm_sortBy _ xs).map Prod.fst).symm
  · rw [hr]
    simp only
    rw [hnew, List.length_map, ← hold, List.length_map]
  · obtain ⟨y, hy, heq⟩ := List.mem_map.1 (hfirst ▸ List.mem_map_of_mem hx)
    rw [← heq]
    exact (List.mem_filter.1 hy).2
  · obtain ⟨y, hy, heq⟩ := List.mem_map.1 (hrest ▸ List.mem_map_of_mem hx)
    rw [← heq]
    simpa [isFirst] using (List.mem_filter.1 hy).2

/-! ### The methods of one class -/

/-- Virtual methods of which those with the same signature have the same holder. -/
def Unrelated (C : MethodRef → Prop) : Prop := ∀ a b, C a → C b → a.signature = b.signature → a.holder = b.holder

theorem unrelated_holder (c : Descriptor) : Unrelated fun m => m.holder = c := fun _ _ ha hb _ => ha.trans hb.symm

/-- Behind what is inherited the table has only methods that satisfy `C`, under signatures in
    use. -/
def Owns (C : MethodRef → Prop) (inherited : VirtualTable) (st : MethodState) : Prop :=
  ∃ own, st.table = inherited ++ own ∧ ∀ x ∈ own, C x.2 ∧ x.1 ∈ st.reserved

section

variable {C : MethodRef → Prop} {inherited : VirtualTable} {st last : MethodState} {m : MethodDef}

theorem owns_placeMethod (h : Owns C inherited st) (hm : m.isVirtual = true → C m.ref) :
    Owns C inherited (p.placeMethod holder st m).2 := by
  obtain ⟨own, htable, hown⟩ := h
  have hkeep : ∀ x ∈ own, C x.2 ∧ x.1 ∈ (p.placeMethod holder st m).2.reserved :=
    fun x hx => ⟨(hown x hx).1, List.mem_append_left _ (hown x hx).2⟩
  have htable' : (p.placeMethod holder st m).2.table =
      if m.isVirtual then st.table.add (p.place holder st m).ref.signature m.ref else st.table := rfl
  rw [Owns, htable']
  split
  · next hvirtual =>
    unfold VirtualTable.add
    split
    · exact ⟨own, htable, hkeep⟩
    · refine ⟨own ++ [((p.place holder st m).ref.signature, m.ref)], by rw [htable, List.append_assoc], fun x hx => ?_⟩
      rcases List.mem_append.1 hx with hx | hx
      · exact hkeep x hx
      · rw [List.mem_singleton.1 hx]
        exact ⟨hm hvirtual, by simp [placeMethod]⟩
  · exact ⟨own, htable, hkeep⟩

/-- Methods that are placed together do not override one another. -/
theorem Owns.overridden?_eq (h : Owns C inherited st) (hC : Unrelated C) (hm : C m.ref) :
    st.table.overridden? p.program m.ref = inherited.overridden? p.program m.ref := by
  obtain ⟨own, htable, hown⟩ := h
  have hnone : VirtualTable.overridden? p.program own m.ref = none := by
    rw [VirtualTable.overridden?, Option.map_eq_none_iff, List.find?_eq_none]
    intro x hx hmatch
    simp only [Bool.and_eq_true, beq_iff_eq, bne_iff_ne] at hmatch
    exact hmatch.1.2 (hC x.2 m.ref (hown x hx).1 hm hmatch.1.1)
  rw [htable, VirtualTable.overridden?_append, hnone, Option.or_none]

theorem initializer_not_mem (p : Placement) (holder : Descriptor) (m : MethodRef) (reserved : List Signature) :
    (p.initializer holder m reserved).ref.signature ∉ reserved := by
  let padded (n : Nat) : Signature := { p.merges.signature m.signature with
    proto := InitMerge.pad (p.merges.signature m.signature).proto p.argument n }
  refine firstFree_not_mem (fun i j (hij : padded i = padded j) => ?_) reserved
  exact InitMerge.pad_injective _ p.argument (congrArg Signature.proto hij)

/-- A method that overrides nothing gets a signature that was free. -/
theorem place_not_mem (h : Owns C inherited st) (hC : Unrelated C) (hm : m.isVirtual = true → C m.ref)
    (hover : p.overrides inherited m = false) : (p.place holder st m).ref.signature ∉ st.reserved := by
  unfold place
  split
  · exact initializer_not_mem p holder m.ref st.reserved
  · split
    · next hvirtual =>
      have hnone : inherited.overridden? p.program m.ref = none := by simpa [overrides, hvirtual] using hover
      rw [Placement.virtual, h.overridden?_eq hC (hm hvirtual), hnone]
      exact fun hmem => renamed_not_mem p holder m.ref _ (List.mem_append_left _ hmem)
    · exact fun hmem => renamed_not_mem p holder m.ref _ (List.mem_append_left _ hmem)

/-- A method that overrides gets the signature of the first method in sight that it overrides. -/
theorem place_of_overrides (h : Owns C inherited st) (hC : Unrelated C) (hm : m.isVirtual = true → C m.ref)
    (hover : p.overrides inherited m = true) :
    inherited.overridden? p.program m.ref = some (p.place holder st m).ref.signature := by
  rw [overrides, Bool.and_eq_true] at hover
  obtain ⟨s, hs⟩ := Option.isSome_iff_exists.1 hover.2
  rw [place_of_isVirtual hover.1, Placement.virtual, h.overridden?_eq hC (hm hover.1), hs]
  rfl

end

namespace Trail

variable {C : MethodRef → Prop} {inherited : VirtualTable} {st last : MethodState} {xs first rest : List (MethodDef × MethodDef)}

theorem owns (h : Trail p holder st xs last) (hst : Owns C inherited st) (hxs : ∀ x ∈ xs, x.1.isVirtual = true → C x.1.ref) :
    Owns C inherited last :=
  h.preserves (fun _ x hx hst => owns_placeMethod hst (hxs x hx)) hst

/-- What the methods of a trail are placed by. -/
theorem exists_state (h : Trail p holder st xs last) (hst : Owns C inherited st)
    (hvirtual : ∀ x ∈ xs, x.1.isVirtual = true → C x.1.ref)
    {before after : List (MethodDef × MethodDef)} {x : MethodDef × MethodDef} (hxs : xs = before ++ x :: after) :
    ∃ mid, Owns C inherited mid ∧ mid.reserved = st.reserved ++ before.map (·.2.ref.signature) ∧
      x.2.ref = (p.place holder mid x.1).ref := by
  subst hxs
  obtain ⟨mid, hbefore, hrest⟩ := h.of_append
  refine ⟨mid, hbefore.owns hst fun y hy => hvirtual y (List.mem_append_left _ hy), hbefore.reserved_eq, ?_⟩
  cases hrest with
  | cons m _ => rfl

section

variable (h : Trail p holder st (first ++ rest) last) (hst : Owns C inherited st) (hC : Unrelated C)
  (hvirtual : ∀ x ∈ first ++ rest, x.1.isVirtual = true → C x.1.ref)

include h hst hC hvirtual

/-- A method that overrides follows the first method in sight that it overrides. -/
theorem follows (hfirst : ∀ x ∈ first, p.overrides inherited x.1 = true) {x : MethodDef × MethodDef} (hx : x ∈ first) :
    C x.1.ref ∧ inherited.overridden? p.program x.1.ref = some x.2.ref.signature := by
  have hmem := List.mem_append_left rest hx
  obtain ⟨before, after, hsplit⟩ := List.append_of_mem hmem
  obtain ⟨mid, howns, -, href⟩ := h.exists_state hst hvirtual hsplit
  have hover := hfirst x hx
  rw [href]
  refine ⟨hvirtual x hmem ?_, place_of_overrides howns hC (hvirtual x hmem) hover⟩
  rw [overrides, Bool.and_eq_true] at hover
  exact hover.1

/-- Any other method gets a signature that neither was in use from the start nor belongs to a method placed before it. -/
theorem free (hrest : ∀ x ∈ rest, p.overrides inherited x.1 = false) {before after : List (MethodDef × MethodDef)} {y : MethodDef × MethodDef}
    (hsplit : rest = before ++ y :: after) : y.2.ref.signature ∉ st.reserved ++ (first ++ before).map (·.2.ref.signature) := by
  have hy : y ∈ rest := by simp [hsplit]
  have hsplit' : first ++ rest = (first ++ before) ++ y :: after := by rw [hsplit, List.append_assoc]
  obtain ⟨mid, howns, hreserved, href⟩ := h.exists_state hst hvirtual hsplit'
  rw [href, ← hreserved]
  exact place_not_mem howns hC (hvirtual y (List.mem_append_right _ hy)) (hrest y hy)

/-- **No two methods get the same signature.** -/
theorem ref_inj (hnodup : inherited.keys.Nodup) (hfirst : ∀ x ∈ first, p.overrides inherited x.1 = true)
    (hrest : ∀ x ∈ rest, p.overrides inherited x.1 = false) {x y : MethodDef × MethodDef} (hx : x ∈ first ++ rest) (hy : y ∈ first ++ rest)
    (heq : x.2.ref.signature = y.2.ref.signature) : x.1.ref = y.1.ref := by
  -- The table has one method for a signature, and both override it.
  have hboth (x y : MethodDef × MethodDef) (hx : x ∈ first) (hy : y ∈ first) (heq : x.2.ref.signature = y.2.ref.signature) :
      x.1.ref = y.1.ref := by
    obtain ⟨hCx, hover⟩ := h.follows hst hC hvirtual hfirst hx
    obtain ⟨hCy, hover'⟩ := h.follows hst hC hvirtual hfirst hy
    obtain ⟨e, he, hex⟩ := Option.map_eq_some_iff.1 hover
    obtain ⟨e', he', hey⟩ := Option.map_eq_some_iff.1 hover'
    have hsame : e = e' := List.inj_on_of_nodup_map hnodup (List.mem_of_find?_eq_some he) (List.mem_of_find?_eq_some he')
      (by rw [hex, hey, heq])
    have hmatch := List.find?_some he
    have hmatch' := List.find?_some he'
    simp only [Bool.and_eq_true, beq_iff_eq] at hmatch hmatch'
    have hsignature : x.1.ref.signature = y.1.ref.signature := by rw [← hmatch.1.1, hsame, hmatch'.1.1]
    exact MethodRef.ext (hC _ _ hCx hCy hsignature) (congrArg Signature.name hsignature) (congrArg Signature.proto hsignature)
  have hlater (before after : List (MethodDef × MethodDef)) (y : MethodDef × MethodDef) (hsplit : rest = before ++ y :: after)
      (x : MethodDef × MethodDef) (hx : x ∈ first ++ before) : x.2.ref.signature ≠ y.2.ref.signature := by
    intro heq
    refine h.free hst hC hvirtual hrest hsplit ?_
    rw [← heq]
    exact List.mem_append_right _ (List.mem_map_of_mem hx)
  have hmixed (x y : MethodDef × MethodDef) (hx : x ∈ first) (hy : y ∈ rest) : x.2.ref.signature ≠ y.2.ref.signature := by
    obtain ⟨before, after, hsplit⟩ := List.append_of_mem hy
    exact hlater before after y hsplit x (List.mem_append_left _ hx)
  rcases List.mem_append.1 hx with hx | hx <;> rcases List.mem_append.1 hy with hy | hy
  · exact hboth x y hx hy heq
  · exact absurd heq (hmixed x y hx hy)
  · exact absurd heq.symm (hmixed y x hy hx)
  · obtain ⟨before, after, hsplit⟩ := List.append_of_mem hx
    rw [hsplit, List.mem_append, List.mem_cons] at hy
    rcases hy with hy | rfl | hy
    · exact absurd heq.symm (hlater before after x hsplit y (List.mem_append_right _ hy))
    · rfl
    · obtain ⟨between, after', hsplit'⟩ := List.append_of_mem hy
      refine absurd heq (hlater (before ++ x :: between) after' y ?_ x (by simp))
      rw [hsplit, hsplit', List.append_assoc, List.cons_append]

/-- **When signatures stay apart.** Only a method that overrides can take a signature that was in use from the start. -/
theorem nodup_iff (hnodup : inherited.keys.Nodup) (hfirst : ∀ x ∈ first, p.overrides inherited x.1 = true)
    (hrest : ∀ x ∈ rest, p.overrides inherited x.1 = false) (honce : ((first ++ rest).map (·.1.ref)).Nodup) :
    (st.reserved ++ (first ++ rest).map (·.2.ref.signature)).Nodup ↔
      st.reserved.Nodup ∧ ∀ x ∈ first, x.2.ref.signature ∉ st.reserved := by
  rw [List.nodup_append]
  refine ⟨fun ⟨hreserved, _, hapart⟩ => ⟨hreserved, fun x hx hmem => ?_⟩, fun ⟨hreserved, hfree⟩ => ⟨hreserved, ?_, ?_⟩⟩
  · exact hapart _ hmem _ (List.mem_map_of_mem (List.mem_append_left rest hx)) rfl
  · refine List.pairwise_map.2 ((List.pairwise_map.1 honce).imp_of_mem fun {x y} hx hy hne heq => hne ?_)
    exact h.ref_inj hst hC hvirtual hnodup hfirst hrest hx hy heq
  · rintro _ hmem _ hplaced rfl
    obtain ⟨x, hx, rfl⟩ := List.mem_map.1 hplaced
    rcases List.mem_append.1 hx with hx | hx
    · exact hfree x hx hmem
    · obtain ⟨before, after, hsplit⟩ := List.append_of_mem hx
      exact h.free hst hC hvirtual hrest hsplit (List.mem_append_left _ hmem)

end

end Trail

end Placement

end DexShrinker
