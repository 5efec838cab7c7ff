/-
  DexShrinker/Proofs/Lens/Tracing.lean
  ====================================
  **Names walk back to where they came from.**

  Several types may move to one new name, and the new name then leads back to the one that moved
  first. So a type comes back to its first name if at every layer it either had nothing to do with
  what moved, or moved to a reference type before anything else did (`Lens.Traceable`). A type that
  moves onto itself stays where it is and is the one its name leads back to. Layers in which
  everything stays are not made, and cleared layers rename nothing, so a lens has as many layers as
  there were passes that moved something and points at which it was cleared
  (`depth_and_firstType_of_grow`).

  Methods need not come back. One that has to change its name when classes are merged also
  changes it in the classes that inherit it. One of them may declare a method of the new name,
  which is then led back to the inherited one (`Shrink.method_astray`).
-/
import DexShrinker.Proofs.Lens.Lookup
import DexShrinker.Shrink.Run
import Mathlib.Data.List.Basic

namespace DexShrinker

open Std

/-! ### Recording moves of types -/

namespace Recorder

/-- A recorder after moves of types, given as old and new names. -/
def ofMoves (kind : LayerKind) (calls : List (Descriptor × Descriptor)) : Recorder :=
  calls.foldl (fun r c => r.moveType c.1 c.2) (start kind)

variable {r : Recorder} {calls : List (Descriptor × Descriptor)} {old new x y : Descriptor}

theorem types_moveType_of_ne (h : old ≠ x ∨ old = new) : (r.moveType old new).moves.types[x]? = r.moves.types[x]? := by
  simp only [moveType]
  split
  · split <;> rfl
  · next hne =>
    have hx : compare old x ≠ .eq := fun heq => (h.resolve_right hne) (LawfulEqOrd.eq_of_compare heq)
    split
    · split <;> rfl
    · split <;> simp only [TreeMap.getElem?_insert, if_neg hx]

theorem types_moveType_of_some (h : r.moves.types[x]? = some y) : (r.moveType old new).moves.types[x]? = some y := by
  simp only [moveType]
  split
  · split <;> exact h
  · split
    · split <;> exact h
    · next hnone =>
      have hx : compare old x ≠ .eq := by
        intro heq
        rw [LawfulEqOrd.eq_of_compare heq, h] at hnone
        cases hnone
      split <;> simp only [TreeMap.getElem?_insert, if_neg hx, h]

theorem types_moveType (hne : old ≠ new) (h : r.moves.types[old]? = none) : (r.moveType old new).moves.types[old]? = some new := by
  simp only [moveType, if_neg hne, h]
  split <;> simp

theorem formerTypes_moveType_of_ne (h : new ≠ y) : (r.moveType old new).moves.formerTypes[y]? = r.moves.formerTypes[y]? := by
  have hy : ¬ (compare new y = .eq ∧ new ∉ r.moves.formerTypes) := fun heq => h (LawfulEqOrd.eq_of_compare heq.1)
  simp only [moveType]
  split
  · split
    · simp only [TreeMap.getElem?_insertIfNew, if_neg hy]
    · rfl
  · split
    · split <;> rfl
    · split
      · simp only [TreeMap.getElem?_insertIfNew, if_neg hy]
      · rfl

theorem formerTypes_moveType_of_some (h : r.moves.formerTypes[y]? = some x) : (r.moveType old new).moves.formerTypes[y]? = some x := by
  have hy : ¬ (compare new y = .eq ∧ new ∉ r.moves.formerTypes) := by
    rintro ⟨heq, hno⟩
    rw [LawfulEqOrd.eq_of_compare heq] at hno
    exact hno (TreeMap.mem_iff_isSome_getElem?.2 (by rw [h]; rfl))
  simp only [moveType]
  split
  · split
    · simp only [TreeMap.getElem?_insertIfNew, if_neg hy, h]
    · exact h
  · split
    · split <;> exact h
    · split
      · simp only [TreeMap.getElem?_insertIfNew, if_neg hy, h]
      · exact h

theorem formerTypes_moveType (href : new.isReference = true) (hfree : old = new ∨ r.moves.types[old]? = none)
    (h : r.moves.formerTypes[new]? = none) : (r.moveType old new).moves.formerTypes[new]? = some old := by
  have hnew : new ∉ r.moves.formerTypes := by
    rw [TreeMap.mem_iff_isSome_getElem?, h]
    exact Bool.false_ne_true
  have hinsert : (r.moves.formerTypes.insertIfNew new old)[new]? = some old := by
    rw [TreeMap.getElem?_insertIfNew, if_pos ⟨compare_self, hnew⟩]
  simp only [moveType, href, if_true]
  split
  · exact hinsert
  · next hne =>
    rw [hfree.resolve_left hne]
    exact hinsert

theorem types_foldl_of_ne (h : ∀ c ∈ calls, c.1 ≠ x ∨ c.1 = c.2) :
    (calls.foldl (fun r c => r.moveType c.1 c.2) r).moves.types[x]? = r.moves.types[x]? := by
  induction calls generalizing r with
  | nil => rfl
  | cons c calls ih =>
    obtain ⟨hc, hrest⟩ := List.forall_mem_cons.1 h
    rw [List.foldl_cons, ih hrest, types_moveType_of_ne hc]

theorem types_foldl_of_some (h : r.moves.types[x]? = some y) :
    (calls.foldl (fun r c => r.moveType c.1 c.2) r).moves.types[x]? = some y :=
  List.foldlRecOn (motive := fun r : Recorder => r.moves.types[x]? = some y) calls _ h fun _ hr _ _ => types_moveType_of_some hr

theorem formerTypes_foldl_of_ne (h : ∀ c ∈ calls, c.2 ≠ y) :
    (calls.foldl (fun r c => r.moveType c.1 c.2) r).moves.formerTypes[y]? = r.moves.formerTypes[y]? := by
  induction calls generalizing r with
  | nil => rfl
  | cons c calls ih =>
    obtain ⟨hc, hrest⟩ := List.forall_mem_cons.1 h
    rw [List.foldl_cons, ih hrest, formerTypes_moveType_of_ne hc]

theorem formerTypes_foldl_of_some (h : r.moves.formerTypes[y]? = some x) :
    (calls.foldl (fun r c => r.moveType c.1 c.2) r).moves.formerTypes[y]? = some x :=
  List.foldlRecOn (motive := fun r : Recorder => r.moves.formerTypes[y]? = some x) calls _ h fun _ hr _ _ => formerTypes_moveType_of_some hr

/-! ### Passes that move nothing -/

theorem all_eq_true_iff {α β : Type} {cmp : α → α → Ordering} [TransCmp cmp] [LawfulEqCmp cmp] {m : TreeMap α β cmp} {p : α → β → Bool} :
    m.all p = true ↔ ∀ (k : α) (v : β), m[k]? = some v → p k v = true := by
  have hlist : m.all p = m.toList.all fun x => p x.1 x.2 := by
    show m.inner.inner.all p = (DTreeMap.Internal.Impl.Const.toList m.inner.inner).all _
    rw [DTreeMap.Internal.Impl.all_eq_all_toListModel, DTreeMap.Internal.Impl.Const.toList_eq_toListModel_map]
    simp [List.all_map, Function.comp_def]
  rw [hlist, List.all_eq_true]
  simp [TreeMap.mem_toList_iff_getElem?_eq_some]

/-- A name may be set to stand for itself without saying anything. -/
theorem all_insertIfNew_self {K : Type} [Ord K] [TransOrd K] [LawfulEqOrd K] [BEq K] [LawfulBEq K] {m : TreeMap K K}
    (h : m.all (fun k v => k == v) = true) (x : K) : (m.insertIfNew x x).all (fun k v => k == v) = true := by
  rw [all_eq_true_iff] at h ⊢
  intro k v hget
  rw [TreeMap.getElem?_insertIfNew] at hget
  split at hget
  · next hk =>
    cases hget
    simpa using (LawfulEqOrd.eq_of_compare hk.1).symm
  · exact h k v hget

theorem isEmpty_moveType_self (h : r.isEmpty = true) (t : Descriptor) : (r.moveType t t).isEmpty = true := by
  simp only [moveType, if_true]
  split
  · simp only [isEmpty, Bool.and_eq_true] at h ⊢
    obtain ⟨⟨⟨hfront, hformer⟩, hfields⟩, hmethods⟩ := h
    exact ⟨⟨⟨hfront, all_insertIfNew_self hformer t⟩, hfields⟩, hmethods⟩
  · exact h

/-- There is nothing to put on top of a lens exactly if everything moved onto itself. -/
theorem isEmpty_ofMoves (kind : LayerKind) (calls : List (Descriptor × Descriptor)) :
    (ofMoves kind calls).isEmpty = !calls.any fun c => c.1 != c.2 := by
  by_cases hany : (calls.any fun c => c.1 != c.2) = true
  · rw [hany, Bool.not_true]
    obtain ⟨⟨old, new⟩, hmem, hne⟩ := List.any_eq_true.1 hany
    obtain ⟨before, after, rfl⟩ := List.append_of_mem hmem
    have hsome : ∃ first, ((ofMoves kind before).moveType old new).moves.types[old]? = some first := by
      cases hget : (ofMoves kind before).moves.types[old]? with
      | none => exact ⟨new, types_moveType (by simpa using hne) hget⟩
      | some first => exact ⟨first, types_moveType_of_some hget⟩
    obtain ⟨first, hfirst⟩ := hsome
    have hlast : (ofMoves kind (before ++ (old, new) :: after)).moves.types[old]? = some first := by
      rw [ofMoves, List.foldl_append, List.foldl_cons]
      exact types_foldl_of_some hfirst
    rw [isEmpty]
    cases hempty : (ofMoves kind (before ++ (old, new) :: after)).moves.types.isEmpty with
    | false => rfl
    | true =>
      rw [TreeMap.getElem?_of_isEmpty hempty] at hlast
      cases hlast
  · have hall : ∀ c ∈ calls, c.1 = c.2 := by simpa using hany
    rw [Bool.not_eq_true] at hany
    rw [hany, Bool.not_false]
    have hstart : (start kind).isEmpty = true := rfl
    refine List.foldlRecOn (motive := fun r : Recorder => r.isEmpty = true) calls _ hstart ?_
    intro r hr c hc
    rw [hall c hc]
    exact isEmpty_moveType_self hr c.2

theorem inverseClass_layer (r : Recorder) (t : Descriptor) : r.layer.inverseClass t = (r.moves.formerTypes[t]?).getD t := by
  rw [Renaming.inverseClass, layer, TreeMap.getD_eq_getD_getElem?, TreeMap.getElem?_filter']
  cases r.moves.formerTypes[t]? with
  | none => rfl
  | some old =>
    by_cases h : t = old
    · rw [h, Option.filter]
      simp
    · simp [Option.filter, h]

end Recorder

/-! ### What moves where -/

/-- No move has anything to do with the name. -/
def Untouched (u : Descriptor) (calls : List (Descriptor × Descriptor)) : Prop := ∀ c ∈ calls, c.1 ≠ u ∧ c.2 ≠ u

/-- The name moves to `v` only, and it is the first of all that move there. -/
structure MovesFirst (u v : Descriptor) (calls : List (Descriptor × Descriptor)) : Prop where
  reference : v.isReference = true
  first : calls.find? (·.2 == v) = some (u, v)
  only : ∀ c ∈ calls, c.1 = u → c.2 = v

namespace Recorder

variable {kind : LayerKind} {calls : List (Descriptor × Descriptor)} {u v : Descriptor}

theorem mapClass_layer (r : Recorder) (t : Descriptor) : r.layer.mapClass t = (r.moves.types[t]?).getD t :=
  TreeMap.getD_eq_getD_getElem?

theorem layer_of_untouched (h : Untouched u calls) :
    (ofMoves kind calls).layer.mapClass u = u ∧ (ofMoves kind calls).layer.inverseClass u = u := by
  rw [mapClass_layer, inverseClass_layer, ofMoves, types_foldl_of_ne fun c hc => .inl (h c hc).1,
    formerTypes_foldl_of_ne fun c hc => (h c hc).2]
  simp [start]

theorem layer_of_movesFirst (h : MovesFirst u v calls) :
    (ofMoves kind calls).layer.mapClass u = v ∧ (ofMoves kind calls).layer.inverseClass v = u := by
  obtain ⟨-, before, after, rfl, hbefore⟩ := List.find?_eq_some_iff_append.1 h.first
  -- Nothing before the move goes to `v`, so nothing before it moves `u`.
  have htarget : ∀ c ∈ before, c.2 ≠ v := by
    intro c hc
    simpa using hbefore c hc
  have hsource : ∀ c ∈ before, c.1 ≠ u := by
    intro c hc hu
    exact htarget c hc (h.only c (List.mem_append_left _ hc) hu)
  have hformer : (ofMoves kind before).moves.formerTypes[v]? = none := by
    rw [ofMoves, formerTypes_foldl_of_ne htarget]
    simp [start]
  have htypes : (ofMoves kind before).moves.types[u]? = none := by
    rw [ofMoves, types_foldl_of_ne fun c hc => .inl (hsource c hc)]
    simp [start]
  have hfold : ofMoves kind (before ++ (u, v) :: after) =
      after.foldl (fun r c => r.moveType c.1 c.2) ((ofMoves kind before).moveType u v) := by
    rw [ofMoves, List.foldl_append, List.foldl_cons]
    rfl
  rw [mapClass_layer, inverseClass_layer, hfold, formerTypes_foldl_of_some (formerTypes_moveType h.reference (.inr htypes) hformer)]
  constructor
  · by_cases huv : u = v
    · subst huv
      have hself : ∀ c ∈ after, c.1 ≠ u ∨ c.1 = c.2 := by
        intro c hc
        by_cases hu : c.1 = u
        · exact .inr (hu.trans (h.only c (by simp [hc]) hu).symm)
        · exact .inl hu
      rw [types_foldl_of_ne hself, types_moveType_of_ne (.inr rfl), htypes]
      rfl
    · rw [types_foldl_of_some (types_moveType huv htypes)]
      rfl
  · rfl

end Recorder

/-! ### Growing a lens -/

/-- A pass that moves types, or a point at which every body had been brought up to date. -/
inductive LensStep where
  | moves (kind : LayerKind) (calls : List (Descriptor × Descriptor))
  | clear

namespace LensStep

def apply (l : Lens) : LensStep → Except LensError Lens
  | moves kind calls => (Recorder.ofMoves kind calls).build l
  | clear => .ok l.clear

/-- The step makes a layer. -/
def makesLayer : LensStep → Bool
  | moves _ calls => calls.any fun c => c.1 != c.2
  | clear => true

/-- The step takes the name `u` to `v`, where nothing else has come before. -/
def Takes (u v : Descriptor) : LensStep → Prop
  | moves _ calls => (Untouched u calls ∧ v = u) ∨ MovesFirst u v calls
  | clear => v = u

/-- No type moves to an array type. -/
def AvoidsArrays : LensStep → Prop
  | moves _ calls => ∀ c ∈ calls, c.2.isArray = false
  | clear => True

instance : DecidablePred AvoidsArrays
  | moves _ calls => inferInstanceAs (Decidable (∀ c ∈ calls, c.2.isArray = false))
  | clear => .isTrue trivial

/-- What the step adds to the renamings. -/
def renamings : LensStep → List Renaming
  | moves kind calls => if calls.any fun c => c.1 != c.2 then [(Recorder.ofMoves kind calls).layer] else []
  | clear => []

variable {step : LensStep} {l l' : Lens} {u v : Descriptor}

theorem apply_eq_ok (h : step.apply l = .ok l') :
    l'.renamings = l.renamings ++ step.renamings ∧ l'.depth = l.depth + step.makesLayer.toNat := by
  cases step with
  | clear =>
    cases h
    constructor
    · rw [renamings, List.append_nil]
      rfl
    · rfl
  | moves kind calls =>
    rw [apply, Recorder.build] at h
    split at h
    · cases h
    · cases h
      rw [Recorder.isEmpty_ofMoves, renamings, makesLayer]
      cases calls.any fun c => c.1 != c.2 with
      | false => simp
      | true => simp [Lens.renamings, Lens.push, Lens.depth, Layer.moves?]

theorem Takes.isArray (h : step.Takes u v) (hstep : step.AvoidsArrays) (hu : u.isArray = false) : v.isArray = false := by
  cases step with
  | clear => exact h ▸ hu
  | moves kind calls =>
    rcases h with ⟨-, rfl⟩ | h
    · exact hu
    · exact hstep (u, v) (List.mem_of_find?_eq_some h.first)

theorem Takes.renamings (h : step.Takes u v) :
    step.renamings.foldl (fun t r => r.mapClass t) u = v ∧ step.renamings.foldr (fun r t => r.inverseClass t) v = u := by
  cases step with
  | clear => exact ⟨h.symm, h⟩
  | moves kind calls =>
    have hlayer : (Recorder.ofMoves kind calls).layer.mapClass u = v ∧ (Recorder.ofMoves kind calls).layer.inverseClass v = u := by
      rcases h with ⟨huntouched, rfl⟩ | hfirst
      · exact Recorder.layer_of_untouched huntouched
      · exact Recorder.layer_of_movesFirst hfirst
    rw [LensStep.renamings]
    split
    · exact hlayer
    · next hany =>
      -- Everything stays, and so does `u`.
      have hsame : v = u := by
        rcases h with ⟨-, rfl⟩ | hfirst
        · rfl
        · have hmem := List.mem_of_find?_eq_some hfirst.first
          by_contra hne
          exact hany (List.any_eq_true.2 ⟨_, hmem, by simpa using fun heq : u = v => hne heq.symm⟩)
      exact ⟨hsame.symm, hsame⟩

theorem renamings_cases (step : LensStep) : step.renamings = [] ∨ ∃ r, step.renamings = [r] := by
  cases step with
  | clear => exact .inl rfl
  | moves kind calls =>
    rw [renamings]
    split
    · exact .inr ⟨_, rfl⟩
    · exact .inl rfl

theorem Takes.types (h : step.Takes u v) (hstep : step.AvoidsArrays) (hu : u.isArray = false) (t : Descriptor) :
    step.renamings.foldl (fun t r => r.mapType t) (t.mapBase fun _ => u) = (t.mapBase fun _ => v) ∧
      step.renamings.foldr (fun r t => r.inverseType t) (t.mapBase fun _ => v) = t.mapBase fun _ => u := by
  obtain ⟨hforth, hback⟩ := h.renamings
  rcases step.renamings_cases with hnil | ⟨r, hr⟩
  · rw [hnil] at hforth ⊢
    obtain rfl : u = v := hforth
    exact ⟨rfl, rfl⟩
  · rw [hr, List.foldl_cons, List.foldl_nil] at hforth
    rw [hr, List.foldr_cons, List.foldr_nil] at hback
    rw [hr, List.foldl_cons, List.foldl_nil, List.foldr_cons, List.foldr_nil]
    have hv := h.isArray hstep hu
    constructor
    · have htwice := Descriptor.mapBase_mapBase (t := t) (f := fun _ => u) (g := r.mapClass) hu
      rw [hforth] at htwice
      exact htwice
    · have htwice := Descriptor.mapBase_mapBase (t := t) (f := fun _ => v) (g := r.inverseClass) hv
      rw [hback] at htwice
      exact htwice

end LensStep

namespace Lens

/-- A lens after some steps. -/
def grow (l : Lens) (steps : List LensStep) : Except LensError Lens := steps.foldlM LensStep.apply l

/-- At every step the name that `u` has got by then either has nothing to do with what moves, or
    is the first to move where it moves. -/
def Traceable : Descriptor → List LensStep → Prop
  | _, [] => True
  | u, step :: rest => ∃ v, step.Takes u v ∧ Traceable v rest

theorem grow_eq_ok {l l' : Lens} {steps : List LensStep} (h : l.grow steps = .ok l') :
    l'.renamings = l.renamings ++ steps.flatMap LensStep.renamings ∧ l'.depth = l.depth + steps.countP LensStep.makesLayer := by
  induction steps generalizing l with
  | nil =>
    cases h
    simp
  | cons step rest ih =>
    rw [grow, List.foldlM_cons] at h
    obtain ⟨l₁, hstep, hrest⟩ := bind_eq_ok.1 h
    obtain ⟨hrenamings, hdepth⟩ := LensStep.apply_eq_ok hstep
    obtain ⟨hrenamings', hdepth'⟩ := ih hrest
    constructor
    · rw [hrenamings', hrenamings, List.flatMap_cons, List.append_assoc]
    · rw [hdepth', hdepth, List.countP_cons]
      cases step.makesLayer <;> simp [Nat.add_assoc, Nat.add_comm]

/-- Forth through all steps, and back. -/
theorem Traceable.types {u : Descriptor} {steps : List LensStep} (h : Traceable u steps)
    (hsteps : ∀ step ∈ steps, step.AvoidsArrays) (hu : u.isArray = false) (t : Descriptor) :
    (steps.flatMap LensStep.renamings).foldr (fun r t => r.inverseType t)
      ((steps.flatMap LensStep.renamings).foldl (fun t r => r.mapType t) (t.mapBase fun _ => u)) = t.mapBase fun _ => u := by
  induction steps generalizing u with
  | nil => rfl
  | cons step rest ih =>
    obtain ⟨v, htakes, hrest⟩ := h
    obtain ⟨hstep, hsteps⟩ := List.forall_mem_cons.1 hsteps
    obtain ⟨hforth, hback⟩ := htakes.types hstep hu t
    rw [List.flatMap_cons, List.foldl_append, List.foldr_append, hforth, ih hrest hsteps (htakes.isArray hstep hu), hback]

/-- **Names walk back.** A lens that grew by passes that move types, none of them to an array type, and
    was cleared now and then, has a layer for each pass that moved something away and for each time
    it was cleared. A type whose base at every pass either had nothing to do with it or was the
    first to move to a new reference type, which may be itself, is found again by going back from
    its present name. -/
theorem depth_and_firstType_of_grow {steps : List LensStep} {l : Lens} (h : identity.grow steps = .ok l)
    (hsteps : ∀ step ∈ steps, step.AvoidsArrays) :
    l.depth = steps.countP LensStep.makesLayer ∧ ∀ t, Traceable t.base steps → l.firstType (l.renamedType t) = t := by
  obtain ⟨hrenamings, hdepth⟩ := grow_eq_ok h
  constructor
  · rw [hdepth]
    exact Nat.zero_add _
  · intro t ht
    have hwalk := ht.types hsteps t.isArray_base t
    rw [Descriptor.mapBase_base] at hwalk
    rw [firstType, renamedType, hrenamings]
    exact hwalk

/-! ### Sample -/

/-- `A` and `C` become `B`, where `A` comes first. After all bodies have been brought up to date a pass
    leaves everything where it is, and then `B` becomes `E`. -/
def wandering : List LensStep :=
  [.moves .horizontalClassMerger [(⟨"LA;"⟩, ⟨"LB;"⟩), (⟨"LC;"⟩, ⟨"LB;"⟩), (⟨"LD;"⟩, .int)], .clear,
    .moves .treeFixer [(⟨"LB;"⟩, ⟨"LB;"⟩)], .moves .treeFixer [(⟨"LB;"⟩, ⟨"LE;"⟩)]]

theorem depth_and_firstType_of_wandering :
    ∃ l, identity.grow wandering = .ok l ∧ l.depth = 3 ∧ l.renamedType ⟨"[[LA;"⟩ = ⟨"[[LE;"⟩ ∧
      l.firstType (l.renamedType ⟨"[[LA;"⟩) = ⟨"[[LA;"⟩ := by
  have hgrow : (match identity.grow wandering with
      | .ok l => l.renamedType ⟨"[[LA;"⟩ == ⟨"[[LE;"⟩
      | .error _ => false) = true := by decide
  have harrays : ∀ step ∈ wandering, step.AvoidsArrays := by decide
  have htrace : Traceable (Descriptor.base ⟨"[[LA;"⟩) wandering := by
    have hbase : Descriptor.base ⟨"[[LA;"⟩ = ⟨"LA;"⟩ := by decide
    rw [hbase]
    exact ⟨⟨"LB;"⟩, .inr ⟨by decide, by decide, by decide⟩, ⟨"LB;"⟩, rfl, ⟨"LB;"⟩,
      .inr ⟨by decide, by decide, by decide⟩, ⟨"LE;"⟩,
      .inr ⟨by decide, by decide, by decide⟩, trivial⟩
  split at hgrow
  · next l hl =>
    obtain ⟨hdepth, hwalk⟩ := depth_and_firstType_of_grow hl harrays
    exact ⟨l, hl, hdepth.trans (by decide), by simpa using hgrow, hwalk _ htrace⟩
  · cases hgrow

end Lens

/-! ### A method that is led back to another -/

namespace Shrink

namespace Shadow

def type (name : String) : Descriptor := .ofBinaryName ("p/" ++ name)

def staticMethod (holder name : String) : MethodDef where
  ref := ⟨type holder, name, .void⟩
  access := .publicFlag ||| .staticFlag
  code := none

/-- The classes `A` and `B` are merged, and `B.m` becomes `A.m$1`. Below `B` there is an `m$1` already. -/
def program : Program := .ofList
  [{ type := .object, kind := .library, superclass := none },
    { type := type "A", superclass := some .object, methods := [staticMethod "A" "m"] },
    { type := type "B", superclass := some .object, methods := [staticMethod "B" "m"] },
    { type := type "D", superclass := some (type "B"), methods := [staticMethod "D" "m$1"] }]

/-- What has gone astray, and after which pass. -/
def stray? : Outcome ShrinkError Shrunk → Option (Pass × Astray)
  | .error (.error (.lens pass stray)) => some (pass, stray)
  | _ => none

theorem eq_of_stray? {x : Outcome ShrinkError Shrunk} {pass : Pass} {stray : Astray} (h : stray? x = some (pass, stray)) :
    x = Outcome.raise (.lens pass stray) := by
  unfold stray? at h
  split at h
  · cases h
    rfl
  · cases h

end Shadow

/-- A method is led back to one that the input does not declare. -/
theorem method_astray :
    run .inserted 0 { checksLens := true, unboxesEnums := false, propagatesArguments := false } Shadow.program {} =
      Outcome.raise (.lens .classMerging ⟨"Lp/D;->m$1()V", "Lp/D;->m$1()V", "Lp/D;->m()V"⟩) :=
  Shadow.eq_of_stray? (by decide +kernel)

end Shrink

end DexShrinker
