/-
  DexShrinker/Proofs/Unboxing/Lowering.lean
  =========================================
  **What lowering keeps.**

  Lowering goes over a body block by block. Blocks go where they went, phis keep the number
  of their operands, handlers stay, and an instruction that defines a value is a call or has
  a result (`UnboxedEnums.lower_spec`). No placeholder for an instance of an enum is left. The
  class initializer of an enum, which is lowered first, keeps its control flow too
  (`FixedEnum.replaceAllocations_spec`).
-/
import DexShrinker.Proofs.Updating.Rebuilt
import DexShrinker.Unboxing.Lowering

namespace DexShrinker

/-- The operation stands for an instance of an enum. -/
def Op.isPlaceholder : Op → Bool
  | newUnboxedEnum .. => true
  | _ => false

/-- The block `b'` goes where `b` goes, with its handlers. -/
structure Block.Lowers (b b' : Block) : Prop extends b.Follows b' where
  handlers : b'.handlers = b.handlers

theorem Block.Lowers.refl (b : Block) : b.Lowers b := ⟨.refl b, rfl⟩

theorem Block.Lowers.trans {a b c : Block} (h : a.Lowers b) (h' : b.Lowers c) : a.Lowers c :=
  ⟨h.toFollows.trans h'.toFollows, h'.handlers.trans h.handlers⟩

theorem Block.forall₂_lowers_trans {as bs cs : List Block} (h : List.Forall₂ Block.Lowers as bs) (h' : List.Forall₂ Block.Lowers bs cs) :
    List.Forall₂ Block.Lowers as cs := by
  induction h generalizing cs with
  | nil => exact h'
  | cons hb _ ih =>
    cases h' with
    | cons hb' h' => exact .cons (hb.trans hb') (ih h')

/-- A body whose blocks keep their control flow, with instructions that satisfy `P` if those of `c`
    satisfy `Q`. -/
structure Body.Lowers (Q P : Instr → Prop) (c d : Body) : Prop where
  blocks : List.Forall₂ Block.Lowers c.blocks d.blocks
  arguments : d.arguments = c.arguments
  each : c.Each Q → d.Each P

namespace Body.Lowers

variable {Q P P' : Instr → Prop} {c d e : Body}

theorem refl (P : Instr → Prop) (c : Body) : Body.Lowers P P c c := ⟨List.forall₂_same.2 fun b _ => .refl b, rfl, id⟩

theorem trans (h : Body.Lowers Q P c d) (h' : Body.Lowers P P' d e) : Body.Lowers Q P' c e :=
  ⟨Block.forall₂_lowers_trans h.blocks h'.blocks, h'.arguments.trans h.arguments,
    fun hc => h'.each (h.each hc)⟩

/-- Blocks that are rewritten one by one. -/
theorem of_map {f : Block → Block} (hblocks : d.blocks = c.blocks.map f) (harguments : d.arguments = c.arguments)
    (hf : ∀ b : Block, b.Lowers (f b)) (heach : ∀ b : Block, (∀ i ∈ b.body, Q i) → ∀ i ∈ (f b).body, P i) : Body.Lowers Q P c d := by
  refine ⟨?_, harguments, fun hc b hb i hi => ?_⟩
  · rw [hblocks, List.forall₂_map_right_iff]
    exact List.forall₂_same.2 fun b _ => hf b
  · rw [hblocks] at hb
    obtain ⟨b₀, hb₀, rfl⟩ := List.mem_map.1 hb
    exact heach b₀ (hc b₀ hb₀) i hi

theorem shaped (h : Body.Lowers Q P c d) (hc : c.Shaped) : d.Shaped := hc.follows (h.blocks.imp fun _ _ hb => hb.toFollows)

end Body.Lowers

/-! ### Clean-up -/

theorem Terminator.successors_mapReads (f : ValueId → ValueId) (here : BlockId) (t : Terminator) :
    (t.mapReads f).successors here = t.successors here := by
  cases t <;> rfl

/-- The property of an instruction does not depend on what it reads. -/
def Instr.IgnoresReads (P : Instr → Prop) : Prop := ∀ (i : Instr) (f : ValueId → ValueId), P i → P { i with op := i.op.mapReads f }

theorem Body.lowers_replaceReads {P : Instr → Prop} (hP : Instr.IgnoresReads P) (c : Body) (old new : ValueId) :
    Body.Lowers P P c (c.replaceReads old new) := by
  refine .of_map rfl rfl (fun b => ⟨⟨fun here => ?_, fun p hp => ?_⟩, rfl⟩) fun b hb i hi => ?_
  · simp only [Block.targets, Block.mapReads, Terminator.successors_mapReads]
  · obtain ⟨q, hq, rfl⟩ := List.mem_map.1 hp
    exact ⟨q, hq, List.length_map _⟩
  · obtain ⟨j, hj, rfl⟩ := List.mem_map.1 hi
    exact hP j _ (hb j hj)

theorem Body.lowers_removeDead {P : Instr → Prop} {c d : Body} {n : Nat} (h : c.removeDead = .ok (n, d)) : Body.Lowers P P c d := by
  induction c using Body.removeDead.induct generalizing n with
  | case1 c f hcounts =>
    rw [removeDead, hcounts] at h
    cases h
  | case2 c f hrange hcounts =>
    rw [removeDead, hrange] at h
    split at h <;> simp_all
  | case3 c counts hcounts hrange hlt ih =>
    rw [removeDead, hcounts, hrange] at h
    simp only [hlt, dif_pos] at h
    obtain ⟨⟨n', d'⟩, hrest, heq⟩ := map_eq_ok.1 h
    cases heq
    refine Body.Lowers.trans (P := P) ?_ (ih hrest)
    refine .of_map rfl rfl (fun b => ⟨⟨fun _ => rfl, fun p hp => ?_⟩, rfl⟩) fun b hb i hi => ?_
    · exact ⟨p, (List.mem_filter.1 hp).1, rfl⟩
    · exact hb i (List.mem_filter.1 hi).1
  | case4 c counts hcounts hrange hge =>
    rw [removeDead, hcounts, hrange] at h
    simp only [hge, dif_neg, not_false_iff] at h
    cases h
    exact .refl P _

/-! ### Class initializers of enums -/

namespace FixedEnum

/-- **A class initializer with placeholders for the instances.** -/
theorem replaceAllocations_spec {c d : Body} {enum : Descriptor} {found : List Allocation}
    (h : replaceAllocations c enum found = .ok d) : Body.Lowers Instr.IsSound Instr.IsSound c d := by
  obtain ⟨⟨n, e⟩, hdead, h⟩ := bind_eq_ok.1 h
  cases h
  refine Body.Lowers.trans (P := Instr.IsSound) ?_ (Body.lowers_removeDead hdead)
  refine ⟨?_, rfl, fun hc b hb i hi => ?_⟩
  · refine List.forall₂_iff_get.2 ⟨by simp, fun i hi hi' => ?_⟩
    simp only [List.get_eq_getElem, List.getElem_mapIdx]
    exact ⟨.of_eq rfl rfl rfl, rfl⟩
  · obtain ⟨n, hn, rfl⟩ := List.mem_mapIdx.1 hb
    obtain ⟨is, his, hi⟩ := List.mem_flatten.1 hi
    obtain ⟨j, hj, rfl⟩ := List.mem_mapIdx.1 his
    have hold := hc _ (List.getElem_mem hn) _ (List.getElem_mem hj)
    dsimp only at hi
    split at hi
    · cases hi
    · split at hi
      · rw [List.mem_singleton.1 hi]
        exact fun _ => rfl
      · rw [List.mem_singleton.1 hi]
        exact hold

end FixedEnum

/-! ### Operations -/

namespace UnboxedEnums

/-- If the step ends well, what it gives satisfies `Q`. -/
def Lowering.Gives {α : Type} (x : Lowering α) (Q : α → Prop) : Prop := ∀ s a t, x.run s = .ok (a, t) → Q a

namespace Lowering.Gives

variable {α β : Type} {x : Lowering α} {Q : α → Prop}

theorem pure {a : α} (h : Q a) : Lowering.Gives (Pure.pure a) Q := by
  intro s b t hrun
  cases hrun
  exact h

theorem throw (e : Fault) : Lowering.Gives (MonadExcept.throw e : Lowering α) Q := by
  intro s b t hrun
  cases hrun

theorem any : Lowering.Gives x fun _ => True := fun _ _ _ _ => trivial

theorem bind {f : α → Lowering β} {R : β → Prop} (hx : Lowering.Gives x Q) (hf : ∀ a, Q a → Lowering.Gives (f a) R) :
    Lowering.Gives (x >>= f) R := by
  intro s b t hrun
  rw [StateT.run_bind] at hrun
  obtain ⟨⟨a, s'⟩, hfirst, hrun⟩ := bind_eq_ok.1 hrun
  exact hf a (hx s a s' hfirst) s' b t hrun

/-- The first step does not matter. -/
theorem andThen {f : α → Lowering β} {R : β → Prop} (hf : ∀ a, Lowering.Gives (f a) R) : Lowering.Gives (x >>= f) R :=
  bind any fun a _ => hf a

theorem mapM {f : α → Lowering β} {R : α → β → Prop} {xs : List α} (h : ∀ x ∈ xs, Lowering.Gives (f x) (R x)) :
    Lowering.Gives (xs.mapM f) fun ys => List.Forall₂ R xs ys := by
  induction xs with
  | nil => exact pure .nil
  | cons x xs ih =>
    rw [List.mapM_cons]
    rw [List.forall_mem_cons] at h
    exact bind h.1 fun y hy => bind (ih h.2) fun ys hys => pure (.cons hy hys)

end Lowering.Gives

open Lowering (Gives)

/-- The instruction may stand in a lowered body. -/
def IsLowered (i : Instr) : Prop := i.IsNearlySound ∧ i.op.isPlaceholder = false

/-- The instruction `i` may be lowered to `j`. -/
def LowersTo (i j : Instr) : Prop := (i.IsNearlySound → j.IsNearlySound) ∧ j.op.isPlaceholder = false

theorem IsLowered.lowersTo {j : Instr} (h : IsLowered j) (i : Instr) : LowersTo i j := ⟨fun _ => h.1, h.2⟩

/-- The operation is a call or a number. -/
def IsReplacement (op : Op) : Prop := op.isCall = true ∨ ∃ n, op = .constInt n

variable {u : UnboxedEnums} {facts : BodyFacts}

theorem isLowered_of_isReplacement {op : Op} (h : IsReplacement op) (dest : Option ValueId) (line : Line) : IsLowered ⟨dest, op, line⟩ := by
  rcases h with hcall | ⟨n, rfl⟩
  · refine ⟨fun _ => .inr hcall, ?_⟩
    cases op <;> first | rfl | cases hcall
  · exact ⟨fun _ => .inl rfl, rfl⟩

theorem isReplacement_utilityCall (m : MethodRef) (args : List ValueId) : IsReplacement (utilityCall m args) := .inl rfl

theorem isReplacement_constInt (n : Int32) : IsReplacement (.constInt n) := .inr ⟨n, rfl⟩

theorem gives_baseCall (enum : Descriptor) (method : EnumMethod) (args : List ValueId) :
    Gives (u.baseCall facts enum method args) IsReplacement := by
  unfold baseCall
  dsimp only
  split
  · refine Gives.andThen fun other => Gives.andThen fun args => ?_
    split <;> first | exact .pure (isReplacement_utilityCall _ _) | exact .pure (isReplacement_constInt _) | exact .throw _
  · refine Gives.andThen fun args => ?_
    split <;> first | exact .pure (isReplacement_utilityCall _ _) | exact .pure (isReplacement_constInt _) | exact .throw _

/-- A call with the instructions in front of it. -/
def IsCallWith (x : List Instr × Op) : Prop := (∀ i ∈ x.1, IsLowered i) ∧ IsReplacement x.2

theorem gives_receiverCall (enum : Descriptor) (kind : InvokeKind) (m : MethodRef) (args : List ValueId) :
    Gives (u.receiverCall facts enum kind m args) fun op => ∀ x ∈ op, IsReplacement x := by
  unfold receiverCall
  split
  · refine Gives.andThen fun args => .pure ?_
    rintro _ ⟨⟩
    exact .inl rfl
  · next method _ =>
    refine (gives_baseCall enum method args).bind fun op hop => .pure ?_
    rintro _ ⟨⟩
    exact hop
  · exact .pure (by simp)

theorem gives_staticCall (m : MethodRef) (args : List ValueId) :
    Gives (u.staticCall m args) fun call => ∀ x ∈ call, IsCallWith x := by
  unfold staticCall
  split
  · next d _ =>
    have hvalues : Gives (u.valuesCall d) IsCallWith :=
      Gives.andThen fun size => .pure ⟨List.forall_mem_singleton.2 ⟨fun _ => .inl rfl, rfl⟩, .inl rfl⟩
    refine hvalues.bind fun call hcall => .pure ?_
    rintro _ ⟨⟩
    exact hcall
  · split
    · split
      · exact .pure (by simp)
      · refine Gives.andThen fun enum => ?_
        split
        · refine .pure ?_
          rintro _ ⟨⟩
          exact ⟨by simp, .inl rfl⟩
        · exact .pure (by simp)
    · exact .pure (by simp)

theorem gives_call (kind : InvokeKind) (m : MethodRef) (args : List ValueId) (itf : Bool) :
    Gives (u.call facts kind m args itf) IsCallWith := by
  unfold call
  -- What is left to do is the same for all kinds of calls.
  have hrest (rest : Option (List Instr × Op) → Lowering (List Instr × Op)) (hsome : ∀ x, rest (some x) = Pure.pure x)
      (hnone : rest none = do
        let args ← u.unboxArguments facts args (m.argumentTypes (kind == .static))
        Pure.pure ([], .invoke kind m args itf))
      (special : Option (List Instr × Op)) (hspecial : ∀ x ∈ special, IsCallWith x) : Gives (rest special) IsCallWith := by
    cases special with
    | some replaced =>
      rw [hsome]
      exact .pure (hspecial replaced rfl)
    | none =>
      rw [hnone]
      exact Gives.andThen fun args => .pure ⟨by simp, .inl rfl⟩
  dsimp only
  split
  · exact (gives_staticCall m _).bind (hrest _ (fun _ => rfl) rfl)
  · exact Gives.bind (.pure (by simp)) (hrest _ (fun _ => rfl) rfl)
  · refine Gives.andThen fun enum => ?_
    split
    · next e =>
      refine (gives_receiverCall e _ m _).bind fun op hop => Gives.bind (.pure fun x hx => ?_) (hrest _ (fun _ => rfl) rfl)
      obtain ⟨y, hy, rfl⟩ := Option.map_eq_some_iff.1 hx
      exact ⟨by simp, hop y hy⟩
    · exact Gives.bind (.pure (by simp)) (hrest _ (fun _ => rfl) rfl)

/-- An instruction that is like `i` apart from what it reads. -/
theorem lowersTo_of_alike {i : Instr} {op : Op} (hresult : op.hasResult = i.op.hasResult) (hcall : op.isCall = i.op.isCall)
    (hplain : op.isPlaceholder = false) : LowersTo i { i with op := op } :=
  ⟨fun hi hdest => by
    rw [hresult, hcall]
    exact hi hdest, hplain⟩

/-- **What an instruction is lowered to.** -/
theorem gives_instr (i : Instr) : Gives (u.instr facts i) fun is => ∀ j ∈ is, LowersTo i j := by
  have hkeep (h : i.op.isPlaceholder = false) : ∀ j ∈ [i], LowersTo i j := List.forall_mem_singleton.2 ⟨id, h⟩
  have hnumber (n : Int32) : ∀ j ∈ [({ i with op := .constInt n } : Instr)], LowersTo i j :=
    List.forall_mem_singleton.2 ((isLowered_of_isReplacement (isReplacement_constInt n) _ _).lowersTo i)
  unfold instr
  split
  · exact .pure (hnumber _)
  · next f hop =>
    split
    · exact .pure (hnumber _)
    · exact .pure (hkeep (by rw [hop]; rfl))
  · next f v hop =>
    exact Gives.andThen fun w => .pure (List.forall_mem_singleton.2 (lowersTo_of_alike (by rw [hop]; rfl) (by rw [hop]; rfl) rfl))
  · next f object v hop =>
    exact Gives.andThen fun w => .pure (List.forall_mem_singleton.2 (lowersTo_of_alike (by rw [hop]; rfl) (by rw [hop]; rfl) rfl))
  · next f object hop =>
    split
    · exact .pure (List.forall_mem_singleton.2 ((isLowered_of_isReplacement (isReplacement_utilityCall _ _) _ _).lowersTo i))
    · exact .pure (hkeep (by rw [hop]; rfl))
  · next array index v hop =>
    exact Gives.andThen fun t => Gives.andThen fun w => .pure (List.forall_mem_singleton.2
      (lowersTo_of_alike (by rw [hop]; rfl) (by rw [hop]; rfl) rfl))
  · next kind m args itf hop =>
    refine (gives_call kind m args itf).bind fun call hcall => .pure fun j hj => ?_
    rcases List.mem_append.1 hj with hj | hj
    · exact (hcall.1 j hj).lowersTo i
    · rw [List.mem_singleton.1 hj]
      exact (isLowered_of_isReplacement hcall.2 _ _).lowersTo i
  · next hne _ _ _ _ _ _ =>
    refine .pure (hkeep ?_)
    cases hop : i.op <;> first | rfl | exact absurd hop (hne _ _)

theorem gives_terminator (returnsEnum : Bool) (t : Terminator) :
    Gives (u.terminator facts returnsEnum t) fun t' => ∀ here, t'.successors here = t.successors here := by
  unfold terminator
  split
  · exact Gives.andThen fun v => .pure fun _ => rfl
  · next kind lhs rhs target =>
    refine Gives.andThen fun first => ?_
    dsimp only
    split
    case' h_1 => refine Gives.andThen fun comparesEnum => ?_
    case' h_2 => refine Gives.andThen fun second => Gives.andThen fun comparesEnum => ?_
    case' h_3 => refine Gives.andThen fun comparesEnum => ?_
    -- Whether enums are compared has been found out.
    all_goals
      split
      · refine Gives.andThen fun lhs => ?_
        split <;> exact Gives.andThen fun rhs => .pure fun _ => rfl
      · exact .pure fun _ => rfl
  · exact .pure fun _ => rfl

theorem gives_phi (p : Phi) : Gives (u.phi facts p) fun p' => p'.operands.length = p.operands.length := by
  refine Gives.andThen fun t => ?_
  exact (Gives.mapM (R := fun _ _ => True) fun _ _ => .any).bind fun vs hvs => .pure hvs.length_eq.symm

theorem gives_block (returnsEnum : Bool) (b : Block) : Gives (u.block facts returnsEnum b) fun b' =>
    b.Lowers b' ∧ ∀ j ∈ b'.body, ∃ i ∈ b.body, LowersTo i j := by
  refine (Gives.mapM fun p _ => gives_phi p).bind fun phis hphis => ?_
  refine (Gives.mapM fun i _ => gives_instr i).bind fun body hbody => ?_
  refine (gives_terminator returnsEnum b.terminator).bind fun t ht => .pure ⟨⟨⟨fun here => ?_, fun p hp => ?_⟩, rfl⟩, ?_⟩
  · rw [Block.targets, Block.targets, ht]
  · exact exists_of_mem_left hphis.flip hp
  · intro j hj
    obtain ⟨is, his, hj⟩ := List.mem_flatten.1 hj
    obtain ⟨i, hi, hlowers⟩ := exists_of_mem_left hbody.flip his
    exact ⟨i, hi, hlowers j hj⟩

/-! ### Bodies -/

theorem isLowered_ignoresReads : Instr.IgnoresReads Instr.IsNearlySound := by
  intro i f h
  have hop : (i.op.mapReads f).hasResult = i.op.hasResult ∧ (i.op.mapReads f).isCall = i.op.isCall := by
    cases i.op <;> exact ⟨rfl, rfl⟩
  intro hdest
  rw [hop.1, hop.2]
  exact h hdest

theorem removeCasts_spec {c d : Body} (h : u.removeCasts c = .ok d) : Body.Lowers Instr.IsNearlySound Instr.IsNearlySound c d := by
  refine foldlM_preserves (P := fun d => Body.Lowers Instr.IsNearlySound Instr.IsNearlySound c d) (fun e v _ e' he hstep => ?_) ?_ h
  · obtain ⟨w, -, hstep⟩ := bind_eq_ok.1 hstep
    cases hstep
    exact he.trans (Body.lowers_replaceReads isLowered_ignoresReads e v w)
  · exact .of_map rfl rfl (fun b => ⟨.of_eq rfl rfl rfl, rfl⟩) fun b hb i hi => hb i (List.mem_filter.1 hi).1

theorem forall₂_defineZero (zero : Option ValueId) (bs : List Block) : List.Forall₂ Block.Lowers bs (defineZero zero bs) := by
  cases bs with
  | nil => exact .nil
  | cons b bs => exact .cons ⟨.of_eq rfl rfl rfl, rfl⟩ (List.forall₂_same.2 fun b _ => .refl b)

/-- The body that the blocks make up with the value that is `0` in front. -/
theorem lowers_defineZero {c d : Body} {facts : BodyFacts} {returnsEnum : Bool} {blocks : List Block} {s t : LoweringState}
    (h : (c.blocks.mapM (u.block facts returnsEnum)).run s = .ok (blocks, t)) (hblocks : d.blocks = defineZero t.zero blocks)
    (harguments : d.arguments = c.arguments) :
    Body.Lowers Instr.IsNearlySound Instr.IsNearlySound c d ∧ ∀ b ∈ d.blocks, ∀ i ∈ b.body, i.op.isPlaceholder = false := by
  have hmade := Gives.mapM (fun b _ => gives_block returnsEnum b) _ _ _ h
  have heach : ∀ b ∈ d.blocks, ∀ j ∈ b.body, IsLowered j ∨ ∃ b₀ ∈ c.blocks, ∃ i ∈ b₀.body, LowersTo i j := by
    intro b hb j hj
    have hlowered : ∀ b ∈ blocks, ∀ j ∈ b.body, ∃ b₀ ∈ c.blocks, ∃ i ∈ b₀.body, LowersTo i j := by
      intro b hb j hj
      obtain ⟨b₀, hb₀, -, hbody⟩ := exists_of_mem_left hmade.flip hb
      exact ⟨b₀, hb₀, hbody j hj⟩
    rw [hblocks] at hb
    cases blocks with
    | nil => cases hb
    | cons b₁ bs =>
      rcases List.mem_cons.1 hb with rfl | hb
      · rcases List.mem_append.1 hj with hj | hj
        · obtain ⟨v, -, rfl⟩ := List.mem_map.1 hj
          exact .inl (isLowered_of_isReplacement (isReplacement_constInt 0) _ _)
        · exact .inr (hlowered b₁ List.mem_cons_self j hj)
      · exact .inr (hlowered b (List.mem_cons_of_mem _ hb) j hj)
  refine ⟨⟨?_, harguments, fun hc b hb j hj => ?_⟩, fun b hb j hj => ?_⟩
  · rw [hblocks]
    exact Block.forall₂_lowers_trans (hmade.imp fun _ _ hb => hb.1) (forall₂_defineZero t.zero blocks)
  · rcases heach b hb j hj with hlowered | ⟨b₀, hb₀, i, hi, hlowers⟩
    · exact hlowered.1
    · exact hlowers.1 (hc b₀ hb₀ i hi)
  · rcases heach b hb j hj with hlowered | ⟨_, _, _, _, hlowers⟩
    · exact hlowered.2
    · exact hlowers.2

/-- **What lowering makes of a body.** -/
theorem lower_spec {c d : Body} (h : u.lower c = .ok d) :
    Body.Lowers Instr.IsNearlySound Instr.IsNearlySound c d ∧ ∀ b ∈ d.blocks, ∀ i ∈ b.body, i.op.isPlaceholder = false := by
  obtain ⟨c₁, hcasts, h⟩ := bind_eq_ok.1 h
  simp only at h
  obtain ⟨⟨blocks, s⟩, hblocks, h⟩ := bind_eq_ok.1 h
  obtain ⟨⟨n, e⟩, hdead, h⟩ := bind_eq_ok.1 h
  cases h
  obtain ⟨hlowers, hplain⟩ := lowers_defineZero (d := { c₁ with values := s.values, blocks := defineZero s.zero blocks }) hblocks rfl rfl
  exact ⟨(removeCasts_spec hcasts).trans (hlowers.trans (Body.lowers_removeDead hdead)),
    (Body.lowers_removeDead (P := fun i => i.op.isPlaceholder = false) hdead).each hplain⟩

end UnboxedEnums

end DexShrinker
