/-
  DexShrinker/Proofs/Updating/Verified.lean
  =========================================
  **Updated bodies pass verification.**

  An instruction becomes several that define what it defined and may use new values among
  themselves (`exists_instr`). Arguments that are gone are defined by the entry instead. So the body
  before equal guards are dropped extends the one it is made of, and dropping them from a strict
  body leaves a well-formed one (`verified_body`).

  Two things are not given by themselves. A call that comes to call a method without a result
  loses its destination, so no call of such a method may have had one. And the changes on the
  way of a lookup must number arguments that are there, or combining them may fail.
-/
import DexShrinker.Proofs.Body.Extending
import DexShrinker.Proofs.Lens.Rows
import DexShrinker.Proofs.Updating.Reads

namespace DexShrinker

open ProtoChanges (CountsFrom)

/-- The method that an operation calls. -/
def Op.callee? : Op → Option MethodRef
  | invoke _ m _ _ => some m
  | _ => none

/-- A call of a method that returns nothing has no result. -/
def Instr.RespectsVoid (i : Instr) : Prop := (i.op.callee?.any fun m => m.proto.returnType.isVoid) = true → i.dest = none

instance : DecidablePred Instr.RespectsVoid := fun i =>
  inferInstanceAs (Decidable ((i.op.callee?.any fun m => m.proto.returnType.isVoid) = true → i.dest = none))

/-- The changes of the definition of the method now called `m`, layer by layer. -/
def Lens.definitionTrail (l : Lens) (m : MethodRef) (code : Lens) : List ProtoChanges :=
  ((l.forward code).foldr stepDefinition (m, [])).2

namespace Update

/-- The changes of calls, and those of the definition of the method, number layer by layer only arguments that are
    still there. -/
structure CountsRight (u : Update) (method : MethodRef) : Prop where
  calls : ∀ m, ∃ n ≤ UInt32.size, CountsFrom n (Renaming.callTrail (u.lens.forward u.code) m)
  definition : ∃ n ≤ UInt32.size, CountsFrom n (u.lens.definitionTrail method u.code)

/-- Calls of methods that return something become calls of such methods, and the other way round. -/
def KeepsVoid (u : Update) (method : MethodRef) : Prop := ∀ m kind result, u.method method m kind = .ok result →
  result.ref.proto.returnType.isVoid = m.proto.returnType.isVoid

variable {u : Update} {method : MethodRef}

namespace CountsRight

theorem exists_method (h : u.CountsRight method) (m : MethodRef) (kind : InvokeKind) : ∃ result, u.method method m kind = .ok result := by
  obtain ⟨n, hn, hcounts⟩ := h.calls m
  exact Lens.exists_lookupMethod hn hcounts (some method) kind

theorem exists_definitionChanges (h : u.CountsRight method) : ∃ changes, u.definitionChanges method = .ok changes := by
  obtain ⟨n, hn, hcounts⟩ := h.definition
  exact hcounts.exists_combined hn

theorem exists_handle (h : u.CountsRight method) (x : MethodHandle) : ∃ y, u.handle method x = .ok y := by
  rw [handle]
  split
  · exact ⟨_, rfl⟩
  · next m hm =>
    obtain ⟨result, hresult⟩ := h.exists_method m x.kind.invokeKind
    rw [hresult]
    exact ⟨_, rfl⟩

theorem exists_callSite (h : u.CountsRight method) (x : CallSite) : ∃ y, u.callSite method x = .ok y := by
  have harg : ∀ a ∈ x.bootstrapArgs, ∃ b, u.bootstrapArg method a = .ok b ∧ True := by
    intro a _
    cases a with
    | handle y =>
      obtain ⟨z, hz⟩ := h.exists_handle y
      exact ⟨.handle z, by rw [bootstrapArg, hz]; rfl, trivial⟩
    | _ => exact ⟨_, rfl, trivial⟩
  obtain ⟨args, hargs, -⟩ := exists_mapM_eq_ok harg
  obtain ⟨bootstrap, hbootstrap⟩ := h.exists_handle x.bootstrap
  rw [callSite, hbootstrap, hargs]
  exact ⟨_, rfl⟩

/-- Over a single layer there is nothing to count. -/
theorem of_across {n : Renaming} (hu : u.Across n) (method : MethodRef) : u.CountsRight method where
  calls m := by
    rw [hu.forward]
    exact ⟨_, Nat.le_refl _, ProtoChanges.countsFrom_singleton _⟩
  definition := by
    rw [Lens.definitionTrail, hu.forward]
    exact ⟨_, Nat.le_refl _, ProtoChanges.countsFrom_singleton _⟩

end CountsRight

theorem void_follow {rs : List Renaming} (h : ∀ r ∈ rs, r.KeepsVoid) (m : MethodRef) (kind : InvokeKind) :
    (Renaming.follow rs m kind).1.proto.returnType.isVoid = m.proto.returnType.isVoid := by
  induction rs generalizing m kind with
  | nil => rfl
  | cons r rs ih =>
    obtain ⟨hr, hrs⟩ := List.forall_mem_cons.1 h
    exact (ih hrs _ _).trans (hr.method m)

/-- Every layer on its own may keep apart what returns something and what does not. -/
theorem KeepsVoid.of_forall (h : ∀ r ∈ u.lens.forward u.code, r.KeepsVoid) (method : MethodRef) : u.KeepsVoid method := by
  intro m kind result hresult
  rw [Update.method, Lens.lookupMethod, Lens.foldlM_stepMethod] at hresult
  obtain ⟨found, hfound, hresult⟩ := bind_eq_ok.1 hresult
  obtain ⟨changes, -, hfound⟩ := bind_eq_ok.1 hfound
  cases hfound
  cases hresult
  rw [Lens.settleSuper_ref]
  exact void_follow h m kind

/-! ### Instructions -/

theorem exists_fieldRead (i : Instr) {op : Op} (hreads : op.reads = i.op.reads) (result : FieldLookup) (s : List Value) :
    ∃ js t, (fieldRead i.dest op result i.line).run s = .ok (js, t) ∧ Settles s t ∧ Widens s.length t.length [i] js := by
  have hplain : Widens s.length s.length [i] [⟨i.dest, op, i.line⟩] := Widens.of_eq (by rfl) hreads _ _
  cases hcast : result.readCast with
  | none =>
    rw [fieldRead.eq_def, hcast]
    exact ⟨_, s, rfl, Settles.refl s, hplain⟩
  | some cast =>
    cases hdest : i.dest with
    | none =>
      rw [hdest] at hplain
      rw [fieldRead.eq_def, hcast]
      exact ⟨_, s, rfl, Settles.refl s, hplain⟩
    | some d =>
      rw [fieldRead.eq_def, hcast]
      refine ⟨_, _, rfl, Settles.append (by simp), ?_⟩
      have hdests : dests [⟨some s.length, op, i.line⟩, ⟨some d, .checkCast cast s.length, i.line⟩] = [s.length, d] := rfl
      have hread : instrReads [⟨some s.length, op, i.line⟩, ⟨some d, .checkCast cast s.length, i.line⟩] = op.reads ++ [s.length] := rfl
      have hold : instrReads [i] = op.reads := by simp [instrReads, hreads]
      constructor
      · rw [hdests]
        simp [dests, hdest]
      · rw [hdests]
        simp [dests, hdest]
      · rw [hdests, hread, hold]
        intro v hv
        rcases List.mem_append.1 hv with hv | hv
        · exact .inl hv
        · rw [List.mem_singleton.1 hv]
          simp

theorem reads_extraOp (e : ExtraParameter) : (extraOp e).reads = [] := by cases e <;> rfl

theorem mem_of_mem_keptArguments {changes : ProtoChanges} {args : List ValueId} {v : ValueId} (h : v ∈ keptArguments changes args) :
    v ∈ args := by
  obtain ⟨⟨i, w⟩, hmem, hw⟩ := List.mem_filterMap.1 h
  obtain ⟨j, hj, heq⟩ := List.mem_mapIdx.1 hmem
  have hv : w = v := by
    dsimp only at hw
    split at hw
    · cases hw
    · exact Option.some_inj.1 hw
  cases heq
  exact hv ▸ List.getElem_mem hj

theorem exists_invoke (hu : u.CountsRight method) (hvoid : u.KeepsVoid method) {i : Instr} {kind : InvokeKind} {m : MethodRef}
    {args : List ValueId} {itf : Bool} (hop : i.op = .invoke kind m args itf) (hi : i.RespectsVoid) (s : List Value) :
    ∃ js t, (u.invoke method i.dest kind m args itf i.line).run s = .ok (js, t) ∧ Settles s t ∧ Widens s.length t.length [i] js := by
  obtain ⟨result, hresult⟩ := hu.exists_method m kind
  have hlookup : (liftM (u.method method m kind) : WithValues MethodLookup) = pure result := by
    rw [hresult]
    rfl
  let extra := (List.range' s.length result.changes.extra.length).zip result.changes.extra
  let constants := extra.map fun x => (⟨some x.1, extraOp x.2, i.line⟩ : Instr)
  let call : Instr := ⟨if result.ref.proto.returnType.isVoid then none else i.dest, .invoke result.kind result.ref
    (keptArguments result.changes args ++ extra.map Prod.fst) (if result.kind = kind then itf else result.kind = .interface), i.line⟩
  have hrun : (u.invoke method i.dest kind m args itf i.line).run s =
      .ok (constants ++ [call], s ++ result.changes.extra.map fun e => ⟨e.type, .instruction⟩) := by
    simp only [invoke, hlookup, pure_bind, StateT.run_bind, run_fresh, ok_bind]
    rfl
  have hfirst : extra.map Prod.fst = List.range' s.length result.changes.extra.length := by
    rw [List.map_fst_zip]
    simp
  have hnew : ∀ v ∈ extra.map Prod.fst, s.length ≤ v ∧ v < s.length + result.changes.extra.length := by
    intro v hv
    rw [hfirst, List.mem_range'_1] at hv
    exact hv
  -- The call may only lose a result that it did not have.
  have hdest : call.dest = i.dest := by
    by_cases hret : result.ref.proto.returnType.isVoid = true
    · have hnone : i.dest = none := by
        apply hi
        rw [hop]
        show m.proto.returnType.isVoid = true
        rw [← hvoid m kind result hresult]
        exact hret
      rw [hnone]
      exact if_pos hret
    · exact if_neg hret
  have hdests : dests (constants ++ [call]) = extra.map Prod.fst ++ dests [i] := by
    have hlast : dests [call] = dests [i] := by simp only [dests, List.filterMap_cons, hdest]
    rw [dests, List.filterMap_append, ← dests, ← dests, hlast, dests, List.filterMap_map]
    congr 1
    rw [← List.filterMap_eq_map]
    rfl
  have hreads : instrReads (constants ++ [call]) = keptArguments result.changes args ++ extra.map Prod.fst := by
    have hnone : instrReads constants = [] := by
      rw [instrReads, List.flatMap_eq_nil_iff]
      intro j hj
      obtain ⟨x, -, rfl⟩ := List.mem_map.1 hj
      exact reads_extraOp x.2
    rw [instrReads, List.flatMap_append, ← instrReads, hnone]
    simp [call, Op.reads]
  refine ⟨_, _, hrun, Settles.append (by simp), ?_⟩
  rw [List.length_append, List.length_map]
  constructor
  · intro v hv
    rw [hdests]
    exact List.mem_append_right _ hv
  · intro v hv
    rw [hdests] at hv
    rcases List.mem_append.1 hv with hv | hv
    · exact .inr (hnew v hv)
    · exact .inl hv
  · intro v hv
    rw [hreads] at hv
    rw [hdests]
    rcases List.mem_append.1 hv with hv | hv
    · left
      rw [instrReads, List.flatMap_singleton, hop]
      exact mem_of_mem_keptArguments hv
    · exact .inr ⟨List.mem_append_left _ hv, hnew v hv⟩

/-- **An instruction becomes several that widen it.** -/
theorem exists_instr (hu : u.CountsRight method) (hvoid : u.KeepsVoid method) {i : Instr} (hi : i.RespectsVoid) (s : List Value) :
    ∃ js t, (u.instr method i).run s = .ok (js, t) ∧ Settles s t ∧ Widens s.length t.length [i] js := by
  have hkeep : ∀ op : Op, op.reads = i.op.reads → ∃ js t,
      (pure [{ i with op := op }] : WithValues (List Instr)).run s = .ok (js, t) ∧ Settles s t ∧ Widens s.length t.length [i] js :=
    fun op hreads => ⟨_, s, rfl, Settles.refl s, Widens.of_eq (by rfl) hreads _ _⟩
  rw [instr]
  cases hop : i.op with
  | constHandle x =>
    obtain ⟨y, hy⟩ := hu.exists_handle x
    simp only [hy]
    exact hkeep (.constHandle y) (by rw [hop]; rfl)
  | invokeCustom x args =>
    obtain ⟨y, hy⟩ := hu.exists_callSite x
    simp only [hy]
    exact hkeep (.invokeCustom y args) (by rw [hop]; rfl)
  | staticGet f => exact exists_fieldRead i (by rw [hop]; rfl) (u.field f) s
  | instanceGet f object => exact exists_fieldRead i (by rw [hop]; rfl) (u.field f) s
  | invoke kind m args itf => exact exists_invoke hu hvoid hop hi s
  | _ =>
    have hreads := congrArg Op.reads hop
    exact hkeep _ hreads.symm

/-! ### Blocks -/

/-- A walk whose steps settle their values. -/
theorem exists_run_mapM {α β : Type} {f : α → WithValues β} {P : Nat → Nat → α → β → Prop}
    (hmono : ∀ n m n' m' x y, P n m x y → n' ≤ n → m ≤ m' → P n' m' x y) {xs : List α}
    (h : ∀ x ∈ xs, ∀ s, ∃ y t, (f x).run s = .ok (y, t) ∧ Settles s t ∧ P s.length t.length x y) (s : List Value) :
    ∃ ys t, (xs.mapM f).run s = .ok (ys, t) ∧ Settles s t ∧ List.Forall₂ (P s.length t.length) xs ys := by
  -- New values of one step are not new to the next one, but they lie in the range of the whole walk.
  induction xs generalizing s with
  | nil => exact ⟨[], s, rfl, Settles.refl s, .nil⟩
  | cons x xs ih =>
    obtain ⟨hx, hxs⟩ := List.forall_mem_cons.1 h
    obtain ⟨y, t, hy, hst, hp⟩ := hx s
    obtain ⟨ys, r, hys, htr, hps⟩ := ih hxs t
    refine ⟨y :: ys, r, ?_, hst.trans htr, .cons ?_ (hps.imp ?_)⟩
    · rw [List.mapM_cons, StateT.run_bind, hy, ok_bind, StateT.run_bind]
      dsimp only
      rw [hys]
      rfl
    · exact hmono _ _ _ _ _ _ hp (Nat.le_refl _) htr.length
    · exact fun x y hxy => hmono _ _ _ _ _ _ hxy hst.length (Nat.le_refl _)

theorem exists_block (hu : u.CountsRight method) (hvoid : u.KeepsVoid method) {b : Block} (hb : ∀ i ∈ b.body, i.RespectsVoid)
    (moved : List ValueId) (s : List Value) :
    ∃ b' t, (u.block method b).run s = .ok (b', t) ∧ Settles s t ∧ Body.BlockExtends moved s.length t.length b b' := by
  obtain ⟨pieces, t, hpieces, hsettles, hwidens⟩ := exists_run_mapM (P := fun n m i js => Widens n m [i] js)
    (fun _ _ _ _ _ _ h hn hm => h.mono hn hm) (fun i hi s => exists_instr hu hvoid (hb i hi) s) s
  refine ⟨{ b with
    body := pieces.flatten
    handlers := b.handlers.map fun h => { h with guard := u.type h.guard } }, t, ?_, hsettles, ?_⟩
  · rw [block, StateT.run_bind, hpieces]
    rfl
  · have hbody := Widens.flatten hwidens
    refine ⟨rfl, rfl, fun here => ?_, hbody.keeps, fun v hv => (hbody.defs v hv).imp_right .inr, hbody.reads⟩
    simp [Block.targets, Function.comp_def]

theorem exists_blocks (hu : u.CountsRight method) (hvoid : u.KeepsVoid method) {c : Body} (hc : c.Each Instr.RespectsVoid) :
    ∃ blocks values, (c.blocks.mapM (u.block method)).run c.values = .ok (blocks, values) ∧
      c.Extends { c with blocks := blocks, values := values } := by
  have hmono : ∀ n m n' m' b b', Body.BlockExtends c.arguments n m b b' → n' ≤ n → m ≤ m' → Body.BlockExtends c.arguments n' m' b b' := by
    intro n m n' m' b b' h hn hm
    have hnew : ∀ v, n ≤ v ∧ v < m → n' ≤ v ∧ v < m' := fun v hv => ⟨Nat.le_trans hn hv.1, Nat.lt_of_lt_of_le hv.2 hm⟩
    exact ⟨h.phis, h.terminator, h.targets, h.keeps, fun v hv => (h.defs v hv).imp_right fun h => h.imp_right (hnew v),
      fun v hv => (h.reads v hv).imp_right fun h => ⟨h.1, hnew v h.2⟩⟩
  obtain ⟨blocks, values, hblocks, hsettles, hextends⟩ :=
    exists_run_mapM hmono (fun b hb s => exists_block hu hvoid (hc b hb) c.arguments s) c.values
  exact ⟨blocks, values, hblocks, hsettles, fun v hv => .inl hv, fun _ v hv => .inl hv, hextends⟩

end Update

/-! ### Arguments -/

namespace Body

variable {c : Body} {changes : ProtoChanges} {v : ValueId}

theorem settles_followChange (s : List Value) (x : ValueId × Option ArgumentChange) :
    Settles s (match x.2 with
      | some (.removed ..) => modifyValue s x.1 fun d => { d with origin := .instruction }
      | some (.retyped _ t) => modifyValue s x.1 fun d => { d with type := t }
      | none => s) := by
  split
  · exact Settles.modifyValue (fun _ h => by cases h) x.1
  · exact Settles.modifyValue (by exact fun _ h => h) x.1
  · exact Settles.refl s

theorem settles_number (s : List Value) (x : Nat × ValueId) :
    Settles s (modifyValue s x.2 fun d => { d with origin := .argument x.1 }) :=
  Settles.modifyValue (fun _ h => by cases h) x.2

theorem settles_updateArguments (c : Body) (changes : ProtoChanges) : Settles c.values (c.updateArguments changes).values := by
  unfold updateArguments
  split
  · exact Settles.refl _
  · dsimp only
    refine Settles.trans (Settles.trans (Settles.foldl (fun s x _ => settles_followChange s x) _) (Settles.append ?_))
      (Settles.foldl (fun s x _ => settles_number s x) _)
    intro x hx
    obtain ⟨t, -, rfl⟩ := List.mem_map.1 hx
    simp

theorem mem_dests_argumentConstants (h : v ∈ dests (c.argumentConstants changes)) : v ∈ c.arguments := by
  obtain ⟨i, hi, hdest⟩ := List.mem_filterMap.1 h
  obtain ⟨⟨w, change⟩, hmem, hconstant⟩ := List.mem_filterMap.1 hi
  obtain ⟨j, hj, heq⟩ := List.mem_mapIdx.1 hmem
  have hw : c.arguments[j] = w := congrArg Prod.fst heq
  have hv : w = v := by
    split at hconstant
    · next t constant hchange =>
      cases hconstant
      cases hdest
      exact congrArg Prod.fst hchange
    · cases hconstant
  rw [← hv, ← hw]
  exact List.getElem_mem hj

theorem instrReads_argumentConstants (c : Body) (changes : ProtoChanges) : instrReads (c.argumentConstants changes) = [] := by
  rw [instrReads, List.flatMap_eq_nil_iff]
  intro i hi
  obtain ⟨v, t, constant, rfl⟩ := mem_argumentConstants hi
  rcases Update.removedArgumentOp_cases t constant with h | ⟨x, h⟩ | ⟨x, h⟩ <;> simp only [h] <;> rfl

/-- The arguments are those that stay, and new ones. -/
theorem mem_arguments_updateArguments (h : v ∈ (c.updateArguments changes).arguments) :
    v ∈ c.arguments ∨ (c.values.length ≤ v ∧ v < (c.updateArguments changes).values.length) := by
  unfold updateArguments at h ⊢
  split at h
  · exact .inl h
  · next hempty =>
    rw [if_neg hempty]
    dsimp only at h ⊢
    rcases List.mem_append.1 h with hkept | hnew
    · left
      obtain ⟨⟨w, change⟩, hmem, hw⟩ := List.mem_filterMap.1 hkept
      obtain ⟨j, hj, heq⟩ := List.mem_mapIdx.1 hmem
      have hj' : c.arguments[j] = w := congrArg Prod.fst heq
      have hv : w = v := by
        split at hw
        · cases hw
        · next hchange => exact (congrArg Prod.fst hchange).trans (Option.some_inj.1 hw)
      rw [← hv, ← hj']
      exact List.getElem_mem hj
    · right
      obtain ⟨hle, hlt⟩ := List.mem_range'_1.1 hnew
      rw [← List.length_append] at hlt
      constructor
      · exact Nat.le_trans (Settles.foldl (fun s x _ => settles_followChange s x) _).length hle
      · exact Nat.lt_of_lt_of_le hlt (Settles.foldl (fun s x _ => settles_number s x) _).length

/-- An argument stays or is a constant now. -/
theorem mem_updateArguments_of_mem (changes : ProtoChanges) (h : v ∈ c.arguments) :
    v ∈ (c.updateArguments changes).arguments ∨ v ∈ dests (c.argumentConstants changes) := by
  unfold updateArguments
  split
  · exact .inl h
  · obtain ⟨j, hj, rfl⟩ := List.getElem_of_mem h
    have hmem : (c.arguments[j], changes.argumentAt? j) ∈ c.arguments.mapIdx fun i v => (v, changes.argumentAt? i) :=
      List.mem_mapIdx.2 ⟨j, hj, rfl⟩
    by_cases hremoved : ∃ t constant, changes.argumentAt? j = some (.removed t constant)
    · obtain ⟨t, constant, hchange⟩ := hremoved
      right
      refine List.mem_filterMap.2 ⟨⟨some c.arguments[j], removedArgumentOp t constant, 0⟩, List.mem_filterMap.2 ⟨_, hmem, ?_⟩, rfl⟩
      rw [hchange]
    · left
      refine List.mem_append_left _ (List.mem_filterMap.2 ⟨_, hmem, ?_⟩)
      split
      · next t constant heq => exact absurd ⟨t, constant, congrArg Prod.snd heq⟩ hremoved
      · next heq => exact congrArg some (congrArg Prod.fst heq).symm

theorem extends_updateArguments (c : Body) (changes : ProtoChanges) : c.Extends (c.updateArguments changes) where
  values := settles_updateArguments c changes
  arguments _ hv := mem_arguments_updateArguments hv
  kept hne v hv := by
    rcases mem_updateArguments_of_mem changes hv with hkept | hconstant
    · exact .inl hkept
    · right
      rw [blocks_updateArguments]
      cases hblocks : c.blocks with
      | nil => exact absurd hblocks hne
      | cons entry rest =>
        refine ⟨{ entry with body := c.argumentConstants changes ++ entry.body }, rfl, ?_⟩
        rw [dests, List.filterMap_append]
        exact List.mem_append_left _ hconstant
  blocks := by
    rw [blocks_updateArguments]
    cases c.blocks with
    | nil => exact .nil
    | cons entry rest =>
      refine .cons ⟨rfl, rfl, fun _ => rfl, ?_, ?_, ?_⟩ (List.forall₂_same.2 fun b _ => BlockExtends.refl _ _ _ b)
      · intro v hv
        rw [dests, List.filterMap_append]
        exact List.mem_append_right _ hv
      · intro v hv
        rw [dests, List.filterMap_append, List.mem_append] at hv
        rcases hv with hconstant | hold
        · exact .inr (.inl (mem_dests_argumentConstants hconstant))
        · exact .inl hold
      · intro v hv
        rw [instrReads, List.flatMap_append, ← instrReads, instrReads_argumentConstants, List.nil_append] at hv
        exact .inl hv

theorem Each.updateArguments (h : c.Each Instr.RespectsVoid) (changes : ProtoChanges) : (c.updateArguments changes).Each Instr.RespectsVoid := by
  intro b' hb' i hi
  obtain ⟨b, hb, constants, hbody, hconstants⟩ := exists_of_mem_updateArguments hb'
  rw [hbody] at hi
  rcases List.mem_append.1 hi with hconstant | hold
  · obtain ⟨v, t, constant, rfl⟩ := hconstants i hconstant
    intro hcall
    rcases Update.removedArgumentOp_cases t constant with h | ⟨x, h⟩ | ⟨x, h⟩ <;> rw [h] at hcall <;> cases hcall
  · exact h b hb i hold

/-! The name of the method a body belongs to says nothing about its blocks. -/

theorem WellFormed.ofMethod (h : c.WellFormed) (method : MethodRef) (isStatic : Bool) :
    ({ c with method := method, isStatic := isStatic } : Body).WellFormed :=
  ⟨h.targets, h.entry, h.arity, h.defsInRange, h.readsInRange, h.defined, h.resolved⟩

theorem Aligned.ofMethod {c' : Body} {place : BlockId → BlockId} (h : c.Aligned c' place) (method : MethodRef) (isStatic : Bool) :
    c.Aligned { c' with method := method, isStatic := isStatic } place :=
  ⟨h.entry, h.order, h.edges, h.phis⟩

end Body

namespace Update

variable {u : Update} {method : MethodRef}

/-- **Updated bodies pass verification.** Let a body that verifies read only what dominates the reading, and let no
    call of a method without a result have one. If the lookups turn no such method into another
    one and the changes on their way number arguments that are there, the body can be updated, the
    result verifies, and every phi in it has for a predecessor the operand that it had for it. -/
theorem verified_body {c : Body} (hverify : c.verify = .ok ()) (hstrict : c.Strict) (hcalls : c.Each Instr.RespectsVoid)
    (hcounts : u.CountsRight method) (hvoid : u.KeepsVoid method) (isStatic : Bool) :
    ∃ c' place, u.body c method isStatic = .ok c' ∧ c'.verify = .ok () ∧ c.Aligned c' place := by
  obtain ⟨changes, hchanges⟩ := hcounts.exists_definitionChanges
  -- types of values
  let retyped : Body := { c with values := c.values.map fun v => { v with type := u.type v.type } }
  have hretyped : c.Extends retyped := Body.extends_of_settles (Settles.map fun _ => rfl)
  have hretypedWell := hretyped.wellFormed (Body.verify_eq_ok_iff.1 hverify) hstrict
  have hretypedStrict := hretyped.strict hstrict
  -- arguments
  have harguments := Body.extends_updateArguments retyped changes
  have hargumentsWell := harguments.wellFormed hretypedWell hretypedStrict
  have hargumentsStrict := harguments.strict hretypedStrict
  -- instructions
  have hrespects : (retyped.updateArguments changes).Each Instr.RespectsVoid := Body.Each.updateArguments (c := retyped) hcalls changes
  obtain ⟨blocks, values, hblocks, hextends⟩ := exists_blocks hcounts hvoid hrespects
  have hwell := hextends.wellFormed hargumentsWell hargumentsStrict
  have haligned := hretyped.aligned.trans (harguments.aligned.trans hextends.aligned)
  -- guards
  obtain ⟨e, place, hprune, hewell, healigned⟩ := Body.exists_pruneGuards hwell (hextends.strict hargumentsStrict)
  refine ⟨{ e with method := method, isStatic := isStatic }, place, ?_, ?_, haligned.trans (healigned.ofMethod method isStatic)⟩
  · exact bind_eq_ok.2 ⟨changes, hchanges, bind_eq_ok.2 ⟨(blocks, values), hblocks, bind_eq_ok.2 ⟨e, hprune, rfl⟩⟩⟩
  · exact Body.verify_eq_ok_iff.2 (hewell.ofMethod method isStatic)

/-! ### Samples -/

/-- The static method `C.m`, which takes a number and an `A`. -/
def catching : MethodRef := ⟨⟨"LC;"⟩, "m", ⟨.void, [.int, ⟨"LA;"⟩]⟩⟩

/-- `A` and `B` are one class now, `C.m` has lost its number, the field `A.x` has become `B.x` of type `Object`, and calls of
    `A.f` pass one more argument. -/
def joined : Recorder :=
  let narrowed : MethodRef := ⟨⟨"LC;"⟩, "m", ⟨.void, [⟨"LB;"⟩]⟩⟩
  let f : MethodRef := ⟨⟨"LA;"⟩, "f", ⟨.void, [⟨"LA;"⟩]⟩⟩
  let g : MethodRef := ⟨⟨"LB;"⟩, "f", ⟨.void, [⟨"LB;"⟩, .int]⟩⟩
  let changes := ProtoChanges.none.removeArgument 0 .int (some 7)
  ((((((Recorder.start .horizontalClassMerger).moveType ⟨"LA;"⟩ ⟨"LB;"⟩).moveMethod catching narrowed).recordDefinition narrowed changes).moveField
    ⟨⟨"LA;"⟩, "x", ⟨"LA;"⟩⟩ ⟨⟨"LB;"⟩, "x", ⟨"Ljava/lang/Object;"⟩⟩).moveMethod f g).recordCall f (ProtoChanges.none.addParameter (.constantInt 3))

/-- It catches an `A` in block 1 and a `B` in block 2, and both go on to block 3. -/
def catchingBody : Body where
  method := catching
  isStatic := true
  arguments := [0, 1]
  values := [⟨.int, .argument 0⟩, ⟨⟨"LA;"⟩, .argument 1⟩, ⟨⟨"LA;"⟩, .instruction⟩, ⟨.int, .phi⟩]
  blocks := [
    { body := [⟨some 2, .staticGet ⟨⟨"LA;"⟩, "x", ⟨"LA;"⟩⟩, 1⟩, ⟨none, .invoke .static ⟨⟨"LA;"⟩, "f", ⟨.void, [⟨"LA;"⟩]⟩⟩ [1] false, 2⟩]
      terminator := .goto 3
      handlers := [⟨⟨"LA;"⟩, 1⟩, ⟨⟨"LB;"⟩, 2⟩] },
    { terminator := .goto 3 },
    { terminator := .goto 3 },
    { phis := [⟨3, [0, 1, 0]⟩], terminator := .ret none }]

theorem verified_body_catching :
    catchingBody.verify = .ok () ∧ catchingBody.Strict ∧ catchingBody.Each Instr.RespectsVoid ∧
      (acrossOnly joined).CountsRight ⟨⟨"LC;"⟩, "m", ⟨.void, [⟨"LB;"⟩]⟩⟩ ∧
      (acrossOnly joined).KeepsVoid ⟨⟨"LC;"⟩, "m", ⟨.void, [⟨"LB;"⟩]⟩⟩ ∧
      ∃ c' place, (acrossOnly joined).body catchingBody ⟨⟨"LC;"⟩, "m", ⟨.void, [⟨"LB;"⟩]⟩⟩ true = .ok c' ∧
        c'.verify = .ok () ∧ catchingBody.Aligned c' place := by
  have hverify : catchingBody.verify = .ok () := by decide
  have hstrict : catchingBody.Strict := Body.strict_of_arguments (by decide)
  have hcalls : catchingBody.Each Instr.RespectsVoid := by
    unfold Body.Each
    decide
  have hacross : (acrossOnly joined).Across joined.layer := rfl
  have hcounts := CountsRight.of_across hacross ⟨⟨"LC;"⟩, "m", ⟨.void, [⟨"LB;"⟩]⟩⟩
  have hvoid : (acrossOnly joined).KeepsVoid ⟨⟨"LC;"⟩, "m", ⟨.void, [⟨"LB;"⟩]⟩⟩ := by
    apply KeepsVoid.of_forall
    rw [hacross.forward]
    decide
  exact ⟨hverify, hstrict, hcalls, hcounts, hvoid, verified_body hverify hstrict hcalls hcounts hvoid true⟩

/-- The static method `C.m`, which returns a number. -/
def counting : MethodRef := ⟨⟨"LC;"⟩, "m", ⟨.int, []⟩⟩

/-- It returns what a call of `A.f` leaves, which returns nothing. -/
def countingBody : Body where
  method := counting
  isStatic := true
  arguments := []
  values := [⟨.int, .instruction⟩]
  blocks := [{ body := [⟨some 0, .invoke .static ⟨⟨"LA;"⟩, "f", ⟨.void, []⟩⟩ [] false, 1⟩], terminator := .ret (some 0) }]

/-- The static method `A.f`, which takes a number. -/
def shrinking : MethodRef := ⟨⟨"LA;"⟩, "f", ⟨.void, [.int]⟩⟩

/-- Its calls lose their argument twice, the second time under the last number that there is. -/
def shrinkingLayers : List Renaming :=
  [((Recorder.start .synthetic).recordCall shrinking (ProtoChanges.none.removeArgument 0 .int none)).layer,
    ((Recorder.start .synthetic).recordCall shrinking (ProtoChanges.none.removeArgument 4294967295 .int none)).layer]

/-- The static method `C.m`, which takes a number and passes it on to `A.f`. -/
def passing : MethodRef := ⟨⟨"LC;"⟩, "m", ⟨.void, [.int]⟩⟩

def passingBody : Body where
  method := passing
  isStatic := true
  arguments := [0]
  values := [⟨.int, .argument 0⟩]
  blocks := [{ body := [⟨none, .invoke .static shrinking [0] false, 1⟩], terminator := .ret none }]

/-- Code that is older than no layer. -/
def acrossNone : Update := ⟨.identity, .identity⟩

/-- Code that is older than both layers. -/
def acrossShrinking : Update := ⟨Lens.identity.stack shrinkingLayers, .identity⟩

/-- **Results of nothing, and arguments that are not there.** A body that verifies and reads only what dominates the reading may
    name the result of a call that has none. Bringing it up to date through no layer at all leaves
    the name without a definition. And where a newer layer numbers arguments of calls that an
    older one has removed, bringing a call up to date fails. -/
theorem updated_body_unverified :
    (countingBody.verify = .ok () ∧ countingBody.Strict ∧ acrossNone.KeepsVoid counting ∧
      (∃ n ≤ UInt32.size, CountsFrom n (acrossNone.lens.definitionTrail counting acrossNone.code)) ∧
      ∃ c', acrossNone.body countingBody counting true = .ok c' ∧ c'.verify = .error (.error (.undefinedValue 0))) ∧
    (passingBody.verify = .ok () ∧ passingBody.Strict ∧ acrossShrinking.KeepsVoid passing ∧
      (∃ n ≤ UInt32.size, CountsFrom n (acrossShrinking.lens.definitionTrail passing acrossShrinking.code)) ∧
      acrossShrinking.body passingBody passing true = .error .incompatible) := by
  constructor
  · have hstrict : countingBody.Strict := by
      constructor
      · intro b block hb v hv
        match b with
        | 0 =>
          cases hb
          exact .inr ⟨0, _, rfl, hv, Body.dominates_self _ _⟩
      · intro b block hb phi hphi
        match b with
        | 0 =>
          cases hb
          cases hphi
    have hbody : (match acrossNone.body countingBody counting true with
        | .ok c' => decide (c'.verify = .error (.error (.undefinedValue 0)))
        | .error _ => false) = true := by decide
    refine ⟨by decide, hstrict, KeepsVoid.of_forall (fun r hr => ?_) _, ⟨0, Nat.zero_le _, trivial⟩, ?_⟩
    · cases hr
    · split at hbody
      · next c' hc' => exact ⟨c', hc', of_decide_eq_true hbody⟩
      · cases hbody
  · have hforward : acrossShrinking.lens.forward acrossShrinking.code = shrinkingLayers := Lens.forward_stack _ _
    have hvoid : ∀ r ∈ acrossShrinking.lens.forward acrossShrinking.code, r.KeepsVoid := by
      rw [hforward]
      decide
    have hbody : (match acrossShrinking.body passingBody passing true with
        | .ok _ => false
        | .error e => decide (e = .incompatible)) = true := by decide
    refine ⟨by decide, Body.strict_of_arguments (by decide), KeepsVoid.of_forall hvoid _, ⟨0, Nat.zero_le _, ?_⟩, ?_⟩
    · rw [Lens.definitionTrail, hforward]
      exact ⟨by decide, by decide, trivial⟩
    · split at hbody
      · cases hbody
      · next e he => exact he.trans (congrArg _ (of_decide_eq_true hbody))

end Update

end DexShrinker
