/-
  DexShrinker/Proofs/Updating/Calls.lean
  ======================================
  **Where patching and rebuilding agree on calls.**

  A call of a body that an update leaves packed goes to the same method as in the rebuilt
  body. Whether the two agree on its kind and on the flag of interface calls is another
  matter (`Update.call_agrees_iff`). Trying two kinds of calls does not show that a call of a
  superclass method has become a direct one, so it is found only if something else makes the
  update go through the opcodes. And a call that becomes static, direct or one of a superclass
  method keeps its flag if it was another of these before, where a rebuilt call loses it.
  Nothing else goes apart, whatever the layers are.
-/
import DexShrinker.Proofs.Lens.Rows
import DexShrinker.Proofs.Packed.Calls
import DexShrinker.Proofs.Updating.Reads

namespace DexShrinker

open Std

/-- Lists that are gathered from the same places. -/
theorem forall₂_filterMap_filterMap {α β γ : Type} {R : β → γ → Prop} {f : α → Option β} {g : α → Option γ} {xs : List α}
    (h : ∀ x ∈ xs, Option.Rel R (f x) (g x)) : List.Forall₂ R (xs.filterMap f) (xs.filterMap g) := by
  induction xs with
  | nil => exact .nil
  | cons x xs ih =>
    obtain ⟨hx, hxs⟩ := List.forall_mem_cons.1 h
    rw [List.filterMap_cons, List.filterMap_cons]
    generalize f x = y, g x = z at hx
    cases hx with
    | none => exact ih hxs
    | some hrel => exact .cons hrel (ih hxs)

/-- Where a call goes does not depend on its kind. -/
theorem Renaming.follow_fst_congr (rs : List Renaming) (m : MethodRef) (kind kind' : InvokeKind) :
    (follow rs m kind).1 = (follow rs m kind').1 := by
  induction rs generalizing m kind kind' with
  | nil => rfl
  | cons r rs ih => exact ih _ _ _

namespace Call

/-- The call in a rebuilt body. -/
def rebuilt (x : Call) (result : MethodLookup) : Call :=
  ⟨result.kind, result.ref, if result.kind = x.kind then x.isInterface else result.kind = .interface⟩

/-- The call in a body whose opcodes were gone through. -/
def patched (x : Call) (result : MethodLookup) : Call :=
  ⟨result.kind, result.ref,
    if result.kind = x.kind then x.isInterface
    else if result.kind = .interface then true
    else if result.kind = .virtual ∨ x.kind = .interface then false
    else x.isInterface⟩

theorem patched_eq_rebuilt_iff {x : Call} {result : MethodLookup} : x.patched result = x.rebuilt result ↔
    result.kind = x.kind ∨ result.kind = .virtual ∨ result.kind = .interface ∨ x.kind = .interface ∨ x.isInterface = false := by
  rw [patched, rebuilt, mk.injEq]
  by_cases hsame : result.kind = x.kind
  · simp [hsame]
  · cases hkind : result.kind <;> cases x.kind <;> cases x.isInterface <;> simp_all

end Call

namespace Update

variable {u : Update} {context : MethodRef} {p q : PackedBody}

/-- What a rebuilt body has for the call. -/
def Rebuilds (u : Update) (context : MethodRef) (x z : Call) : Prop :=
  ∃ result, u.method context x.target x.kind = .ok result ∧ z = x.rebuilt result

/-- What a body that stays packed has for the call. -/
def Patches (u : Update) (context : MethodRef) (p : PackedBody) (x y : Call) : Prop :=
  ∃ result, u.method context x.target x.kind = .ok result ∧ y.target = result.ref ∧
    (u.Untouched context p ∧ y = x ∨ ¬ u.Untouched context p ∧ y = x.patched result)

/-- Where a call goes and what becomes of its arguments does not depend on its kind. -/
theorem method_of_kind {m : MethodRef} {kind : InvokeKind} {result : MethodLookup} (h : u.method context m kind = .ok result)
    (kind' : InvokeKind) :
    ∃ result', u.method context m kind' = .ok result' ∧ result'.ref = result.ref ∧ result'.changes = result.changes := by
  rw [Update.method, Lens.lookupMethod, Lens.foldlM_stepMethod] at h ⊢
  cases hchanges : (Renaming.callTrail (u.lens.forward u.code) m).foldlM ProtoChanges.combine .none with
  | error e =>
    rw [hchanges] at h
    cases h
  | ok changes =>
    rw [hchanges] at h
    cases h
    exact ⟨_, rfl, by simpa using Renaming.follow_fst_congr _ m kind' kind, by simp⟩

/-! ### Bodies that stay packed -/

/-- A method of an untouched pool keeps its name. -/
theorem Untouched.exists_method (h : u.Untouched context p) {m : MethodRef} (hm : .method m ∈ p.constants) (kind : InvokeKind) :
    ∃ result, u.method context m kind = .ok result ∧ result.ref = m := by
  cases renews_of_constant? (h _ hm) with
  | method hvirtual =>
    obtain ⟨result, hresult, href, -⟩ := method_of_kind hvirtual kind
    exact ⟨result, hresult, href⟩

theorem Kept.constants_eq (hq : u.Kept context p q) (h : u.Untouched context p) : q.constants = p.constants := by
  have hpool := hq.pool
  unfold Untouched at h
  generalize p.constants = cs, q.constants = cs' at h hpool
  induction hpool with
  | nil => rfl
  | cons hc _ ih =>
    obtain ⟨hfirst, hrest⟩ := List.forall_mem_cons.1 h
    obtain ⟨flag, hflag⟩ := hc
    cases hfirst.symm.trans hflag
    rw [ih hrest]

/-- Methods of the updated pool stand where those that they come from did. -/
theorem Kept.rel_methodAt (hq : u.Kept context p q) (i : Nat) :
    Option.Rel (fun m m' => ∀ kind, ∃ result, u.method context m kind = .ok result ∧ m' = result.ref)
      (p.methodAt i).toOption (q.methodAt i).toOption := by
  cases hm : p.methodAt i with
  | ok m =>
    obtain ⟨-, virtual, hvirtual, -, hm'⟩ := hq.methodAt hm
    rw [hm']
    refine .some fun kind => ?_
    obtain ⟨result, hresult, href, -⟩ := method_of_kind hvirtual kind
    exact ⟨result, hresult, href.symm⟩
  | error e =>
    cases hm' : q.methodAt i with
    | error e' => exact .none
    | ok m' =>
      exfalso
      have hconstant : q.constants[i]? = some (.method m') := by
        obtain ⟨c, hc, hm'⟩ := bind_eq_ok.1 hm'
        split at hm' <;> cases hm'
        exact constants_of_constant hc
      obtain ⟨c, hc, flag, hflag⟩ := exists_of_getElem?_right hq.pool hconstant
      cases renews_of_constant? hflag with
      | method _ =>
        rw [methodAt_eq_ok hc] at hm
        cases hm

theorem invoke?_callOpcode (old new : InvokeKind) (itf : Bool) : Opcode.invoke? (callOpcode old new itf) =
    some (new, if new = .interface then true else if new = .virtual ∨ old = .interface then false else itf) := by
  cases old <;> cases new <;> cases itf <;> rfl

/-- **A call under the patches.** -/
theorem decode_retagged {v : InstrView} {kind : InvokeKind} {itf : Bool} {m : Nat} {args : List Nat} {target : MethodRef}
    {result : MethodLookup} (hdecode : v.decode = .ok (.invoke kind itf m args)) (htarget : p.methodAt m = .ok target)
    (hresult : u.method context target kind = .ok result) :
    (InstrView.retag (u.patchOf? context p) v).decode =
      .ok (.invoke result.kind ((⟨kind, target, itf⟩ : Call).patched result).isInterface m args) := by
  by_cases hsame : result.kind = kind
  · have hpatch : u.patchOf? context p v = none := by simp [patchOf?, hdecode, htarget, hresult, hsame]
    have hretag : InstrView.retag (u.patchOf? context p) v = v := by simp [InstrView.retag, hpatch]
    rw [hretag, hdecode, hsame]
    simp [Call.patched, hsame]
  · have hpatch : u.patchOf? context p v = some (callOpcode kind result.kind itf) := by
      simp [patchOf?, hdecode, htarget, hresult, hsame]
    refine InstrView.decode_retagged_call hdecode rfl rfl rfl ?_
    rw [InstrView.retag, hpatch, Option.getD_some, invoke?_callOpcode]
    simp [Call.patched, hsame]

theorem callAt?_ok {p : PackedBody} {v : InstrView} {i : PackedInstr} (h : v.decode = .ok i) :
    p.callAt? (.ok v) = p.callOf? i := by
  rw [PackedBody.callAt?, Except.toOption, Option.bind_some, h]
  rfl

/-- An instruction under the patches. -/
theorem Kept.rel_callAt? (hq : u.Kept context p q) (htouched : ¬ u.Untouched context p) {v : InstrView} {i : PackedInstr}
    (hi : v.decode = .ok i) :
    Option.Rel (u.Patches context p) (p.callAt? (.ok v)) (q.callAt? (.ok (InstrView.retag (u.patchOf? context p) v))) := by
  -- Only a call of a method of the pool is replaced.
  have hplain (hpatch : u.patchOf? context p v = none) (hp : p.callOf? i = none) (hq : q.callOf? i = none) :
      Option.Rel (u.Patches context p) (p.callAt? (.ok v)) (q.callAt? (.ok (InstrView.retag (u.patchOf? context p) v))) := by
    have hretag : InstrView.retag (u.patchOf? context p) v = v := by simp [InstrView.retag, hpatch]
    rw [hretag, callAt?_ok hi, callAt?_ok hi, hp, hq]
    exact .none
  cases i with
  | invoke kind itf m args =>
    have hrel := hq.rel_methodAt m
    cases hm : p.methodAt m with
    | error e =>
      rw [hm] at hrel
      generalize hm' : (q.methodAt m).toOption = target' at hrel
      cases hrel
      refine hplain ?_ ?_ ?_
      · simp [patchOf?, hi, hm]
      · rw [PackedBody.callOf?, hm]
        rfl
      · rw [PackedBody.callOf?, hm']
        rfl
    | ok target =>
      rw [hm] at hrel
      generalize hm' : (q.methodAt m).toOption = target' at hrel
      cases hrel with
      | some hrel =>
        obtain ⟨result, hresult, rfl⟩ := hrel kind
        rw [callAt?_ok hi, callAt?_ok (decode_retagged hi hm hresult), PackedBody.callOf?, PackedBody.callOf?, hm, hm']
        exact .some ⟨result, hresult, rfl, .inr ⟨htouched, rfl⟩⟩
  | _ => exact hplain (by simp [patchOf?, hi]) rfl rfl

/-- **The calls of a body that stays packed.** -/
theorem Kept.calls (hq : u.Kept context p q) {patches : List (Nat × UInt8)} (hpatches : u.PatchesFrom context p patches)
    (hbytes : q.bytes = patches.foldl (fun bytes (offset, op) => bytes.set offset op) p.bytes) {vs : List InstrView}
    (hviews : p.views = vs.map .ok) (hdecode : ∀ v ∈ vs, ∃ i, v.decode = .ok i) :
    List.Forall₂ (u.Patches context p) p.calls q.calls := by
  rcases hpatches with ⟨htouched, hpatches⟩ | ⟨huntouched, rfl⟩
  · rw [hviews] at hpatches
    obtain ⟨rfl, -⟩ := opcodePatches_eq_ok hpatches
    have hviews' : q.views = (vs.map (InstrView.retag (u.patchOf? context p))).map .ok := by
      rw [PackedBody.views, hq.argumentCount, hbytes]
      exact InstrView.scanBytes_patched hviews fun v _ => keepsOperands_patchOf? v
    rw [PackedBody.calls, PackedBody.calls, hviews, hviews', List.filterMap_map, List.filterMap_map, List.filterMap_map]
    refine forall₂_filterMap_filterMap fun v hv => ?_
    obtain ⟨i, hi⟩ := hdecode v hv
    exact hq.rel_callAt? htouched hi
  · have hviews' : q.views = p.views := by
      rw [PackedBody.views, hq.argumentCount, hbytes]
      rfl
    have hsame : q.calls = p.calls := by
      have hmethods : q.methodAt = p.methodAt := by
        funext i
        rw [PackedBody.methodAt, PackedBody.constant, hq.constants_eq huntouched]
        rfl
      have hcallOf : q.callOf? = p.callOf? := by
        funext i
        cases i <;> simp only [PackedBody.callOf?, hmethods]
      have hcallAt : q.callAt? = p.callAt? := by
        funext item
        rw [PackedBody.callAt?, hcallOf]
        rfl
      rw [PackedBody.calls, hviews', hcallAt]
      rfl
    rw [hsame, List.forall₂_same]
    intro x hx
    obtain ⟨result, hresult, href⟩ := huntouched.exists_method (PackedBody.mem_constants_of_mem_calls hx) x.kind
    exact ⟨result, hresult, href.symm, .inl ⟨huntouched, rfl⟩⟩

/-! ### Rebuilt bodies -/

/-- The update of the pool covers what the instruction names. -/
def Covers (u : Update) (context : MethodRef) (i : Instr) : Prop :=
  ∀ k, i.op.constant? = some k → ∃ k' flag, u.constant? context k = .ok (some (k', flag))

theorem exists_invoke_calls {i : Instr} {kind : InvokeKind} {m : MethodRef} {args : List ValueId} {itf : Bool}
    (hop : i.op = .invoke kind m args itf) (hi : u.Covers context i) (s : List Value) :
    ∃ js t, (u.invoke context i.dest kind m args itf i.line).run s = .ok (js, t) ∧
      List.Forall₂ (u.Rebuilds context) i.call?.toList (js.filterMap Instr.call?) := by
  obtain ⟨k', flag, hk'⟩ := hi (.method m) (by rw [hop]; rfl)
  cases renews_of_constant? hk' with
  | method hlookup =>
    obtain ⟨result, hresult, -⟩ := method_of_kind hlookup kind
    have hrun : (liftM (u.method context m kind) : WithValues MethodLookup) = pure result := by
      rw [hresult]
      rfl
    simp only [invoke, hrun, pure_bind, StateT.run_bind, run_fresh, ok_bind]
    refine ⟨_, _, rfl, ?_⟩
    have hconstants (extra : List (ValueId × ExtraParameter)) :
        (extra.map fun x => (⟨some x.1, extraOp x.2, i.line⟩ : Instr)).filterMap Instr.call? = [] := by
      rw [List.filterMap_eq_nil_iff]
      intro j hj
      obtain ⟨⟨v, e⟩, -, rfl⟩ := List.mem_map.1 hj
      cases e <;> rfl
    have hcall : i.call? = some ⟨kind, m, itf⟩ := by rw [Instr.call?, hop]; rfl
    rw [List.filterMap_append, hconstants, hcall]
    exact .cons ⟨result, hresult, rfl⟩ .nil

/-- **An instruction is brought up to date**, and only a call becomes a call. -/
theorem exists_instr_calls {i : Instr} (hi : u.Covers context i) (s : List Value) :
    ∃ js t, (u.instr context i).run s = .ok (js, t) ∧
      List.Forall₂ (u.Rebuilds context) i.call?.toList (js.filterMap Instr.call?) := by
  have hnil {js : List Instr} (hcall : i.op.call? = none) (hjs : ∀ j ∈ js, j.op.call? = none) :
      List.Forall₂ (u.Rebuilds context) i.call?.toList (js.filterMap Instr.call?) := by
    have hnone : js.filterMap Instr.call? = [] := List.filterMap_eq_nil_iff.2 hjs
    rw [Instr.call?, hcall, hnone]
    exact .nil
  have hkeep (op : Op) (hcall : i.op.call? = none) (hop : op.call? = none) : ∃ js t,
      (pure [{ i with op := op }] : WithValues (List Instr)).run s = .ok (js, t) ∧
        List.Forall₂ (u.Rebuilds context) i.call?.toList (js.filterMap Instr.call?) :=
    ⟨_, s, rfl, hnil hcall (by simpa using hop)⟩
  have hread (op : Op) (result : FieldLookup) (hcall : i.op.call? = none) (hop : op.call? = none) : ∃ js t,
      (fieldRead i.dest op result i.line).run s = .ok (js, t) ∧
        List.Forall₂ (u.Rebuilds context) i.call?.toList (js.filterMap Instr.call?) := by
    unfold fieldRead
    split
    · exact ⟨_, _, rfl, hnil hcall (List.forall_mem_cons.2 ⟨hop, List.forall_mem_singleton.2 rfl⟩)⟩
    · exact ⟨_, _, rfl, hnil hcall (by simpa using hop)⟩
  rw [instr]
  cases hop : i.op with
  | constHandle x =>
    obtain ⟨k', flag, hk'⟩ := hi (.handle x) (by rw [hop]; rfl)
    cases renews_of_constant? hk' with
    | @handle _ y hx =>
      have hrun : (liftM (u.handle context x) : WithValues MethodHandle) = pure y := by
        rw [hx]
        rfl
      simp only [hrun, pure_bind]
      exact hkeep _ (by rw [hop]; rfl) rfl
  | invokeCustom x args =>
    obtain ⟨k', flag, hk'⟩ := hi (.callSite x) (by rw [hop]; rfl)
    cases renews_of_constant? hk' with
    | @callSite _ y hx =>
      have hrun : (liftM (u.callSite context x) : WithValues CallSite) = pure y := by
        rw [hx]
        rfl
      simp only [hrun, pure_bind]
      exact hkeep _ (by rw [hop]; rfl) rfl
  | staticGet f | instanceGet f object => exact hread _ _ (by rw [hop]; rfl) rfl
  | invoke kind m args itf => exact exists_invoke_calls hop hi s
  | _ => exact hkeep _ (by rw [hop]; rfl) rfl

/-- A walk whose steps succeed from every state. -/
theorem exists_run_mapM_of {α β : Type} {f : α → WithValues β} {R : α → β → Prop} {xs : List α}
    (h : ∀ x ∈ xs, ∀ s, ∃ y t, (f x).run s = .ok (y, t) ∧ R x y) (s : List Value) :
    ∃ ys t, (xs.mapM f).run s = .ok (ys, t) ∧ List.Forall₂ R xs ys := by
  induction xs generalizing s with
  | nil => exact ⟨[], s, rfl, .nil⟩
  | cons x xs ih =>
    obtain ⟨hx, hxs⟩ := List.forall_mem_cons.1 h
    obtain ⟨y, t, hy, hxy⟩ := hx s
    obtain ⟨ys, r, hys, hrel⟩ := ih hxs t
    refine ⟨y :: ys, r, ?_, .cons hxy hrel⟩
    rw [List.mapM_cons, StateT.run_bind, hy, ok_bind, StateT.run_bind]
    dsimp only
    rw [hys]
    rfl

/-- What is gathered from related lists is related if it is piece by piece. -/
theorem forall₂_flatMap {α β γ δ : Type} {R : γ → δ → Prop} {f : α → List γ} {g : β → List δ} {xs : List α} {ys : List β}
    (h : List.Forall₂ (fun x y => List.Forall₂ R (f x) (g y)) xs ys) : List.Forall₂ R (xs.flatMap f) (ys.flatMap g) := by
  induction h with
  | nil => exact .nil
  | cons hxy _ ih => exact List.rel_append hxy ih

theorem exists_block_calls {b : Block} (hb : ∀ i ∈ b.body, u.Covers context i) (s : List Value) :
    ∃ d t, (u.block context b).run s = .ok (d, t) ∧ d.handlers = u.handlers b.handlers ∧
      List.Forall₂ (u.Rebuilds context) (b.body.filterMap Instr.call?) (d.body.filterMap Instr.call?) := by
  obtain ⟨pieces, t, hpieces, hcalls⟩ := exists_run_mapM_of (fun i hi s => exists_instr_calls (hb i hi) s) s
  refine ⟨{ b with body := pieces.flatten, handlers := u.handlers b.handlers }, t, ?_, rfl, ?_⟩
  · rw [block, StateT.run_bind, hpieces]
    rfl
  · have hleft : b.body.filterMap Instr.call? = b.body.flatMap fun i => i.call?.toList := List.filterMap_eq_flatMap_toList _ _
    rw [hleft, List.filterMap_flatten, ← List.flatMap_def]
    exact forall₂_flatMap hcalls

/-- **The calls of a rebuilt body**, where no definition and no guards change. -/
theorem exists_body_calls {method : MethodRef} {isStatic : Bool} {c : Body} {changes : ProtoChanges}
    (hchanges : u.definitionChanges method = .ok changes) (hempty : changes.isEmpty = true)
    (hcovers : c.Each (u.Covers method))
    (hdistinct : ∀ b ∈ c.blocks, (Body.distinctGuards (u.handlers b.handlers)).length = (u.handlers b.handlers).length) :
    ∃ d, u.body c method isStatic = .ok d ∧ List.Forall₂ (u.Rebuilds method) c.calls d.calls := by
  obtain ⟨blocks, values, hblocks, hrel⟩ := exists_run_mapM_of
    (fun b hb s => exists_block_calls (hcovers b hb) s) (c.values.map fun v => ({ v with type := u.type v.type } : Value))
  have hprune (d : Body) (hd : d.blocks = blocks) : d.pruneGuards = .ok d := by
    rw [Body.pruneGuards, if_pos]
    rw [hd, List.all_eq_true]
    intro b' hb'
    obtain ⟨b, hb, hhandlers, -⟩ := exists_of_mem_left hrel.flip hb'
    simpa [hhandlers] using hdistinct b hb
  refine ⟨⟨method, isStatic, c.arguments, values, blocks⟩, ?_, forall₂_flatMap (hrel.imp fun _ _ h => h.2)⟩
  simp only [body, hchanges, ok_bind, Body.updateArguments, hempty, if_true, hblocks, hprune]
  rfl

/-! ### Both -/

/-- The call keeps its kind, or the opcodes are gone through and the call has no flag to keep. -/
def Agrees (u : Update) (context : MethodRef) (p : PackedBody) (x : Call) (result : MethodLookup) : Prop :=
  result.kind = x.kind ∨ ¬ u.Untouched context p ∧
    (result.kind = .virtual ∨ result.kind = .interface ∨ x.kind = .interface ∨ x.isInterface = false)

theorem Patches.eq_iff {x y z : Call} {result : MethodLookup} (hy : u.Patches context p x y) (hz : u.Rebuilds context x z)
    (hresult : u.method context x.target x.kind = .ok result) :
    y.target = result.ref ∧ z.target = result.ref ∧ (y = z ↔ u.Agrees context p x result) := by
  obtain ⟨_, hsame, htarget, hy⟩ := hy
  cases hsame.symm.trans hresult
  obtain ⟨_, hsame, rfl⟩ := hz
  cases hsame.symm.trans hresult
  refine ⟨htarget, rfl, ?_⟩
  rcases hy with ⟨huntouched, rfl⟩ | ⟨htouched, rfl⟩
  · simp only [Agrees, huntouched, not_true_eq_false, false_and, or_false]
    refine ⟨fun heq => (congrArg Call.kind heq).symm, fun hkind => ?_⟩
    rw [Call.rebuilt, if_pos hkind, hkind, ← htarget]
  · simp only [Agrees, htouched, not_false_eq_true, true_and]
    exact Call.patched_eq_rebuilt_iff

/-- **Where patching and rebuilding agree on calls.** A body that an update leaves packed can be
    rebuilt, whatever the layers are, and both have the calls that the body had, in the same
    order and of the same methods. They agree on a call exactly if it keeps its kind, or the
    update goes through the opcodes and the call takes no flag along that its new kind does not
    have (`Agrees`). -/
theorem call_agrees_iff {m₀ method : MethodRef} {s₀ isStatic : Bool} {types : List Descriptor} {c : Body}
    (hc : p.unpack m₀ s₀ types = .ok c) {update : PackedUpdate} (hupdate : u.packed p method isStatic = .ok update)
    (hkept : update.kept? p = some q) :
    ∃ d, u.body c method isStatic = .ok d ∧ q.calls.length = c.calls.length ∧ d.calls.length = c.calls.length ∧
      ∀ (i : Nat) (x y z : Call), c.calls[i]? = some x → q.calls[i]? = some y → d.calls[i]? = some z →
        ∃ result, u.method method x.target x.kind = .ok result ∧ y.target = result.ref ∧ z.target = result.ref ∧
          (y = z ↔ u.Agrees method p x result) := by
  obtain ⟨⟨changes, hchanges, hempty⟩, hq, patches, hpatches, hbytes⟩ := kept_of_packed hupdate hkept
  obtain ⟨-, -, s, hrun, -⟩ := PackedBody.unpack_eq_ok_iff.1 hc
  obtain ⟨vs, hviews, hdecode⟩ := PackedBody.views_of_run hrun
  have hcovers : c.Each (u.Covers method) := by
    intro b hb i hi k hk
    obtain ⟨k', -, flag, hk'⟩ := exists_of_mem_left hq.pool ((PackedBody.each_holds_of_unpack hc b hb i hi).2 k hk)
    exact ⟨k', flag, hk'⟩
  obtain ⟨d, hd, hrebuilds⟩ : ∃ d, u.body c method isStatic = .ok d ∧ List.Forall₂ (u.Rebuilds method) c.calls d.calls :=
    exists_body_calls hchanges hempty hcovers (hq.distinct_of_unpack hc)
  have hpatched := hq.calls hpatches hbytes hviews hdecode
  rw [← PackedBody.calls_unpack hc] at hpatched
  refine ⟨d, hd, hpatched.length_eq.symm, hrebuilds.length_eq.symm, fun i x y z hx hy hz => ?_⟩
  obtain ⟨_, hy', hxy⟩ := exists_of_getElem?_left hpatched hx
  obtain rfl := Option.some.inj (hy.symm.trans hy')
  obtain ⟨_, hz', hxz⟩ := exists_of_getElem?_left hrebuilds hx
  obtain rfl := Option.some.inj (hz.symm.trans hz')
  have hresult := hxy
  obtain ⟨result, hresult, -⟩ := hresult
  exact ⟨result, hresult, hxy.eq_iff hxz hresult⟩

/-! ### Samples -/

/-- A direct call of `A.f`, with the flag of interface calls, and a call of `A.h` as that of a
    superclass. -/
def directBody : PackedBody where
  constants := [.method ⟨⟨"Lp/A;"⟩, "f", ⟨.void, []⟩⟩, .method ⟨⟨"Lp/A;"⟩, "h", ⟨.void, []⟩⟩]
  bytes := [37, 2, 0, 2, 38, 2, 1, 4, 8]
  argumentCount := 1
  instructionCount := 3
  lines := []
  handlers := ∅

/-- `A.f` has become static. The second call is found to be a direct one, and the first one keeps
    its flag in the patched body only. -/
theorem call_agrees_iff_directBody :
    ∃ c update q d, directBody.unpack caller true (caller.argumentTypes true) = .ok c ∧
      (acrossOnly staticized).packed directBody caller true = .ok update ∧ update.kept? directBody = some q ∧
      (acrossOnly staticized).body c caller true = .ok d ∧
      c.calls = [⟨.direct, ⟨⟨"Lp/A;"⟩, "f", ⟨.void, []⟩⟩, true⟩, ⟨.super, ⟨⟨"Lp/A;"⟩, "h", ⟨.void, []⟩⟩, false⟩] ∧
      q.calls.length = 2 ∧ d.calls.length = 2 ∧ q.calls[0]? ≠ d.calls[0]? ∧ q.calls[1]? = d.calls[1]? := by
  have hunpack : (match directBody.unpack caller true (caller.argumentTypes true) with
      | .ok c => decide (c.calls =
          [⟨.direct, ⟨⟨"Lp/A;"⟩, "f", ⟨.void, []⟩⟩, true⟩, ⟨.super, ⟨⟨"Lp/A;"⟩, "h", ⟨.void, []⟩⟩, false⟩])
      | .error _ => false) = true := by decide +kernel
  have hpacked : (match (acrossOnly staticized).packed directBody caller true with
      | .ok update => (update.kept? directBody).isSome
      | .error _ => false) = true := by decide +kernel
  have htouched : ¬ (acrossOnly staticized).Untouched caller directBody := by
    intro h
    have hchanged : (acrossOnly staticized).constant? caller (.method ⟨⟨"Lp/A;"⟩, "f", ⟨.void, []⟩⟩) ≠
        .ok (some (.method ⟨⟨"Lp/A;"⟩, "f", ⟨.void, []⟩⟩, false)) := by decide +kernel
    exact hchanged (h _ List.mem_cons_self)
  have hfirst : ((acrossOnly staticized).method caller ⟨⟨"Lp/A;"⟩, "f", ⟨.void, []⟩⟩ .direct).toOption.map (·.kind) =
      some .static := by decide +kernel
  split at hunpack
  · next c hc =>
    split at hpacked
    · next update hupdate =>
      obtain ⟨q, hq⟩ := Option.isSome_iff_exists.1 hpacked
      obtain ⟨d, hd, hlengthq, hlengthd, hagrees⟩ := call_agrees_iff hc hupdate hq
      have hcalls := of_decide_eq_true hunpack
      rw [hcalls] at hlengthq hlengthd hagrees
      have hq' (i : Fin 2) : q.calls[i.1]? = some (q.calls.get (i.cast hlengthq.symm)) := List.getElem?_eq_getElem _
      have hd' (i : Fin 2) : d.calls[i.1]? = some (d.calls.get (i.cast hlengthd.symm)) := List.getElem?_eq_getElem _
      obtain ⟨result₀, hresult₀, -, -, hiff₀⟩ := hagrees 0 _ _ _ rfl (hq' 0) (hd' 0)
      obtain ⟨result₁, -, -, -, hiff₁⟩ := hagrees 1 _ _ _ rfl (hq' 1) (hd' 1)
      refine ⟨c, update, q, d, hc, hupdate, hq, hd, hcalls, hlengthq, hlengthd, ?_, ?_⟩
      · rw [hresult₀] at hfirst
        have hkind : result₀.kind = .static := Option.some.inj hfirst
        intro heq
        have hdirect := hiff₀.1 (Option.some.inj ((hq' 0).symm.trans (heq.trans (hd' 0))))
        simp [Agrees, hkind] at hdirect
      · have hsame := hiff₁.2 (.inr ⟨htouched, .inr (.inr (.inr rfl))⟩)
        exact (hq' 1).trans ((congrArg some hsame).trans (hd' 1).symm)
    · cases hpacked
  · cases hunpack

/-- The method `B.m` has come to be in `A`. -/
def lifted : Recorder :=
  (Recorder.start .synthetic).moveMethod ⟨⟨"Lp/B;"⟩, "m", ⟨.void, [⟨"Lp/A;"⟩]⟩⟩ caller

/-- A call of `A.f` as that of a superclass. -/
def superBody : PackedBody where
  constants := [.method ⟨⟨"Lp/A;"⟩, "f", ⟨.void, []⟩⟩]
  bytes := [38, 2, 0, 2, 8]
  argumentCount := 1
  instructionCount := 2
  lines := []
  handlers := ∅

/-- A call of a superclass method that has come to be in the class of the caller stays what it
    is, where the rebuilt body calls the method directly. -/
theorem super_call_left :
    ∃ c d, superBody.unpack ((acrossOnly lifted).lens.previousMethod caller .identity) true (caller.argumentTypes true) = .ok c ∧
      (acrossOnly lifted).packed superBody caller true = .ok .unchanged ∧ (acrossOnly lifted).body c caller true = .ok d ∧
      superBody.calls = [⟨.super, ⟨⟨"Lp/A;"⟩, "f", ⟨.void, []⟩⟩, false⟩] ∧
      d.calls = [⟨.direct, ⟨⟨"Lp/A;"⟩, "f", ⟨.void, []⟩⟩, false⟩] := by
  have hbodies : (match superBody.unpack ((acrossOnly lifted).lens.previousMethod caller .identity) true (caller.argumentTypes true) with
      | .ok c => match (acrossOnly lifted).body c caller true with
        | .ok d => decide (d.calls = [⟨.direct, ⟨⟨"Lp/A;"⟩, "f", ⟨.void, []⟩⟩, false⟩])
        | .error _ => false
      | .error _ => false) = true := by decide +kernel
  have hpacked : (acrossOnly lifted).packed superBody caller true = .ok .unchanged := eq_unchanged_of_any (by decide +kernel)
  split at hbodies
  · next c hc =>
    split at hbodies
    · next d hd =>
      exact ⟨c, d, hc, hpacked, hd, by decide +kernel, of_decide_eq_true hbodies⟩
    · cases hbodies
  · cases hbodies

end Update

end DexShrinker
