/-
  DexShrinker/Proofs/Updating/Patch.lean
  ======================================
  **What a patched body is.**

  An update that neither rebuilds a packed body nor fails leaves a body with the same
  instructions over an updated pool: no read has to be cast, no call changes its
  arguments, and calls have the kind their method now has (`Patched`). This holds too
  where the update answers that nothing changed (`patched_of_packed`).

  Where only one layer lies between the code lens and the present one, every lookup is the
  layer's own map. What a call becomes depends on its kind in one respect only: a kind recorded
  for the method replaces it.
-/
import DexShrinker.Lens.Recorder
import DexShrinker.Proofs.Lens.Lookup
import DexShrinker.Proofs.Outcome
import DexShrinker.Proofs.Packed.Stream
import DexShrinker.Updating.Packed
import DexShrinker.Updating.Reference

namespace DexShrinker

/-! ### Layers that were recorded -/

namespace Recorder

/-- The recorder was filled by recording operations. -/
inductive Recorded : Recorder → Prop where
  | start (kind : LayerKind) : Recorded (start kind)
  | moveType {r : Recorder} (old new : Descriptor) : Recorded r → Recorded (r.moveType old new)
  | moveField {r : Recorder} (old new : FieldRef) : Recorded r → Recorded (r.moveField old new)
  | moveMethod {r : Recorder} (old new : MethodRef) : Recorded r → Recorded (r.moveMethod old new)
  | representType {r : Recorder} (new old : Descriptor) : Recorded r → Recorded (r.representType new old)
  | representField {r : Recorder} (new old : FieldRef) : Recorded r → Recorded (r.representField new old)
  | representMethod {r : Recorder} (new old : MethodRef) : Recorded r → Recorded (r.representMethod new old)
  | recordCall {r : Recorder} (old : MethodRef) (changes : ProtoChanges) : Recorded r → Recorded (r.recordCall old changes)
  | recordDefinition {r : Recorder} (new : MethodRef) (changes : ProtoChanges) :
    Recorded r → Recorded (r.recordDefinition new changes)
  | recordInvokeKind {r : Recorder} (new : MethodRef) (kind : InvokeKind) : Recorded r → Recorded (r.recordInvokeKind new kind)

/-- **No field is recorded as moved to itself.** -/
theorem Recorded.fields_ne {r : Recorder} (h : r.Recorded) (f : FieldRef) : r.moves.fields[f]? ≠ some f := by
  induction h with
  | start kind => simp [Recorder.start]
  | @moveField r old new _ ih =>
    unfold Recorder.moveField
    split
    · exact ih
    · next hne =>
      split
      · split
        · exact ih
        · exact ih
      · simp only [Std.TreeMap.getElem?_insert]
        split
        · next heq =>
          obtain rfl : old = f := Std.LawfulEqOrd.eq_of_compare heq
          simpa [eq_comm] using hne
        · exact ih
  | moveType old new _ ih =>
    simp only [Recorder.moveType]
    split
    · split <;> exact ih
    · split
      · split <;> exact ih
      · split <;> exact ih
  | moveMethod old new _ ih =>
    unfold Recorder.moveMethod
    split
    · exact ih
    · split
      · split <;> exact ih
      · exact ih
  | representType new old _ ih => exact ih
  | representField new old _ ih => exact ih
  | representMethod new old _ ih => exact ih
  | recordCall old changes _ ih =>
    unfold Recorder.recordCall
    split <;> exact ih
  | recordDefinition new changes _ ih =>
    unfold Recorder.recordDefinition
    split <;> exact ih
  | recordInvokeKind new kind _ ih => exact ih

end Recorder

/-! ### One layer -/

namespace Update

/-- The present lens has one layer more than the code lens. -/
def Across (u : Update) (n : Renaming) : Prop := u.lens = u.code.push (.renames n)

variable {u : Update} {n : Renaming}

theorem Across.forward (h : u.Across n) : u.lens.forward u.code = [n] := by
  rw [h]
  exact Lens.forward_push u.code n

theorem Across.type (h : u.Across n) (t : Descriptor) : u.type t = n.mapType t := by
  simp [Update.type, Lens.lookupType, h.forward]

theorem Across.proto (h : u.Across n) (p : Prototype) : u.proto p = n.mapProto p := by
  simp [Update.proto, Lens.lookupProto, h.forward]

theorem Across.field (h : u.Across n) (f : FieldRef) : u.field f = Lens.stepField ⟨f, none⟩ n := by
  simp [Update.field, Lens.lookupField, h.forward]

/-- A field that keeps its name is read without a cast. -/
theorem Across.readCast_eq_none (h : u.Across n) (hself : ∀ f : FieldRef, n.fields[f]? ≠ some f) {f : FieldRef}
    (href : (u.field f).ref = f) : (u.field f).readCast = none := by
  rw [h.field] at href ⊢
  replace href : n.mapField f = f := href
  have htype : n.mapType f.type = (n.mapField f).type := by
    rw [Renaming.mapField, Std.TreeMap.getD_eq_getD_getElem?] at href ⊢
    cases hmoved : n.fields[f]? with
    | some new =>
      rw [hmoved, Option.getD_some] at href
      exact absurd (href ▸ hmoved) (hself f)
    | none => rfl
  exact if_pos htype

/-- What a call becomes: only its kind depends on the kind it had. -/
theorem Across.method_eq_ok (h : u.Across n) {context m : MethodRef} {kind : InvokeKind} {result : MethodLookup}
    (hresult : u.method context m kind = .ok result) (kind' : InvokeKind) :
    u.method context m kind' = .ok (Lens.settleSuper (some context)
      ⟨n.mapMethod m, n.invokeKinds.getD (n.mapMethod m) kind', result.changes⟩) ∧ result.ref = n.mapMethod m ∧
      result.kind = (Lens.settleSuper (some context)
        ⟨n.mapMethod m, n.invokeKinds.getD (n.mapMethod m) kind, result.changes⟩).kind := by
  simp only [Update.method, Lens.lookupMethod, h.forward, List.foldlM_cons, List.foldlM_nil, Lens.stepMethod] at hresult ⊢
  cases hchanges : ProtoChanges.none.combine (n.changesForCall m (n.mapMethod m)) with
  | error e =>
    rw [hchanges] at hresult
    cases hresult
  | ok changes =>
    rw [hchanges] at hresult
    cases hresult
    exact ⟨by rw [Lens.settleSuper_changes]; rfl, Lens.settleSuper_ref _ _, by rw [Lens.settleSuper_changes]⟩

/-- **Two trial kinds show whether a kind is recorded.** If a virtual call stays virtual and
    a static one static, every call but one of a superclass method keeps its kind. -/
theorem Across.kind_eq (h : u.Across n) {context m : MethodRef} {virtual static : MethodLookup}
    (hvirtual : u.method context m .virtual = .ok virtual) (hstatic : u.method context m .static = .ok static)
    (hv : virtual.kind = .virtual) (hs : static.kind = .static) {kind : InvokeKind} (hkind : kind ≠ .super)
    {result : MethodLookup} (hresult : u.method context m kind = .ok result) : result.kind = kind := by
  have hv' := (h.method_eq_ok hvirtual kind).2.2
  have hs' := (h.method_eq_ok hstatic kind).2.2
  rw [(h.method_eq_ok hresult kind).2.2]
  rw [Std.TreeMap.getD_eq_getD_getElem?] at hv' hs' ⊢
  cases hrecorded : n.invokeKinds[n.mapMethod m]? with
  | none =>
    rw [Option.getD_none, Lens.settleSuper, if_neg (by simp [hkind])]
  | some recorded =>
    rw [hrecorded, Option.getD_some] at hv' hs'
    have hsame : virtual.kind = static.kind := by
      rw [hv', hs', Lens.settleSuper_kind, Lens.settleSuper_kind]
    rw [hv, hs] at hsame
    cases hsame

end Update

open Std

/-- The body after an update that did not rebuild it. -/
def PackedUpdate.kept? (p : PackedBody) : PackedUpdate → Option PackedBody
  | unchanged => some p
  | patched q => some q
  | rebuilt _ => none

namespace Update

/-- The instruction that stands for `i` in a patched body. -/
def Keeps (u : Update) (context : MethodRef) (p : PackedBody) : PackedInstr → PackedInstr → Prop
  | .staticGet f, i' => i' = .staticGet f ∧ (p.constants[f]?).any u.castsReads = false
  | .instanceGet f object, i' => i' = .instanceGet f object ∧ (p.constants[f]?).any u.castsReads = false
  | .invoke kind _ m args, i' => ∃ kind' itf', i' = .invoke kind' itf' m args ∧
      ∀ called result, p.constants[m]? = some (.method called) → kind ≠ .super →
        u.method context called kind = .ok result → kind' = result.kind
  | i, i' => i' = i

/-- `q` is `p` with its pool and its guards up to date. -/
structure Kept (u : Update) (context : MethodRef) (p q : PackedBody) : Prop where
  argumentCount : q.argumentCount = p.argumentCount
  instructionCount : q.instructionCount = p.instructionCount
  lines : q.lines = p.lines
  pool : List.Forall₂ (fun c c' => ∃ flag, u.constant? context c = .ok (some (c', flag))) p.constants q.constants
  handlers : q.handlers.toList = (p.handlers.map fun _ hs => u.handlers hs).toList
  distinct : ∀ (start : Nat) (hs : List Handler), p.handlers[start]? = some hs →
    (Body.distinctGuards (u.handlers hs)).length = (u.handlers hs).length

/-- `q` is `p` with its pool, its guards and the kinds of its calls up to date. -/
structure Patched (u : Update) (context : MethodRef) (p q : PackedBody) : Prop extends Kept u context p q where
  views : ∀ vs : List InstrView, p.views = vs.map .ok → (∀ v ∈ vs, ∃ i, v.decode = .ok i) →
    ∃ g, q.views = (vs.map (InstrView.retag g)).map .ok ∧ ∀ v ∈ vs, ∀ i, v.decode = .ok i →
      ∃ i', (InstrView.retag g v).decode = .ok i' ∧ u.Keeps context p i i'

/-- The pool stays, and no call of a method in it may change its kind as far as trying two
    kinds shows. -/
def Untouched (u : Update) (context : MethodRef) (p : PackedBody) : Prop :=
  ∀ c ∈ p.constants, u.constant? context c = .ok (some (c, false))

variable {u : Update} {n : Renaming} {context : MethodRef} {p q : PackedBody}

/-! ### The pool -/

theorem constants?_eq_ok {cs cs' : List Constant} {flag : Bool} (h : u.constants? context cs = .ok (some (cs', flag))) :
    List.Forall₂ (fun c c' => ∃ flag, u.constant? context c = .ok (some (c', flag))) cs cs' ∧
      (flag = false → ∀ c ∈ cs, ∃ c', u.constant? context c = .ok (some (c', false))) := by
  induction cs generalizing cs' flag with
  | nil =>
    cases h
    exact ⟨.nil, by simp⟩
  | cons c cs ih =>
    unfold constants? at h
    obtain ⟨first, hc, h⟩ := bind_eq_ok.1 h
    cases first with
    | none => cases h
    | some first =>
      obtain ⟨c', f⟩ := first
      obtain ⟨rest, hcs, h⟩ := bind_eq_ok.1 h
      cases rest with
      | none => cases h
      | some rest =>
        obtain ⟨ds, g⟩ := rest
        cases h
        obtain ⟨hpool, hflags⟩ := ih hcs
        refine ⟨.cons ⟨f, hc⟩ hpool, fun hflag => ?_⟩
        obtain ⟨rfl, rfl⟩ : f = false ∧ g = false := by simpa using hflag
        intro d hd
        rcases List.mem_cons.1 hd with rfl | hd
        · exact ⟨c', hc⟩
        · exact hflags rfl d hd

theorem constants?_of_unchanged {cs : List Constant} (h : ∀ c ∈ cs, u.constant? context c = .ok (some (c, false))) :
    u.constants? context cs = .ok (some (cs, false)) := by
  induction cs with
  | nil => rfl
  | cons c cs ih =>
    obtain ⟨hc, hcs⟩ := List.forall_mem_cons.1 h
    rw [constants?, hc, ok_bind]
    simp only
    rw [ih hcs]
    rfl

/-- The update of the pool shows whether the body is untouched. -/
theorem untouched_iff {constants : List Constant} {kindsChanged : Bool}
    (h : u.constants? context p.constants = .ok (some (constants, kindsChanged))) :
    u.Untouched context p ↔ constants = p.constants ∧ kindsChanged = false := by
  constructor
  · intro huntouched
    cases h.symm.trans (constants?_of_unchanged huntouched)
    exact ⟨rfl, rfl⟩
  · rintro ⟨rfl, rfl⟩ c hc
    obtain ⟨hpool, hflags⟩ := constants?_eq_ok h
    obtain ⟨c', hc'⟩ := hflags rfl c hc
    obtain ⟨flag, hsame⟩ := List.forall₂_same.1 hpool c hc
    obtain ⟨rfl, -⟩ : c' = c ∧ false = flag := by simpa using hc'.symm.trans hsame
    exact hc'

/-! ### The opcodes -/

/-- The opcode that replaces the one of an instruction. -/
def patchOf? (u : Update) (context : MethodRef) (p : PackedBody) (v : InstrView) : Option UInt8 :=
  match v.decode with
  | .ok (.invoke kind itf m _) =>
    match p.methodAt m with
    | .ok called =>
      match u.method context called kind with
      | .ok result => if result.kind = kind then none else some (callOpcode kind result.kind itf)
      | .error _ => none
    | .error _ => none
  | _ => none

theorem opcodePatches_eq_ok {vs : List InstrView} {patches : List (Nat × UInt8)}
    (h : u.opcodePatches p context (vs.map .ok) = .ok (some patches)) :
    patches = InstrView.patchesOf (u.patchOf? context p) vs ∧
      ∀ v ∈ vs, ∀ f, (v.decode = .ok (.staticGet f) ∨ ∃ object, v.decode = .ok (.instanceGet f object)) →
        (p.constants[f]?).any u.castsReads = false := by
  induction vs generalizing patches with
  | nil =>
    cases h
    exact ⟨rfl, by simp⟩
  | cons v vs ih =>
    rw [List.map_cons, opcodePatches] at h
    obtain ⟨w, hw, h⟩ := bind_eq_ok.1 h
    cases hw
    obtain ⟨i, hi, h⟩ := bind_eq_ok.1 h
    replace hi : v.decode = .ok i := Outcome.ofExcept_eq_ok.1 hi
    -- An instruction that is neither a call nor a read leaves everything to the rest.
    have hplain (hrest : u.opcodePatches p context (vs.map .ok) = .ok (some patches)) (hnone : u.patchOf? context p v = none)
        (hcasts : ∀ f, (i = .staticGet f ∨ ∃ object, i = .instanceGet f object) → (p.constants[f]?).any u.castsReads = false) :
        patches = InstrView.patchesOf (u.patchOf? context p) (v :: vs) ∧
          ∀ w ∈ v :: vs, ∀ f, (w.decode = .ok (.staticGet f) ∨ ∃ object, w.decode = .ok (.instanceGet f object)) →
            (p.constants[f]?).any u.castsReads = false := by
      obtain ⟨hpatches, hrest⟩ := ih hrest
      refine ⟨by rw [hpatches]; simp [InstrView.patchesOf, hnone], fun w hw f hf => ?_⟩
      rcases List.mem_cons.1 hw with rfl | hw
      · refine hcasts f ?_
        simpa [hi] using hf
      · exact hrest w hw f hf
    have hread (f : Nat) (hget : i = .staticGet f ∨ ∃ object, i = .instanceGet f object)
        (h : (if (p.constants[f]?).any u.castsReads then pure none else u.opcodePatches p context (vs.map .ok)) =
          .ok (some patches)) :
        patches = InstrView.patchesOf (u.patchOf? context p) (v :: vs) ∧
          ∀ w ∈ v :: vs, ∀ f, (w.decode = .ok (.staticGet f) ∨ ∃ object, w.decode = .ok (.instanceGet f object)) →
            (p.constants[f]?).any u.castsReads = false := by
      split at h
      · cases h
      · next hcast =>
        refine hplain h ?_ fun f' hf' => ?_
        · rcases hget with rfl | ⟨object, rfl⟩ <;> simp [patchOf?, hi]
        · obtain rfl : f = f' := by
            rcases hget with rfl | ⟨object, rfl⟩ <;> simpa using hf'
          simpa using hcast
    cases i with
    | staticGet f => exact hread f (.inl rfl) h
    | instanceGet f object => exact hread f (.inr ⟨object, rfl⟩) h
    | invoke kind itf m args =>
      obtain ⟨called, hcalled, h⟩ := bind_eq_ok.1 h
      obtain ⟨result, hresult, h⟩ := bind_eq_ok.1 h
      obtain ⟨rest, hrest, h⟩ := bind_eq_ok.1 h
      replace hcalled := Outcome.ofExcept_eq_ok.1 hcalled
      replace hresult := Outcome.lift_eq_ok.1 hresult
      by_cases hkind : result.kind = kind
      · rw [if_pos hkind] at h
        cases h
        refine hplain hrest ?_ (by simp)
        simp [patchOf?, hi, hcalled, hresult, hkind]
      · rw [if_neg hkind] at h
        cases rest with
        | none => cases h
        | some rest =>
          cases h
          obtain ⟨hpatches, hrest⟩ := ih hrest
          have hpatch : u.patchOf? context p v = some (callOpcode kind result.kind itf) := by
            simp [patchOf?, hi, hcalled, hresult, hkind]
          refine ⟨by rw [hpatches]; simp [InstrView.patchesOf, hpatch], fun w hw f hf => ?_⟩
          rcases List.mem_cons.1 hw with rfl | hw
          · simp [hi] at hf
          · exact hrest w hw f hf
    | _ => exact hplain h (by simp [patchOf?, hi]) (by simp)

theorem patchOf?_eq_some {v : InstrView} {op : UInt8} (h : u.patchOf? context p v = some op) :
    ∃ kind itf m args called result, v.decode = .ok (.invoke kind itf m args) ∧ p.methodAt m = .ok called ∧
      u.method context called kind = .ok result ∧ result.kind ≠ kind ∧ op = callOpcode kind result.kind itf := by
  unfold patchOf? at h
  split at h
  · next kind itf m args hdecode =>
    split at h
    · next called hcalled =>
      split at h
      · next result hresult =>
        split at h
        · cases h
        · next hkind =>
          cases h
          exact ⟨kind, itf, m, args, called, result, hdecode, hcalled, hresult, hkind, rfl⟩
      · cases h
    · cases h
  · cases h

theorem keepsOperands_patchOf? (v : InstrView) : InstrView.KeepsOperands (u.patchOf? context p) v := by
  intro op hop
  obtain ⟨kind, itf, m, args, called, result, hdecode, -, -, -, rfl⟩ := patchOf?_eq_some hop
  obtain ⟨itf', hcall⟩ := InstrView.exists_invoke?_ofInvoke result.kind
    (if result.kind = .interface then true else if kind = .interface then false else itf)
  exact ⟨InstrView.isOneByte_of_invoke? (InstrView.invoke?_of_decode hdecode), InstrView.isOneByte_of_invoke? hcall⟩

theorem methodAt_eq_ok {m : Nat} {called : MethodRef} (h : p.constants[m]? = some (.method called)) :
    p.methodAt m = .ok called := by
  rw [PackedBody.methodAt, PackedBody.constant, h]
  rfl

/-- Under the patches every instruction stays but for the kinds of calls. -/
theorem keeps_patched {v : InstrView} {i : PackedInstr} (hi : v.decode = .ok i)
    (hcasts : ∀ f, (i = .staticGet f ∨ ∃ object, i = .instanceGet f object) → (p.constants[f]?).any u.castsReads = false) :
    ∃ i', (InstrView.retag (u.patchOf? context p) v).decode = .ok i' ∧ u.Keeps context p i i' := by
  cases hpatch : u.patchOf? context p v with
  | some op =>
    obtain ⟨kind, itf, m, args, called, result, hdecode, hcalled, hresult, -, rfl⟩ := patchOf?_eq_some hpatch
    obtain rfl : i = .invoke kind itf m args := Except.ok.inj (hi.symm.trans hdecode)
    obtain ⟨itf', hcall⟩ := InstrView.exists_invoke?_ofInvoke result.kind
      (if result.kind = .interface then true else if kind = .interface then false else itf)
    refine ⟨.invoke result.kind itf' m args, ?_, result.kind, itf', rfl, ?_⟩
    · exact InstrView.decode_retagged_call hdecode rfl rfl rfl (by simpa [InstrView.retag, hpatch, callOpcode] using hcall)
    · intro called' result' hcalled' _ hresult'
      obtain rfl : called = called' := Except.ok.inj (hcalled.symm.trans (methodAt_eq_ok hcalled'))
      rw [Except.ok.inj (hresult.symm.trans hresult')]
  | none =>
    have hsame : InstrView.retag (u.patchOf? context p) v = v := by simp [InstrView.retag, hpatch]
    rw [hsame]
    refine ⟨i, hi, ?_⟩
    cases i with
    | staticGet f => exact ⟨rfl, hcasts f (.inl rfl)⟩
    | instanceGet f object => exact ⟨rfl, hcasts f (.inr ⟨object, rfl⟩)⟩
    | invoke kind itf m args =>
      refine ⟨kind, itf, rfl, fun called result hcalled _ hresult => ?_⟩
      simp only [patchOf?, hi, methodAt_eq_ok hcalled, hresult, ite_eq_left_iff, reduceCtorEq, imp_false, not_not] at hpatch
      exact hpatch.symm
    | _ => rfl

/-- Where no call may change its kind and the pool stays, every instruction stays. -/
theorem keeps_unpatched (hn : u.Across n) (hself : ∀ f : FieldRef, n.fields[f]? ≠ some f)
    (hpool : u.Untouched context p) (i : PackedInstr) : u.Keeps context p i i := by
  have hcast (f : Nat) : (p.constants[f]?).any u.castsReads = false := by
    cases hf : p.constants[f]? with
    | none => rfl
    | some c =>
      have hc := hpool c (List.mem_of_getElem? hf)
      cases c with
      | field field =>
        have href : (u.field field).ref = field := by simpa [constant?, pure, Except.pure] using hc
        simp [castsReads, hn.readCast_eq_none hself href]
      | _ => rfl
  cases i with
  | staticGet f => exact ⟨rfl, hcast f⟩
  | instanceGet f object => exact ⟨rfl, hcast f⟩
  | invoke kind itf m args =>
    refine ⟨kind, itf, rfl, fun called result hcalled hkind hresult => ?_⟩
    have hc := hpool _ (List.mem_of_getElem? hcalled)
    simp only [constant?] at hc
    obtain ⟨virtual, hvirtual, hc⟩ := bind_eq_ok.1 hc
    split at hc
    · obtain ⟨static, hstatic, hc⟩ := bind_eq_ok.1 hc
      have hkinds : virtual.ref = called ∧ virtual.kind = .virtual ∧ static.kind = .static := by
        simpa [pure, Except.pure] using hc
      exact (hn.kind_eq hvirtual hstatic hkinds.2.1 hkinds.2.2 hkind hresult).symm
    · cases hc
  | _ => rfl

/-! ### The guards -/

theorem any_eq_any_toList {β : Type} (t : TreeMap Nat β) (f : Nat → β → Bool) :
    t.any f = t.toList.any fun x => f x.1 x.2 := by
  have hloop (xs : List (Nat × β)) : (Id.run do
      for x in xs do
        if f x.1 x.2 then return true
      return false) = xs.any fun x => f x.1 x.2 := by
    induction xs with
    | nil => rfl
    | cons x xs ih =>
      cases hx : f x.1 x.2 with
      | true => simp [hx]
      | false => simpa [hx] using ih
  rw [← hloop]
  simp only [TreeMap.any, DTreeMap.any, DTreeMap.Internal.Impl.any, ForIn.forIn,
    DTreeMap.Internal.Impl.Const.forIn_eq_forIn_toList]
  rfl

/-- Where the test for equal guards finds none, no handler is dropped. -/
theorem distinct_of_any_eq_false {handlers : TreeMap Nat (List Handler)}
    (h : ((handlers.map fun _ hs => u.handlers hs).any fun _ hs => (Body.distinctGuards hs).length != hs.length) = false)
    {start : Nat} {hs : List Handler} (hstart : handlers[start]? = some hs) :
    (Body.distinctGuards (u.handlers hs)).length = (u.handlers hs).length := by
  have hmem : (start, u.handlers hs) ∈ (handlers.map fun _ hs => u.handlers hs).toList := by
    rw [TreeMap.mem_toList_iff_getElem?_eq_some, TreeMap.getElem?_map, hstart]
    rfl
  rw [any_eq_any_toList, List.any_eq_false] at h
  simpa using h _ hmem

/-! ### The update -/

theorem kept?_of_rebuild {method : MethodRef} {isStatic : Bool} {r : PackedUpdate}
    (h : u.rebuild p method isStatic = .ok r) : r.kept? p = none := by
  unfold rebuild at h
  obtain ⟨_, _, h⟩ := bind_eq_ok.1 h
  obtain ⟨_, _, h⟩ := bind_eq_ok.1 h
  obtain ⟨_, _, h⟩ := bind_eq_ok.1 h
  cases h
  rfl

/-- Where patches come from: the opcodes were gone through, or there was no need to. -/
def PatchesFrom (u : Update) (context : MethodRef) (p : PackedBody) (patches : List (Nat × UInt8)) : Prop :=
  ¬ u.Untouched context p ∧ u.opcodePatches p context p.views = .ok (some patches) ∨ u.Untouched context p ∧ patches = []

theorem views_of_patches (hn : u.Across n) (hself : ∀ f : FieldRef, n.fields[f]? ≠ some f) {patches : List (Nat × UInt8)}
    (hpatches : u.PatchesFrom context p patches) (hargc : q.argumentCount = p.argumentCount)
    (hbytes : q.bytes = patches.foldl (fun bytes (offset, op) => bytes.set offset op) p.bytes) {vs : List InstrView}
    (hviews : p.views = vs.map .ok) :
    ∃ g, q.views = (vs.map (InstrView.retag g)).map .ok ∧ ∀ v ∈ vs, ∀ i, v.decode = .ok i →
      ∃ i', (InstrView.retag g v).decode = .ok i' ∧ u.Keeps context p i i' := by
  rcases hpatches with ⟨-, hpatches⟩ | ⟨hpool, rfl⟩
  · rw [hviews] at hpatches
    obtain ⟨rfl, hcasts⟩ := opcodePatches_eq_ok hpatches
    refine ⟨u.patchOf? context p, ?_, fun v hv i hi => keeps_patched hi fun f hf => hcasts v hv f ?_⟩
    · rw [PackedBody.views, hargc, hbytes]
      exact InstrView.scanBytes_patched hviews fun v _ => keepsOperands_patchOf? v
    · rcases hf with rfl | ⟨object, rfl⟩
      · exact .inl hi
      · exact .inr ⟨object, hi⟩
  · refine ⟨fun _ => none, ?_, fun v _ i hi => ⟨i, hi, keeps_unpatched hn hself hpool i⟩⟩
    have hid : (InstrView.retag fun _ => none) = id := rfl
    rw [hid, List.map_id, ← hviews, PackedBody.views, hargc, hbytes]
    rfl

theorem patch_eq_ok {method : MethodRef} {isStatic : Bool} {constants : List Constant} {kindsChanged : Bool}
    {handlers : TreeMap Nat (List Handler)} {r : PackedUpdate}
    (h : u.patch p method isStatic constants kindsChanged handlers = .ok r) (hq : r.kept? p = some q)
    (hpool : u.Untouched method p ↔ constants = p.constants ∧ kindsChanged = false) :
    q.argumentCount = p.argumentCount ∧ q.instructionCount = p.instructionCount ∧ q.lines = p.lines ∧
      q.constants = constants ∧ q.handlers.toList = handlers.toList ∧ ∃ patches, u.PatchesFrom method p patches ∧
        q.bytes = patches.foldl (fun bytes (offset, op) => bytes.set offset op) p.bytes := by
  have hfinish (patches : List (Nat × UInt8)) (hfrom : u.PatchesFrom method p patches)
      (h : (if patches.isEmpty && !constants != p.constants && !handlers.toList != p.handlers.toList then
          pure .unchanged
        else
          pure (.patched { p with
            constants := constants
            bytes := patches.foldl (fun bytes (offset, op) => bytes.set offset op) p.bytes
            handlers := handlers }) : Outcome PackedError PackedUpdate) = .ok r) :
      q.argumentCount = p.argumentCount ∧ q.instructionCount = p.instructionCount ∧ q.lines = p.lines ∧
        q.constants = constants ∧ q.handlers.toList = handlers.toList ∧ ∃ patches, u.PatchesFrom method p patches ∧
          q.bytes = patches.foldl (fun bytes (offset, op) => bytes.set offset op) p.bytes := by
    split at h
    · next hsame =>
      simp only [Bool.and_eq_true, Bool.not_eq_true', bne_eq_false_iff_eq, List.isEmpty_iff] at hsame
      obtain ⟨⟨rfl, hconstants⟩, hhandlers⟩ := hsame
      cases h
      cases hq
      exact ⟨rfl, rfl, rfl, hconstants.symm, hhandlers.symm, [], hfrom, rfl⟩
    · cases h
      cases hq
      exact ⟨rfl, rfl, rfl, rfl, rfl, patches, hfrom, rfl⟩
  unfold patch at h
  simp only at h
  split at h
  · next hsame =>
    simp only [Bool.and_eq_true, Bool.not_eq_true', bne_eq_false_iff_eq] at hsame
    obtain ⟨⟨hconstants, hhandlers⟩, hkinds⟩ := hsame
    cases h
    cases hq
    exact ⟨rfl, rfl, rfl, hconstants.symm, hhandlers.symm, [], .inr ⟨hpool.2 ⟨hconstants, hkinds⟩, rfl⟩, rfl⟩
  · next hchanged =>
    split at h
    · next hscan =>
      have htouched : ¬ u.Untouched method p := by
        intro huntouched
        obtain ⟨rfl, rfl⟩ := hpool.1 huntouched
        simp at hscan
      obtain ⟨patches?, hpatches, h⟩ := bind_eq_ok.1 h
      cases patches? with
      | none => rw [kept?_of_rebuild h] at hq; cases hq
      | some patches => exact hfinish patches (.inl ⟨htouched, hpatches⟩) h
    · next hno =>
      simp only [Bool.or_eq_true, not_or, Bool.not_eq_true, bne_eq_false_iff_eq] at hno
      exact hfinish [] (.inr ⟨hpool.2 hno, rfl⟩) h

/-- **An update that does not rebuild a body** brings its pool and its guards up to date and patches
    opcodes. -/
theorem kept_of_packed {method : MethodRef} {isStatic : Bool} {r : PackedUpdate} (h : u.packed p method isStatic = .ok r)
    (hq : r.kept? p = some q) :
    (∃ changes, u.definitionChanges method = .ok changes ∧ changes.isEmpty = true) ∧ u.Kept method p q ∧
      ∃ patches, u.PatchesFrom method p patches ∧
        q.bytes = patches.foldl (fun bytes (offset, op) => bytes.set offset op) p.bytes := by
  unfold packed at h
  obtain ⟨changes, hchanges, h⟩ := bind_eq_ok.1 h
  replace hchanges := Outcome.lift_eq_ok.1 hchanges
  split at h
  · rw [kept?_of_rebuild h] at hq
    cases hq
  · next hempty =>
    obtain ⟨constants?, hconstants, h⟩ := bind_eq_ok.1 h
    replace hconstants := Outcome.lift_eq_ok.1 hconstants
    cases constants? with
    | none => rw [kept?_of_rebuild h] at hq; cases hq
    | some pool =>
      obtain ⟨constants, kindsChanged⟩ := pool
      simp only at h
      split at h
      · rw [kept?_of_rebuild h] at hq
        cases hq
      · next hdistinct =>
        obtain ⟨hargc, hcount, hlines, rfl, hhandlers, hpatches⟩ := patch_eq_ok h hq (untouched_iff hconstants)
        refine ⟨⟨changes, hchanges, by simpa using hempty⟩, ⟨hargc, hcount, hlines, (constants?_eq_ok hconstants).1, hhandlers, ?_⟩,
          hpatches⟩
        intro start hs hstart
        exact distinct_of_any_eq_false (by simpa using hdistinct) hstart

/-- **Across one layer** the calls of a patched body have the kinds that their methods now have. -/
theorem patched_of_packed (hn : u.Across n) (hself : ∀ f : FieldRef, n.fields[f]? ≠ some f) {method : MethodRef}
    {isStatic : Bool} {r : PackedUpdate} (h : u.packed p method isStatic = .ok r) (hq : r.kept? p = some q) :
    (∃ changes, u.definitionChanges method = .ok changes ∧ changes.isEmpty = true) ∧ u.Patched method p q := by
  obtain ⟨hchanges, hkept, patches, hpatches, hbytes⟩ := kept_of_packed h hq
  exact ⟨hchanges, hkept, fun vs hviews _ => views_of_patches hn hself hpatches hkept.argumentCount hbytes hviews⟩

end Update

end DexShrinker
