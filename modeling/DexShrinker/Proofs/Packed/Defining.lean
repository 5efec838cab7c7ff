/-
  DexShrinker/Proofs/Packed/Defining.lean
  =======================================
  **An unpacked body defines no value twice.**

  A value has one name, the value index under which it was first mentioned (`Unpacker.Distinct`),
  and an instruction defines the value of its own index. So what an instruction defines was not
  defined before (`Unpacker.DefinesOnce.extend`), as long as indices of instructions fit in thirty-two bits.
  An argument may be defined by an instruction if value indices wrap around.
-/
import Mathlib.Data.List.Nodup
import DexShrinker.Proofs.Packed.AnyStream

namespace DexShrinker

open Std

/-- The values that a draft defines. -/
def DraftBlock.defs (d : DraftBlock) : List ValueId := d.phis.map Phi.dest ++ d.body.filterMap Instr.dest

/-! ### Names -/

namespace Unpacker

/-- Every name is the name of a value, and no value has two. -/
structure Distinct (s : Unpacker) : Prop where
  inRange : s.NamesInRange
  once : ∀ (i j : Nat) (v : ValueId), s.slots[i]? = some (some v) → s.slots[j]? = some (some v) → i = j

/-- From `s` to `t` values are named, and nothing else happens. -/
structure Adds (s t : Unpacker) : Prop where
  distinct : t.Distinct
  slots : ∀ (i : Nat) (v : ValueId), s.slots[i]? = some (some v) → t.slots[i]? = some (some v)
  blocks : t.blocks = s.blocks
  current : t.current = s.current

theorem Adds.refl {s : Unpacker} (h : s.Distinct) : s.Adds s := ⟨h, fun _ _ h => h, rfl, rfl⟩

theorem Adds.trans {s t u : Unpacker} (h : s.Adds t) (h' : t.Adds u) : s.Adds u :=
  ⟨h'.distinct, fun i v hv => h'.slots i v (h.slots i v hv), h'.blocks.trans h.blocks, h'.current.trans h.current⟩

end Unpacker

namespace Unpacking

open Unpacker (Distinct Adds)

variable {α β : Type} {m : Unpacking α} {s : Unpacker} {p : PackedBody}

/-- From the state before the step to the state after it there is `R`. -/
def Framed (R : Unpacker → Unpacker → Prop) (m : Unpacking α) : Prop := ∀ s, Ensures m s fun _ t => R s t

/-- What steps keep that do no more than mention values, one after the other. -/
structure Frame (R : Unpacker → Unpacker → Prop) : Prop where
  refl : ∀ s, R s s
  trans : ∀ {s t u}, R s t → R t u → R s u
  value : ∀ i, Framed R (value i)

variable {R : Unpacker → Unpacker → Prop}

theorem Framed.throw (e : PackedError) : Framed R (throw e : Unpacking α) := fun _ => Ensures.throw e

theorem Framed.lift_bind {x : Except PackedError α} {f : α → Unpacking β} (h : ∀ a, Framed R (f a)) : Framed R (liftM x >>= f) :=
  fun s => Ensures.lift_bind fun a _ => h a s

namespace Frame

theorem pure (hR : Frame R) (a : α) : Framed R (Pure.pure a) := fun s => Ensures.pure (hR.refl s)

theorem bind (hR : Frame R) {f : α → Unpacking β} (h : Framed R m) (hnext : ∀ a, Framed R (f a)) : Framed R (m >>= f) :=
  fun s => (h s).bind fun a t ht b u hrun => hR.trans ht (hnext a t b u hrun)

theorem values (hR : Frame R) (is : List Nat) : Framed R (is.mapM Unpacking.value) := by
  induction is with
  | nil => exact hR.pure _
  | cons i is ih =>
    rw [List.mapM_cons]
    exact hR.bind (hR.value i) fun v => hR.bind ih fun vs => hR.pure _

theorem value? (hR : Frame R) (i : Option Nat) : Framed R (i.mapM Unpacking.value) := by
  cases i with
  | none => exact hR.pure _
  | some i => exact hR.bind (hR.value i) fun v => hR.pure _

/-- Reading an operation mentions its operands. -/
theorem operation (hR : Frame R) (p : PackedBody) (i : PackedInstr) : Framed R (operation p i) := by
  have one {β : Type} (i : Nat) {f : ValueId → Unpacking β} (hf : ∀ v, Framed R (f v)) : Framed R (Unpacking.value i >>= f) :=
    hR.bind (hR.value i) hf
  cases i with
  | loadConstant c =>
    refine .lift_bind fun k => ?_
    cases k with
    | string | type | handle | proto => exact hR.pure _
    | field | method | callSite => exact .throw _
  | newInstance t | newUnboxedEnum t ordinal | staticGet f => exact .lift_bind fun t => hR.pure _
  | newArray t size | checkCast t v | instanceOf t v | staticPut f v | instanceGet f object =>
    exact .lift_bind fun t => one _ fun v => hR.pure _
  | arrayGet t array index | instancePut f object v => exact .lift_bind fun t => one _ fun v => one _ fun w => hR.pure _
  | arrayPut array index v => exact one _ fun v => one _ fun w => one _ fun x => hR.pure _
  | arrayLength array => exact one _ fun v => hR.pure _
  | invoke kind itf m args => exact .lift_bind fun m => hR.bind (hR.values args) fun vs => hR.pure _
  | invokeCustom site args =>
    refine .lift_bind fun k => ?_
    cases k with
    | callSite site => exact hR.bind (hR.values args) fun vs => hR.pure _
    | _ => exact .throw _
  | binary op type lhs rhs =>
    cases type with
    | int | long => exact one _ fun v => one _ fun w => hR.pure _
  | _ => exact hR.pure _

end Frame

/-- Mentioning a value gives it its name, behind all others if it is new. -/
theorem adds_value (hs : s.Distinct) (i : Nat) : Ensures (value i) s fun v t => s.Adds t ∧ t.slots[i]? = some (some v) := by
  unfold value
  refine Ensures.get_bind ?_
  split
  · exact Ensures.throw _
  · next v hslot => exact Ensures.pure ⟨.refl hs, hslot⟩
  · next hslot =>
    have hi := (List.getElem?_eq_some_iff.1 hslot).1
    have hget (k : Nat) (v : ValueId) (hk : (s.slots.set i (some s.values.length))[k]? = some (some v)) :
        v = s.values.length ∧ i = k ∨ v < s.values.length ∧ s.slots[k]? = some (some v) := by
      rw [List.getElem?_set] at hk
      split at hk
      · next heq => exact .inl ⟨by simpa using hk.symm, heq⟩
      · exact .inr ⟨hs.inRange k v hk, hk⟩
    intro v t hrun
    cases hrun
    refine ⟨⟨⟨fun k v hk => ?_, fun j k v hj hk => ?_⟩, fun k v hk => ?_, rfl, rfl⟩, List.getElem?_set_self hi⟩
    · rw [List.length_append, List.length_singleton]
      rcases hget k v hk with ⟨rfl, -⟩ | ⟨hlt, -⟩
      · exact Nat.lt_succ_self _
      · exact Nat.lt_succ_of_lt hlt
    · rcases hget j v hj with ⟨rfl, rfl⟩ | ⟨hlt, hj⟩
      · rcases hget k _ hk with ⟨-, heq⟩ | ⟨hlt, -⟩
        · exact heq
        · exact absurd hlt (Nat.lt_irrefl _)
      · rcases hget k v hk with ⟨rfl, -⟩ | ⟨-, hk⟩
        · exact absurd hlt (Nat.lt_irrefl _)
        · exact hs.once j k v hj hk
    · have hne : i ≠ k := by
        rintro rfl
        rw [hk] at hslot
        cases hslot
      exact (List.getElem?_set_ne hne).trans hk

/-- Steps that name values at most. -/
theorem frame_adds : Frame fun s t => s.Distinct → s.Adds t where
  refl _ := .refl
  trans h h' hs := (h hs).trans (h' (h hs).distinct)
  value i _ v t hrun hs := (adds_value hs i v t hrun).1

/-- A definition is that of the value of its index. -/
theorem adds_define (hs : s.Distinct) (n : Nat) (type : Descriptor) (origin : Origin) :
    Ensures (define n type origin) s fun v t => s.Adds t ∧ t.slots[n]? = some (some v) := by
  refine (adds_value hs n).bind fun v t ⟨ht, hslot⟩ w u hrun => ?_
  cases hrun
  refine ⟨⟨⟨fun k w hk => ?_, ht.distinct.once⟩, ht.slots, ht.blocks, ht.current⟩, hslot⟩
  rw [List.length_set]
  exact ht.distinct.inRange k w hk

theorem adds_result (hs : s.Distinct) (n : Nat) (result : Option Descriptor) :
    Ensures (result.mapM fun t => define n t .instruction) s fun dest t =>
      s.Adds t ∧ ∀ v ∈ dest, t.slots[n]? = some (some v) := by
  cases result with
  | none => exact Ensures.pure ⟨.refl hs, by simp⟩
  | some type =>
    change Ensures (define n type .instruction >>= fun v => Pure.pure (some v)) s _
    refine (adds_define hs n type .instruction).bind fun v t ⟨ht, hslot⟩ => Ensures.pure ⟨ht, ?_⟩
    rintro _ ⟨⟩
    exact hslot

end Unpacking

/-! ### Definitions -/

namespace Unpacker

variable {p : PackedBody} {a k n : Nat} {s t : Unpacker}

/-- After `k` instructions no value has been defined twice, and what has been defined are values of their indices. -/
structure DefinesOnce (p : PackedBody) (k : Nat) (s : Unpacker) : Prop where
  distinct : s.Distinct
  drawn : ∀ (a : Nat) (d : DraftBlock), s.blocks[a]? = some d → ∀ v ∈ d.defs, ∃ i < k,
    s.slots[valueIndexOf p.argumentCount i]? = some (some v)
  nodup : ∀ (a : Nat) (d : DraftBlock), s.blocks[a]? = some d → d.defs.Nodup
  apart : ∀ (a b : Nat) (d e : DraftBlock), s.blocks[a]? = some d → s.blocks[b]? = some e → a ≠ b → d.defs.Disjoint e.defs

theorem DefinesOnce.adds (h : s.DefinesOnce p k) (hadds : s.Adds t) : t.DefinesOnce p k where
  distinct := hadds.distinct
  drawn a d hd v hv := by
    rw [hadds.blocks] at hd
    obtain ⟨i, hi, hslot⟩ := h.drawn a d hd v hv
    exact ⟨i, hi, hadds.slots _ v hslot⟩
  nodup a d hd := h.nodup a d (hadds.blocks ▸ hd)
  apart a b d e hd he := h.apart a b d e (hadds.blocks ▸ hd) (hadds.blocks ▸ he)

theorem DefinesOnce.congr (h : s.DefinesOnce p k) (hvalues : t.values = s.values) (hslots : t.slots = s.slots)
    (hblocks : t.blocks = s.blocks) : t.DefinesOnce p k where
  distinct := ⟨fun i v hv => hvalues ▸ h.distinct.inRange i v (hslots ▸ hv), hslots ▸ h.distinct.once⟩
  drawn := by
    rw [hblocks, hslots]
    exact h.drawn
  nodup := by
    rw [hblocks]
    exact h.nodup
  apart := by
    rw [hblocks]
    exact h.apart

/-- The block at `a` is known, or it defines nothing yet. -/
theorem getElem?_or_defs_eq_nil (s : Unpacker) (a : Nat) :
    s.blocks[a]? = some (s.blocks.getD a {}) ∨ (s.blocks.getD a {}).defs = [] := by
  rw [TreeMap.getD_eq_getD_getElem?]
  cases s.blocks[a]? with
  | none => exact .inr rfl
  | some d => exact .inl rfl

/-- **A block changes,** and if it defines a value more, that is the one of index `k`. -/
theorem DefinesOnce.extend (h : s.DefinesOnce p k) (hk : k < UInt32.size) (hle : k ≤ n) {dest : Option ValueId}
    (hdest : ∀ v ∈ dest, k < n ∧ s.slots[valueIndexOf p.argumentCount k]? = some (some v)) {e : DraftBlock}
    (hdefs : e.defs.Perm (dest.toList ++ (s.blocks.getD a {}).defs)) :
    DefinesOnce p n { s with blocks := s.blocks.insert a e } := by
  have hfresh (v : ValueId) (hv : v ∈ dest) (b : Nat) (d : DraftBlock) (hd : s.blocks[b]? = some d) : v ∉ d.defs := by
    intro hmem
    obtain ⟨i, hi, hslot⟩ := h.drawn b d hd v hmem
    -- Indices of instructions do not meet again before they wrap around.
    have heq := h.distinct.once _ _ v hslot (hdest v hv).2
    simp only [valueIndexOf, UInt32.size] at heq hk
    omega
  have hold (v : ValueId) (hv : v ∈ (s.blocks.getD a {}).defs) : s.blocks[a]? = some (s.blocks.getD a {}) := by
    rcases getElem?_or_defs_eq_nil s a with hget | hnil
    · exact hget
    · rw [hnil] at hv
      cases hv
  have hmem (v : ValueId) : v ∈ e.defs ↔ v ∈ dest ∨ v ∈ (s.blocks.getD a {}).defs := by
    rw [hdefs.mem_iff, List.mem_append, Option.mem_toList, Option.mem_def]
  have hother (b : Nat) (d : DraftBlock) (hne : a ≠ b) (hd : s.blocks[b]? = some d) : e.defs.Disjoint d.defs := by
    intro v hv hvd
    rcases (hmem v).1 hv with hv | hv
    · exact hfresh v hv b d hd hvd
    · exact h.apart a b _ d (hold v hv) hd hne hv hvd
  refine ⟨⟨h.distinct.inRange, h.distinct.once⟩, fun b d hd v hv => ?_, fun b d hd => ?_, fun b b' d d' hd hd' hne => ?_⟩
  · rcases getElem?_insert_iff.1 hd with ⟨rfl, rfl⟩ | ⟨-, hd⟩
    · rcases (hmem v).1 hv with hv | hv
      · exact ⟨k, hdest v hv⟩
      · obtain ⟨i, hi, hslot⟩ := h.drawn a _ (hold v hv) v hv
        exact ⟨i, Nat.lt_of_lt_of_le hi hle, hslot⟩
    · obtain ⟨i, hi, hslot⟩ := h.drawn b d hd v hv
      exact ⟨i, Nat.lt_of_lt_of_le hi hle, hslot⟩
  · rcases getElem?_insert_iff.1 hd with ⟨rfl, rfl⟩ | ⟨-, hd⟩
    · rw [hdefs.nodup_iff, List.nodup_append]
      refine ⟨by cases dest <;> simp, ?_, fun v hv w hw heq => ?_⟩
      · rcases getElem?_or_defs_eq_nil s a with hget | hnil
        · exact h.nodup a _ hget
        · rw [hnil]
          exact .nil
      · subst heq
        exact hfresh v (Option.mem_toList.1 hv) a _ (hold v hw) hw
    · exact h.nodup b d hd
  · rcases getElem?_insert_iff.1 hd with ⟨rfl, rfl⟩ | ⟨hab, hd⟩
    · rcases getElem?_insert_iff.1 hd' with ⟨rfl, -⟩ | ⟨hab', hd'⟩
      · exact absurd rfl hne
      · exact hother b' d' hab' hd'
    · rcases getElem?_insert_iff.1 hd' with ⟨rfl, rfl⟩ | ⟨-, hd'⟩
      · exact fun v hv hv' => hother b d hab hd hv' hv
      · exact h.apart b b' d d' hd hd' hne

theorem DefinesOnce.openBlock (h : s.DefinesOnce p k) (hk : k < UInt32.size) (a : Nat) :
    Unpacking.Ensures (Unpacking.openBlock a) s fun _ t => t.DefinesOnce p k := by
  refine Unpacking.Ensures.modify ?_
  split
  · exact h
  · next hout =>
    have hnone : s.blocks[a]? = none := by
      rwa [TreeMap.contains_eq_isSome_getElem?, Option.not_isSome_iff_eq_none] at hout
    have hdefs : DraftBlock.defs {} = (s.blocks.getD a {}).defs := by rw [TreeMap.getD_eq_getD_getElem?, hnone, Option.getD_none]
    have hdest : ∀ v ∈ (none : Option ValueId), k < k ∧ s.slots[valueIndexOf p.argumentCount k]? = some (some v) := by simp
    exact h.extend hk (Nat.le_refl k) hdest (.of_eq hdefs)

theorem DefinesOnce.openTarget (h : s.DefinesOnce p k) (hk : k < UInt32.size) (count a : Nat) :
    Unpacking.Ensures (Unpacking.openTarget count a) s fun _ t => t.DefinesOnce p k := by
  unfold Unpacking.openTarget
  split
  · exact Unpacking.Ensures.throw _
  · exact h.openBlock hk a

theorem DefinesOnce.enterBlock (h : s.DefinesOnce p k) (hk : k < UInt32.size) :
    Unpacking.Ensures (Unpacking.enterBlock k) s fun _ t => t.DefinesOnce p k := by
  unfold Unpacking.enterBlock
  refine Unpacking.Ensures.get_bind ?_
  split
  · exact DefinesOnce.openBlock (s := { s with current := some k }) (h.congr rfl rfl rfl) hk k
  · split
    · exact Unpacking.Ensures.throw _
    · exact Unpacking.Ensures.pure h

/-- An instruction of a block. -/
theorem DefinesOnce.onCurrent (h : s.DefinesOnce p k) (hk : k < UInt32.size) {dest : Option ValueId}
    (hdest : ∀ v ∈ dest, s.slots[valueIndexOf p.argumentCount k]? = some (some v)) {f : DraftBlock → DraftBlock}
    (hf : ∀ d, (f d).defs.Perm (dest.toList ++ d.defs)) :
    Unpacking.Ensures (Unpacking.onCurrent f) s fun _ t => t.DefinesOnce p (k + 1) :=
  Unpacking.Ensures.modify (h.extend hk (Nat.le_succ k) (fun v hv => ⟨Nat.lt_succ_self k, hdest v hv⟩) (hf _))

/-- The end of a block. -/
theorem DefinesOnce.terminate (h : s.DefinesOnce p k) (hk : k < UInt32.size) (e : Terminator) :
    Unpacking.Ensures (Unpacking.terminate e) s fun _ t => t.DefinesOnce p (k + 1) := by
  refine Unpacking.Ensures.get_bind ?_
  have hdest : ∀ v ∈ (none : Option ValueId), s.slots[valueIndexOf p.argumentCount k]? = some (some v) := by simp
  have hend : Unpacking.Ensures (Unpacking.onCurrent fun b => { b with terminator := some (e, s.line) }) s fun _ t =>
      t.DefinesOnce p (k + 1) := h.onCurrent hk hdest fun d => .refl _
  exact hend.bind fun _ t ht => Unpacking.Ensures.modify (ht.congr rfl rfl rfl)

theorem DefinesOnce.follow {α : Type} (h : s.DefinesOnce p k) {m : Unpacking α}
    (hm : Unpacking.Framed (fun s t => s.Distinct → s.Adds t) m) : Unpacking.Ensures m s fun _ t => t.DefinesOnce p k :=
  fun a t hrun => h.adds (hm s a t hrun h.distinct)

open Unpacking in
/-- **One instruction.** -/
theorem DefinesOnce.instruction (h : s.DefinesOnce p k) (hk : k < UInt32.size) {v : InstrView}
    (hv : v.valueIndex = valueIndexOf p.argumentCount k) (i : PackedInstr) :
    Ensures (instruction p v i) s fun _ t => t.DefinesOnce p (k + 1) := by
  by_cases hplain : IsPlain i
  · rw [instruction_plain hplain]
    refine (h.follow (frame_adds.operation p i)).bind ?_
    rintro ⟨op, result⟩ t₁ h₁
    refine (adds_result h₁.distinct v.valueIndex result).bind fun dest t₂ ⟨hadds, hdest⟩ => ?_
    refine Ensures.get_bind ((h₁.adds hadds).onCurrent hk (hv ▸ hdest) fun d => ?_)
    have hbody : (d.body ++ [(⟨dest, op, t₂.line⟩ : Instr)]).filterMap Instr.dest = d.body.filterMap Instr.dest ++ dest.toList := by
      cases dest <;> simp
    rw [DraftBlock.defs, hbody, ← List.append_assoc]
    exact List.perm_append_comm
  · cases i with
    | phi type operands =>
      refine Ensures.lift_bind fun type _ => ?_
      refine (adds_define h.distinct v.valueIndex type .phi).bind fun dest t₁ ⟨hadds, hslot⟩ => ?_
      have hoperands : Ensures (operands.mapM value) t₁ fun _ t => t.DefinesOnce p k ∧ t.slots[v.valueIndex]? = some (some dest) :=
        fun vs t hrun =>
          have hadds' := frame_adds.values operands t₁ vs t hrun hadds.distinct
          ⟨(h.adds hadds).adds hadds', hadds'.slots _ _ hslot⟩
      refine hoperands.bind fun operands t₂ ⟨h₂, hslot₂⟩ => ?_
      have hdest : ∀ v ∈ some dest, t₂.slots[valueIndexOf p.argumentCount k]? = some (some v) := by
        rintro _ ⟨⟩
        exact hv ▸ hslot₂
      refine h₂.onCurrent hk hdest fun d => ?_
      simp only [DraftBlock.defs, List.map_append, List.map_cons, List.map_nil, Option.toList_some, List.append_assoc,
        List.singleton_append]
      exact List.perm_middle
    | goto target => exact (h.openTarget hk _ target).bind fun _ t₁ h₁ => h₁.terminate hk _
    | «fallthrough» => exact (h.openTarget hk _ (v.index + 1)).bind fun _ t₁ h₁ => h₁.terminate hk _
    | branch kind type target lhs rhs =>
      refine (h.openTarget hk _ target).bind fun _ t₁ h₁ => (h₁.openTarget hk _ (v.index + 1)).bind fun _ t₂ h₂ => ?_
      refine (h₂.follow (frame_adds.value lhs)).bind fun lhs' t₃ h₃ => ?_
      exact (h₃.follow (frame_adds.value? rhs)).bind fun rhs' t₄ h₄ => h₄.terminate hk _
    | ret value => exact (h.follow (frame_adds.value? value)).bind fun value' t₁ h₁ => h₁.terminate hk _
    | throw value => exact (h.follow (frame_adds.value value)).bind fun value' t₁ h₁ => h₁.terminate hk _
    | _ => exact absurd trivial hplain

open Unpacking in
theorem DefinesOnce.step (h : s.DefinesOnce p k) (hk : k < UInt32.size) {item : Except PackedError InstrView}
    (hitem : p.views[k]? = some item) : Ensures (step p item) s fun _ t => t.DefinesOnce p (k + 1) := by
  refine Ensures.lift_bind ?_
  rintro v rfl
  obtain ⟨hindex, hvalue⟩ := PackedBody.index_of_views hitem
  rw [hindex]
  have hlines : Ensures (passLines k) s fun _ t => t.DefinesOnce p k := Ensures.modify (h.congr rfl rfl rfl)
  refine hlines.bind fun _ t₁ h₁ => (h₁.enterBlock hk).bind fun _ t₂ h₂ => Ensures.lift_bind fun i _ => ?_
  exact h₂.instruction hk hvalue i

/-- Before the first instruction there are names for the arguments only, and nothing is defined. -/
theorem definesOnce_start (p : PackedBody) (method : MethodRef) (isStatic : Bool) (types : List Descriptor) :
    DefinesOnce p 0
      { values := (Body.withArguments method isStatic types).values
        slots := (List.range types.length).map some ++ List.replicate p.instructionCount none
        linesAhead := p.lines } := by
  have hslot (i : Nat) (v : ValueId) (hv : ((List.range types.length).map some ++ List.replicate p.instructionCount none)[i]? =
      some (some v)) : i = v := by
    rcases Nat.lt_or_ge i types.length with hi | hi
    · rw [List.getElem?_append_left (by simpa using hi)] at hv
      simpa [hi] using hv
    · rw [List.getElem?_append_right (by simpa using hi), List.getElem?_replicate] at hv
      split at hv <;> simp at hv
  refine ⟨⟨(tiles_start p method isStatic types).names, fun i j v hi hj => ?_⟩, ?_, ?_, ?_⟩
  · rw [hslot i v hi, hslot j v hj]
  all_goals
    intro a
    simp

theorem definesOnce_of_run (hsize : p.views.length ≤ UInt32.size) {method : MethodRef} {isStatic : Bool} {types : List Descriptor}
    (hrun : (p.views.forM (Unpacking.step p)).run
      { values := (Body.withArguments method isStatic types).values
        slots := (List.range types.length).map some ++ List.replicate p.instructionCount none
        linesAhead := p.lines } = .ok ((), s)) : s.DefinesOnce p p.views.length := by
  refine Unpacking.Ensures.forM (fun k s => s.DefinesOnce p k) (fun k item s hitem h => ?_)
    (definesOnce_start p method isStatic types) () s hrun
  have hk := (List.getElem?_eq_some_iff.1 hitem).1
  exact h.step (by omega) hitem

end Unpacker

theorem PackedBody.flatMap_defs_of_laidOut {starts : List Nat} {drafts : List (Nat × DraftBlock)} {blocks : List Block}
    (h : List.Forall₂ (LaidOut starts) drafts blocks) : blocks.flatMap Block.defs = drafts.flatMap fun x => x.2.defs := by
  induction h with
  | nil => rfl
  | cons hx _ ih => rw [List.flatMap_cons, List.flatMap_cons, ih, Block.defs, DraftBlock.defs, hx.phis, hx.body]

/-- **An unpacked body defines no value twice.** -/
theorem PackedBody.nodup_defs_unpack {p : PackedBody} (hsize : p.views.length ≤ UInt32.size) {method : MethodRef} {isStatic : Bool}
    {types : List Descriptor} {c : Body} (h : p.unpack method isStatic types = .ok c) : (c.blocks.flatMap Block.defs).Nodup := by
  obtain ⟨-, -, s, hrun, hclose⟩ := unpack_eq_ok_iff.1 h
  obtain ⟨-, -, blocks, hblocks, -, rfl, -⟩ := close_eq_ok_iff.1 hclose
  have honce := Unpacker.definesOnce_of_run hsize hrun
  have hlaid := laidOut_of_layoutBlocks hblocks
  have hget (x : Nat × DraftBlock) (hx : x ∈ s.blocks.toList) : s.blocks[x.1]? = some x.2 :=
    TreeMap.mem_toList_iff_getElem?_eq_some.1 hx
  change (blocks.flatMap Block.defs).Nodup
  rw [flatMap_defs_of_laidOut hlaid, List.nodup_flatMap]
  refine ⟨fun x hx => honce.nodup x.1 x.2 (hget x hx), ?_⟩
  have hordered : s.blocks.toList.Pairwise fun x y => x.1 ≠ y.1 :=
    TreeMap.ordered_keys_toList.imp fun {x y} hxy => Nat.ne_of_lt (Nat.compare_eq_lt.1 hxy)
  exact hordered.imp_of_mem fun hx hy hne => honce.apart _ _ _ _ (hget _ hx) (hget _ hy) hne

end DexShrinker
