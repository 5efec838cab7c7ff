/-
  DexShrinker/Proofs/Packed/Calls.lean
  ====================================
  **Unpacking keeps the calls.**

  The calls of an unpacked body, block by block, are the calls of the stream it was read
  from, in the same order (`PackedBody.calls_unpack`): a block holds what stands between its
  start and its end, and the blocks lie behind one another.
-/
import DexShrinker.Proofs.Packed.AnyStream
import DexShrinker.Proofs.Packed.Reading

namespace DexShrinker

open Std

/-- A call as it stands in a body, without its arguments. -/
structure Call where
  kind : InvokeKind
  target : MethodRef
  isInterface : Bool
deriving DecidableEq

def Op.call? : Op → Option Call
  | invoke kind m _ itf => some ⟨kind, m, itf⟩
  | _ => none

def Instr.call? (i : Instr) : Option Call := i.op.call?

/-- The calls of a body, block by block. -/
def Body.calls (c : Body) : List Call := c.blocks.flatMap fun b => b.body.filterMap Instr.call?

namespace PackedBody

def callOf? (p : PackedBody) : PackedInstr → Option Call
  | .invoke kind itf m _ => (p.methodAt m).toOption.map fun target => ⟨kind, target, itf⟩
  | _ => none

/-- The call at an item of the stream. -/
def callAt? (p : PackedBody) (item : Except PackedError InstrView) : Option Call :=
  (item.toOption.bind fun v => v.decode.toOption).bind p.callOf?

/-- The calls of a stream. -/
def calls (p : PackedBody) : List Call := p.views.filterMap p.callAt?

theorem mem_constants_of_mem_calls {p : PackedBody} {x : Call} (h : x ∈ p.calls) : .method x.target ∈ p.constants := by
  obtain ⟨item, -, hx⟩ := List.mem_filterMap.1 h
  obtain ⟨i, -, hi⟩ := Option.bind_eq_some_iff.1 hx
  cases i with
  | invoke kind itf m args =>
    obtain ⟨target, htarget, rfl⟩ := Option.map_eq_some_iff.1 hi
    cases hm : p.methodAt m with
    | ok m' =>
      rw [hm] at htarget
      cases htarget
      exact mem_of_methodAt hm
    | error e =>
      rw [hm] at htarget
      cases htarget
  | _ => cases hi

/-- The calls among `n` instructions from `a` on. -/
def callsIn (p : PackedBody) (a n : Nat) : List Call := ((p.views.drop a).take n).filterMap p.callAt?

variable {p : PackedBody}

theorem callsIn_succ {a n : Nat} {item : Except PackedError InstrView} (h : p.views[a + n]? = some item) :
    p.callsIn a (n + 1) = p.callsIn a n ++ (p.callAt? item).toList := by
  rw [callsIn, List.take_add_one, List.getElem?_drop, h, List.filterMap_append]
  rfl

theorem callsIn_add (a m n : Nat) : p.callsIn a (m + n) = p.callsIn a m ++ p.callsIn (a + m) n := by
  rw [callsIn, List.take_add, List.drop_drop, List.filterMap_append]
  rfl

theorem callAt?_of_hasAt {k : Nat} {i : PackedInstr} (h : p.HasAt k i) :
    ∃ item, p.views[k]? = some item ∧ p.callAt? item = p.callOf? i := by
  obtain ⟨v, hv, -, hdecode⟩ := h
  refine ⟨_, hv, ?_⟩
  rw [callAt?, Except.toOption, Option.bind_some, hdecode]
  rfl

theorem callOf?_of_ends {k : Nat} {i : PackedInstr} {t : Terminator} (h : i.Ends k t) : p.callOf? i = none := by
  cases i with
  | invoke => cases t <;> exact h.elim
  | _ => rfl

/-- Blocks that lie behind one another hold all calls of their part of the stream. -/
theorem flatMap_of_tiling {done : List (Nat × DraftBlock)} {a e : Nat} (h : Tiling a done e)
    (hcut : ∀ x ∈ done, x.2.CutFrom p x.1) : done.flatMap (fun x => p.callsIn x.1 x.2.length) = p.callsIn a (e - a) := by
  induction done generalizing a with
  | nil =>
    obtain rfl : a = e := h
    rw [Nat.sub_self]
    rfl
  | cons x done ih =>
    obtain ⟨rfl, hrest⟩ := h
    obtain ⟨hx, hdone⟩ := List.forall_mem_cons.1 hcut
    obtain ⟨-, t, -, i, -, hat, hends⟩ := hx
    obtain ⟨item, hitem, hcall⟩ := callAt?_of_hasAt hat
    have hsize : e - x.1 = x.2.length + 1 + (e - (x.1 + x.2.length + 1)) := by
      have hle := hrest.le
      omega
    rw [List.flatMap_cons, ih hrest hdone, hsize, callsIn_add, callsIn_succ hitem, hcall, callOf?_of_ends hends,
      Option.toList_none, List.append_nil]
    rfl

end PackedBody

namespace Unpacking

variable {α : Type} {p : PackedBody} {s : Unpacker}

theorem Ensures.trivial (m : Unpacking α) (s : Unpacker) : Ensures m s fun _ _ => True := fun _ _ _ => True.intro

/-- Whatever a step does, what follows is ensured. -/
theorem Ensures.skip {β : Type} {m : Unpacking α} {f : α → Unpacking β} {Q : β → Unpacker → Prop} (h : ∀ a t, Ensures (f a) t Q) :
    Ensures (m >>= f) s Q :=
  (Ensures.trivial m s).bind fun a t _ => h a t

/-- An operation is a call exactly if its instruction is, and then the same one. -/
theorem call?_of_operation (i : PackedInstr) (s : Unpacker) : Ensures (operation p i) s fun r _ => r.1.call? = p.callOf? i := by
  cases i with
  | invoke kind itf m args =>
    refine Ensures.lift_bind fun m hm => Ensures.skip fun args t => Ensures.pure ?_
    rw [PackedBody.callOf?, hm]
    rfl
  | loadConstant c =>
    refine Ensures.lift_bind fun k _ => ?_
    cases k with
    | string | type | handle | proto => exact Ensures.pure rfl
    | field | method | callSite => exact Ensures.throw _
  | newInstance t | newUnboxedEnum t ordinal | staticGet f => exact Ensures.lift_bind fun t _ => Ensures.pure rfl
  | newArray t size | checkCast t v | instanceOf t v | staticPut f v | instanceGet f object =>
    exact Ensures.lift_bind fun t _ => Ensures.skip fun v _ => Ensures.pure rfl
  | arrayGet t array index | instancePut f object v =>
    exact Ensures.lift_bind fun t _ => Ensures.skip fun v _ => Ensures.skip fun w _ => Ensures.pure rfl
  | arrayPut array index v =>
    exact Ensures.skip fun v _ => Ensures.skip fun w _ => Ensures.skip fun x _ => Ensures.pure rfl
  | arrayLength array => exact Ensures.skip fun v _ => Ensures.pure rfl
  | invokeCustom site args =>
    refine Ensures.lift_bind fun k _ => ?_
    cases k with
    | callSite site => exact Ensures.skip fun vs _ => Ensures.pure rfl
    | _ => exact Ensures.throw _
  | binary op type lhs rhs =>
    cases type with
    | int | long => exact Ensures.skip fun v _ => Ensures.skip fun w _ => Ensures.pure rfl
  | _ => exact Ensures.pure rfl

end Unpacking

namespace Unpacker

variable {p : PackedBody} {types : List Descriptor} {done : List (Nat × DraftBlock)} {a k n : Nat} {s t : Unpacker}

/-- Each block holds the calls that stand in its part of the stream. -/
def HoldsCalls (p : PackedBody) (s : Unpacker) : Prop :=
  ∀ (a : Nat) (d : DraftBlock), s.blocks[a]? = some d → d.body.filterMap Instr.call? = p.callsIn a d.length

theorem HoldsCalls.congr (h : s.HoldsCalls p) (hblocks : t.blocks = s.blocks) : t.HoldsCalls p := by
  intro a d hd
  rw [hblocks] at hd
  exact h a d hd

theorem HoldsCalls.openBlock (h : s.HoldsCalls p) (a : Nat) :
    Unpacking.Ensures (Unpacking.openBlock a) s fun _ t => t.HoldsCalls p := by
  refine Unpacking.Ensures.modify ?_
  split
  · exact h
  · intro b d hd
    rcases getElem?_insert_iff.1 hd with ⟨-, rfl⟩ | ⟨-, hold⟩
    · rfl
    · exact h b d hold

theorem HoldsCalls.openTarget (h : s.HoldsCalls p) (count a : Nat) :
    Unpacking.Ensures (Unpacking.openTarget count a) s fun _ t => t.HoldsCalls p := by
  unfold Unpacking.openTarget
  split
  · exact Unpacking.Ensures.throw _
  · exact h.openBlock a

theorem HoldsCalls.enterBlock (h : s.HoldsCalls p) (k : Nat) :
    Unpacking.Ensures (Unpacking.enterBlock k) s fun _ t => t.HoldsCalls p := by
  unfold Unpacking.enterBlock
  refine Unpacking.Ensures.get_bind ?_
  split
  · exact HoldsCalls.openBlock (s := { s with current := some k }) h k
  · split
    · exact Unpacking.Ensures.throw _
    · exact Unpacking.Ensures.pure h

/-- The reader is in the block that starts at `a`, before instruction `k`. -/
structure Within (p : PackedBody) (types : List Descriptor) (done : List (Nat × DraftBlock)) (a k : Nat) (s : Unpacker) : Prop where
  tiles : s.Tiles p types done k
  current : s.current = some a
  calls : s.HoldsCalls p

/-- An instruction adds its call to the block being read. -/
theorem Within.onCurrent (h : s.Within p types done a k) {item : Except PackedError InstrView} (hitem : p.views[k]? = some item)
    {f : DraftBlock → DraftBlock} (hlength : ∀ d, (f d).length = d.length + 1)
    (hcalls : ∀ d, (f d).body.filterMap Instr.call? = d.body.filterMap Instr.call? ++ (p.callAt? item).toList) :
    Unpacking.Ensures (Unpacking.onCurrent f) s fun _ t => t.HoldsCalls p := by
  obtain ⟨d, hd, -, hstart, -⟩ := h.tiles.reading a h.current
  intro _ t hrun
  rw [run_onCurrent h.current hd] at hrun
  cases hrun
  intro b e he
  rcases getElem?_insert_iff.1 he with ⟨rfl, rfl⟩ | ⟨-, hold⟩
  · rw [hlength, hcalls, h.calls a d hd, PackedBody.callsIn_succ (hstart ▸ hitem)]
  · exact h.calls b e hold

theorem Within.terminate (h : s.Within p types done a k) (e : Terminator) :
    Unpacking.Ensures (Unpacking.terminate e) s fun _ t => t.HoldsCalls p := by
  obtain ⟨d, hd, -, -, -⟩ := h.tiles.reading a h.current
  intro _ t hrun
  rw [run_terminate h.current hd] at hrun
  cases hrun
  intro b d' hd'
  rcases getElem?_insert_iff.1 hd' with ⟨rfl, rfl⟩ | ⟨-, hold⟩
  · exact h.calls a d hd
  · exact h.calls b d' hold

theorem Within.openTarget (h : s.Within p types done a k) (count b : Nat) :
    Unpacking.Ensures (Unpacking.openTarget count b) s fun _ t => t.Within p types done a k := by
  intro _ t hrun
  obtain ⟨htiles, -, hcurrent⟩ := h.tiles.openTarget count b _ t hrun
  exact ⟨htiles, hcurrent.trans h.current, h.calls.openTarget count b _ t hrun⟩

open Unpacking in
/-- Naming values leads nowhere else. -/
theorem Within.follow {α : Type} (h : s.Within p types done a k)
    (hn : p.argumentCount + p.views.length ≤ UInt32.size → types.length ≤ n) {known : List ValueId}
    (hknown : ∀ v ∈ known, v < s.values.length) {m : Unpacking α} {ids : α → List ValueId} (hm : Places n known m ids) :
    Ensures m s fun r t => t.Within p types done a k ∧ ∀ v ∈ ids r ++ known, v < t.values.length := by
  intro r t hrun
  obtain ⟨htiles, hcurrent, hids⟩ := h.tiles.follow hn hknown hm r t hrun
  obtain ⟨-, hwidens, -⟩ := hm s h.tiles.names hknown r t hrun
  exact ⟨⟨htiles, hcurrent.trans h.current, h.calls.congr hwidens.blocks⟩, hids⟩

open Unpacking in
theorem Within.follow_value? (h : s.Within p types done a k)
    (hn : p.argumentCount + p.views.length ≤ UInt32.size → types.length ≤ n) (i : Option Nat) :
    Ensures (i.mapM value) s fun _ t => t.Within p types done a k := by
  cases i with
  | none => exact Ensures.pure h
  | some i =>
    change Ensures (value i >>= fun v => Pure.pure (some v)) s _
    exact (h.follow hn (by simp : ∀ v ∈ [], v < s.values.length) (places_value i)).bind fun v t ht => Ensures.pure ht.1

open Unpacking in
/-- **One instruction.** -/
theorem Within.instruction (h : s.Within p types done a k) {v : InstrView} (hv : p.views[k]? = some (.ok v))
    (hn : p.argumentCount + p.views.length ≤ UInt32.size → types.length ≤ v.valueIndex) {i : PackedInstr} (hi : v.decode = .ok i) :
    Ensures (instruction p v i) s fun _ t => t.HoldsCalls p := by
  have hnil (s : Unpacker) : ∀ w ∈ ([] : List ValueId), w < s.values.length := by simp
  have hcall : p.callAt? (.ok v) = p.callOf? i := by
    rw [PackedBody.callAt?, Except.toOption, Option.bind_some, hi]
    rfl
  by_cases hplain : IsPlain i
  · rw [instruction_plain hplain]
    have hoperation : Ensures (operation p i) s fun r t => (t.Within p types done a k ∧ ∀ w ∈ r.1.reads ++ [], w < t.values.length) ∧
        r.1.call? = p.callOf? i := fun r t hrun =>
      ⟨h.follow hn (hnil s) (places_operation p i) r t hrun, call?_of_operation i s r t hrun⟩
    refine hoperation.bind ?_
    rintro ⟨op, result⟩ t₁ ⟨⟨h₁, hreads⟩, hop⟩
    refine (h₁.follow hn hreads (places_result result)).bind ?_
    rintro dest t₂ ⟨h₂, -⟩
    refine Ensures.get_bind (h₂.onCurrent hv (fun d => ?_) fun d => ?_)
    · simp [DraftBlock.length, Nat.add_assoc]
    · rw [hcall, ← hop, List.filterMap_append]
      cases hop' : op.call? <;> simp [Instr.call?, hop']
  · cases i with
    | phi type operands =>
      refine Ensures.lift_bind fun type _ => ?_
      refine (h.follow hn (hnil s) (places_define type .phi)).bind ?_
      rintro dest t₁ ⟨h₁, hdest⟩
      refine (h₁.follow hn hdest (places_values operands)).bind ?_
      rintro operands t₂ ⟨h₂, -⟩
      refine h₂.onCurrent hv (fun d => ?_) fun d => ?_
      · simp [DraftBlock.length]
        omega
      · rw [hcall]
        exact (List.append_nil _).symm
    | goto target =>
      exact (h.openTarget _ target).bind fun _ t₁ h₁ => h₁.terminate _
    | «fallthrough» =>
      exact (h.openTarget _ (v.index + 1)).bind fun _ t₁ h₁ => h₁.terminate _
    | branch kind type target lhs rhs =>
      refine (h.openTarget _ target).bind fun _ t₁ h₁ => (h₁.openTarget _ (v.index + 1)).bind fun _ t₂ h₂ => ?_
      refine (h₂.follow hn (hnil t₂) (places_value lhs)).bind fun lhs' t₃ h₃ => ?_
      exact (h₃.1.follow_value? hn rhs).bind fun rhs' t₄ h₄ => h₄.terminate _
    | ret value =>
      exact (h.follow_value? hn value).bind fun value' t₁ h₁ => h₁.terminate _
    | throw value =>
      exact (h.follow hn (hnil s) (places_value value)).bind fun value' t₁ h₁ => h₁.1.terminate _
    | _ => exact absurd trivial hplain

open Unpacking in
theorem HoldsCalls.step (h : s.HoldsCalls p) (htiles : s.Tiles p types done k) (htypes : types.length = p.argumentCount)
    {item : Except PackedError InstrView} (hitem : p.views[k]? = some item) :
    Ensures (step p item) s fun _ t => t.HoldsCalls p := by
  refine Ensures.lift_bind ?_
  rintro v rfl
  obtain ⟨hindex, hvalue⟩ := PackedBody.index_of_views hitem
  rw [hindex]
  have hlines : Ensures (passLines k) s fun _ t => t.Tiles p types done k ∧ t.HoldsCalls p := fun _ t hrun =>
    ⟨htiles.passLines k _ t hrun, Ensures.modify (Q := fun _ t => t.HoldsCalls p) h _ t hrun⟩
  refine hlines.bind fun _ t₁ ⟨h₁, hcalls₁⟩ => ?_
  have henter : Ensures (Unpacking.enterBlock k) t₁ fun _ t => ∃ a, t.Within p types done a k := by
    intro _ t hrun
    obtain ⟨ht, a, hcurrent⟩ := h₁.enterBlock _ t hrun
    exact ⟨a, ht, hcurrent, hcalls₁.enterBlock k _ t hrun⟩
  refine henter.bind fun _ t₂ ⟨a, h₂⟩ => Ensures.lift_bind fun i hdecode => ?_
  refine h₂.instruction hitem (fun hsize => ?_) hdecode
  have hk := (List.getElem?_eq_some_iff.1 hitem).1
  rw [hvalue, valueIndexOf, Nat.mod_eq_of_lt (by omega)]
  omega

/-- **The whole stream.** -/
theorem holdsCalls_of_run (htypes : types.length = p.argumentCount) {method : MethodRef} {isStatic : Bool}
    (hrun : (p.views.forM (Unpacking.step p)).run
      { values := (Body.withArguments method isStatic types).values
        slots := (List.range types.length).map some ++ List.replicate p.instructionCount none
        linesAhead := p.lines } = .ok ((), s)) :
    ∃ done, s.Tiles p types done p.views.length ∧ s.HoldsCalls p := by
  have hstart : HoldsCalls p
      { values := (Body.withArguments method isStatic types).values
        slots := (List.range types.length).map some ++ List.replicate p.instructionCount none
        linesAhead := p.lines } := by
    intro a d hd
    simp at hd
  refine Unpacking.Ensures.forM (fun k s => ∃ done, s.Tiles p types done k ∧ s.HoldsCalls p) ?_
    ⟨[], tiles_start p method isStatic types, hstart⟩ () s hrun
  rintro k item s hitem ⟨done, h, hcalls⟩ _ t hstep
  obtain ⟨done', h'⟩ := h.step htypes hitem _ t hstep
  exact ⟨done', h', hcalls.step h htypes hitem _ t hstep⟩

end Unpacker

/-- **Unpacking keeps the calls**, in the order of the stream. -/
theorem PackedBody.calls_unpack {p : PackedBody} {method : MethodRef} {isStatic : Bool} {types : List Descriptor} {c : Body}
    (h : p.unpack method isStatic types = .ok c) : c.calls = p.calls := by
  obtain ⟨htypes, -, s, hrun, hclose⟩ := unpack_eq_ok_iff.1 h
  obtain ⟨hcurrent, -, blocks, hblocks, -, rfl, -⟩ := close_eq_ok_iff.1 hclose
  obtain ⟨done, htiles, hcalls⟩ := Unpacker.holdsCalls_of_run htypes hrun
  have hlaid := laidOut_of_layoutBlocks hblocks
  have hdone : s.blocks.toList = done := htiles.toList_eq fun x hx => by
    obtain ⟨block, -, hblock⟩ := exists_of_mem_left hlaid hx
    obtain ⟨t, line, hterm, -⟩ := hblock.terminator
    simp [hterm]
  have htiling := htiles.tiling
  rw [hcurrent, Option.getD_none] at htiling
  have hbodies : blocks.map Block.body = done.map fun x => x.2.body := by
    rw [hdone] at hlaid
    generalize done.map Prod.fst = starts at hlaid
    clear * - hlaid
    induction hlaid with
    | nil => rfl
    | cons hx _ ih => rw [List.map_cons, List.map_cons, ih, hx.body]
  calc Body.calls _ = (blocks.map Block.body).flatMap (List.filterMap Instr.call?) := by rw [List.flatMap_map]; rfl
    _ = done.flatMap fun x => x.2.body.filterMap Instr.call? := by rw [hbodies, List.flatMap_map]
    _ = done.flatMap fun x => p.callsIn x.1 x.2.length := by
      refine List.flatMap_congr fun x hx => hcalls x.1 x.2 ?_
      rw [← hdone] at hx
      exact TreeMap.mem_toList_iff_getElem?_eq_some.1 hx
    _ = p.callsIn 0 p.views.length := flatMap_of_tiling htiling htiles.cut
    _ = p.calls := by rw [callsIn, List.drop_zero, List.take_length, calls]

end DexShrinker
