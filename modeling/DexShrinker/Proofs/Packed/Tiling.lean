/-
  DexShrinker/Proofs/Packed/Tiling.lean
  =====================================
  **How the blocks of a stream lie behind one another.**

  Nothing is assumed of the stream. Whatever an instruction mentions has a place among the values
  from then on, and the places and types of the arguments stay as they are unless the value index
  of an instruction runs into theirs (`Unpacking.Places`). `Unpacking.Ensures m s Q` says that the
  step `m` ends as `Q` demands if it succeeds from `s`.

  While a stream is read, the blocks that have ended tile the instructions read so far, in the
  order in which they were read (`Unpacker.Tiles`). A start in the middle of a block, whether it
  lies ahead or behind, gets a block that stays empty and never ends.
-/
import DexShrinker.Proofs.Packed.Lockstep

namespace DexShrinker

open Std

/-! ### Steps that may fail -/

namespace Unpacking

/-- Where the step succeeds from `s`, its answer and the state after it satisfy `Q`. -/
def Ensures {α : Type} (m : Unpacking α) (s : Unpacker) (Q : α → Unpacker → Prop) : Prop :=
  ∀ a t, m.run s = .ok (a, t) → Q a t

variable {α β : Type} {m : Unpacking α} {s : Unpacker}

theorem Ensures.bind {f : α → Unpacking β} {Q : α → Unpacker → Prop} {R : β → Unpacker → Prop} (h : Ensures m s Q)
    (hnext : ∀ a t, Q a t → Ensures (f a) t R) : Ensures (m >>= f) s R := by
  intro b u hrun
  rw [StateT.run_bind] at hrun
  obtain ⟨⟨a, t⟩, hm, hf⟩ := bind_eq_ok.1 hrun
  exact hnext a t (h a t hm) b u hf

theorem Ensures.pure {Q : α → Unpacker → Prop} {a : α} (h : Q a s) : Ensures (Pure.pure a) s Q := by
  intro b t hrun
  cases hrun
  exact h

theorem Ensures.modify {Q : Unit → Unpacker → Prop} {f : Unpacker → Unpacker} (h : Q () (f s)) :
    Ensures (modify f : Unpacking Unit) s Q := by
  intro b t hrun
  cases hrun
  exact h

theorem Ensures.throw {Q : α → Unpacker → Prop} (e : PackedError) : Ensures (throw e : Unpacking α) s Q := by
  intro b t hrun
  cases hrun

/-- A step that begins by looking at the state. -/
theorem Ensures.get_bind {f : Unpacker → Unpacking β} {R : β → Unpacker → Prop} (h : Ensures (f s) s R) :
    Ensures (get >>= f) s R := h

/-- A step that begins with a computation beside the state. -/
theorem Ensures.lift_bind {x : Except PackedError α} {f : α → Unpacking β} {R : β → Unpacker → Prop}
    (h : ∀ a, x = .ok a → Ensures (f a) s R) : Ensures (liftM x >>= f) s R := by
  cases x with
  | error e => exact Ensures.throw e
  | ok a => exact h a rfl

/-- A run over a list, from what each item does to the invariant of its position. -/
theorem Ensures.forM {items : List α} {f : α → Unpacking Unit} (I : Nat → Unpacker → Prop)
    (hstep : ∀ k item s, items[k]? = some item → I k s → Ensures (f item) s fun _ => I (k + 1)) (hs : I 0 s) :
    Ensures (items.forM f) s fun _ => I items.length := by
  induction items generalizing s I with
  | nil => exact Ensures.pure hs
  | cons item items ih =>
    change Ensures (f item >>= fun _ => items.forM f) s _
    refine (hstep 0 item s rfl hs).bind fun _ t ht => ?_
    exact ih (fun k => I (k + 1)) (fun k item s hk => hstep (k + 1) item s hk) ht

end Unpacking

/-! ### Values -/

namespace Unpacker

/-- Every name is the name of a value. -/
def NamesInRange (s : Unpacker) : Prop := ∀ (i : Nat) (v : ValueId), s.slots[i]? = some (some v) → v < s.values.length

/-- The first names and the first values are those of the arguments, and of nothing else. -/
structure HasArguments (types : List Descriptor) (s : Unpacker) : Prop where
  slots : ∀ i < types.length, s.slots[i]? = some (some i)
  others : ∀ (i : Nat) (v : ValueId), types.length ≤ i → s.slots[i]? = some (some v) → types.length ≤ v
  values : ∀ (i : Nat) (t : Descriptor), types[i]? = some t → s.values[i]? = some ⟨t, .argument i⟩

/-- From `s` to `t` values are named, and none is defined but that of index `n`. -/
structure Widens (n : Nat) (s t : Unpacker) : Prop where
  length : s.values.length ≤ t.values.length
  arguments : ∀ types : List Descriptor, types.length ≤ n → s.HasArguments types → t.HasArguments types
  blocks : t.blocks = s.blocks
  current : t.current = s.current

variable {n : Nat} {s t u : Unpacker}

theorem Widens.refl (n : Nat) (s : Unpacker) : Widens n s s := ⟨Nat.le_refl _, fun _ _ h => h, rfl, rfl⟩

theorem Widens.trans (h : Widens n s t) (h' : Widens n t u) : Widens n s u :=
  ⟨Nat.le_trans h.length h'.length, fun types hn hs => h'.arguments types hn (h.arguments types hn hs),
    h'.blocks.trans h.blocks, h'.current.trans h.current⟩

theorem HasArguments.length_le {types : List Descriptor} (h : s.HasArguments types) : types.length ≤ s.values.length := by
  rcases Nat.eq_zero_or_pos types.length with hzero | hpos
  · omega
  · have hlast := h.values (types.length - 1) _ (List.getElem?_eq_getElem (by omega))
    have hlt := (List.getElem?_eq_some_iff.1 hlast).1
    omega

theorem HasArguments.congr {types : List Descriptor} (h : s.HasArguments types) (hslots : t.slots = s.slots)
    (hvalues : t.values = s.values) : t.HasArguments types :=
  ⟨hslots ▸ h.slots, hslots ▸ h.others, hvalues ▸ h.values⟩

end Unpacker

namespace Unpacking

open Unpacker (NamesInRange HasArguments Widens)

/-- Beside the values in `known`, those that `ids` finds in the answer have a place after the step; no value
    is defined but that of index `n`. -/
def Places {α : Type} (n : Nat) (known : List ValueId) (m : Unpacking α) (ids : α → List ValueId) : Prop :=
  ∀ s, s.NamesInRange → (∀ v ∈ known, v < s.values.length) →
    Ensures m s fun a t => t.NamesInRange ∧ Widens n s t ∧ ∀ v ∈ ids a, v < t.values.length

variable {α β : Type} {n : Nat} {known : List ValueId} {m : Unpacking α} {ids : α → List ValueId}

theorem Places.pure {a : α} (h : ∀ v ∈ ids a, v ∈ known) : Places n known (Pure.pure a) ids :=
  fun s hs hknown => Ensures.pure ⟨hs, Widens.refl n s, fun v hv => hknown v (h v hv)⟩

theorem Places.throw (e : PackedError) : Places n known (throw e : Unpacking α) ids := fun _ _ _ => Ensures.throw e

theorem Places.bind {f : α → Unpacking β} {ids' : β → List ValueId} (h : Places n known m ids)
    (hnext : ∀ a, Places n (ids a ++ known) (f a) ids') : Places n known (m >>= f) ids' := by
  intro s hs hknown
  refine (h s hs hknown).bind fun a t ⟨ht, hwidens, hids⟩ => ?_
  have hall : ∀ v ∈ ids a ++ known, v < t.values.length := fun v hv => (List.mem_append.1 hv).elim (hids v) fun hv =>
    Nat.lt_of_lt_of_le (hknown v hv) hwidens.length
  intro b u hrun
  obtain ⟨hu, hwidens', hids'⟩ := hnext a t ht hall b u hrun
  exact ⟨hu, hwidens.trans hwidens', hids'⟩

theorem Places.lift_bind {x : Except PackedError α} {f : α → Unpacking β} {ids' : β → List ValueId}
    (h : ∀ a, Places n known (f a) ids') : Places n known (liftM x >>= f) ids' :=
  fun s hs hknown => Ensures.lift_bind fun a _ => h a s hs hknown

/-- Mentioning a value gives it a place, behind those of the arguments if it is new. -/
theorem ensures_value (n i : Nat) {s : Unpacker} (hs : s.NamesInRange) :
    Ensures (value i) s fun v t => t.NamesInRange ∧ Widens n s t ∧ t.slots[i]? = some (some v) := by
  unfold value
  refine Ensures.get_bind ?_
  split
  · exact Ensures.throw _
  · next v hslot => exact Ensures.pure ⟨hs, Widens.refl n s, hslot⟩
  · next hslot =>
    have hi := (List.getElem?_eq_some_iff.1 hslot).1
    have hget (k : Nat) (v : ValueId) (hk : (s.slots.set i (some s.values.length))[k]? = some (some v)) :
        v = s.values.length ∧ i = k ∨ s.slots[k]? = some (some v) := by
      rw [List.getElem?_set] at hk
      split at hk
      · next heq =>
        exact .inl ⟨by simpa using hk.symm, heq⟩
      · exact .inr hk
    intro v t hrun
    cases hrun
    refine ⟨fun k v hk => ?_, ⟨by simp, fun types hn hargs => ?_, rfl, rfl⟩, List.getElem?_set_self hi⟩
    · rw [List.length_append, List.length_singleton]
      rcases hget k v hk with ⟨rfl, -⟩ | hold
      · exact Nat.lt_succ_self _
      · exact Nat.lt_succ_of_lt (hs k v hold)
    · have hle := hargs.length_le
      refine ⟨fun k hk => ?_, fun k v hk hslot' => ?_, fun k t ht => ?_⟩
      · have hne : i ≠ k := by
          rintro rfl
          rw [hargs.slots i hk] at hslot
          cases hslot
        exact (List.getElem?_set_ne hne).trans (hargs.slots k hk)
      · rcases hget k v hslot' with ⟨rfl, -⟩ | hold
        · exact hle
        · exact hargs.others k v hk hold
      · have hvalue := hargs.values k t ht
        exact (List.getElem?_append_left (List.getElem?_eq_some_iff.1 hvalue).1).trans hvalue

theorem places_value (i : Nat) : Places n known (value i) fun v => [v] := by
  intro s hs _ v t hrun
  obtain ⟨ht, hwidens, hslot⟩ := ensures_value n i hs v t hrun
  exact ⟨ht, hwidens, by simpa using ht i v hslot⟩

theorem places_define (type : Descriptor) (origin : Origin) : Places n known (define n type origin) fun v => [v] := by
  intro s hs _
  refine (ensures_value n n hs).bind fun v t ⟨ht, hwidens, hslot⟩ => ?_
  intro w u hrun
  cases hrun
  refine ⟨fun k v hk => ?_, ⟨?_, fun types hn hargs => ?_, hwidens.blocks, hwidens.current⟩, ?_⟩
  · rw [List.length_set]
    exact ht k v hk
  · rw [List.length_set]
    exact hwidens.length
  · have hargs' := hwidens.arguments types hn hargs
    refine ⟨hargs'.slots, hargs'.others, fun k t' ht' => ?_⟩
    have hlt := (List.getElem?_eq_some_iff.1 ht').1
    -- The index is not that of an argument, so neither is the value.
    have hv := hargs'.others n v hn hslot
    exact (List.getElem?_set_ne (by omega)).trans (hargs'.values k t' ht')
  · simpa using ht n v hslot

theorem places_values (is : List Nat) : Places n known (is.mapM value) id := by
  induction is generalizing known with
  | nil => exact Places.pure (by simp)
  | cons i is ih =>
    rw [List.mapM_cons]
    exact (places_value i).bind fun v => ih.bind fun vs => Places.pure (by simp; tauto)

/-- **The operands of an operation** have a place. -/
theorem places_operation (p : PackedBody) (i : PackedInstr) : Places n known (operation p i) fun r => r.1.reads := by
  cases i with
  | loadConstant c =>
    refine Places.lift_bind fun k => ?_
    cases k with
    | string | type | handle | proto => exact Places.pure (by simp [Op.reads])
    | field | method | callSite => exact Places.throw _
  | newInstance t | newUnboxedEnum t ordinal | staticGet f => exact Places.lift_bind fun t => Places.pure (by simp [Op.reads])
  | newArray t size | checkCast t v | instanceOf t v | staticPut f v | instanceGet f object =>
    exact Places.lift_bind fun t => (places_value _).bind fun v => Places.pure (by simp [Op.reads])
  | arrayGet t array index | instancePut f object v =>
    exact Places.lift_bind fun t => (places_value _).bind fun v => (places_value _).bind fun w => Places.pure (by simp [Op.reads])
  | arrayPut array index v =>
    exact (places_value _).bind fun v => (places_value _).bind fun w => (places_value _).bind fun x => Places.pure (by simp [Op.reads])
  | arrayLength array => exact (places_value _).bind fun v => Places.pure (by simp [Op.reads])
  | invoke kind itf m args =>
    refine Places.lift_bind fun m => (places_values args).bind fun vs => Places.pure fun v hv => ?_
    exact List.mem_append_left _ hv
  | invokeCustom site args =>
    refine Places.lift_bind fun k => ?_
    cases k with
    | callSite site => exact (places_values args).bind fun vs => Places.pure fun v hv => List.mem_append_left _ hv
    | _ => exact Places.throw _
  | binary op type lhs rhs =>
    cases type with
    | int | long => exact (places_value _).bind fun v => (places_value _).bind fun w => Places.pure (by simp [Op.reads])
  | _ => exact Places.pure (by simp [Op.reads])

/-- The result of an operation, if it has one. -/
theorem places_result (result : Option Descriptor) :
    Places n known (result.mapM fun t => define n t .instruction) fun dest => dest.toList ++ known := by
  cases result with
  | none => exact Places.pure (by simp)
  | some t =>
    change Places n known (define n t .instruction >>= fun v => Pure.pure (some v)) _
    exact (places_define t .instruction).bind fun v => Places.pure (by simp)

end Unpacking

/-! ### Blocks in the stream -/

/-- The stream has instruction `i` at index `k`. -/
def PackedBody.HasAt (p : PackedBody) (k : Nat) (i : PackedInstr) : Prop :=
  ∃ v : InstrView, p.views[k]? = some (.ok v) ∧ v.index = k ∧ v.decode = .ok i

/-- No block ends between instructions `a` and `b`. -/
def PackedBody.RunsOn (p : PackedBody) (a b : Nat) : Prop :=
  ∀ k, a ≤ k → k < b → ∃ i, p.HasAt k i ∧ i.isTerminator = false

/-- At index `k` the instruction stands for the terminator, whose targets are block starts. -/
def PackedInstr.Ends (k : Nat) : PackedInstr → Terminator → Prop
  | .goto target, .goto start => start = target
  | .fallthrough, .goto start => start = k + 1
  | .branch kind type target _ rhs, .branch kind' type' _ rhs' start =>
    kind' = kind ∧ type' = type ∧ rhs'.isSome = rhs.isSome ∧ start = target
  | .ret value, .ret value' => value'.isSome = value.isSome
  | .throw _, .throw _ => True
  | _, _ => False

theorem index_of_scanBytes {argc offset index : Nat} {bytes : List UInt8} {k : Nat} {v : InstrView}
    (hv : (scanBytes argc offset index bytes)[k]? = some (.ok v)) :
    v.index = index + k ∧ v.valueIndex = valueIndexOf argc (index + k) := by
  fun_induction scanBytes argc offset index bytes generalizing k with
  | case1 => cases hv
  | case2 offset index op rest hone ih =>
    cases k with
    | zero =>
      cases hv
      exact ⟨rfl, rfl⟩
    | succ k =>
      rw [Nat.add_comm k 1, ← Nat.add_assoc]
      exact ih hv
  | case3 | case4 =>
    cases k with
    | zero => cases hv
    | succ k => cases hv
  | case5 offset index op hop len tail hlen ih =>
    cases k with
    | zero =>
      cases hv
      exact ⟨rfl, rfl⟩
    | succ k =>
      rw [Nat.add_comm k 1, ← Nat.add_assoc]
      exact ih hv

theorem PackedBody.index_of_views {p : PackedBody} {k : Nat} {v : InstrView} (h : p.views[k]? = some (.ok v)) :
    v.index = k ∧ v.valueIndex = valueIndexOf p.argumentCount k := by
  simpa using index_of_scanBytes h

namespace DraftBlock

/-- The number of instructions before the terminator. -/
def length (d : DraftBlock) : Nat := d.phis.length + d.body.length

/-- The values that a draft reads or defines. -/
def mentions (d : DraftBlock) : List ValueId :=
  d.phis.flatMap (fun x => x.dest :: x.operands) ++ d.body.flatMap (fun i => i.dest.toList ++ i.op.reads) ++
    d.terminator.toList.flatMap (fun t => t.1.reads)

/-- The block has ended, and it was read from instruction `a` on. -/
def CutFrom (p : PackedBody) (a : Nat) (d : DraftBlock) : Prop :=
  p.RunsOn a (a + d.length) ∧ ∃ t line i, d.terminator = some (t, line) ∧ p.HasAt (a + d.length) i ∧ i.Ends (a + d.length) t

end DraftBlock

/-- The blocks lie one behind the other from instruction `a` up to instruction `b`. -/
def Tiling : Nat → List (Nat × DraftBlock) → Nat → Prop
  | a, [], b => a = b
  | a, x :: xs, b => x.1 = a ∧ Tiling (a + x.2.length + 1) xs b

theorem Tiling.snoc {a b : Nat} {xs : List (Nat × DraftBlock)} (h : Tiling a xs b) (d : DraftBlock) :
    Tiling a (xs ++ [(b, d)]) (b + d.length + 1) := by
  induction xs generalizing a with
  | nil =>
    obtain rfl : a = b := h
    exact ⟨rfl, rfl⟩
  | cons x xs ih => exact ⟨h.1, ih h.2⟩

theorem Tiling.le {a b : Nat} {xs : List (Nat × DraftBlock)} (h : Tiling a xs b) : a ≤ b := by
  induction xs generalizing a with
  | nil => exact Nat.le_of_eq h
  | cons x xs ih =>
    have hrest := ih h.2
    omega

theorem Tiling.bounds {a b : Nat} {xs : List (Nat × DraftBlock)} (h : Tiling a xs b) {x : Nat × DraftBlock} (hx : x ∈ xs) :
    a ≤ x.1 ∧ x.1 + x.2.length < b := by
  induction xs generalizing a with
  | nil => cases hx
  | cons y xs ih =>
    obtain ⟨rfl, hrest⟩ := h
    rcases List.mem_cons.1 hx with rfl | hx
    · have hle := hrest.le
      omega
    · have hbounds := ih hrest hx
      omega

theorem Tiling.pairwise {a b : Nat} {xs : List (Nat × DraftBlock)} (h : Tiling a xs b) : xs.Pairwise (fun x y => x.1 < y.1) := by
  induction xs generalizing a with
  | nil => exact .nil
  | cons x xs ih =>
    obtain ⟨rfl, hrest⟩ := h
    refine .cons (fun y hy => ?_) (ih hrest)
    have hbounds := hrest.bounds hy
    omega

namespace Unpacker

variable {p : PackedBody} {types : List Descriptor} {done : List (Nat × DraftBlock)} {a k n : Nat} {s t : Unpacker}

/-- **What is known after `k` instructions.** The blocks in `done` have ended, in this order. -/
structure Tiles (p : PackedBody) (types : List Descriptor) (done : List (Nat × DraftBlock)) (k : Nat) (s : Unpacker) : Prop where
  length : types.length ≤ s.values.length
  names : s.NamesInRange
  mentions : ∀ (a : Nat) (d : DraftBlock), s.blocks[a]? = some d → ∀ v ∈ d.mentions, v < s.values.length
  arguments : p.argumentCount + p.views.length ≤ UInt32.size → s.HasArguments types
  tiling : Tiling 0 done (s.current.getD k)
  cut : ∀ x ∈ done, x.2.CutFrom p x.1
  ended : ∀ (a : Nat) (d : DraftBlock), d.terminator.isSome → (s.blocks[a]? = some d ↔ (a, d) ∈ done)
  ahead : ∀ (a : Nat) (d : DraftBlock), s.blocks[a]? = some d → d.terminator = none → s.current ≠ some a → d.length = 0
  reading : ∀ a, s.current = some a → ∃ d, s.blocks[a]? = some d ∧ d.terminator = none ∧ a + d.length = k ∧ p.RunsOn a k

/-- Naming values changes nothing about blocks. -/
theorem Tiles.widen (h : s.Tiles p types done k) (ht : t.NamesInRange) (hwidens : Widens n s t)
    (hn : p.argumentCount + p.views.length ≤ UInt32.size → types.length ≤ n) : t.Tiles p types done k where
  length := Nat.le_trans h.length hwidens.length
  names := ht
  mentions a d hd v hv := by
    rw [hwidens.blocks] at hd
    exact Nat.lt_of_lt_of_le (h.mentions a d hd v hv) hwidens.length
  arguments hsize := hwidens.arguments types (hn hsize) (h.arguments hsize)
  tiling := by rw [hwidens.current]; exact h.tiling
  cut := h.cut
  ended a d hd := by rw [hwidens.blocks]; exact h.ended a d hd
  ahead a d := by rw [hwidens.blocks, hwidens.current]; exact h.ahead a d
  reading a := by rw [hwidens.blocks, hwidens.current]; exact h.reading a

/-- A start that was not known gets an empty block. -/
theorem Tiles.insert_empty (h : s.Tiles p types done k) (hnew : s.blocks[a]? = none) :
    Tiles p types done k { s with blocks := s.blocks.insert a {} } := by
  have hget (b : Nat) (d : DraftBlock) : (s.blocks.insert a {})[b]? = some d ↔ (a = b ∧ {} = d) ∨ s.blocks[b]? = some d := by
    rw [TreeMap.getElem?_insert]
    by_cases hab : a = b
    · subst hab
      simp [hnew]
    · simp [hab]
  refine ⟨h.length, h.names, fun b d hd => ?_, fun hsize => (h.arguments hsize).congr rfl rfl, h.tiling, h.cut, fun b d hd => ?_,
    fun b d hd hterm hcurrent => ?_, fun b hb => ?_⟩
  · rcases (hget b d).1 hd with ⟨-, rfl⟩ | hold
    · intro v hv
      cases hv
    · exact h.mentions b d hold
  · rw [← h.ended b d hd]
    refine (hget b d).trans ⟨fun hor => hor.resolve_left ?_, .inr⟩
    rintro ⟨-, rfl⟩
    cases hd
  · rcases (hget b d).1 hd with ⟨-, rfl⟩ | hold
    · rfl
    · exact h.ahead b d hold hterm hcurrent
  · obtain ⟨d, hd, hrest⟩ := h.reading b hb
    exact ⟨d, (hget b d).2 (.inr hd), hrest⟩

theorem Tiles.openBlock (h : s.Tiles p types done k) (a : Nat) :
    Unpacking.Ensures (Unpacking.openBlock a) s fun _ t => t.Tiles p types done k ∧ t.values = s.values ∧ t.current = s.current ∧
      (t.blocks[a]?).isSome := by
  refine Unpacking.Ensures.modify ?_
  split
  · next hin => exact ⟨h, rfl, rfl, by rwa [TreeMap.contains_eq_isSome_getElem?] at hin⟩
  · next hout =>
    rw [TreeMap.contains_eq_isSome_getElem?, Option.not_isSome_iff_eq_none] at hout
    exact ⟨h.insert_empty hout, rfl, rfl, by simp⟩

theorem Tiles.openTarget (h : s.Tiles p types done k) (count a : Nat) :
    Unpacking.Ensures (Unpacking.openTarget count a) s fun _ t =>
      t.Tiles p types done k ∧ t.values = s.values ∧ t.current = s.current := by
  unfold Unpacking.openTarget
  split
  · exact Unpacking.Ensures.throw _
  · intro _ t hrun
    obtain ⟨ht, hvalues, hcurrent, -⟩ := h.openBlock a _ t hrun
    exact ⟨ht, hvalues, hcurrent⟩

/-- Passing lines changes neither values nor blocks. -/
theorem Tiles.passLines (h : s.Tiles p types done k) (i : Nat) :
    Unpacking.Ensures (Unpacking.passLines i) s fun _ t => t.Tiles p types done k := by
  refine Unpacking.Ensures.modify ?_
  exact ⟨h.length, h.names, h.mentions, fun hsize => (h.arguments hsize).congr rfl rfl, h.tiling, h.cut, h.ended, h.ahead, h.reading⟩

/-- A block that starts at the next instruction is still empty. -/
theorem Tiles.enter (h : s.Tiles p types done k) (hnone : s.current = none) {d : DraftBlock} (hd : s.blocks[k]? = some d) :
    Tiles p types done k { s with current := some k } := by
  have htiling : Tiling 0 done k := by simpa [hnone] using h.tiling
  have hterm : d.terminator = none := by
    by_contra hterm
    have hbounds := htiling.bounds ((h.ended k d (Option.isSome_iff_ne_none.2 hterm)).1 hd)
    simp only at hbounds
    omega
  have hlength := h.ahead k d hd hterm (by simp [hnone])
  refine ⟨h.length, h.names, h.mentions, fun hsize => (h.arguments hsize).congr rfl rfl, htiling, h.cut, h.ended, ?_, ?_⟩
  · exact fun a d hd hterm _ => h.ahead a d hd hterm (by simp [hnone])
  · rintro a ⟨⟩
    exact ⟨d, hd, hterm, by omega, fun j hle hlt => absurd hlt (by omega)⟩

/-- **Entering an instruction**: some block is being read. -/
theorem Tiles.enterBlock (h : s.Tiles p types done k) :
    Unpacking.Ensures (Unpacking.enterBlock k) s fun _ t => t.Tiles p types done k ∧ ∃ a, t.current = some a := by
  unfold Unpacking.enterBlock
  refine Unpacking.Ensures.get_bind ?_
  split
  · next hnone =>
    intro _ t hrun
    obtain rfl : _ = t := congrArg Prod.snd (Except.ok.inj hrun)
    simp only
    split
    · next hin =>
      rw [TreeMap.contains_eq_isSome_getElem?, Option.isSome_iff_exists] at hin
      obtain ⟨d, hd⟩ := hin
      exact ⟨h.enter hnone hd, k, rfl⟩
    · next hout =>
      rw [TreeMap.contains_eq_isSome_getElem?, Option.not_isSome_iff_eq_none] at hout
      exact ⟨(h.insert_empty hout).enter hnone TreeMap.getElem?_insert_self, k, rfl⟩
  · next start hstart =>
    split
    · exact Unpacking.Ensures.throw _
    · exact Unpacking.Ensures.pure ⟨h, start, hstart⟩

/-! ### One instruction -/

theorem run_onCurrent (hcurrent : s.current = some a) {d : DraftBlock} (hd : s.blocks[a]? = some d) (f : DraftBlock → DraftBlock) :
    (Unpacking.onCurrent f).run s = .ok ((), { s with blocks := s.blocks.insert a (f d) }) := by
  have hget : s.blocks.getD a {} = d := by rw [TreeMap.getD_eq_getD_getElem?, hd, Option.getD_some]
  change Except.ok ((), { s with blocks := s.blocks.insert (s.current.getD 0) (f (s.blocks.getD (s.current.getD 0) {})) }) = _
  rw [hcurrent, Option.getD_some, hget]

theorem run_terminate (hcurrent : s.current = some a) {d : DraftBlock} (hd : s.blocks[a]? = some d) (e : Terminator) :
    (Unpacking.terminate e).run s =
      .ok ((), { s with blocks := s.blocks.insert a { d with terminator := some (e, s.line) }, current := none }) := by
  have hget : s.blocks.getD a {} = d := by rw [TreeMap.getD_eq_getD_getElem?, hd, Option.getD_some]
  change Except.ok ((), { s with
    blocks := s.blocks.insert (s.current.getD 0) { s.blocks.getD (s.current.getD 0) {} with terminator := some (e, s.line) }
    current := none }) = _
  rw [hcurrent, Option.getD_some, hget]

theorem getElem?_insert_iff {b : Nat} {d d' : DraftBlock} : (s.blocks.insert a d')[b]? = some d ↔
    (a = b ∧ d' = d) ∨ (a ≠ b ∧ s.blocks[b]? = some d) := by
  rw [TreeMap.getElem?_insert]
  by_cases hab : a = b
  · simp [hab]
  · simp [hab]

/-- **An instruction that ends no block** makes the block being read longer. -/
theorem Tiles.onCurrent_next (h : s.Tiles p types done k) (hcurrent : s.current = some a) {i : PackedInstr} (hi : p.HasAt k i)
    (hterm : i.isTerminator = false) {f : DraftBlock → DraftBlock} (hlength : ∀ d, (f d).length = d.length + 1)
    (hterminator : ∀ d, (f d).terminator = d.terminator)
    (hmentions : ∀ d, ∀ v ∈ (f d).mentions, v ∈ d.mentions ∨ v < s.values.length) :
    Unpacking.Ensures (Unpacking.onCurrent f) s fun _ t => t.Tiles p types done (k + 1) := by
  obtain ⟨d, hd, hnone, hstart, hruns⟩ := h.reading a hcurrent
  intro _ t hrun
  rw [run_onCurrent hcurrent hd] at hrun
  cases hrun
  refine ⟨h.length, h.names, fun b d' hd' v hv => ?_, fun hsize => (h.arguments hsize).congr rfl rfl, ?_, h.cut, fun b d' hsome => ?_,
    fun b d' hd' hterm' hne => ?_, ?_⟩
  · rcases getElem?_insert_iff.1 hd' with ⟨-, rfl⟩ | ⟨-, hold⟩
    · exact (hmentions d v hv).elim (h.mentions a d hd v) id
    · exact h.mentions b d' hold v hv
  · simpa [hcurrent] using h.tiling
  · rw [← h.ended b d' hsome]
    refine getElem?_insert_iff.trans ⟨?_, fun hold => .inr ⟨?_, hold⟩⟩
    · rintro (⟨-, rfl⟩ | ⟨-, hold⟩)
      · rw [hterminator, hnone] at hsome
        cases hsome
      · exact hold
    · rintro rfl
      obtain rfl : d = d' := Option.some.inj (hd.symm.trans hold)
      rw [hnone] at hsome
      cases hsome
  · rcases getElem?_insert_iff.1 hd' with ⟨rfl, -⟩ | ⟨-, hold⟩
    · exact absurd hcurrent hne
    · exact h.ahead b d' hold hterm' hne
  · intro b hb
    obtain rfl : a = b := Option.some.inj (hcurrent.symm.trans hb)
    refine ⟨f d, TreeMap.getElem?_insert_self, (hterminator d).trans hnone, by rw [hlength]; omega, fun j hle hlt => ?_⟩
    rcases Nat.lt_or_ge j k with hjk | hjk
    · exact hruns j hle hjk
    · obtain rfl : j = k := by omega
      exact ⟨i, hi, hterm⟩

/-- **An instruction that ends the block being read.** -/
theorem Tiles.terminate (h : s.Tiles p types done k) (hcurrent : s.current = some a) {i : PackedInstr} (hi : p.HasAt k i)
    {e : Terminator} (hends : i.Ends k e) (hreads : ∀ v ∈ e.reads, v < s.values.length) :
    Unpacking.Ensures (Unpacking.terminate e) s fun _ t => ∃ done', t.Tiles p types done' (k + 1) := by
  obtain ⟨d, hd, hnone, hstart, hruns⟩ := h.reading a hcurrent
  intro _ t hrun
  rw [run_terminate hcurrent hd] at hrun
  cases hrun
  have hlt (x : Nat × DraftBlock) (hx : x ∈ done) : x.1 < a := by
    have hbounds := h.tiling.bounds hx
    rw [hcurrent, Option.getD_some] at hbounds
    omega
  refine ⟨done ++ [(a, { d with terminator := some (e, s.line) })], h.length, h.names, fun b d' hd' v hv => ?_,
    fun hsize => (h.arguments hsize).congr rfl rfl, ?_, ?_, fun b d' hsome => ?_, fun b d' hd' hterm' _ => ?_, ?_⟩
  · rcases getElem?_insert_iff.1 hd' with ⟨-, rfl⟩ | ⟨-, hold⟩
    · simp only [DraftBlock.mentions, List.mem_append, Option.toList_some, List.flatMap_singleton] at hv
      rcases hv with hv | hv
      · exact h.mentions a d hd v (List.mem_append_left _ (List.mem_append.2 hv))
      · exact hreads v hv
    · exact h.mentions b d' hold v hv
  · have htiling := h.tiling
    rw [hcurrent, Option.getD_some] at htiling
    have hsnoc := htiling.snoc { d with terminator := some (e, s.line) }
    rw [show a + DraftBlock.length { d with terminator := some (e, s.line) } = k from hstart] at hsnoc
    exact hsnoc
  · intro x hx
    rcases List.mem_append.1 hx with hx | hx
    · exact h.cut x hx
    · obtain rfl := List.mem_singleton.1 hx
      refine ⟨?_, e, s.line, i, rfl, ?_⟩
      · exact hstart ▸ hruns
      · rw [show a + DraftBlock.length { d with terminator := some (e, s.line) } = k from hstart]
        exact ⟨hi, hends⟩
  · rw [List.mem_append, List.mem_singleton, Prod.mk.injEq, ← h.ended b d' hsome]
    refine getElem?_insert_iff.trans ⟨?_, ?_⟩
    · rintro (⟨rfl, rfl⟩ | ⟨-, hold⟩)
      · exact .inr ⟨rfl, rfl⟩
      · exact .inl hold
    · rintro (hold | ⟨rfl, rfl⟩)
      · refine .inr ⟨?_, hold⟩
        rintro rfl
        exact absurd (hlt _ ((h.ended a d' hsome).1 hold)) (Nat.lt_irrefl _)
      · exact .inl ⟨rfl, rfl⟩
  · rcases getElem?_insert_iff.1 hd' with ⟨-, rfl⟩ | ⟨hne, hold⟩
    · cases hterm'
    · exact h.ahead b d' hold hterm' (by simpa [hcurrent] using hne)
  · rintro b ⟨⟩

open Unpacking in
theorem Tiles.follow {α : Type} (h : s.Tiles p types done k) (hn : p.argumentCount + p.views.length ≤ UInt32.size → types.length ≤ n)
    {known : List ValueId} (hknown : ∀ v ∈ known, v < s.values.length) {m : Unpacking α} {ids : α → List ValueId}
    (hm : Places n known m ids) :
    Ensures m s fun r t => t.Tiles p types done k ∧ t.current = s.current ∧ ∀ v ∈ ids r ++ known, v < t.values.length := by
  intro r t hrun
  obtain ⟨ht, hwidens, hids⟩ := hm s h.names hknown r t hrun
  refine ⟨h.widen ht hwidens hn, hwidens.current, fun v hv => ?_⟩
  rcases List.mem_append.1 hv with hv | hv
  · exact hids v hv
  · exact Nat.lt_of_lt_of_le (hknown v hv) hwidens.length

open Unpacking in
theorem Tiles.follow_value? (h : s.Tiles p types done k)
    (hn : p.argumentCount + p.views.length ≤ UInt32.size → types.length ≤ n) {known : List ValueId}
    (hknown : ∀ v ∈ known, v < s.values.length) (i : Option Nat) :
    Ensures (i.mapM value) s fun r t => t.Tiles p types done k ∧ t.current = s.current ∧
      (∀ v ∈ r.toList ++ known, v < t.values.length) ∧ r.isSome = i.isSome := by
  cases i with
  | none => exact Ensures.pure ⟨h, rfl, by simpa using hknown, rfl⟩
  | some i =>
    change Ensures (value i >>= fun v => Pure.pure (some v)) s _
    refine (h.follow hn hknown (places_value i)).bind ?_
    rintro v t ⟨ht, hcurrent, hids⟩
    exact Ensures.pure ⟨ht, hcurrent, hids, rfl⟩

open Unpacking in
/-- **One instruction.** -/
theorem Tiles.instruction (h : s.Tiles p types done k) (hcurrent : s.current = some a) {v : InstrView} (hindex : v.index = k)
    (hn : p.argumentCount + p.views.length ≤ UInt32.size → types.length ≤ v.valueIndex) {i : PackedInstr} (hi : p.HasAt k i) :
    Ensures (instruction p v i) s fun _ t => ∃ done', t.Tiles p types done' (k + 1) := by
  have hnil (s : Unpacker) : ∀ w ∈ ([] : List ValueId), w < s.values.length := by simp
  by_cases hplain : IsPlain i
  · rw [instruction_plain hplain]
    refine (h.follow hn (hnil s) (places_operation p i)).bind ?_
    rintro ⟨op, result⟩ t₁ ⟨h₁, hcurrent₁, hreads⟩
    refine (h₁.follow hn hreads (places_result result)).bind ?_
    rintro dest t₂ ⟨h₂, hcurrent₂, hids⟩
    refine Ensures.get_bind fun _ t hrun => ⟨done, ?_⟩
    refine h₂.onCurrent_next (hcurrent₂.trans (hcurrent₁.trans hcurrent)) hi ?_ ?_ ?_ ?_ _ t hrun
    · cases i <;> first | rfl | exact hplain.elim
    · intro d
      simp [DraftBlock.length, Nat.add_assoc]
    · exact fun _ => rfl
    · intro d w hw
      simp only [DraftBlock.mentions, List.flatMap_append, List.flatMap_singleton, List.mem_append] at hw ⊢
      have hnew : w ∈ dest.toList ∨ w ∈ op.reads → w < t₂.values.length := fun hw =>
        hids w (by simp only [List.mem_append]; tauto)
      tauto
  · cases i with
    | phi type operands =>
      refine Ensures.lift_bind fun type _ => ?_
      refine (h.follow hn (hnil s) (places_define type .phi)).bind ?_
      rintro dest t₁ ⟨h₁, hcurrent₁, hdest⟩
      refine (h₁.follow hn hdest (places_values operands)).bind ?_
      rintro operands t₂ ⟨h₂, hcurrent₂, hids⟩ _ t hrun
      refine ⟨done, h₂.onCurrent_next (hcurrent₂.trans (hcurrent₁.trans hcurrent)) hi rfl ?_ ?_ ?_ _ t hrun⟩
      · intro d
        simp [DraftBlock.length]
        omega
      · exact fun _ => rfl
      · intro d w hw
        simp only [DraftBlock.mentions, List.flatMap_append, List.flatMap_singleton, List.mem_append, List.mem_cons] at hw ⊢
        have hnew : w = dest ∨ w ∈ operands → w < t₂.values.length := fun hw =>
          hids w (by simp only [id_eq, List.mem_append, List.mem_singleton]; tauto)
        tauto
    | goto target =>
      refine (h.openTarget _ target).bind ?_
      rintro _ t₁ ⟨h₁, -, hcurrent₁⟩
      exact h₁.terminate (hcurrent₁.trans hcurrent) hi rfl (by simp [Terminator.reads])
    | «fallthrough» =>
      refine (h.openTarget _ (v.index + 1)).bind ?_
      rintro _ t₁ ⟨h₁, -, hcurrent₁⟩
      exact h₁.terminate (hcurrent₁.trans hcurrent) hi (congrArg (· + 1) hindex) (by simp [Terminator.reads])
    | branch kind type target lhs rhs =>
      refine (h.openTarget _ target).bind ?_
      rintro _ t₁ ⟨h₁, -, hcurrent₁⟩
      refine (h₁.openTarget _ (v.index + 1)).bind ?_
      rintro _ t₂ ⟨h₂, -, hcurrent₂⟩
      refine (h₂.follow hn (hnil t₂) (places_value lhs)).bind ?_
      rintro lhs' t₃ ⟨h₃, hcurrent₃, hlhs⟩
      refine (h₃.follow_value? hn hlhs rhs).bind ?_
      rintro rhs' t₄ ⟨h₄, hcurrent₄, hids, hsome⟩
      refine h₄.terminate (hcurrent₄.trans (hcurrent₃.trans (hcurrent₂.trans (hcurrent₁.trans hcurrent)))) hi
        ⟨rfl, rfl, hsome, rfl⟩ fun w hw => hids w ?_
      simp only [Terminator.reads, List.mem_cons, List.mem_append] at hw ⊢
      tauto
    | ret value =>
      refine (h.follow_value? hn (hnil s) value).bind ?_
      rintro value' t₁ ⟨h₁, hcurrent₁, hids, hsome⟩
      exact h₁.terminate (hcurrent₁.trans hcurrent) hi hsome (by simpa [Terminator.reads] using hids)
    | throw value =>
      refine (h.follow hn (hnil s) (places_value value)).bind ?_
      rintro value' t₁ ⟨h₁, hcurrent₁, hids⟩
      exact h₁.terminate (hcurrent₁.trans hcurrent) hi trivial (by simpa [Terminator.reads] using hids)
    | _ => exact absurd trivial hplain

open Unpacking in
/-- **One item of the stream** brings the reader one instruction further. -/
theorem Tiles.step (h : s.Tiles p types done k) (htypes : types.length = p.argumentCount)
    {item : Except PackedError InstrView} (hitem : p.views[k]? = some item) :
    Ensures (step p item) s fun _ t => ∃ done', t.Tiles p types done' (k + 1) := by
  refine Ensures.lift_bind ?_
  rintro v rfl
  obtain ⟨hindex, hvalue⟩ := PackedBody.index_of_views hitem
  rw [hindex]
  refine (h.passLines k).bind fun _ t₁ h₁ => ?_
  refine h₁.enterBlock.bind ?_
  rintro _ t₂ ⟨h₂, a, hcurrent⟩
  refine Ensures.lift_bind fun i hdecode => ?_
  refine h₂.instruction hcurrent hindex (fun hsize => ?_) ⟨v, hitem, hindex, hdecode⟩
  have hk := (List.getElem?_eq_some_iff.1 hitem).1
  rw [hvalue, valueIndexOf, Nat.mod_eq_of_lt (by omega)]
  omega

/-- Before the first instruction there are no blocks, and the arguments have their values. -/
theorem tiles_start (p : PackedBody) (method : MethodRef) (isStatic : Bool) (types : List Descriptor) :
    Tiles p types [] 0
      { values := (Body.withArguments method isStatic types).values
        slots := (List.range types.length).map some ++ List.replicate p.instructionCount none
        linesAhead := p.lines } := by
  have hslot (i : Nat) (v : ValueId) (hv : ((List.range types.length).map some ++ List.replicate p.instructionCount none)[i]? =
      some (some v)) : i < types.length ∧ v = i := by
    rcases Nat.lt_or_ge i types.length with hi | hi
    · rw [List.getElem?_append_left (by simpa using hi)] at hv
      simp [hi] at hv
      exact ⟨hi, hv.symm⟩
    · rw [List.getElem?_append_right (by simpa using hi), List.getElem?_replicate] at hv
      split at hv <;> simp at hv
  refine ⟨by simp [Body.withArguments], ?_, ?_, fun _ => ⟨?_, ?_, ?_⟩, rfl, ?_, ?_, ?_, ?_⟩
  · intro i v hv
    obtain ⟨hi, rfl⟩ := hslot i v hv
    simpa [Body.withArguments] using hi
  · intro a d hd
    simp at hd
  · intro i hi
    rw [List.getElem?_append_left (by simpa using hi)]
    simp [hi]
  · intro i v hle hv
    obtain ⟨hi, -⟩ := hslot i v hv
    omega
  · intro i t ht
    simp [Body.withArguments, ht]
  · simp
  · simp
  · intro a d hd
    simp at hd
  · rintro a ⟨⟩

/-- **The whole stream.** -/
theorem tiles_of_run (htypes : types.length = p.argumentCount) {method : MethodRef} {isStatic : Bool}
    (hrun : (p.views.forM (Unpacking.step p)).run
      { values := (Body.withArguments method isStatic types).values
        slots := (List.range types.length).map some ++ List.replicate p.instructionCount none
        linesAhead := p.lines } = .ok ((), s)) :
    ∃ done, s.Tiles p types done p.views.length := by
  refine Unpacking.Ensures.forM (fun k s => ∃ done, s.Tiles p types done k) ?_ ⟨[], tiles_start p method isStatic types⟩ () s hrun
  rintro k item s hitem ⟨done, h⟩
  exact h.step htypes hitem

end Unpacker

end DexShrinker
