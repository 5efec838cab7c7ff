/-
  DexShrinker/Proofs/Updating/Reads.lean
  ======================================
  **Values read from fields keep their types.**

  A field may move to one of another type while the code goes on with the type that it read
  before. Layer by layer a lookup remembers the type that the code expects by now, and the cast
  is there exactly if the field has another one (`FieldLookup.Expects`).

  The blocks of an updated body are those of the old one, in their order, without those that
  cannot be reached any more. Each is put together of what its instructions become
  (`MadeOf`), so every read ends in a value of the type that the type of the field it read
  before is called now, by itself or through a cast (`reads_at_renamed_types`).
-/
import DexShrinker.Proofs.Body.Dominance
import DexShrinker.Proofs.Updating.Rebuilt

namespace DexShrinker

/-! ### Lookups -/

/-- Code that reads the field goes on with a value of type `t`, and casts only if it has to. -/
def FieldLookup.Expects (x : FieldLookup) (t : Descriptor) : Prop := x.readCast = if t = x.ref.type then none else some t

namespace Lens

theorem expects_stepField {x : FieldLookup} {t : Descriptor} (h : x.Expects t) (r : Renaming) :
    (stepField x r).Expects (r.mapType t) := by
  have hexpected : x.readCast.getD x.ref.type = t := by
    rw [h]
    split
    · next heq => exact heq.symm
    · rfl
  rw [stepField, hexpected]
  rfl

theorem expects_foldl {x : FieldLookup} {t : Descriptor} (h : x.Expects t) (rs : List Renaming) :
    (rs.foldl stepField x).Expects (rs.foldl (fun t r => r.mapType t) t) := by
  induction rs generalizing x t with
  | nil => exact h
  | cons r rs ih => exact ih (expects_stepField h r)

theorem expects_lookupField (l : Lens) (f : FieldRef) (code : Lens) : (l.lookupField f code).Expects (l.lookupType f.type code) := by
  apply expects_foldl
  exact (if_pos rfl).symm

end Lens

/-! ### Instructions -/

namespace Op

/-- The field that an operation reads. -/
def readField? : Op → Option FieldRef
  | staticGet f => some f
  | instanceGet f _ => some f
  | _ => none

/-- Send the field that an operation reads through `g`. -/
def mapReadField (g : FieldRef → FieldRef) : Op → Op
  | staticGet f => staticGet (g f)
  | instanceGet f object => instanceGet (g f) object
  | op => op

theorem readField?_mapReadField (g : FieldRef → FieldRef) (op : Op) : (op.mapReadField g).readField? = op.readField?.map g := by
  cases op <;> rfl

end Op

/-- The instructions read a field with the operation `read` and leave a value of type `t` in `d`. -/
inductive Fetches (t : Descriptor) (d : ValueId) (read : Op) (line : Line) : List Instr → Prop
  | plain {f : FieldRef} (hread : read.readField? = some f) (htype : f.type = t) : Fetches t d read line [⟨some d, read, line⟩]
  | cast {f : FieldRef} (raw : ValueId) (hread : read.readField? = some f) (htype : f.type ≠ t) :
    Fetches t d read line [⟨some raw, read, line⟩, ⟨some d, .checkCast t raw, line⟩]

namespace Update

variable {u : Update} {context : MethodRef}

theorem expects_field (u : Update) (f : FieldRef) : (u.field f).Expects (u.type f.type) := Lens.expects_lookupField _ _ _

theorem fetches_fieldRead {d : ValueId} {read : Op} {f : FieldRef} {line : Line} (hread : read.readField? = some (u.field f).ref)
    {is : List Instr} {s t : List Value} (h : (fieldRead (some d) read (u.field f) line).run s = .ok (is, t)) :
    Fetches (u.type f.type) d read line is := by
  have hexpects := expects_field u f
  by_cases htype : u.type f.type = (u.field f).ref.type
  · rw [FieldLookup.Expects, if_pos htype] at hexpects
    simp only [fieldRead, hexpects] at h
    cases h
    exact .plain hread htype.symm
  · rw [FieldLookup.Expects, if_neg htype] at hexpects
    simp only [fieldRead, hexpects] at h
    cases h
    exact .cast _ hread fun heq => htype heq.symm

/-- What an instruction may become. A read of a field leaves its value at the type that the type of the field is called
    now. A call may pass constants, which stand before it. Any other instruction stays one that reads the same values, and
    reads no field. -/
inductive Becomes (u : Update) (i : Instr) : List Instr → Prop
  | read {f : FieldRef} {d : ValueId} {is : List Instr} (hread : i.op.readField? = some f) (hdest : i.dest = some d)
    (hfetches : Fetches (u.type f.type) d (i.op.mapReadField fun f => (u.field f).ref) i.line is) : Becomes u i is
  | unused {f : FieldRef} (hread : i.op.readField? = some f) (hdest : i.dest = none) :
    Becomes u i [⟨none, i.op.mapReadField fun f => (u.field f).ref, i.line⟩]
  | call {constants : List Instr} {op : Op} {dest : Option ValueId} (hcall : i.op.isCall = true) (hstill : op.isCall = true)
    (hconstants : ∀ j ∈ constants, ∃ v e, j = ⟨some v, extraOp e, i.line⟩) (hdest : dest = none ∨ dest = i.dest) :
    Becomes u i (constants ++ [⟨dest, op, i.line⟩])
  | other {op : Op} (hno : i.op.readField? = none) (hstill : op.readField? = none) (hcall : i.op.isCall = false)
    (hstill' : op.isCall = false) (hreads : op.reads = i.op.reads) : Becomes u i [{ i with op := op }]

theorem becomes_of_fieldRead {i : Instr} {f : FieldRef} (hread : i.op.readField? = some f) {is : List Instr} {s t : List Value}
    (h : (fieldRead i.dest (i.op.mapReadField fun f => (u.field f).ref) (u.field f) i.line).run s = .ok (is, t)) : u.Becomes i is := by
  cases hdest : i.dest with
  | some d =>
    rw [hdest] at h
    have hread' : (i.op.mapReadField fun f => (u.field f).ref).readField? = some (u.field f).ref := by
      rw [Op.readField?_mapReadField, hread]
      rfl
    exact .read hread hdest (fetches_fieldRead hread' h)
  | none =>
    rw [hdest] at h
    cases hcast : (u.field f).readCast <;> rw [fieldRead.eq_def, hcast] at h <;> cases h
    · exact .unused hread hdest
    · exact .unused hread hdest

theorem becomes_of_invoke {i : Instr} {kind : InvokeKind} {m : MethodRef} {args : List ValueId} {itf : Bool}
    (hop : i.op = .invoke kind m args itf) {is : List Instr} {s t : List Value}
    (h : (u.invoke context i.dest kind m args itf i.line).run s = .ok (is, t)) : u.Becomes i is := by
  simp only [invoke, StateT.run_bind] at h
  obtain ⟨⟨result, s₁⟩, -, h⟩ := bind_eq_ok.1 h
  obtain ⟨⟨extra, s₂⟩, -, h⟩ := bind_eq_ok.1 h
  cases h
  refine .call (by rw [hop]; rfl) rfl (fun j hj => ?_) ?_
  · obtain ⟨⟨v, e⟩, -, rfl⟩ := List.mem_map.1 hj
    exact ⟨v, e, rfl⟩
  · split
    · exact .inl rfl
    · exact .inr rfl

theorem becomes_of_instr {i : Instr} {is : List Instr} {s t : List Value} (h : (u.instr context i).run s = .ok (is, t)) :
    u.Becomes i is := by
  unfold instr at h
  cases hop : i.op with
  | staticGet f | instanceGet f object =>
    rw [hop] at h
    refine becomes_of_fieldRead (f := f) (s := s) (t := t) (congrArg Op.readField? hop) ?_
    rw [hop]
    exact h
  | invoke kind m args itf =>
    rw [hop] at h
    exact becomes_of_invoke hop h
  | constHandle x | invokeCustom x args =>
    rw [hop] at h
    simp only [StateT.run_bind] at h
    obtain ⟨_, -, h⟩ := bind_eq_ok.1 h
    cases h
    exact .other (congrArg Op.readField? hop) rfl (congrArg Op.isCall hop) rfl (congrArg Op.reads hop).symm
  | _ =>
    rw [hop] at h
    cases h
    exact .other (congrArg Op.readField? hop) rfl (congrArg Op.isCall hop) rfl (congrArg Op.reads hop).symm

end Update

/-! ### Bodies -/

/-- The instruction stands for an argument that is gone. -/
def Instr.IsArgumentConstant (i : Instr) : Prop := ∃ v t constant, i = ⟨some v, removedArgumentOp t constant, 0⟩

namespace Body

/-- The constants that take the places of arguments that are gone. -/
def argumentConstants (c : Body) (changes : ProtoChanges) : List Instr :=
  (c.arguments.mapIdx fun i v => (v, changes.argumentAt? i)).filterMap fun
    | (v, some (.removed t constant)) => some ⟨some v, removedArgumentOp t constant, 0⟩
    | _ => none

/-- A body follows the changes of its definition: the constants stand in front. -/
theorem blocks_updateArguments (c : Body) (changes : ProtoChanges) : (c.updateArguments changes).blocks =
    c.blocks.modifyHead fun b => { b with body := c.argumentConstants changes ++ b.body } := by
  unfold updateArguments
  split
  · next hempty =>
    simp only [ProtoChanges.isEmpty, Bool.and_eq_true] at hempty
    have hnone (i : Nat) : changes.argumentAt? i = none := by
      simp [ProtoChanges.argumentAt?, ProtoChanges.argument?, Std.TreeMap.getElem?_of_isEmpty hempty.1.1]
    have hconstants : c.argumentConstants changes = [] := by simp [argumentConstants, hnone, List.mapIdx_eq_zipIdx_map]
    rw [hconstants]
    cases c.blocks <;> rfl
  · cases c.blocks <;> rfl

/-- Blocks end as they did. -/
theorem ends_updateArguments (c : Body) (changes : ProtoChanges) :
    List.Forall₂ (fun b b' => b'.terminator = b.terminator ∧ b'.handlers = b.handlers) c.blocks (c.updateArguments changes).blocks := by
  rw [blocks_updateArguments]
  cases c.blocks with
  | nil => exact .nil
  | cons entry rest => exact .cons ⟨rfl, rfl⟩ (List.forall₂_same.2 fun _ _ => ⟨rfl, rfl⟩)

theorem mem_argumentConstants {c : Body} {changes : ProtoChanges} {i : Instr} (h : i ∈ c.argumentConstants changes) :
    i.IsArgumentConstant := by
  obtain ⟨⟨v, change⟩, -, h⟩ := List.mem_filterMap.1 h
  split at h
  · cases h
    exact ⟨_, _, _, rfl⟩
  · cases h

/-- Where the blocks come from, arguments brought up to date: only the entry gets constants. -/
theorem exists_of_getElem?_updateArguments {c : Body} {changes : ProtoChanges} {k : BlockId} {b' : Block}
    (h : (c.updateArguments changes).blocks[k]? = some b') :
    ∃ b constants, c.blocks[k]? = some b ∧ b' = { b with body := constants ++ b.body } ∧ (∀ i ∈ constants, i.IsArgumentConstant) ∧
      (k ≠ 0 → constants = []) := by
  rw [blocks_updateArguments] at h
  cases hblocks : c.blocks with
  | nil => simp [hblocks] at h
  | cons entry rest =>
    rw [hblocks, List.modifyHead_cons] at h
    cases k with
    | zero =>
      cases h
      exact ⟨entry, c.argumentConstants changes, rfl, rfl, fun i hi => mem_argumentConstants hi, fun hne => absurd rfl hne⟩
    | succ k => exact ⟨b', [], h, rfl, by simp, fun _ => rfl⟩

theorem exists_of_mem_updateArguments {c : Body} {changes : ProtoChanges} {b' : Block} (h : b' ∈ (c.updateArguments changes).blocks) :
    ∃ b ∈ c.blocks, ∃ constants : List Instr, b'.body = constants ++ b.body ∧ ∀ i ∈ constants, i.IsArgumentConstant := by
  obtain ⟨k, hk⟩ := List.getElem?_of_mem h
  obtain ⟨b, constants, hb, rfl, hconstants, -⟩ := exists_of_getElem?_updateArguments hk
  exact ⟨b, List.mem_of_getElem? hb, constants, rfl, hconstants⟩

end Body

namespace Update

variable {u : Update} {context : MethodRef}

/-- Constants stay what they are. -/
theorem run_instr_removedArgumentOp (u : Update) (context : MethodRef) (v : ValueId) (t : Descriptor) (constant : Option Int64)
    (s : List Value) : (u.instr context ⟨some v, removedArgumentOp t constant, 0⟩).run s =
      .ok ([⟨some v, removedArgumentOp t constant, 0⟩], s) := by
  rcases removedArgumentOp_cases t constant with h | ⟨x, h⟩ | ⟨x, h⟩ <;> rw [h] <;> rfl

theorem flatten_of_constants {constants : List Instr} (hconstants : ∀ i ∈ constants, i.IsArgumentConstant) {pieces : List (List Instr)}
    (h : List.Forall₂ (fun i is => ∃ s t, (u.instr context i).run s = .ok (is, t)) constants pieces) : pieces.flatten = constants := by
  induction h with
  | nil => rfl
  | cons hi _ ih =>
    obtain ⟨⟨v, t, constant, rfl⟩, hrest⟩ := List.forall_mem_cons.1 hconstants
    obtain ⟨s, s', hi⟩ := hi
    rw [run_instr_removedArgumentOp] at hi
    cases hi
    rw [List.flatten_cons, ih hrest]
    rfl

theorem pieces_of_block {b d : Block} {s t : List Value} (h : (u.block context b).run s = .ok (d, t)) :
    ∃ pieces : List (List Instr),
      d = { b with body := pieces.flatten, handlers := b.handlers.map fun h => { h with guard := u.type h.guard } } ∧
      List.Forall₂ (fun i is => ∃ s t, (u.instr context i).run s = .ok (is, t)) b.body pieces := by
  rw [block, StateT.run_bind] at h
  obtain ⟨⟨pieces, s'⟩, hpieces, h⟩ := bind_eq_ok.1 h
  cases h
  exact ⟨pieces, rfl, forall₂_of_run_mapM hpieces⟩

/-- The body with the guards that its handlers have now, without handlers that repeat one. -/
def guarded (u : Update) (c : Body) : Body :=
  Body.dropGuards { c with blocks := c.blocks.map fun b =>
    { b with handlers := b.handlers.map fun h => { h with guard := u.type h.guard } } }

/-- The instructions are made of those of the block `b`, the block `k` of its body: what these become stands there piece by
    piece, in the entry block behind constants for arguments that are gone. -/
def MadeOf (u : Update) (context : MethodRef) (k : BlockId) (b : Block) (body : List Instr) : Prop :=
  ∃ (constants : List Instr) (pieces : List (List Instr)), body = constants ++ pieces.flatten ∧
    (∀ j ∈ constants, j.IsArgumentConstant) ∧ (k ≠ 0 → constants = []) ∧
    List.Forall₂ (fun i is => (∃ s t, (u.instr context i).run s = .ok (is, t)) ∧ u.Becomes i is) b.body pieces

theorem madeOf_of_block {c : Body} {changes : ProtoChanges} {k : BlockId} {b₁ d : Block}
    (hb₁ : (c.updateArguments changes).blocks[k]? = some b₁) {s t : List Value} (h : (u.block context b₁).run s = .ok (d, t)) :
    ∃ b, c.blocks[k]? = some b ∧ u.MadeOf context k b d.body := by
  obtain ⟨b, constants, hb, rfl, hconstants, hentry⟩ := Body.exists_of_getElem?_updateArguments hb₁
  obtain ⟨pieces, rfl, hpieces⟩ := pieces_of_block h
  have hfront := (List.forall₂_take_append _ _ _ hpieces.flip).flip
  have hrest := (List.forall₂_drop_append _ _ _ hpieces.flip).flip
  refine ⟨b, hb, constants, pieces.drop constants.length, ?_, hconstants, hentry, ?_⟩
  · change pieces.flatten = constants ++ (pieces.drop constants.length).flatten
    conv_lhs => rw [← List.take_append_drop constants.length pieces, List.flatten_append, flatten_of_constants hconstants hfront]
  · refine hrest.imp fun i is hinstr => ⟨hinstr, ?_⟩
    obtain ⟨s, t, hinstr⟩ := hinstr
    exact becomes_of_instr hinstr

/-- Where the updated blocks go is where the old ones go whose guards have been brought up to date. -/
theorem targets_guarded {c : Body} {changes : ProtoChanges} {blocks : List Block} {s t : List Value}
    (h : ((c.updateArguments changes).blocks.mapM (u.block context)).run s = .ok (blocks, t)) :
    List.Forall₂ (fun b b' => ∀ here, Block.targets here b' = Block.targets here b) (u.guarded c).blocks
      (blocks.map Body.dropEqualGuards) := by
  have hends : List.Forall₂ (fun b b' => b'.terminator = b.terminator ∧
      b'.handlers = b.handlers.map fun h => { h with guard := u.type h.guard }) c.blocks blocks := by
    refine Body.forall₂_trans (fun b b₁ b' hb ⟨s, t, hb'⟩ => ?_) (c.ends_updateArguments changes) (forall₂_of_run_mapM h)
    obtain ⟨pieces, rfl, -⟩ := pieces_of_block hb'
    exact ⟨hb.1, by rw [← hb.2]⟩
  refine List.forall₂_map_right_iff.2 (List.forall₂_map_left_iff.2 (List.forall₂_map_left_iff.2 (hends.imp ?_)))
  rintro b b' ⟨hterm, hhandlers⟩ here
  simp only [Block.targets, Body.dropEqualGuards, hterm, hhandlers]

/-- **The blocks of an updated body** are made of the old ones, in the same order. Blocks that are gone cannot be reached any
    more. -/
theorem exists_place_of_body {c c' : Body} {method : MethodRef} {isStatic : Bool} (h : u.body c method isStatic = .ok c') :
    ∃ place : BlockId → BlockId, (∀ i j, i < j → j < c'.blocks.length → place i < place j) ∧
      (∀ i b', c'.blocks[i]? = some b' → ∃ b, c.blocks[place i]? = some b ∧ u.MadeOf method (place i) b b'.body) ∧
      ∀ k < c.blocks.length, (∃ i < c'.blocks.length, place i = k) ∨ ¬ ∃ l, (u.guarded c).Walk l k := by
  obtain ⟨changes, -, h⟩ := bind_eq_ok.1 h
  obtain ⟨⟨blocks, values⟩, hblocks, h⟩ := bind_eq_ok.1 h
  obtain ⟨e, hprune, h⟩ := bind_eq_ok.1 h
  cases h
  obtain ⟨place, horder, hkept, hgone⟩ := Body.exists_place_of_pruneGuards hprune
  have htargets := targets_guarded hblocks
  have hlength : blocks.length = c.blocks.length := by simpa [guarded] using htargets.length_eq.symm
  refine ⟨place, horder, fun i b' hb' => ?_, fun k hk => ?_⟩
  · obtain ⟨d, hd, hbody⟩ := hkept i b' hb'
    obtain ⟨b₁, hb₁, s, t, hblock⟩ := exists_of_getElem?_right (forall₂_of_run_mapM hblocks) hd
    obtain ⟨b, hb, hmade⟩ := madeOf_of_block hb₁ hblock
    exact ⟨b, hb, hbody ▸ hmade⟩
  · refine (hgone k (hlength ▸ hk)).imp_right fun hno hyes => ?_
    obtain ⟨l, hwalk⟩ := hyes
    exact hno ⟨l, hwalk.congr (Body.successors_of_targets htargets)⟩

/-- **Values read from fields.** A lookup of a field asks for a cast exactly if the field has another
    type than the type of the field in the code is called now, and then for a cast to that type. The
    blocks of an updated body are made of those of the old one, in their order, and only blocks that
    cannot be reached any more are gone. In them every read with a result has become a read of the
    field that it goes to, which leaves in the same value one of the type that the type of the old
    field is called now, and nothing else reads a field. -/
theorem reads_at_renamed_types (u : Update) :
    (∀ f, (u.field f).readCast = if u.type f.type = (u.field f).ref.type then none else some (u.type f.type)) ∧
    ∀ c method isStatic c', u.body c method isStatic = .ok c' →
      ∃ place : BlockId → BlockId, (∀ i j, i < j → j < c'.blocks.length → place i < place j) ∧
        (∀ i b', c'.blocks[i]? = some b' → ∃ b, c.blocks[place i]? = some b ∧ u.MadeOf method (place i) b b'.body) ∧
        ∀ k < c.blocks.length, (∃ i < c'.blocks.length, place i = k) ∨ ¬ ∃ l, (u.guarded c).Walk l k :=
  ⟨expects_field u, fun _ _ _ _ h => exists_place_of_body h⟩

/-! ### Sample -/

/-- The field `A.x` of type `A` has become `B.x` of type `Object`, and `A` is called `B`. -/
def widened : Recorder :=
  ((Recorder.start .horizontalClassMerger).moveType ⟨"LA;"⟩ ⟨"LB;"⟩).moveField ⟨⟨"LA;"⟩, "x", ⟨"LA;"⟩⟩
    ⟨⟨"LB;"⟩, "x", ⟨"Ljava/lang/Object;"⟩⟩

/-- The static method `C.m` returns an `A`. -/
def getter : MethodRef := ⟨⟨"LC;"⟩, "m", ⟨⟨"LA;"⟩, []⟩⟩

/-- It reads `A.x`. -/
def getterBody : Body where
  method := getter
  isStatic := true
  arguments := []
  values := [⟨⟨"LA;"⟩, .instruction⟩]
  blocks := [{ body := [⟨some 0, .staticGet ⟨⟨"LA;"⟩, "x", ⟨"LA;"⟩⟩, 1⟩], terminator := .ret (some 0) }]

/-- In the updated body a value of type `Object` is read and cast to `B`. -/
theorem reads_at_renamed_types_getter :
    ((acrossOnly widened).field ⟨⟨"LA;"⟩, "x", ⟨"LA;"⟩⟩).readCast = some ⟨"LB;"⟩ ∧
      ∃ c', (acrossOnly widened).body getterBody getter true = .ok c' ∧
        c'.blocks.map Block.body = [[⟨some 1, .staticGet ⟨⟨"LB;"⟩, "x", ⟨"Ljava/lang/Object;"⟩⟩, 1⟩, ⟨some 0, .checkCast ⟨"LB;"⟩ 1, 1⟩]] ∧
        ∃ b, getterBody.blocks[0]? = some b ∧ (acrossOnly widened).MadeOf getter 0 b
          [⟨some 1, .staticGet ⟨⟨"LB;"⟩, "x", ⟨"Ljava/lang/Object;"⟩⟩, 1⟩, ⟨some 0, .checkCast ⟨"LB;"⟩ 1, 1⟩] := by
  obtain ⟨hcast, hbody⟩ := reads_at_renamed_types (acrossOnly widened)
  constructor
  · rw [hcast]
    decide
  have hblocks : ((acrossOnly widened).body getterBody getter true).toOption.map (fun c' => c'.blocks.map Block.body) =
      some [[⟨some 1, .staticGet ⟨⟨"LB;"⟩, "x", ⟨"Ljava/lang/Object;"⟩⟩, 1⟩, ⟨some 0, .checkCast ⟨"LB;"⟩ 1, 1⟩]] := by decide
  obtain ⟨c', hc', hblocks⟩ := Option.map_eq_some_iff.1 hblocks
  have hc' := toOption_eq_some.1 hc'
  refine ⟨c', hc', hblocks, ?_⟩
  obtain ⟨place, -, hplace, -⟩ := hbody _ _ _ c' hc'
  obtain ⟨b', hb', heq⟩ := List.map_eq_singleton_iff.1 hblocks
  obtain ⟨b, hb, hmade⟩ := hplace 0 b' (by rw [hb']; rfl)
  have hzero : place 0 = 0 := by
    obtain ⟨hlt, -⟩ := List.getElem?_eq_some_iff.1 hb
    exact Nat.lt_one_iff.1 hlt
  rw [hzero, heq] at hmade
  exact ⟨b, hzero ▸ hb, hmade⟩

end Update

end DexShrinker
