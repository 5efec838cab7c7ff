/-
  DexShrinker/Proofs/Updating/Uses.lean
  =====================================
  **An updated body touches the fields that the fields it touched have become.**

  However a body is brought up to date, instruction by instruction or in the pool of constants, each
  of its reads and writes of a field comes from one of the field that was looked up
  (`Update.field_of_methodCode`). Values that are cast, arguments that are gone and calls that take
  more arguments bring no access along. In the same two ways everything that the body names is a
  constant brought up to date, or comes with such a cast, argument or call
  (`Update.namesOnly_of_methodCode`).
-/
import DexShrinker.Proofs.Packed.Writing
import DexShrinker.Proofs.Updating.Calls
import DexShrinker.Updating.Program

namespace DexShrinker.Update

variable {u : Update} {context method : MethodRef} {isStatic : Bool} {f' : FieldRef} {how : FieldUse}

/-! ### Bodies in single-assignment form -/

/-- The instruction `j` touches a field only if `i` touches one that has become this field. -/
def Touches (u : Update) (i j : Instr) : Prop :=
  ∀ f' how, j.op.use? = some (.field f' how) → ∃ f, i.op.use? = some (.field f how) ∧ f' = (u.field f).ref

theorem touches_of_fieldRead {i : Instr} {op : Op} {f : FieldRef} {how : FieldUse} (hi : i.op.use? = some (.field f how))
    (hop : op.use? = some (.field (u.field f).ref how)) {is : List Instr} {s t : List Value}
    (h : (fieldRead i.dest op (u.field f) i.line).run s = .ok (is, t)) : ∀ j ∈ is, u.Touches i j := by
  have hread (dest : Option ValueId) : u.Touches i ⟨dest, op, i.line⟩ := by
    intro f' how' huse
    cases hop.symm.trans huse
    exact ⟨f, hi, rfl⟩
  unfold fieldRead at h
  split at h
  · cases h
    exact List.forall_mem_cons.2 ⟨hread _, List.forall_mem_singleton.2 fun _ _ huse => nomatch huse⟩
  · cases h
    exact List.forall_mem_singleton.2 (hread _)

theorem touches_of_invoke {i : Instr} {kind : InvokeKind} {m : MethodRef} {args : List ValueId} {itf : Bool} {is : List Instr}
    {s t : List Value} (h : (u.invoke context i.dest kind m args itf i.line).run s = .ok (is, t)) : ∀ j ∈ is, u.Touches i j := by
  unfold invoke at h
  rw [StateT.run_bind] at h
  obtain ⟨⟨result, s₁⟩, -, h⟩ := bind_eq_ok.1 h
  rw [StateT.run_bind] at h
  obtain ⟨⟨extra, s₂⟩, -, h⟩ := bind_eq_ok.1 h
  cases h
  intro j hj f' how huse
  rcases List.mem_append.1 hj with hj | hj
  · obtain ⟨⟨v, e⟩, -, rfl⟩ := List.mem_map.1 hj
    cases e <;> cases huse
  · rw [List.mem_singleton.1 hj] at huse
    cases huse

theorem touches_of_instr {i : Instr} {is : List Instr} {s t : List Value} (h : (u.instr context i).run s = .ok (is, t)) :
    ∀ j ∈ is, u.Touches i j := by
  have hnone {j : Instr} (hj : ∀ f how, j.op.use? ≠ some (.field f how)) : u.Touches i j := fun f how huse => absurd huse (hj f how)
  unfold instr at h
  cases hop : i.op with
  | staticGet f =>
    rw [hop] at h
    exact touches_of_fieldRead (show i.op.use? = some (.field f .staticRead) by rw [hop]; rfl) rfl h
  | instanceGet f object =>
    rw [hop] at h
    exact touches_of_fieldRead (show i.op.use? = some (.field f .instanceRead) by rw [hop]; rfl) rfl h
  | staticPut f v | instancePut f object v =>
    rw [hop] at h
    cases h
    refine List.forall_mem_singleton.2 fun f' how huse => ?_
    cases huse
    exact ⟨f, by rw [hop]; rfl, rfl⟩
  | invoke kind m args itf =>
    rw [hop] at h
    exact touches_of_invoke h
  | constHandle x | invokeCustom x args =>
    rw [hop] at h
    simp only [StateT.run_bind] at h
    obtain ⟨⟨x', s₁⟩, -, h⟩ := bind_eq_ok.1 h
    cases h
    exact List.forall_mem_singleton.2 (hnone (by simp [Op.use?]))
  | _ =>
    rw [hop] at h
    cases h
    exact List.forall_mem_singleton.2 (hnone (by simp [Op.use?]))

/-- **A body that is brought up to date.** -/
theorem field_of_body {c c' : Body} (h : u.body c method isStatic = .ok c') (hf : .field f' how ∈ c'.uses) :
    ∃ f, .field f how ∈ c.uses ∧ f' = (u.field f).ref := by
  obtain ⟨b', hb', j, hj, huse⟩ := Body.field_mem_uses_iff.1 hf
  obtain ⟨place, -, hplace, -⟩ := exists_place_of_body h
  obtain ⟨k, hk⟩ := List.getElem?_of_mem hb'
  obtain ⟨b, hb, constants, pieces, hbody, hconstants, -, hpieces⟩ := hplace k b' hk
  rw [hbody] at hj
  rcases List.mem_append.1 hj with hj | hj
  · obtain ⟨v, t, constant, rfl⟩ := hconstants j hj
    rcases removedArgumentOp_cases t constant with hop | ⟨x, hop⟩ | ⟨x, hop⟩ <;> simp [hop, Op.use?] at huse
  · obtain ⟨is, his, hj⟩ := List.mem_flatten.1 hj
    obtain ⟨i, hi, ⟨s, t, hinstr⟩, -⟩ := exists_of_mem_left hpieces.flip his
    obtain ⟨f, hold, rfl⟩ := touches_of_instr hinstr j hj f' how huse
    exact ⟨f, Body.field_mem_uses_iff.2 ⟨b, List.mem_of_getElem? hb, i, hi, hold⟩, rfl⟩

/-! ### Packed bodies -/

variable {p q : PackedBody} {us us' : List Use}

theorem field_of_rebuild (h : u.rebuild p method isStatic = .ok (.rebuilt q)) (hus : p.uses = .ok us) (hus' : q.uses = .ok us')
    (hf : .field f' how ∈ us') : ∃ f, .field f how ∈ us ∧ f' = (u.field f).ref := by
  obtain ⟨c, hc, h⟩ := bind_eq_ok.1 h
  obtain ⟨d, hd, h⟩ := bind_eq_ok.1 h
  obtain ⟨_, hq, h⟩ := bind_eq_ok.1 h
  cases h
  obtain ⟨f, hold, rfl⟩ := field_of_body (Outcome.lift_eq_ok.1 hd) (Body.field_of_pack hq hus' hf)
  obtain ⟨b, hb, i, hi, huse⟩ := Body.field_mem_uses_iff.1 hold
  exact ⟨f, (PackedBody.field_mem_uses_iff hus).2 (PackedBody.use_of_unpack hc b hb i hi _ huse), rfl⟩

/-- An instruction that touches a field is not replaced. -/
theorem decode_of_retag {v : InstrView} {j : PackedInstr} (hv : ∃ i, v.decode = .ok i)
    (hj : (InstrView.retag (u.patchOf? context p) v).decode = .ok j) (hhow : j.fieldUse? = some how) : v.decode = .ok j := by
  obtain ⟨i, hi⟩ := hv
  cases hpatch : u.patchOf? context p v with
  | none =>
    have hsame : InstrView.retag (u.patchOf? context p) v = v := by simp [InstrView.retag, hpatch]
    rwa [hsame] at hj
  | some op =>
    obtain ⟨kind, itf, m, args, called, result, hdecode, hcalled, hresult, -, rfl⟩ := patchOf?_eq_some hpatch
    cases hj.symm.trans (decode_retagged hdecode hcalled hresult)
    cases hhow

theorem field_of_kept (h : u.Kept context p q) {patches : List (Nat × UInt8)} (hpatches : u.PatchesFrom context p patches)
    (hbytes : q.bytes = patches.foldl (fun bytes (offset, op) => bytes.set offset op) p.bytes) (hus : p.uses = .ok us)
    (hus' : q.uses = .ok us') (hf : .field f' how ∈ us') : ∃ f, .field f how ∈ us ∧ f' = (u.field f).ref := by
  obtain ⟨⟨vs, hviews, hreadable⟩, -⟩ := PackedBody.uses_eq_ok hus
  obtain ⟨w, j, hw, hj, huse⟩ := (PackedBody.field_mem_uses_iff hus').1 hf
  obtain ⟨hhow, k, hk, hconstant⟩ := PackedBody.useOf_eq_field_iff.1 huse
  obtain ⟨v, hv, hdecode⟩ : ∃ v, .ok v ∈ p.views ∧ v.decode = .ok j := by
    rcases hpatches with ⟨-, hpatches⟩ | ⟨-, rfl⟩
    · rw [hviews] at hpatches
      obtain ⟨rfl, -⟩ := opcodePatches_eq_ok hpatches
      have hviews' : q.views = (vs.map (InstrView.retag (u.patchOf? context p))).map .ok := by
        rw [PackedBody.views, h.argumentCount, hbytes]
        exact InstrView.scanBytes_patched hviews fun v _ => keepsOperands_patchOf? v
      rw [hviews', List.map_map] at hw
      obtain ⟨v, hv, heq⟩ := List.mem_map.1 hw
      cases heq
      exact ⟨v, hviews ▸ List.mem_map_of_mem hv, decode_of_retag (hreadable v hv) hj hhow⟩
    · have hsame : q.views = p.views := by
        rw [PackedBody.views, h.argumentCount, hbytes]
        rfl
      exact ⟨w, hsame ▸ hw, hj⟩
  obtain ⟨c, hc, flag, hflag⟩ := exists_of_getElem?_right h.pool hconstant
  cases renews_of_constant? hflag with
  | field f =>
    refine ⟨f, (PackedBody.field_mem_uses_iff hus).2 ⟨v, j, hv, hdecode, ?_⟩, rfl⟩
    exact PackedBody.useOf_eq_field_iff.2 ⟨hhow, k, hk, hc⟩

/-- An update keeps the stream of a packed body or makes a new one. -/
theorem kept_or_rebuilt {r : PackedUpdate} (h : u.packed p method isStatic = .ok r) :
    r.kept? p = some (r.result p) ∨ ∃ q, r = .rebuilt q ∧ u.rebuild p method isStatic = .ok (.rebuilt q) := by
  cases r with
  | unchanged | patched => exact .inl rfl
  | rebuilt q =>
    refine .inr ⟨q, rfl, ?_⟩
    rcases packed_cases h with hr | ⟨constants, kindsChanged, handlers, hr⟩
    · exact hr
    · exact (patch_cases hr).resolve_right fun ⟨_, hq, _⟩ => by cases hq

theorem field_of_packed {r : PackedUpdate} (h : u.packed p method isStatic = .ok r) (hus : p.uses = .ok us)
    (hus' : (r.result p).uses = .ok us') (hf : .field f' how ∈ us') : ∃ f, .field f how ∈ us ∧ f' = (u.field f).ref := by
  rcases kept_or_rebuilt h with hkept | ⟨q, rfl, hrebuild⟩
  · obtain ⟨-, hq, patches, hpatches, hbytes⟩ := kept_of_packed h hkept
    exact field_of_kept hq hpatches hbytes hus hus' hf
  · exact field_of_rebuild hrebuild hus hus' hf

/-! ### Methods -/

/-- **Code that is brought up to date** touches what the fields that it touched have become. -/
theorem field_of_methodCode {m : MethodDef} {code code' : Code} {fate : BodyFate} (h : u.methodCode false m code = .ok (code', fate))
    (hus : code.uses = .ok us) (hus' : code'.uses = .ok us') (hf : .field f' how ∈ us') :
    ∃ f, .field f how ∈ us ∧ f' = (u.field f).ref := by
  cases code with
  | body c =>
    obtain ⟨d, hd, h⟩ := bind_eq_ok.1 h
    obtain ⟨q, hq, h⟩ := bind_eq_ok.1 h
    cases h
    cases hus
    exact field_of_body (Outcome.lift_eq_ok.1 hd) (Body.field_of_pack hq hus' hf)
  | packed p =>
    obtain ⟨r, hr, h⟩ := bind_eq_ok.1 h
    refine field_of_packed hr hus ?_ hf
    cases r <;> cases h <;> exact hus'

/-- Code of synthesized methods is only packed. -/
theorem field_of_methodCode_synthesized {m : MethodDef} {code code' : Code} {fate : BodyFate}
    (h : u.methodCode true m code = .ok (code', fate)) (hus : code.uses = .ok us) (hus' : code'.uses = .ok us')
    (hf : .field f' how ∈ us') : .field f' how ∈ us := by
  cases code with
  | body c =>
    obtain ⟨q, hq, h⟩ := bind_eq_ok.1 h
    cases h
    cases hus
    exact Body.field_of_pack hq hus' hf
  | packed p =>
    cases h
    cases hus.symm.trans hus'
    exact hf

/-! ### What is named

Code that was brought up to date names what it named before under other names, and besides only types of values that the
update adds. -/

end Update

/-- The constants of the packed body satisfy `K`, and its guards satisfy `T`. -/
structure PackedBody.NamesOnly (K : Constant → Prop) (T : Descriptor → Prop) (p : PackedBody) : Prop where
  constants : ∀ k ∈ p.constants, K k
  guards : ∀ (start : Nat) (hs : List Handler), p.handlers[start]? = some hs → ∀ x ∈ hs, T x.guard

namespace Update

variable {u : Update} {method : MethodRef} {isStatic : Bool} {p q : PackedBody} {K : Constant → Prop} {T : Descriptor → Prop}

/-- Constants satisfy `K` once they are up to date in the method, and types that the update brings along satisfy `T`. -/
structure Brings (u : Update) (method : MethodRef) (K : Constant → Prop) (T : Descriptor → Prop) : Prop where
  renews : ∀ k k', u.Renews method k k' → K k'
  constant : ∀ t, T t → K (.type t)
  type : ∀ t, T (u.type t)
  field : ∀ f, T (u.field f).ref.type
  readCast : ∀ f, ∀ t ∈ (u.field f).readCast, T t
  call : ∀ m kind result, u.method method m kind = .ok result → ∀ e ∈ result.changes.extra, T e.type
  definition : ∀ changes, u.definitionChanges method = .ok changes →
    (∀ e ∈ changes.extra, T e.type) ∧ ∀ i old new, changes.argumentAt? i = some (.retyped old new) → T new

/-- The values have types that satisfy `T`. -/
def Typed (T : Descriptor → Prop) (values : List Value) : Prop := ∀ v ∈ values, T v.type

theorem Typed.append {values more : List Value} (h : Typed T values) (h' : Typed T more) : Typed T (values ++ more) := by
  intro v hv
  rcases List.mem_append.1 hv with hv | hv
  · exact h v hv
  · exact h' v hv

theorem Typed.modifyValue {values : List Value} (h : Typed T values) {f : Value → Value} (hf : ∀ v, T v.type → T (f v).type) (v : ValueId) :
    Typed T (Body.modifyValue values v f) := by
  unfold Body.modifyValue
  split
  · next d hd =>
    intro w hw
    rcases List.mem_or_eq_of_mem_set hw with hw | rfl
    · exact h w hw
    · exact hf d (h d (List.mem_of_getElem? hd))
  · exact h

/-- A walk whose steps keep a property of the values. -/
theorem run_mapM_preserves {α β : Type} {f : α → WithValues β} {P : List Value → Prop} {xs : List α}
    (h : ∀ x ∈ xs, ∀ s y t, (f x).run s = .ok (y, t) → P s → P t) {s t : List Value} {ys : List β} (hrun : (xs.mapM f).run s = .ok (ys, t))
    (hs : P s) : P t := by
  induction xs generalizing s ys with
  | nil =>
    cases hrun
    exact hs
  | cons x xs ih =>
    rw [List.forall_mem_cons] at h
    rw [List.mapM_cons, StateT.run_bind] at hrun
    obtain ⟨⟨y, s₁⟩, hx, hrun⟩ := bind_eq_ok.1 hrun
    rw [StateT.run_bind] at hrun
    obtain ⟨⟨zs, s₂⟩, hxs, hrun⟩ := bind_eq_ok.1 hrun
    cases hrun
    exact ih h.2 hxs (h.1 s y s₁ hx hs)

theorem typed_fieldRead {f : FieldRef} (h : T (u.field f).ref.type) {dest : Option ValueId} {op : Op} {line : Line} {is : List Instr}
    {s t : List Value} (hrun : (fieldRead dest op (u.field f) line).run s = .ok (is, t)) (hs : Typed T s) : Typed T t := by
  unfold fieldRead at hrun
  split at hrun
  · cases hrun
    exact hs.append (List.forall_mem_singleton.2 h)
  · cases hrun
    exact hs

/-- A computation beside the values leaves them alone. -/
theorem values_of_run_liftM {α : Type} {x : Guarded α} {s t : List Value} {a : α} (h : (liftM x : WithValues α).run s = .ok (a, t)) : t = s := by
  cases x with
  | error e => cases h
  | ok b =>
    cases h
    rfl

theorem typed_instr (h : u.Brings method K T) {i : Instr} {is : List Instr} {s t : List Value} (hrun : (u.instr method i).run s = .ok (is, t))
    (hs : Typed T s) : Typed T t := by
  unfold instr at hrun
  cases hop : i.op with
  | staticGet f | instanceGet f object =>
    rw [hop] at hrun
    exact typed_fieldRead (h.field f) hrun hs
  | invoke kind m args itf =>
    rw [hop] at hrun
    simp only [invoke] at hrun
    rw [StateT.run_bind] at hrun
    obtain ⟨⟨result, s₁⟩, hresult, hrun⟩ := bind_eq_ok.1 hrun
    rw [StateT.run_bind, run_fresh] at hrun
    cases hrun
    rw [values_of_run_liftM hresult]
    refine hs.append fun v hv => ?_
    obtain ⟨e, he, rfl⟩ := List.mem_map.1 hv
    exact h.call m kind result (run_liftM_eq_ok hresult) e he
  | constHandle x | invokeCustom x args =>
    rw [hop] at hrun
    simp only [StateT.run_bind] at hrun
    obtain ⟨⟨x', s₁⟩, hx', hrun⟩ := bind_eq_ok.1 hrun
    cases hrun
    exact values_of_run_liftM hx' ▸ hs
  | _ =>
    rw [hop] at hrun
    cases hrun
    exact hs

theorem typed_block (h : u.Brings method K T) {b b' : Block} {s t : List Value} (hrun : (u.block method b).run s = .ok (b', t)) (hs : Typed T s) :
    Typed T t := by
  unfold block at hrun
  rw [StateT.run_bind] at hrun
  obtain ⟨⟨body, s₁⟩, hbody, hrun⟩ := bind_eq_ok.1 hrun
  cases hrun
  exact run_mapM_preserves (fun i _ s is t hinstr => typed_instr h hinstr) hbody hs

theorem typed_updateArguments {c : Body} {changes : ProtoChanges} (hc : Typed T c.values) (hextra : ∀ e ∈ changes.extra, T e.type)
    (hretyped : ∀ i old new, changes.argumentAt? i = some (.retyped old new) → T new) : Typed T (c.updateArguments changes).values := by
  unfold Body.updateArguments
  split
  · exact hc
  · refine List.foldlRecOn (motive := Typed T) _ _ (.append ?_ fun v hv => ?_) fun values hvalues x _ => ?_
    · refine List.foldlRecOn (motive := Typed T) _ _ hc fun values hvalues x hx => ?_
      obtain ⟨i, hi, rfl⟩ := List.mem_mapIdx.1 hx
      dsimp only
      split
      · exact hvalues.modifyValue (by exact fun _ => id) _
      · next old new hchange => exact hvalues.modifyValue (fun _ _ => hretyped i old new hchange) _
      · exact hvalues
    · obtain ⟨t, ht, rfl⟩ := List.mem_map.1 hv
      obtain ⟨e, he, rfl⟩ := List.mem_map.1 ht
      exact hextra e he
    · exact hvalues.modifyValue (by exact fun _ => id) x.2

/-- The types of the values of an updated body. -/
theorem typed_body (h : u.Brings method K T) {c d : Body} (hd : u.body c method isStatic = .ok d) : Typed T d.values := by
  obtain ⟨changes, hchanges, hd⟩ := bind_eq_ok.1 hd
  obtain ⟨⟨blocks, values⟩, hblocks, hd⟩ := bind_eq_ok.1 hd
  obtain ⟨e, hprune, hd⟩ := bind_eq_ok.1 hd
  cases hd
  obtain ⟨hextra, hretyped⟩ := h.definition changes hchanges
  have hstart : Typed T (c.values.map fun v => ({ v with type := u.type v.type } : Value)) := by
    intro v hv
    obtain ⟨w, -, rfl⟩ := List.mem_map.1 hv
    exact h.type w.type
  have hvalues : Typed T values :=
    run_mapM_preserves (fun b _ s b' t hblock => typed_block h hblock) hblocks (typed_updateArguments hstart hextra hretyped)
  have hkept : e.values = values := Body.values_pruneGuards hprune
  exact fun v hv => hvalues v (hkept ▸ hv)

variable {n : Renaming}

/-- **What a body names that was brought up to date and packed**, unless it has placeholders for instances of other types. -/
theorem namesOnly_of_body (hn : u.Across n) (hvoid : n.KeepsVoid) (h : u.Brings method K T) {c d : Body}
    (hplaceholder : ∀ b ∈ c.blocks, ∀ i ∈ b.body, ∀ t ordinal, i.op = .newUnboxedEnum t ordinal → T t)
    (hd : u.body c method isStatic = .ok d) (hq : d.pack = .ok q) : q.NamesOnly K T := by
  obtain ⟨-, -, -, hmakes, hguards⟩ := body_spec (fun t => by rw [hn.type, hvoid.type]) hn.returnType_proto hd
  obtain ⟨hnames, hguarded⟩ := Body.names_of_pack hq
  refine ⟨fun k hk => ?_, fun start hs hget x hx => ?_⟩
  · rcases hnames k hk with ⟨b, hb, j, hj, hconstant⟩ | ⟨b, hb, x, hx, v, hv, rfl⟩
    · obtain ⟨i, hij, hi⟩ := hmakes b hb j hj
      rcases hij.constants k hconstant with ⟨k₀, -, hrenews⟩ | ⟨f, t, -, hcast, rfl⟩ | ⟨t, ordinal, hop, rfl⟩
      · exact h.renews k₀ k hrenews
      · exact h.constant t (h.readCast f t hcast)
      · rcases hi with hfiller | ⟨b₀, hb₀, hi⟩
        · exact absurd hop (hfiller.2.2.2 t ordinal)
        · exact h.constant t (hplaceholder b₀ hb₀ i hi t ordinal hop)
    · exact h.constant v.type (typed_body h hd v (List.mem_of_getElem? hv))
  · obtain ⟨b, hb, y, hy, hguard⟩ := hguarded start hs hget x hx
    obtain ⟨b₀, -, z, -, heq⟩ := hguards b hb y hy
    rw [← hguard, heq]
    exact h.type z.guard

theorem namesOnly_of_kept (h : u.Brings method K T) (hq : u.Kept method p q) : q.NamesOnly K T := by
  refine ⟨fun k hk => ?_, fun start hs hget x hx => ?_⟩
  · obtain ⟨k₀, -, flag, hflag⟩ := exists_of_mem_left hq.pool.flip hk
    exact h.renews k₀ k (renews_of_constant? hflag)
  · have hmem : (start, hs) ∈ (p.handlers.map fun _ hs => u.handlers hs).toList :=
      hq.handlers ▸ Std.TreeMap.mem_toList_iff_getElem?_eq_some.2 hget
    rw [Std.TreeMap.mem_toList_iff_getElem?_eq_some, Std.TreeMap.getElem?_map, Option.map_eq_some_iff] at hmem
    obtain ⟨hs₀, -, rfl⟩ := hmem
    obtain ⟨y, -, rfl⟩ := List.mem_map.1 hx
    exact h.type y.guard

theorem namesOnly_of_packed (hn : u.Across n) (hvoid : n.KeepsVoid) (h : u.Brings method K T) (hp : ∀ t, .type t ∈ p.constants → T t)
    {r : PackedUpdate} (hr : u.packed p method isStatic = .ok r) : (r.result p).NamesOnly K T := by
  rcases kept_or_rebuilt hr with hkept | ⟨q, rfl, hrebuild⟩
  · obtain ⟨-, hq, -⟩ := kept_of_packed hr hkept
    exact namesOnly_of_kept h hq
  · obtain ⟨c, hc, hrebuild⟩ := bind_eq_ok.1 hrebuild
    obtain ⟨d, hd, hrebuild⟩ := bind_eq_ok.1 hrebuild
    obtain ⟨_, hq, hrebuild⟩ := bind_eq_ok.1 hrebuild
    cases hrebuild
    refine namesOnly_of_body hn hvoid h (fun b hb i hi t ordinal hop => hp t ?_) (Outcome.lift_eq_ok.1 hd) hq
    exact (PackedBody.each_holds_of_unpack hc b hb i hi).2 _ (by rw [hop]; rfl)

/-- **What code names that was brought up to date.** -/
theorem namesOnly_of_methodCode (hn : u.Across n) (hvoid : n.KeepsVoid) {m : MethodDef} (h : u.Brings m.ref K T)
    (hp : ∀ t, .type t ∈ p.constants → T t) {code' : Code} {fate : BodyFate} (hrun : u.methodCode false m (.packed p) = .ok (code', fate)) :
    ∃ q, code' = .packed q ∧ q.NamesOnly K T := by
  obtain ⟨r, hr, hrun⟩ := bind_eq_ok.1 hrun
  have hnames := namesOnly_of_packed hn hvoid h hp hr
  cases r <;> cases hrun <;> exact ⟨_, rfl, hnames⟩

end DexShrinker.Update
