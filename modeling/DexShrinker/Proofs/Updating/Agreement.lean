/-
  DexShrinker/Proofs/Updating/Agreement.lean
  ==========================================
  **Patching a body agrees with rebuilding it.**

  A body that an update across one layer leaves packed unpacks to the code that the
  update makes of the unpacked body: the same blocks with the same phis, instructions,
  lines, targets and handlers, under the same names for values. The present signature
  must have as many arguments as the body. Without that the update can leave a body that
  cannot be unpacked any more.
-/
import DexShrinker.Proofs.Updating.Operation

namespace DexShrinker

open Std

/-! ### Code up to flags -/

/-- The block without the flags of interface calls. -/
def Block.unflagged (b : Block) : Block :=
  { b with body := b.body.map fun i => { i with op := i.op.unflagged } }

/-- The same code for the same method, up to the types of values and the flags of interface
    calls. -/
structure Body.SameCode (c d : Body) : Prop where
  method : c.method = d.method
  isStatic : c.isStatic = d.isStatic
  arguments : c.arguments = d.arguments
  origins : c.values.map Value.origin = d.values.map Value.origin
  blocks : c.blocks.map Block.unflagged = d.blocks.map Block.unflagged

/-! ### Guards -/

namespace Body

theorem map_guard_foldl (hs kept : List Handler) :
    (hs.foldl (fun kept h => if kept.any (·.guard == h.guard) then kept else kept ++ [h]) kept).map Handler.guard =
      (hs.map Handler.guard).foldl (fun kept g => if kept.any (· == g) then kept else kept ++ [g])
        (kept.map Handler.guard) := by
  induction hs generalizing kept with
  | nil => rfl
  | cons h hs ih =>
    rw [List.foldl_cons, List.map_cons, List.foldl_cons, ih, List.any_map]
    congr 1
    by_cases hany : kept.any (·.guard == h.guard) = true
    · rw [if_pos hany, if_pos (by simpa [Function.comp_def] using hany)]
    · rw [if_neg hany, if_neg (by simpa [Function.comp_def] using hany), List.map_append]
      rfl

/-- How many handlers are left depends on the guards only. -/
theorem length_distinctGuards {hs hs' : List Handler} (h : hs.map Handler.guard = hs'.map Handler.guard) :
    (distinctGuards hs).length = (distinctGuards hs').length := by
  have hmap : (distinctGuards hs).map Handler.guard = (distinctGuards hs').map Handler.guard := by
    rw [distinctGuards, distinctGuards, map_guard_foldl, map_guard_foldl, h]
  simpa using congrArg List.length hmap

end Body

theorem PackedBody.guards_of_layoutHandlers {p : PackedBody} {starts : List Nat} {start : Nat} {hs : List Handler}
    (h : p.layoutHandlers starts start = .ok hs) :
    hs.map Handler.guard = (p.handlers.getD start []).map Handler.guard := by
  have hforall := mapM_eq_ok_iff.1 h
  generalize p.handlers.getD start [] = xs at hforall
  clear h
  induction hforall with
  | nil => rfl
  | cons hx _ ih =>
    obtain ⟨target, -, heq⟩ := bind_eq_ok.1 hx
    cases heq
    rw [List.map_cons, List.map_cons, ih]

/-- The handlers of a block have the guards that some start has in the stream. -/
theorem PackedBody.guards_of_unpack {p : PackedBody} {method : MethodRef} {isStatic : Bool} {types : List Descriptor}
    {c : Body} (h : p.unpack method isStatic types = .ok c) {b : Block} (hb : b ∈ c.blocks) :
    ∃ start : Nat, b.handlers.map Handler.guard = (p.handlers.getD start []).map Handler.guard := by
  obtain ⟨-, -, s, -, hclose⟩ := unpack_eq_ok_iff.1 h
  obtain ⟨-, -, blocks, hblocks, -, rfl, -⟩ := close_eq_ok_iff.1 hclose
  obtain ⟨i, hi, rfl⟩ := List.getElem_of_mem hb
  have hforall := mapM_eq_ok_iff.1 hblocks
  have hlt : i < s.blocks.toList.length := hforall.length_eq ▸ hi
  have hblock := (List.forall₂_iff_get.1 hforall).2 i hlt hi
  refine ⟨(s.blocks.toList.get ⟨i, hlt⟩).1, ?_⟩
  simp only at hblock
  split at hblock
  · cases hblock
  · obtain ⟨t, -, hblock⟩ := bind_eq_ok.1 hblock
    obtain ⟨hs, hhs, hblock⟩ := bind_eq_ok.1 hblock
    have hhandlers : blocks[i].handlers = hs := (congrArg Block.handlers (Except.ok.inj hblock)).symm
    rw [hhandlers]
    exact guards_of_layoutHandlers hhs

namespace Update

variable {u : Update} {n : Renaming} {context : MethodRef} {p q : PackedBody}

/-! ### Unpacking a patched body -/

theorem Patched.tablesAlike (hq : u.Patched context p q) : PackedBody.TablesAlike u.type p q := by
  refine ⟨hq.argumentCount, hq.instructionCount, hq.lines, fun start => ?_, fun t x hx => ⟨_, hq.typeAt hx⟩⟩
  have hequiv := TreeMap.equiv_iff_toList_eq.2 hq.handlers
  rw [hequiv.getElem?_eq, TreeMap.getElem?_map]
  rfl

/-- **A patched body unpacks**, to the instructions that the update makes. -/
theorem Patched.unpack (hn : u.Across n) (hvoid : n.KeepsVoid) (hq : u.Patched context p q)
    {method method' : MethodRef} {isStatic isStatic' : Bool} {types types' : List Descriptor} {c : Body}
    (htypes' : types'.length = p.argumentCount) (h : p.unpack method isStatic types = .ok c) :
    ∃ c', q.unpack method' isStatic' types' = .ok c' ∧ c'.method = method' ∧ c'.isStatic = isStatic' ∧
      c'.arguments = c.arguments ∧ c'.values.map Value.origin = c.values.map Value.origin ∧
      List.Forall₂ (Block.Alike (u.Carried context) u.type) c.blocks c'.blocks := by
  obtain ⟨-, -, s, hrun, -⟩ := PackedBody.unpack_eq_ok_iff.1 h
  obtain ⟨vs, hviews, hdecode⟩ := PackedBody.views_of_run hrun
  obtain ⟨g, hviews', hkeeps⟩ := hq.views vs hviews hdecode
  refine PackedBody.unpack_lockstep (sameValues_carried u context) hq.tablesAlike hviews hviews' ?_ htypes' h
  rw [List.forall₂_map_right_iff, List.forall₂_same]
  intro v hv
  refine ⟨rfl, rfl, fun i hi => ?_⟩
  obtain ⟨i', hi', hkeep⟩ := hkeeps v hv i hi
  refine ⟨i', hi', ?_⟩
  by_cases hplain : Unpacking.IsPlain i
  · obtain ⟨hplain', hfollows⟩ := hq.follows_operation hn hvoid hkeep hplain
    exact .inl ⟨hplain, hplain', hfollows⟩
  · refine .inr ⟨hplain, ?_⟩
    cases i with
    | phi | goto | «fallthrough» | branch | ret | throw => exact hkeep
    | _ => exact absurd trivial hplain

/-! ### Updating an unpacked body -/

/-- No block of the unpacked body loses a handler. -/
theorem Kept.distinct_of_unpack (hq : u.Kept context p q) {method : MethodRef} {isStatic : Bool} {types : List Descriptor}
    {c : Body} (hc : p.unpack method isStatic types = .ok c) :
    ∀ b ∈ c.blocks, (Body.distinctGuards (u.handlers b.handlers)).length = (u.handlers b.handlers).length := by
  intro b hb
  obtain ⟨start, hguards⟩ := PackedBody.guards_of_unpack hc hb
  have hguards' : (u.handlers b.handlers).map Handler.guard = (u.handlers (p.handlers.getD start [])).map Handler.guard := by
    simpa [Update.handlers, Function.comp_def] using congrArg (List.map u.type) hguards
  have hlength : (u.handlers b.handlers).length = (u.handlers (p.handlers.getD start [])).length := by
    simpa only [List.length_map] using congrArg List.length hguards'
  rw [Body.length_distinctGuards hguards', hlength, TreeMap.getD_eq_getD_getElem?]
  cases hstart : p.handlers[start]? with
  | none => rfl
  | some hs => exact hq.distinct start hs hstart

/-- Steps that add no values, one after the other. -/
theorem run_mapM {α β : Type} {f : α → WithValues β} {xs : List α} {ys : List β}
    (h : List.Forall₂ (fun x y => ∀ values, (f x).run values = .ok (y, values)) xs ys) (values : List Value) :
    (xs.mapM f).run values = .ok (ys, values) := by
  induction h with
  | nil => rfl
  | cons hx _ ih =>
    rw [List.mapM_cons, StateT.run_bind, hx, ok_bind, StateT.run_bind, ih]
    rfl

/-- A block whose instructions all stay single is updated in place. -/
theorem run_block {b b' : Block} (h : b.Alike (u.Carried context) u.type b')
    (hportable : ∀ i ∈ b.body, i.op.isPortable = true) :
    ∃ d : Block, (∀ values, (u.block context b).run values = .ok (d, values)) ∧ d.unflagged = b'.unflagged ∧
      d.handlers = u.handlers b.handlers := by
  have hbody : ∃ is : List Instr, List.Forall₂ (fun i i' => ∀ values, (u.instr context i).run values = .ok ([i'], values))
      b.body is ∧ is.map (fun i => { i with op := i.op.unflagged }) = b'.body.map fun i => { i with op := i.op.unflagged } := by
    have hforall := h.body
    generalize b.body = xs, b'.body = xs' at hforall hportable
    induction hforall with
    | nil => exact ⟨[], .nil, rfl⟩
    | @cons i i' _ _ hi _ ih =>
      rw [List.forall_mem_cons] at hportable
      obtain ⟨op, hop, hrun⟩ := hi.updated hportable.1
      obtain ⟨is, his, hflags⟩ := ih hportable.2
      refine ⟨{ i with op := op } :: is, .cons hrun his, ?_⟩
      rw [List.map_cons, List.map_cons, hflags, hop, hi.dest, hi.line]
  obtain ⟨is, his, hflags⟩ := hbody
  refine ⟨{ b with body := is, handlers := u.handlers b.handlers }, fun values => ?_, ?_, rfl⟩
  · have hmapM : (b.body.mapM (u.instr context)).run values = .ok (is.map fun i => [i], values) :=
      run_mapM (List.forall₂_map_right_iff.2 his) values
    rw [block, StateT.run_bind, hmapM]
    simp [handlers, ← List.flatMap_def]
  · simp only [Block.unflagged, hflags, h.phis, h.terminator, h.terminatorLine, h.handlers, handlers]

/-- **The update of a body whose blocks are all updated in place.** -/
theorem body_eq_ok {method : MethodRef} {isStatic : Bool} {c c' : Body} {changes : ProtoChanges}
    (hchanges : u.definitionChanges method = .ok changes) (hempty : changes.isEmpty = true)
    (halike : List.Forall₂ (Block.Alike (u.Carried method) u.type) c.blocks c'.blocks)
    (hportable : ∀ b ∈ c.blocks, ∀ i ∈ b.body, i.op.isPortable = true)
    (hdistinct : ∀ b ∈ c.blocks, (Body.distinctGuards (u.handlers b.handlers)).length = (u.handlers b.handlers).length) :
    ∃ d, u.body c method isStatic = .ok d ∧ d.method = method ∧ d.isStatic = isStatic ∧ d.arguments = c.arguments ∧
      d.values.map Value.origin = c.values.map Value.origin ∧
      d.blocks.map Block.unflagged = c'.blocks.map Block.unflagged := by
  have hblocks : ∃ bs : List Block, List.Forall₂ (fun b d => ∀ values, (u.block method b).run values = .ok (d, values))
      c.blocks bs ∧ bs.map Block.unflagged = c'.blocks.map Block.unflagged ∧
      ∀ d ∈ bs, (Body.distinctGuards d.handlers).length = d.handlers.length := by
    generalize c.blocks = xs, c'.blocks = xs' at halike hportable hdistinct
    induction halike with
    | nil => exact ⟨[], .nil, rfl, by simp⟩
    | cons hb _ ih =>
      rw [List.forall_mem_cons] at hportable hdistinct
      obtain ⟨d, hrun, hflags, hhandlers⟩ := run_block hb hportable.1
      obtain ⟨bs, hbs, hflags', hguards⟩ := ih hportable.2 hdistinct.2
      refine ⟨d :: bs, .cons hrun hbs, by rw [List.map_cons, List.map_cons, hflags, hflags'], ?_⟩
      exact List.forall_mem_cons.2 ⟨hhandlers ▸ hdistinct.1, hguards⟩
  obtain ⟨bs, hrun, hflags, hguards⟩ := hblocks
  have hprune (d : Body) (hd : d.blocks = bs) : d.pruneGuards = .ok d := by
    rw [Body.pruneGuards, if_pos]
    simpa [hd] using hguards
  refine ⟨⟨method, isStatic, c.arguments, c.values.map fun v => { v with type := u.type v.type }, bs⟩, ?_, rfl, rfl, rfl, ?_,
    hflags⟩
  · simp only [body, hchanges, ok_bind, Body.updateArguments, hempty, if_true, run_mapM hrun, hprune]
    rfl
  · simp [Function.comp_def]

/-- **Patching agrees with rebuilding.** Let a body unpack against the name its method had
    before a recorded layer, let no return type become void or cease to be, and let the body
    have neither unboxed enum constants nor calls of superclass methods. If the update
    leaves the body packed and the present signature has as many arguments as the body, then
    it unpacks against that signature, and to the code that the update of the unpacked body
    gives. -/
theorem unpack_packed_agrees {r : Recorder} (hr : r.Recorded) (hu : u.Across r.layer) (hvoid : r.layer.KeepsVoid)
    {method : MethodRef} {isStatic wasStatic : Bool} {c : Body}
    (hc : p.unpack (u.lens.previousMethod method u.code) wasStatic
      ((u.lens.previousMethod method u.code).argumentTypes wasStatic) = .ok c)
    (hportable : ∀ b ∈ c.blocks, ∀ i ∈ b.body, i.op.isPortable = true) {update : PackedUpdate}
    (hupdate : u.packed p method isStatic = .ok update) (hkept : update.kept? p = some q)
    (hcount : (method.argumentTypes isStatic).length = p.argumentCount) :
    ∃ c' d, q.unpack method isStatic (method.argumentTypes isStatic) = .ok c' ∧ u.body c method isStatic = .ok d ∧
      c'.SameCode d := by
  obtain ⟨⟨changes, hchanges, hempty⟩, hq⟩ := patched_of_packed hu hr.fields_ne hupdate hkept
  obtain ⟨c', hc', hmethod, hstatic, harguments, horigins, hblocks⟩ := hq.unpack hu hvoid hcount hc
  obtain ⟨d, hd, hmethod', hstatic', harguments', horigins', hblocks'⟩ :=
    body_eq_ok hchanges hempty hblocks hportable (hq.distinct_of_unpack hc)
  exact ⟨c', d, hc', hd, hmethod.trans hmethod'.symm, hstatic.trans hstatic'.symm, harguments.trans harguments'.symm,
    horigins.trans horigins'.symm, hblocks'.symm⟩

/-! ### Samples -/

/-- The update of code that is older than one recorded layer. -/
def acrossOnly (r : Recorder) : Update := ⟨Lens.identity.push (.renames r.layer), .identity⟩

/-- `A.f` has become the static method `B.g`. -/
def staticized : Recorder :=
  let f : MethodRef := ⟨⟨"Lp/A;"⟩, "f", ⟨.void, []⟩⟩
  let g : MethodRef := ⟨⟨"Lp/B;"⟩, "g", ⟨.void, [⟨"Lp/A;"⟩]⟩⟩
  ((Recorder.start .synthetic).moveMethod f g).recordInvokeKind g .static

/-- The static method `A.m`, which has one argument. -/
def caller : MethodRef := ⟨⟨"Lp/A;"⟩, "m", ⟨.void, [⟨"Lp/A;"⟩]⟩⟩

/-- A virtual call of `A.f` on the argument. -/
def callerBody : PackedBody where
  constants := [.method ⟨⟨"Lp/A;"⟩, "f", ⟨.void, []⟩⟩]
  bytes := [34, 2, 0, 2, 8]
  argumentCount := 1
  instructionCount := 2
  lines := [⟨0, 4⟩]
  handlers := ∅

theorem unpack_packed_agrees_callerBody :
    ∃ c update q c' d, callerBody.unpack caller true (caller.argumentTypes true) = .ok c ∧
      (acrossOnly staticized).packed callerBody caller true = .ok update ∧ update.kept? callerBody = some q ∧
      q.bytes ≠ callerBody.bytes ∧ q.unpack caller true (caller.argumentTypes true) = .ok c' ∧
      (acrossOnly staticized).body c caller true = .ok d ∧ c'.SameCode d := by
  have hprevious : (acrossOnly staticized).lens.previousMethod caller .identity = caller := by decide +kernel
  have hunpack : (match callerBody.unpack caller true (caller.argumentTypes true) with
      | .ok c => c.blocks.all fun b => b.body.all fun i => i.op.isPortable
      | .error _ => false) = true := by decide +kernel
  have hpacked : (match (acrossOnly staticized).packed callerBody caller true with
      | .ok update => (update.kept? callerBody).any fun q => q.bytes != callerBody.bytes
      | .error _ => false) = true := by decide +kernel
  have hrecorded : staticized.Recorded := .recordInvokeKind _ _ (.moveMethod _ _ (.start _))
  have hacross : (acrossOnly staticized).Across staticized.layer := rfl
  split at hunpack
  · next c hc =>
    have hc' : callerBody.unpack ((acrossOnly staticized).lens.previousMethod caller .identity) true
        (((acrossOnly staticized).lens.previousMethod caller .identity).argumentTypes true) = .ok c := by
      rwa [hprevious]
    split at hpacked
    · next update hupdate =>
      obtain ⟨q, hq, hbytes⟩ := (Option.any_eq_true _ _).1 hpacked
      obtain ⟨c', d, hunpacked, hd, hsame⟩ := unpack_packed_agrees hrecorded hacross (by decide +kernel) hc'
        (by simpa using hunpack) hupdate hq (by decide)
      exact ⟨c, update, q, c', d, hc, hupdate, hq, by simpa using hbytes, hunpacked, hd, hsame⟩
    · cases hpacked
  · cases hunpack

/-- `A.m` has lost its parameter, and nobody recorded what happened to its definition. -/
def narrowed : Recorder :=
  (Recorder.start .synthetic).moveMethod ⟨⟨"Lp/A;"⟩, "m", ⟨.void, [.int]⟩⟩ ⟨⟨"Lp/A;"⟩, "m", ⟨.void, []⟩⟩

/-- A body that returns at once, with one argument. -/
def returnBody : PackedBody where
  constants := []
  bytes := [8]
  argumentCount := 1
  instructionCount := 1
  lines := []
  handlers := ∅

def isUnchanged : PackedUpdate → Bool
  | .unchanged => true
  | _ => false

theorem eq_unchanged_of_any {ε : Type} {result : Outcome ε PackedUpdate} (h : result.toOption.any isUnchanged = true) :
    result = .ok .unchanged := by
  cases result with
  | error e => cases h
  | ok update =>
    cases update with
    | unchanged => rfl
    | _ => cases h

/-- **The number of arguments matters.** Here everything else is given, the update answers
    that nothing changed, and the body cannot be unpacked against the present signature. -/
theorem unchanged_not_unpackable :
    let method : MethodRef := ⟨⟨"Lp/A;"⟩, "m", ⟨.void, []⟩⟩
    let previous := (acrossOnly narrowed).lens.previousMethod method .identity
    narrowed.Recorded ∧ (acrossOnly narrowed).Across narrowed.layer ∧ narrowed.layer.KeepsVoid ∧
      (∃ c, returnBody.unpack previous true (previous.argumentTypes true) = .ok c ∧
        ∀ b ∈ c.blocks, ∀ i ∈ b.body, i.op.isPortable = true) ∧
      (acrossOnly narrowed).packed returnBody method true = .ok .unchanged ∧
      ¬ ∃ c', returnBody.unpack method true (method.argumentTypes true) = .ok c' := by
  intro method previous
  have hunpack : (match returnBody.unpack previous true (previous.argumentTypes true) with
      | .ok c => c.blocks.all fun b => b.body.all fun i => i.op.isPortable
      | .error _ => false) = true := by decide +kernel
  have hpacked : ((acrossOnly narrowed).packed returnBody method true).toOption.any isUnchanged = true := by decide +kernel
  refine ⟨.moveMethod _ _ (.start _), rfl, by decide +kernel, ?_, ?_, ?_⟩
  · split at hunpack
    · next c hc => exact ⟨c, hc, by simpa using hunpack⟩
    · cases hunpack
  · cases hresult : (acrossOnly narrowed).packed returnBody method true with
    | error e =>
      rw [hresult] at hpacked
      cases hpacked
    | ok update =>
      rw [hresult] at hpacked
      cases update with
      | unchanged => rfl
      | _ => cases hpacked
  · rintro ⟨c', hc'⟩
    cases (PackedBody.unpack_eq_ok_iff.1 hc').1

end Update

end DexShrinker
