/-
  DexShrinker/Proofs/Shrink/Accesses.lean
  =======================================
  **The table of field accesses that is carried over covers the merged program.**

  A table covers a program if it lists every access of a body (`FieldAccess.Covers`). The table
  of the view that passes start from was computed, so it covers the program. A merge renames the
  table, and adds the accesses of the dispatching initializers. Bodies are brought up to
  date apart from that, by patching or rebuilding them. Still the table covers the merged program
  (`Shrink.covers_mergeClasses`): no body touches a field that it did not touch before under
  an old name. So the table that would be computed of the merged program lists no field as read
  or written that is not read or written in the table that was carried over
  (`Shrink.accessed_of_mergeClasses`).

  A method of the merged program has the body of a method from before, or it is a dispatching
  initializer. The body of a dispatching initializer touches the class id only, which it writes
  (`InitMerge.writesOnly_of_ofGroup`), and the merge lists that among the accesses it gives
  (`Plan.Valid.touches`). That needs no conditions on the program. A method is taken for a
  dispatching initializer by its name, so what has to be seen is that no other method gets a name
  of that kind in a class that has dispatching initializers.
-/
import DexShrinker.Proofs.App.FieldAccess
import DexShrinker.Proofs.Merging.Bodies
import DexShrinker.Proofs.Packed.Writing
import DexShrinker.Proofs.Shrink.Bodies
import DexShrinker.Proofs.Updating.Uses

namespace DexShrinker

/-! ### Dispatching initializers -/

/-- The only field that the instruction touches is `f`, which it writes. -/
def Instr.WritesOnly (f : FieldRef) (i : Instr) : Prop := ∀ g how, i.op.use? = some (.field g how) → g = f ∧ how.isRead = false

/-- The only field that the body touches is `f`, which it writes. -/
def Body.WritesOnly (f : FieldRef) (c : Body) : Prop := ∀ g how, .field g how ∈ c.uses → g = f ∧ how.isRead = false

theorem Body.writesOnly_of_each {f : FieldRef} {c : Body} (h : c.Each (Instr.WritesOnly f)) : c.WritesOnly f := by
  intro g how hmem
  obtain ⟨b, hb, i, hi, huse⟩ := Body.field_mem_uses_iff.1 hmem
  exact h b hb i hi g how huse

namespace InitMerge

open Assembly

variable {p : Program} {m : MergeMap} {g : MergeGroup}

theorem adds_invoke {Q : Instr → Prop} {kind : InvokeKind} {helper : MethodRef} {args : List ValueId}
    (h : ∀ dest line, Q ⟨dest, .invoke kind helper args (kind == .interface), line⟩) : (invoke kind helper args).Adds Q := by
  unfold invoke
  dsimp only
  split
  · exact (adds_emit fun _ => h _ _).bind fun _ => adds_pure none
  · exact (adds_emitValue _ fun _ _ => h _ _).bind fun v => adds_pure (some v)

theorem adds_dispatchSteps_writesOnly (method : MethodRef) (f : FieldRef) (helpers : List (Nat × MethodRef)) (passesId : Bool) :
    (dispatchSteps method f helpers passesId).Adds (Instr.WritesOnly f) := by
  refine adds_dispatchSteps (fun helper args => ?_) (fun n => ?_) (fun receiver value => ?_) method helpers passesId
  · exact adds_invoke fun _ _ g how huse => by cases huse
  · exact adds_emitValue _ fun _ _ g how huse => by cases huse
  · refine adds_emit fun _ g how huse => ?_
    cases huse
    exact ⟨rfl, rfl⟩

/-- **A dispatching initializer writes the class id** and touches no other field. -/
theorem writesOnly_of_ofGroup {argument : Descriptor} {r : Recorder} {merge : InitMerge} (heq : ofGroup p m argument g r = .ok merge)
    {d : MethodDef} (hd : d ∈ merge.placed) (hname : d.ref.name = MethodRef.initName) :
    d.ref ∈ merge.synthesized ∧ ∃ f c, g.classIdField = some f ∧ d.code = some (.body c) ∧ c.WritesOnly f := by
  rcases ofGroup_cases heq with ⟨target, f, next, -, hid, hfold⟩ | ⟨-, rfl⟩
  · have hplaced : ∀ d ∈ merge.placed, d.ref.name = MethodRef.initName →
        d.ref ∈ merge.synthesized ∧ ∃ c, d.code = some (.body c) ∧ c.WritesOnly f := by
      refine foldlM_preserves (P := fun acc : InitMerge × Nat => ∀ d ∈ acc.1.placed, d.ref.name = MethodRef.initName →
        d.ref ∈ acc.1.synthesized ∧ ∃ c, d.code = some (.body c) ∧ c.WritesOnly f) ?_ (by simp) hfold
      rintro acc bucket - acc' hacc hstep d hd hname
      rw [synthesized_mergeProto hstep]
      rcases placed_mergeProto hstep hd with hd | ⟨n, i, -, rfl⟩ | ⟨helpers, body, hbody, rfl⟩
      · obtain ⟨hmem, hwrites⟩ := hacc d hd hname
        exact ⟨List.mem_append_left _ hmem, hwrites⟩
      · -- A helper is not called like an initializer.
        exact absurd hname (numbered_ne_initName _ _)
      · refine ⟨List.mem_append_right _ (List.mem_singleton_self _), body, rfl, ?_⟩
        exact Body.writesOnly_of_each (each_of_build (adds_dispatchSteps_writesOnly _ _ _ _) hbody)
    obtain ⟨hmem, c, hcode, hwrites⟩ := hplaced d hd hname
    exact ⟨hmem, f, c, hid, hcode, hwrites⟩
  · cases hd

end InitMerge

/-- Many writes of one field. -/
theorem FieldAccess.lists_foldl_recordWrite {t : FieldAccess} {f g : FieldRef} {isRead : Bool} {m : MethodRef} (ms : List MethodRef) :
    (ms.foldl (fun t n => FieldAccess.recordWrite t f n) t).Lists g isRead m ↔ t.Lists g isRead m ∨ g = f ∧ isRead = false ∧ m ∈ ms := by
  induction ms generalizing t with
  | nil => simp
  | cons n ms ih =>
    rw [List.foldl_cons, ih, FieldAccess.recordWrite, FieldAccess.lists_record, List.mem_cons]
    tauto

/-! ### Placed methods -/

namespace Placement

variable {p : Placement} {classes : List UnplacedClass}

/-- The signature is not that of an instance initializer. -/
def NotInitializer (new : Signature) (_ : MethodRef) : Prop := new.name ≠ MethodRef.initName

theorem suits_notInitializer (p : Placement) : p.Suits NotInitializer where
  same _ h := h
  renamed {m} hinit holder taken := by
    have hname : m.name ≠ MethodRef.initName := by simpa [MethodRef.isInstanceInitializer] using hinit
    rw [NotInitializer, Placement.renamed, signature_ofSignature]
    split
    · exact numbered_ne_initName _ _
    · exact hname

/-- The method `m` has been placed as `m'`, which is called like an initializer only if `m` is one. -/
structure Moved (holder : Descriptor) (m m' : MethodDef) : Prop where
  code : m'.code = m.code
  holder : m'.ref.holder = holder
  name : m.isInstanceInitializer = false → m'.ref.name ≠ MethodRef.initName

/-- The methods of `d` are those of `u`: the ones of the shell, and the others where they were placed. -/
def MovesMethods (u : UnplacedClass) (d : ClassDef) : Prop :=
  ∃ ms, d.methods = u.shell.methods ++ ms ∧ List.Forall₂ (Moved u.shell.type) u.methods ms

theorem movesMethods_placeClass (u : UnplacedClass) {inherited : VirtualTable} (h : inherited.Each NotInitializer) (log : PlacementLog) :
    MovesMethods u (p.placeClass u inherited log).1 := by
  obtain ⟨fs, hclass⟩ := placeClass_eq p u inherited log
  rw [hclass]
  refine ⟨_, rfl, ?_⟩
  have hsuits := suits_notInitializer p
  obtain ⟨-, -, hplaced⟩ := placeMethods_spec p u.shell.type u.methods
    (fun st m _ (hst : st.table.Each NotInitializer) => hsuits.placeMethod hst _ m)
    ⟨u.shell.methods.map (·.ref.signature), inherited, _⟩ h
  refine hplaced.imp fun m m' hm => ?_
  obtain ⟨st, hst, rfl, -⟩ := hm
  exact ⟨rfl, holder_place p _ st m, fun hinit => hsuits.place hst hinit _⟩

/-- **Where the methods of placed classes come from.** -/
theorem exists_movesMethods (log : PlacementLog) {d : ClassDef} (hd : d ∈ (p.walk classes log).placed) :
    ∃ u ∈ classes, MovesMethods u d := by
  have hwalk : (∀ (s : Descriptor) (t : VirtualTable), (p.walk classes log).tables[s]? = some t → t.Each NotInitializer) ∧
      ∀ d ∈ (p.walk classes log).placed, ∃ u ∈ classes, MovesMethods u d := by
    refine List.foldlRecOn (motive := fun st : Progress =>
      (∀ (s : Descriptor) (t : VirtualTable), st.tables[s]? = some t → t.Each NotInitializer) ∧
        ∀ d ∈ st.placed, ∃ u ∈ classes, MovesMethods u d) _ _ ⟨fun s t ht => ?_, by simp⟩ fun st hst c _ => ⟨?_, fun d hd => ?_⟩
    · simp at ht
    · exact (suits_notInitializer p).visit hst.1 fun _ m hm =>
        name_ne_initName (MethodDef.isInstanceInitializer_of_isVirtual (List.mem_filter.1 hm).2)
    · cases hfind : classes.find? (·.shell.type == c.type) with
      | none =>
        rw [visit, hfind] at hd
        exact hst.2 d hd
      | some u =>
        rw [visit_of_some hfind] at hd
        rcases List.mem_append.1 hd with hd | hd
        · exact hst.2 d hd
        · rw [List.mem_singleton.1 hd]
          exact ⟨u, List.mem_of_find?_eq_some hfind, movesMethods_placeClass u (each_inherited p.hash hst.1 c) st.log⟩
  exact hwalk.2 d hd

end Placement

/-! ### Methods of the merged program -/

namespace Merging

variable {v : View} {P : Plan}

/-- The field accesses of the body of an initializer are in the table. -/
def Accounted (t : FieldAccess) (d : MethodDef) : Prop :=
  ∃ c, d.code = some (.body c) ∧ ∀ f how, .field f how ∈ c.uses → t.Lists f how.isRead d.ref

theorem accounted_of_unplaced {p : Placement} {groups : List MergeGroup} {st st' : State} (h : groups.foldlM (mergeGroup p) st = .ok st')
    (hst : ∀ t : Descriptor, st.unplaced[t]? = none) {t : Descriptor} {u : UnplacedClass} (hu : st'.unplaced[t]? = some u) :
    ∀ d ∈ u.shell.methods, d.ref.name = MethodRef.initName → Accounted st'.fieldAccess d := by
  refine of_unplaced (Q := fun st u => ∀ d ∈ u.shell.methods, d.ref.name = MethodRef.initName → Accounted st.fieldAccess d)
    (fun st st' target inits g hg hmerges => ?_) h hst hu
  rw [hmerges.fieldAccess]
  refine ⟨fun d hd hname => ?_, fun u hu d hd hname => ?_⟩
  · obtain ⟨hmem, f, c, hid, hcode, hwrites⟩ := InitMerge.writesOnly_of_ofGroup hmerges.initialized hd hname
    refine ⟨c, hcode, fun g' how huse => ?_⟩
    obtain ⟨rfl, hread⟩ := hwrites g' how huse
    rw [hid]
    exact (FieldAccess.lists_foldl_recordWrite _).2 (.inr ⟨rfl, hread, hmem⟩)
  · -- What was listed stays.
    obtain ⟨c, hcode, hlists⟩ := hu d hd hname
    refine ⟨c, hcode, fun g' how huse => ?_⟩
    cases hid : g.classIdField with
    | none => exact hlists g' how huse
    | some f => exact (FieldAccess.lists_foldl_recordWrite _).2 (.inl (hlists g' how huse))

/-- Where a method of the merged program has its body from: from an earlier method, or it is a
    dispatching initializer whose accesses the merge gives. -/
inductive Plan.Touches (P : Plan) (p : Program) (m' : MethodDef) : Prop
  | kept (c : ClassDef) (hc : c ∈ p.programClasses) (m : MethodDef) (hm : m ∈ c.methods) (hcode : m'.code = m.code)
      (hno : m'.ref ∉ P.state.synthesized) : P.Touches p m'
  | dispatcher (href : m'.ref ∈ P.state.synthesized) (haccounted : Accounted P.state.fieldAccess m') : P.Touches p m'

namespace Plan.Valid

theorem accounted_shell (h : P.Valid v) {u : UnplacedClass} (hu : u ∈ P.classes) {d : MethodDef} (hd : d ∈ u.shell.methods)
    (hname : d.ref.name = MethodRef.initName) : Accounted P.state.fieldAccess d := by
  obtain ⟨t, hget⟩ := exists_unplaced_of_shell hu hd
  obtain ⟨report, hmerged⟩ := h.merged
  exact accounted_of_unplaced hmerged (fun t => by simp) hget d hd hname

/-- The methods that are placed come from program classes. -/
theorem exists_class_of_method (h : P.Valid v) {u : UnplacedClass} (hu : u ∈ P.classes) {m : MethodDef}
    (hm : m ∈ u.methods) : ∃ c ∈ v.program.programClasses, m ∈ c.methods := by
  rcases h.classes_cases hu with ⟨c, hc, -, rfl⟩ | ⟨g, hg, hcomes⟩
  · exact ⟨c, hc, hm⟩
  · obtain ⟨t, ht, c, hc, hm⟩ := hcomes.methods hm
    exact ⟨c, h.mem_programClasses_of_group hg ht hc, hm⟩

/-- **Which fields the methods of a merged program touch.** -/
theorem touches (h : P.Valid v) {d : ClassDef} (hd : d ∈ P.last.placed) {m' : MethodDef} (hm' : m' ∈ d.methods) :
    P.Touches v.program m' := by
  obtain ⟨u, hu, ms, hmethods, hmoved⟩ := Placement.exists_movesMethods _ hd
  rw [hmethods] at hm'
  rcases List.mem_append.1 hm' with hm' | hm'
  · obtain ⟨g, hg, hmade⟩ := h.shell_made hu hm'
    cases hmade with
    | helper x hx n hname hproto hstatic hcode =>
      obtain ⟨t, ht, c, hc, hxc⟩ := exists_class_of_initializers hx
      refine .kept c (h.mem_programClasses_of_group hg ht hc) x.2 hxc hcode fun hmem => ?_
      exact numbered_ne_initName _ _ (hname.symm.trans (h.synthesized_cases hmem).1)
    | dispatcher c href =>
      exact .dispatcher href (h.accounted_shell hu hm' (h.synthesized_cases href).1)
  · obtain ⟨m, hm, hmoves⟩ := exists_of_mem_left hmoved.flip hm'
    obtain ⟨c, hc, hmc⟩ := h.exists_class_of_method hu hm
    refine .kept c hc m hmc hmoves.code fun hmem => ?_
    obtain ⟨hname, g, hg, htarget, hid⟩ := h.synthesized_cases hmem
    rw [hmoves.holder] at htarget
    exact hmoves.name (h.isInstanceInitializer_of_classId hu hg htarget hid hm) hname

end Plan.Valid

end Merging

/-! ### Covering a program -/

/-- The table lists every access of a method of a program class, under some method. -/
def FieldAccess.Covers (t : FieldAccess) (p : Program) : Prop :=
  p.Each fun m => ∀ f isRead, m.Accesses f isRead → ∃ n, t.Lists f isRead n

/-- The uses of all bodies of program classes can be read. -/
def Program.Scanned (p : Program) : Prop := p.Each fun m => ∀ code, m.code = some code → ∃ us, code.uses = .ok us

namespace FieldAccess

variable {t computed : FieldAccess} {p : Program}

theorem covers_of_compute (h : compute p = .ok t) : p.Scanned ∧ t.Covers p := by
  refine ⟨fun c hc m hm => (lists_compute (f := default) (r := true) (m := m.ref) h).1 c hc m hm, fun c hc m hm f isRead haccess => ?_⟩
  exact ⟨m.ref, (lists_compute h).2.2 ⟨c, hc, m, hm, rfl, haccess⟩⟩

/-- A table that covers the program lists all fields that a computed table does. -/
theorem Covers.accessed (h : t.Covers p) (hcompute : compute p = .ok computed) (f : FieldRef) :
    (computed.isRead f = true → t.isRead f = true) ∧ (computed.isWritten f = true → t.isWritten f = true) := by
  have hlists (isRead : Bool) : (∃ m, computed.Lists f isRead m) → ∃ m, t.Lists f isRead m := by
    rintro ⟨m, hm⟩
    obtain ⟨c, hc, d, hd, -, haccess⟩ := (lists_compute hcompute).2.1 hm
    exact h c hc d hd f isRead haccess
  rw [isRead_iff, isRead_iff, isWritten_iff, isWritten_iff]
  exact ⟨hlists true, hlists false⟩

end FieldAccess

namespace Shrink

variable {hash : HashOrder} {o : Options} {v w : View}

/-- The table of the view that a pass has been put in. -/
theorem fieldAccess_install {p : Program} {lens : Lens} {more : FieldAccess} (h : v.install p lens more = .ok w) :
    ∃ renamed, v.fieldAccess.rename lens v.lens = .ok renamed ∧ w.fieldAccess = renamed.union more := by
  obtain ⟨w', hw', h⟩ := bind_eq_ok.1 h
  cases h
  obtain ⟨pins, -, hw'⟩ := bind_eq_ok.1 hw'
  obtain ⟨renamed, hrenamed, hw'⟩ := bind_eq_ok.1 hw'
  cases hw'
  exact ⟨renamed, hrenamed, rfl⟩

/-- A view whose bodies are written under the present names and can be read, and whose table covers the
    program. -/
structure Covered (v : View) : Prop where
  lens : v.codeLens = v.lens
  scanned : v.program.Scanned
  covers : v.fieldAccess.Covers v.program

/-- The view that passes start from. -/
theorem covered_start {p : Program} {pins : Pins} (h : start p pins = .ok v) : Covered v := by
  obtain ⟨packed, hpacked, h⟩ := bind_eq_ok.1 h
  obtain ⟨access, haccess, h⟩ := bind_eq_ok.1 h
  cases h
  obtain ⟨hscanned, hcovers⟩ := FieldAccess.covers_of_compute (Outcome.ofExcept_eq_ok.1 haccess)
  exact ⟨rfl, hscanned, hcovers⟩

/-- **Merging classes.** The table that is carried over covers the merged program. -/
theorem covers_mergeClasses (hv : Covered v) {report : MergeReport} (h : mergeClasses hash o v = .ok (w, report)) :
    w.fieldAccess.Covers w.program := by
  obtain ⟨r, hr, h⟩ := bind_eq_ok.1 h
  replace hr := Outcome.mapError_eq_ok.1 hr
  split at h
  · cases h
    exact hv.covers
  · next hne =>
    obtain ⟨v', hv', h⟩ := bind_eq_ok.1 h
    obtain ⟨⟨q, stats⟩, hq, h⟩ := bind_eq_ok.1 h
    cases h
    obtain ⟨hprogram, hlens, hcodeLens⟩ := install_spec (Outcome.lift_eq_ok.1 hv')
    obtain ⟨renamed, hrenamed, htable⟩ := fieldAccess_install (Outcome.lift_eq_ok.1 hv')
    have hmaps := View.maps_methodCode (Outcome.mapError_eq_ok.1 hq)
    rw [hprogram, hlens, hcodeLens, hv.lens] at hmaps
    rcases Merging.run_eq_ok hr with ⟨-, -, hsame⟩ | ⟨P, hplan, -, hplanned, -⟩
    · exact absurd (by simp [hsame, Lens.same]) hne
    have hvalid := Merging.valid_of_planned hplan
    obtain ⟨hsynthesized, hmore⟩ := Merging.state_of_run hr hplan
    rw [hplanned, hsynthesized] at hmaps
    rw [hmore] at htable
    rintro d hd m'' hm'' f isRead ⟨code', us', how, hcode', hus', huse, rfl⟩
    change ∃ n, v'.fieldAccess.Lists f how.isRead n
    simp only [htable, FieldAccess.lists_union]
    obtain ⟨e, he, -, m', hm', hmapped⟩ := hmaps.exists_method hd hm''
    obtain ⟨code, fate, hcode, hmethod⟩ := hmapped code' hcode'
    rcases hvalid.programClasses_cases he with he | rfl
    · cases hvalid.touches he hm' with
      | kept c hc m hm hsame hno =>
        -- The old body touches an old field, which the old table lists.
        obtain ⟨us, hus⟩ := hv.scanned c hc m hm code (hsame ▸ hcode)
        rw [List.contains_eq_mem, decide_eq_false hno] at hmethod
        obtain ⟨g, hg, rfl⟩ := Update.field_of_methodCode hmethod hus hus' huse
        obtain ⟨n, hn⟩ := hv.covers c hc m hm g how.isRead ⟨code, us, how, hsame ▸ hcode, hus, hg, rfl⟩
        obtain ⟨n', hn'⟩ := FieldAccess.exists_lists_of_rename hrenamed hn
        exact ⟨n', .inl hn'⟩
      | dispatcher href haccounted =>
        obtain ⟨b, hb, hlists⟩ := haccounted
        cases hb.symm.trans hcode
        rw [List.contains_eq_mem, decide_eq_true href] at hmethod
        exact ⟨m'.ref, .inr (hlists f how (Update.field_of_methodCode_synthesized hmethod rfl hus' huse))⟩
    · cases hm'

/-- **The table that is carried over lists all fields** that a table computed of the merged program does. -/
theorem accessed_of_mergeClasses {program : Program} {pins : Pins} (hstart : start program pins = .ok v) {report : MergeReport}
    (hmerge : mergeClasses hash o v = .ok (w, report)) {computed : FieldAccess} (hcompute : FieldAccess.compute w.program = .ok computed)
    (f : FieldRef) :
    (computed.isRead f = true → w.fieldAccess.isRead f = true) ∧ (computed.isWritten f = true → w.fieldAccess.isWritten f = true) :=
  (covers_mergeClasses (covered_start hstart) hmerge).accessed hcompute f

/-! ### Two classes with a field each

`A` and `B` become one class, which keeps the fields of both in one slot. -/

namespace Getters

def field (holder name : String) : FieldRef := ⟨Pair.type holder, name, .int⟩

def getterRef (holder name : String) : MethodRef := ⟨Pair.type holder, "get" ++ name, ⟨.int, []⟩⟩

def getterBody (holder name : String) : Body where
  method := getterRef holder name
  isStatic := false
  arguments := [0]
  values := [⟨Pair.type holder, .argument 0⟩, ⟨.int, .instruction⟩]
  blocks := [{
    body := [⟨some 1, .instanceGet (field holder name) 0, 1⟩]
    terminator := .ret (some 1) }]

def classWith (holder name : String) : ClassDef :=
  let c := Pair.classWith holder (Pair.initializer holder) (.publicFlag ||| .constructorFlag) (Pair.initializerBody holder)
  { c with
    fields := [{ ref := field holder name, access := .publicFlag }]
    methods := c.methods ++ [{ ref := getterRef holder name, access := .publicFlag, code := some (.body (getterBody holder name)) }] }

def program : Program := .ofList [Pair.object, classWith "A" "x", classWith "B" "y"]

/-- What is computed of the merged program. -/
def outcome : Option (View × FieldAccess) := do
  let v ← (start program {}).toOption
  let (w, _) ← (mergeClasses .inserted {} v).toOption
  let computed ← (FieldAccess.compute w.program).toOption
  return (w, computed)

theorem exists_computed : ∃ v w report computed, start program {} = .ok v ∧ mergeClasses .inserted {} v = .ok (w, report) ∧
    FieldAccess.compute w.program = .ok computed ∧ computed.isRead (field "A" "x") = true ∧
      computed.isWritten (field "A" "$classId") = true := by
  have houtcome : outcome.any (fun x => x.2.isRead (field "A" "x") && x.2.isWritten (field "A" "$classId")) = true := by decide +kernel
  obtain ⟨⟨w, computed⟩, hsome, haccessed⟩ := (Option.any_eq_true _ _).1 houtcome
  obtain ⟨v, hv, hsome⟩ := Option.bind_eq_some_iff.1 hsome
  obtain ⟨⟨w', report⟩, hw, hsome⟩ := Option.bind_eq_some_iff.1 hsome
  obtain ⟨computed', hcomputed, hsome⟩ := Option.bind_eq_some_iff.1 hsome
  cases hsome
  exact ⟨v, w, report, computed, toOption_eq_some.1 hv, toOption_eq_some.1 hw, toOption_eq_some.1 hcomputed,
    (Bool.and_eq_true_iff.1 haccessed).1, (Bool.and_eq_true_iff.1 haccessed).2⟩

end Getters

theorem accessed_of_mergeClasses_getters : ∃ v w report computed, start Getters.program {} = .ok v ∧
    mergeClasses .inserted {} v = .ok (w, report) ∧ FieldAccess.compute w.program = .ok computed ∧
      computed.isRead (Getters.field "A" "x") = true ∧ w.fieldAccess.isRead (Getters.field "A" "x") = true ∧
      computed.isWritten (Getters.field "A" "$classId") = true ∧ w.fieldAccess.isWritten (Getters.field "A" "$classId") = true := by
  obtain ⟨v, w, report, computed, hv, hw, hcomputed, hread, hwritten⟩ := Getters.exists_computed
  exact ⟨v, w, report, computed, hv, hw, hcomputed, hread, (accessed_of_mergeClasses hv hw hcomputed _).1 hread, hwritten,
    (accessed_of_mergeClasses hv hw hcomputed _).2 hwritten⟩

end Shrink

end DexShrinker
