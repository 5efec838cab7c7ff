/-
  DexShrinker/Proofs/Merging/Overriding.lean
  ==========================================
  **When a merge preserves overriding.**

  A virtual method should keep the signature of every method that it overrides or
  implements. It takes the signature of the first method in sight that it overrides, and
  every virtual method above its class still has its signature in sight. So the method
  goes with a method above it exactly when that first one goes with it
  (`Merging.signature_eq_iff_follows`).

  It need not: of two methods with the same new signature only the first is in sight, also
  if one of them is a library method that the other one has nothing to do with
  (`Merging.implementation_renamed`).
-/
import DexShrinker.Proofs.Merging.Merged

namespace DexShrinker.Merging

/-- The method `m` of the program class `c` overrides or implements the method `k` of `d`. -/
structure Overrides (p : Program) (c : ClassDef) (m : MethodDef) (d : ClassDef) (k : MethodDef) : Prop where
  program : c ∈ p.programClasses
  method : m ∈ c.virtualMethods
  above : d ∈ p.classes
  overridden : k ∈ d.virtualMethods
  below : Relation.TransGen (Placement.Names p.classes) d.type c.type
  signature : m.ref.signature = k.ref.signature

/-- The first method that is in sight of the class that `c` goes to and that `m` overrides
    has the signature `s`. -/
def Follows (hash : HashOrder) (v : View) (maxGroupSize : Nat) (c : ClassDef) (m : MethodDef) (s : Signature) : Prop :=
  ∀ P, planned hash v maxGroupSize = .ok (some P) → ∀ u ∈ P.classes, u.shell.type = P.type c.type →
    (P.inSight u).overridden? v.program m.ref = some s

instance (hash : HashOrder) (v : View) (maxGroupSize : Nat) (c : ClassDef) (m : MethodDef) (s : Signature) :
    Decidable (Follows hash v maxGroupSize c m s) :=
  match h : planned hash v maxGroupSize with
  | .ok (some P) =>
    decidable_of_iff (∀ u ∈ P.classes, u.shell.type = P.type c.type → (P.inSight u).overridden? v.program m.ref = some s)
      ⟨fun hall Q hQ => by cases h.symm.trans hQ; exact hall, fun hfollows => hfollows P h⟩
  | .ok none => isTrue fun Q hQ => by cases h.symm.trans hQ
  | .error _ => isTrue fun Q hQ => by cases h.symm.trans hQ

variable {hash : HashOrder} {v : View} {maxGroupSize : Nat}

/-- What a virtual method has become is in the table of what its class has become. -/
theorem Placed.mem_table (hv : v.program.WellFormed) {P : Plan} (hplan : planned hash v maxGroupSize = .ok (some P)) {d : ClassDef}
    (hd : d ∈ v.program.classes) {k k' : MethodDef} (hk : k ∈ d.virtualMethods) (h : Placed hash v maxGroupSize d k k') :
    ∃ t, P.last.tables[P.type d.type]? = some t ∧ k'.ref.signature ∈ t.keys := by
  have hvalid := valid_of_planned hplan
  cases hlib : d.isLibrary with
  | true =>
    obtain rfl := h.eq_of_library hlib
    obtain ⟨rank, hlayered⟩ := hvalid.layered hv
    have hsettled := Placement.settled_walk hlayered P.state.log (hvalid.mem_visited hd hlib)
    have hnone : P.classes.find? (·.shell.type == d.type) = none := by
      refine List.find?_eq_none.2 fun u hu htype => ?_
      have heq := List.inj_on_of_nodup_map hlayered.nodup (Plan.Valid.shell_mem_visited hu) (hvalid.mem_visited hd hlib)
        (by simpa using htype)
      obtain ⟨types, c, hc, hgathers, -, -⟩ := hvalid.origin hu
      have hkind := hgathers.kind
      rw [heq] at hkind
      have hprog := (List.mem_filter.1 hc).2
      simp only [ClassDef.isProgram, ClassDef.isLibrary, ← hkind, beq_iff_eq] at hprog hlib
      cases hprog.symm.trans hlib
    rw [Placement.Settled, hnone] at hsettled
    refine ⟨_, by rw [hvalid.type_of_library hv hd hlib]; exact hsettled, ?_⟩
    exact (Placement.libraryTable_spec d _).2 k hk
  | false =>
    obtain ⟨u, -, htype, st, htable, hplaced⟩ := h.placedIn hv hplan hlib
    exact ⟨st.table, htype ▸ htable, (hplaced.virtual (List.mem_filter.1 hk).2).1⟩

/-- A virtual method gets the signature of the first method in sight that it overrides. -/
theorem Placed.signature_eq_of_follows (hv : v.program.WellFormed) {P : Plan} (hplan : planned hash v maxGroupSize = .ok (some P))
    {c : ClassDef} (hlib : c.isLibrary = false) {m m' : MethodDef} (hvirtual : m.isVirtual = true)
    (h : Placed hash v maxGroupSize c m m') {s : Signature} (hfollows : Follows hash v maxGroupSize c m s) : m'.ref.signature = s := by
  obtain ⟨u, hu, htype, st, -, hplaced⟩ := h.placedIn hv hplan hlib
  have hfirst := hfollows P hplan u hu htype
  rw [← (valid_of_planned hplan).program] at hfirst
  exact ((hplaced.virtual hvirtual).2 s (VirtualTable.overridden?_mem hfirst)).2 hfirst

theorem Overrides.isLibrary_eq_false {p : Program} {c d : ClassDef} {m k : MethodDef} (h : Overrides p c m d k) :
    c.isLibrary = false := by
  rw [Program.isLibrary_eq, (List.mem_filter.1 h.program).2]
  rfl

/-- The signature of a method above is still in sight, so it is only taken by a method that
    follows. -/
theorem Overrides.follows (hv : v.program.WellFormed) (hclosed : v.program.LibraryClosed) {c d : ClassDef} {m k m' k' : MethodDef}
    (h : Overrides v.program c m d k) (hm' : Placed hash v maxGroupSize c m m') (hk' : Placed hash v maxGroupSize d k k')
    (heq : m'.ref.signature = k'.ref.signature) : Follows hash v maxGroupSize c m k'.ref.signature := by
  intro P hplan u hu htype
  have hvalid := valid_of_planned hplan
  obtain ⟨u', hu', htype', st, -, hplaced⟩ := hm'.placedIn hv hplan h.isLibrary_eq_false
  obtain rfl : u = u' := by
    have hfind := hvalid.find?_shell hu
    rw [htype, ← htype', hvalid.find?_shell hu'] at hfind
    exact (Option.some.inj hfind).symm
  obtain ⟨rank, hlayered⟩ := hvalid.layered hv
  obtain ⟨t, ht, hmem⟩ := hk'.mem_table hv hplan h.above h.overridden
  have hbelow := hvalid.below_type hv hclosed h.above h.below
  rw [← htype] at hbelow
  have hkeys := Placement.keys_subset_inSight hlayered P.state.log ht (Plan.Valid.shell_mem_visited hu) hbelow
  have hiff := (hplaced.virtual (List.mem_filter.1 h.method).2).2 _ (hkeys hmem)
  rw [hvalid.program] at hiff
  exact hiff.1 heq

/-- **When a merge preserves overriding.** Let `m` override or implement `k`. If the first
    method in sight that `m` overrides has the new signature of `k`, then `m` gets it too;
    and unless library classes are below program classes, only then. -/
theorem signature_eq_iff_follows {r : MergeResult} (hv : v.program.WellFormed) (hrun : Merging.run hash v maxGroupSize = .ok r)
    {c d : ClassDef} {m k : MethodDef} (h : Overrides v.program c m d k) :
    (∃ m', Placed hash v maxGroupSize c m m') ∧ (∃ k', Placed hash v maxGroupSize d k k') ∧
      ∀ m' k', Placed hash v maxGroupSize c m m' → Placed hash v maxGroupSize d k k' →
        (∃ e, r.program.class? e.type = some e ∧ m' ∈ e.methods) ∧ (∃ e, r.program.class? e.type = some e ∧ k' ∈ e.methods) ∧
        (Follows hash v maxGroupSize c m k'.ref.signature → m'.ref.signature = k'.ref.signature) ∧
        (v.program.LibraryClosed → m'.ref.signature = k'.ref.signature → Follows hash v maxGroupSize c m k'.ref.signature) := by
  have hc := Program.mem_classes_of_mem_programClasses h.program
  obtain ⟨hm, hvirtual⟩ := List.mem_filter.1 h.method
  obtain ⟨hk, hvirtual'⟩ := List.mem_filter.1 h.overridden
  refine ⟨exists_placed_method hv hrun hc hm (MethodDef.isInstanceInitializer_of_isVirtual hvirtual),
    exists_placed_method hv hrun h.above hk (MethodDef.isInstanceInitializer_of_isVirtual hvirtual'), ?_⟩
  intro m' k' hm' hk'
  refine ⟨hm'.mem_program hrun hc hm, hk'.mem_program hrun h.above hk, ?_, fun hclosed => h.follows hv hclosed hm' hk'⟩
  intro hfollows
  rcases run_eq_ok hrun with ⟨hplan, -, -⟩ | ⟨P, hplan, -, -, -⟩
  · rw [← hm'.eq_of_unmerged hplan, ← hk'.eq_of_unmerged hplan]
    exact h.signature
  · exact hm'.signature_eq_of_follows hv hplan h.isLibrary_eq_false hvirtual hfollows

/-! ### A method that loses its interface

`A` and `B` become one class. `S` and `T`, which are below them, implement the methods `run`
and `stop` of a library interface. `A` has a method of the name `run` as well, which has
nothing to do with the interface. -/

def sampleType (name : String) : Descriptor := .ofBinaryName ("p/" ++ name)

def sampleMethod (holder name : String) : MethodDef where
  ref := ⟨sampleType holder, name, .void⟩
  access := .publicFlag
  code := none

def sampleTask : ClassDef where
  type := sampleType "Task"
  kind := .library
  access := .publicFlag ||| .interfaceFlag ||| .abstractFlag
  superclass := some .object
  methods := [sampleMethod "Task" "run", sampleMethod "Task" "stop"]

def sampleS : ClassDef where
  type := sampleType "S"
  superclass := some (sampleType "B")
  interfaces := [sampleType "Task"]
  methods := [sampleMethod "S" "run"]

def sampleT : ClassDef where
  type := sampleType "T"
  superclass := some (sampleType "A")
  interfaces := [sampleType "Task"]
  methods := [sampleMethod "T" "stop"]

def sampleClasses : List ClassDef :=
  [{ type := .object, kind := .library, superclass := none }, sampleTask,
    { type := sampleType "A", superclass := some .object, methods := [sampleMethod "A" "run"] },
    { type := sampleType "B", superclass := some .object }, sampleS, sampleT]

def sampleView : View where
  program := .ofList sampleClasses

theorem sample_mem {c : ClassDef} (hc : c ∈ sampleClasses) : c ∈ sampleView.program.classes :=
  Program.mem_classes.2 (Program.class?_ofList (by decide) hc)

theorem sample_wellFormed : sampleView.program.WellFormed where
  isClass := by decide
  acyclic := by
    refine ⟨fun t => if t = .object then 0 else if t = sampleType "S" ∨ t = sampleType "T" then 2 else 1, ?_⟩
    unfold Program.Ranked
    decide

theorem sample_run : ∃ r, Merging.run .inserted sampleView 30 = .ok r := by
  have hok : (Merging.run .inserted sampleView 30).isOk = true := by decide +kernel
  cases hrun : Merging.run .inserted sampleView 30 with
  | ok r => exact ⟨r, rfl⟩
  | error e => simp [hrun, Except.isOk, Except.toBool] at hok

theorem sample_overrides {c : ClassDef} {m k : MethodDef} (hc : c ∈ sampleClasses) (hprog : c.isProgram = true)
    (hm : m ∈ c.virtualMethods) (hk : k ∈ sampleTask.virtualMethods) (hs : sampleTask.type ∈ c.supertypes)
    (hsignature : m.ref.signature = k.ref.signature) : Overrides sampleView.program c m sampleTask k where
  program := List.mem_filter.2 ⟨sample_mem hc, hprog⟩
  method := hm
  above := sample_mem (by simp [sampleClasses])
  overridden := hk
  below := .single ⟨c, sample_mem hc, rfl, hs⟩
  signature := hsignature

/-- `T` keeps the name of `stop`. -/
theorem signature_eq_iff_follows_stop : ∃ r, Merging.run .inserted sampleView 30 = .ok r ∧
    ∃ m', Placed .inserted sampleView 30 sampleT (sampleMethod "T" "stop") m' ∧ m'.ref.signature = (sampleMethod "Task" "stop").ref.signature := by
  obtain ⟨r, hrun⟩ := sample_run
  have hoverrides : Overrides sampleView.program sampleT (sampleMethod "T" "stop") sampleTask (sampleMethod "Task" "stop") :=
    sample_overrides (by simp [sampleClasses]) rfl (List.mem_filter.2 ⟨by simp [sampleT], by decide⟩)
      (List.mem_filter.2 ⟨by simp [sampleTask], by decide⟩) (by simp [sampleT, sampleTask, ClassDef.supertypes]) rfl
  obtain ⟨⟨m', hm'⟩, -, hall⟩ := signature_eq_iff_follows sample_wellFormed hrun hoverrides
  have hfollows : Follows .inserted sampleView 30 sampleT (sampleMethod "T" "stop") (sampleMethod "Task" "stop").ref.signature := by
    decide +kernel
  exact ⟨r, hrun, m', hm', (hall m' _ hm' (.library rfl)).2.2.1 hfollows⟩

/-- The clash: `S` loses the name of `run`, because the one of `A` was in sight first. -/
theorem implementation_renamed : ∃ r, Merging.run .inserted sampleView 30 = .ok r ∧
    Overrides sampleView.program sampleS (sampleMethod "S" "run") sampleTask (sampleMethod "Task" "run") ∧
    ∃ m', Placed .inserted sampleView 30 sampleS (sampleMethod "S" "run") m' ∧
      Placed .inserted sampleView 30 sampleTask (sampleMethod "Task" "run") (sampleMethod "Task" "run") ∧
      m'.ref.signature ≠ (sampleMethod "Task" "run").ref.signature := by
  obtain ⟨r, hrun⟩ := sample_run
  have hoverrides : Overrides sampleView.program sampleS (sampleMethod "S" "run") sampleTask (sampleMethod "Task" "run") :=
    sample_overrides (by simp [sampleClasses]) rfl (List.mem_filter.2 ⟨by simp [sampleS], by decide⟩)
      (List.mem_filter.2 ⟨by simp [sampleTask], by decide⟩) (by simp [sampleS, sampleTask, ClassDef.supertypes]) rfl
  have hclosed : sampleView.program.LibraryClosed := by
    unfold Program.LibraryClosed
    decide
  have hno : ¬ Follows .inserted sampleView 30 sampleS (sampleMethod "S" "run") (sampleMethod "Task" "run").ref.signature := by
    decide +kernel
  obtain ⟨m', hm'⟩ := exists_placed_method sample_wellFormed hrun (sample_mem (c := sampleS) (by simp [sampleClasses]))
    (m := sampleMethod "S" "run") (by simp [sampleS]) (by decide +kernel)
  refine ⟨r, hrun, hoverrides, m', hm', .library rfl, fun heq => hno ?_⟩
  exact hoverrides.follows sample_wellFormed hclosed hm' (.library rfl) heq

end DexShrinker.Merging
