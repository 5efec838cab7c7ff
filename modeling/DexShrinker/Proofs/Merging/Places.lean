/-
  DexShrinker/Proofs/Merging/Places.lean
  ======================================
  **Where the methods of a class are placed.**

  A table of virtual methods only grows at its end, and no signature is twice in it. A
  virtual method takes the signature of the first method in sight that it overrides.
  If there is none, its signature is new, in its class and among all that is in sight.
  So whether it gets a signature that is already in sight depends on the methods in
  sight alone (`Placement.place_eq_iff`).

  `Placement.placeMethods_spec` takes what holds of one method at a time to all methods of
  a class.
-/
import DexShrinker.Merging.Placement
import DexShrinker.Proofs.FreshName
import DexShrinker.Proofs.Sorting
import Mathlib.Data.List.Forall2

namespace DexShrinker

theorem MethodDef.isInstanceInitializer_of_isVirtual {m : MethodDef} (h : m.isVirtual = true) : m.isInstanceInitializer = false := by
  simp only [isVirtual, isDirect, Bool.not_eq_true', Bool.or_eq_false_iff] at h
  exact h.1.2

/-! ### Tables of virtual methods -/

namespace VirtualTable

/-- The signatures in a table. -/
def keys (t : VirtualTable) : List Signature := t.map Prod.fst

theorem isSome_method? {t : VirtualTable} {s : Signature} : (t.method? s).isSome = true ↔ s ∈ t.keys := by
  simp [method?, keys]

theorem prefix_add (t : VirtualTable) (new : Signature) (old : MethodRef) : t <+: t.add new old := by
  unfold add
  split
  · exact List.prefix_rfl
  · exact List.prefix_append t _

theorem mem_keys_add (t : VirtualTable) (new : Signature) (old : MethodRef) : new ∈ (t.add new old).keys := by
  unfold add
  split
  · next hs => exact isSome_method?.1 hs
  · simp [keys]

theorem nodup_add {t : VirtualTable} (h : t.keys.Nodup) (new : Signature) (old : MethodRef) : (t.add new old).keys.Nodup := by
  unfold add
  split
  · exact h
  · next hs =>
    have hnew : new ∉ t.keys := fun hmem => hs (isSome_method?.2 hmem)
    simp only [keys, List.map_append, List.map_cons, List.map_nil] at h hnew ⊢
    exact List.nodup_append.2 ⟨h, by simp, fun a ha b hb => by
      rintro rfl
      exact hnew ((List.mem_singleton.1 hb) ▸ ha)⟩

theorem keys_subset_of_prefix {t t' : VirtualTable} (h : t <+: t') : t.keys ⊆ t'.keys :=
  List.map_subset _ h.subset

/-- Adding methods one after the other. -/
theorem foldl_add {α : Type} (f : α → Signature) (g : α → MethodRef) (xs : List α) (t : VirtualTable) :
    let r := xs.foldl (fun t x => t.add (f x) (g x)) t
    t <+: r ∧ (t.keys.Nodup → r.keys.Nodup) ∧ ∀ x ∈ xs, f x ∈ r.keys := by
  induction xs generalizing t with
  | nil => exact ⟨List.prefix_rfl, id, by simp⟩
  | cons x xs ih =>
    obtain ⟨hbegin, hnodup, hkeys⟩ := ih (t.add (f x) (g x))
    refine ⟨(prefix_add t _ _).trans hbegin, fun h => hnodup (nodup_add h _ _), fun y hy => ?_⟩
    rcases List.mem_cons.1 hy with rfl | hy
    · exact keys_subset_of_prefix hbegin (mem_keys_add t _ _)
    · exact hkeys y hy

theorem extend_spec (hash : HashOrder) (t other : VirtualTable) :
    t <+: extend hash t other ∧ (t.keys.Nodup → (extend hash t other).keys.Nodup) ∧ other.keys ⊆ (extend hash t other).keys := by
  obtain ⟨hbegin, hnodup, hkeys⟩ := foldl_add Prod.fst Prod.snd (hash.methods other) t
  refine ⟨hbegin, hnodup, fun s hs => ?_⟩
  obtain ⟨x, hx, rfl⟩ := List.mem_map.1 hs
  exact hkeys x ((hash.perm_methods other).mem_iff.2 hx)

/-- What `F` says of signatures and methods holds of everything in the table. -/
def Each (F : Signature → MethodRef → Prop) (t : VirtualTable) : Prop := ∀ e ∈ t, F e.1 e.2

section

variable {F : Signature → MethodRef → Prop} {t other : VirtualTable}

theorem each_nil : Each F [] := fun e he => absurd he (by simp)

theorem Each.add (h : t.Each F) {new : Signature} {old : MethodRef} (hnew : F new old) : (t.add new old).Each F := by
  unfold VirtualTable.add
  split
  · exact h
  · intro e he
    rcases List.mem_append.1 he with he | he
    · exact h e he
    · rw [List.mem_singleton.1 he]
      exact hnew

theorem Each.extend (hash : HashOrder) (h : t.Each F) (hother : other.Each F) : (extend hash t other).Each F :=
  List.foldlRecOn (motive := Each F) _ _ h fun _ ht e he => ht.add (hother e ((hash.perm_methods other).mem_iff.1 he))

end

theorem overridden?_mem {p : Program} {t : VirtualTable} {m : MethodRef} {s : Signature} (h : t.overridden? p m = some s) :
    s ∈ t.keys := by
  obtain ⟨x, hx, rfl⟩ := Option.map_eq_some_iff.1 h
  exact List.mem_map_of_mem (List.mem_of_find?_eq_some hx)

/-- Methods at the end of a table only count if there is none before them. -/
theorem overridden?_append (p : Program) (t t' : VirtualTable) (m : MethodRef) :
    overridden? p (t ++ t') m = (overridden? p t m).or (overridden? p t' m) := by
  simp only [overridden?, List.find?_append]
  cases List.find? (fun x : Signature × MethodRef =>
    x.2.signature == m.signature && x.2.holder != m.holder && p.isSubtype m.holder x.2.holder) t <;> rfl

end VirtualTable

namespace Placement

/-! ### Places -/

@[simp] theorem signature_ofSignature (holder : Descriptor) (s : Signature) :
    (MethodRef.ofSignature holder s).signature = s := rfl

theorem freshSignature_not_mem (s : Signature) (taken : List Signature) : freshSignature s taken ∉ taken := by
  intro hmem
  refine numberedFresh_not_mem s.name ((taken.filter (·.proto == s.proto)).map Signature.name) ?_
  exact List.mem_map.2 ⟨freshSignature s taken, List.mem_filter.2 ⟨hmem, by simp [freshSignature]⟩, rfl⟩

/-- A method under a numbered name does not take what is taken. -/
theorem renamed_not_mem (p : Placement) (holder : Descriptor) (m : MethodRef) (taken : List Signature) :
    (p.renamed holder m taken).ref.signature ∉ taken := by
  rw [renamed, signature_ofSignature]
  split
  · exact freshSignature_not_mem _ _
  · next hno => simpa using hno

theorem place_of_isVirtual {p : Placement} {holder : Descriptor} {st : MethodState} {m : MethodDef} (hm : m.isVirtual = true) :
    p.place holder st m = p.virtual holder m.ref st.table st.reserved := by
  rw [place, if_neg (by simp [MethodDef.isInstanceInitializer_of_isVirtual hm]), if_pos hm]

/-- **The place of a virtual method.** If `t` begins with the methods that its class
    inherits, the method gets a signature that is among them exactly when that is the
    signature of the first one that it overrides. -/
theorem place_eq_iff {p : Placement} {holder : Descriptor} {st : MethodState} {m : MethodDef} (hm : m.isVirtual = true)
    {inherited : VirtualTable} (hbegin : inherited <+: st.table) (hnodup : st.table.keys.Nodup) {s : Signature}
    (hs : s ∈ inherited.keys) :
    (p.place holder st m).ref.signature = s ↔ inherited.overridden? p.program m.ref = some s := by
  obtain ⟨rest, hrest⟩ := hbegin
  have hover : st.table.overridden? p.program m.ref =
      (inherited.overridden? p.program m.ref).or (VirtualTable.overridden? p.program rest m.ref) := by
    rw [← hrest, VirtualTable.overridden?_append]
  have hdisjoint : ∀ r ∈ VirtualTable.keys rest, r ≠ s := by
    rintro r hr rfl
    rw [← hrest, VirtualTable.keys, List.map_append] at hnodup
    exact (List.nodup_append.1 hnodup).2.2 r hs r hr rfl
  rw [place_of_isVirtual hm, Placement.virtual, hover]
  cases hfirst : inherited.overridden? p.program m.ref with
  | some first => simp
  | none =>
    simp only [Option.none_or, reduceCtorEq, iff_false]
    cases hlater : VirtualTable.overridden? p.program rest m.ref with
    | some later => exact hdisjoint later (VirtualTable.overridden?_mem hlater)
    | none =>
      intro heq
      refine renamed_not_mem p holder m.ref (st.reserved ++ st.table.map Prod.fst) ?_
      rw [heq]
      refine List.mem_append_right _ ?_
      rw [← hrest, List.map_append]
      exact List.mem_append_left _ hs

/-- `F` holds of the signatures that methods get by themselves, and is about their old signatures
    only. -/
structure Suits (p : Placement) (F : Signature → MethodRef → Prop) : Prop where
  same : ∀ {s : Signature} {a b : MethodRef}, a.signature = b.signature → F s a → F s b
  renamed : ∀ {m : MethodRef}, m.isInstanceInitializer = false → ∀ holder taken, F (p.renamed holder m taken).ref.signature m

/-- What holds of all methods in sight holds of a method that takes its place among them. -/
theorem Suits.place {p : Placement} {F : Signature → MethodRef → Prop} (hF : p.Suits F) {st : MethodState} (hst : st.table.Each F)
    {m : MethodDef} (hm : m.isInstanceInitializer = false) (holder : Descriptor) : F (p.place holder st m).ref.signature m.ref := by
  rw [Placement.place, if_neg (by simp [hm])]
  split
  · unfold Placement.virtual
    split
    · next s hs =>
      obtain ⟨e, he, rfl⟩ := Option.map_eq_some_iff.1 hs
      have hmatch := List.find?_some he
      simp only [Bool.and_eq_true, beq_iff_eq] at hmatch
      exact hF.same hmatch.1.1 (hst e (List.mem_of_find?_eq_some he))
    · exact hF.renamed hm _ _
  · exact hF.renamed hm _ _

theorem Suits.placeMethod {p : Placement} {F : Signature → MethodRef → Prop} (hF : p.Suits F) {st : MethodState} (hst : st.table.Each F)
    (holder : Descriptor) (m : MethodDef) : (p.placeMethod holder st m).2.table.Each F := by
  simp only [Placement.placeMethod]
  split
  · next hvirtual => exact hst.add (hF.place hst (MethodDef.isInstanceInitializer_of_isVirtual hvirtual) holder)
  · exact hst

/-! ### All methods of a class -/

/-- Numbered results, put into order, stand where what they come from stood. -/
theorem forall₂_sorted {α β : Type} {R : α → β → Prop} {xs : List α} {zs : List (β × Nat)}
    (hperm : (zs.map Prod.snd).Perm (List.range xs.length))
    (h : ∀ z ∈ zs, ∃ x, (x, z.2) ∈ xs.zipIdx ∧ R x z.1) :
    List.Forall₂ R xs ((sortBy (fun a b => a.2 ≤ b.2) zs).map Prod.fst) := by
  have hperm' := perm_sortBy (fun a b => decide (a.2 ≤ b.2)) zs
  have hsorted := pairwise_sortBy_key Prod.snd zs
  generalize sortBy (fun a b => decide (a.2 ≤ b.2)) zs = ws at hperm' hsorted ⊢
  have hindex : ws.map Prod.snd = List.range xs.length := by
    refine List.Perm.eq_of_pairwise (fun a b _ _ => Nat.le_antisymm) ?_ ?_ ((hperm'.map Prod.snd).trans hperm)
    · exact List.pairwise_map.2 hsorted
    · exact List.pairwise_le_range
  have hlen : ws.length = xs.length := by simpa using congrArg List.length hindex
  refine List.forall₂_iff_get.2 ⟨by simp [hlen], fun i hi hi' => ?_⟩
  have hiw : i < ws.length := by omega
  have hsnd : ws[i].2 = i := by
    have hget := congrArg (·[i]?) hindex
    simpa [hiw, hi] using hget
  obtain ⟨x, hx, hr⟩ := h ws[i] (hperm'.mem_iff.1 (List.getElem_mem hiw))
  rw [hsnd, List.mem_zipIdx_iff_getElem?, List.getElem?_eq_getElem hi] at hx
  simpa [Option.some.inj hx] using hr

variable {p : Placement} {holder : Descriptor} {Inv : MethodState → Prop}

/-- How a method comes to its place in a run that ends with `last`. -/
def PlacedIn (p : Placement) (holder : Descriptor) (Inv : MethodState → Prop) (last : MethodState) (m m' : MethodDef) : Prop :=
  ∃ st, Inv st ∧ m' = (p.placeMethod holder st m).1 ∧ (p.placeMethod holder st m).2.table <+: last.table

theorem prefix_placeMethod (st : MethodState) (m : MethodDef) : st.table <+: (p.placeMethod holder st m).2.table := by
  simp only [placeMethod]
  split
  · exact VirtualTable.prefix_add _ _ _
  · exact List.prefix_rfl

theorem foldl_placeMethod {items : List (MethodDef × Nat)} (hstep : ∀ st, ∀ x ∈ items, Inv st → Inv (p.placeMethod holder st x.1).2)
    {st : MethodState} (hst : Inv st) (acc : List (MethodDef × Nat)) :
    ∃ zs last, items.foldl (fun ((placed, st) : List (MethodDef × Nat) × MethodState) (m, i) =>
        let (m, st) := p.placeMethod holder st m
        (placed ++ [(m, i)], st)) (acc, st) = (acc ++ zs, last) ∧
      Inv last ∧ st.table <+: last.table ∧
      List.Forall₂ (fun x z => z.2 = x.2 ∧ PlacedIn p holder Inv last x.1 z.1) items zs := by
  induction items generalizing st acc with
  | nil => exact ⟨[], st, by simp, hst, List.prefix_rfl, .nil⟩
  | cons x items ih =>
    obtain ⟨zs, last, hfold, hlast, hbegin, hforall⟩ := ih (fun st y hy => hstep st y (List.mem_cons_of_mem x hy))
      (hstep st x List.mem_cons_self hst) (acc ++ [((p.placeMethod holder st x.1).1, x.2)])
    refine ⟨((p.placeMethod holder st x.1).1, x.2) :: zs, last, ?_, hlast, (prefix_placeMethod st x.1).trans hbegin, ?_⟩
    · rw [List.foldl_cons]
      simpa using hfold
    · exact .cons ⟨rfl, st, hst, rfl, hbegin⟩ hforall

/-- **The methods of a class, one by one.** What every placement of a method preserves holds
    whenever a method is placed. -/
theorem placeMethods_spec (p : Placement) (holder : Descriptor) (methods : List MethodDef)
    (hstep : ∀ st, ∀ m ∈ methods, Inv st → Inv (p.placeMethod holder st m).2) (st : MethodState) (hst : Inv st) :
    let r := p.placeMethods holder st methods
    Inv r.2 ∧ st.table <+: r.2.table ∧ List.Forall₂ (PlacedIn p holder Inv r.2) methods r.1 := by
  let overrides (m : MethodDef) := m.isVirtual && (st.table.overridden? p.program m.ref).isSome
  let parts := methods.zipIdx.partition fun (m, _) => overrides m
  have hparts : (parts.1 ++ parts.2).Perm methods.zipIdx := by
    simp only [parts, List.partition_eq_filter_filter]
    exact List.filter_append_perm _ _
  have hstep' : ∀ st, ∀ x ∈ parts.1 ++ parts.2, Inv st → Inv (p.placeMethod holder st x.1).2 := by
    intro st x hx
    exact hstep st x.1 (List.mem_of_getElem? (List.mem_zipIdx_iff_getElem?.1 (hparts.mem_iff.1 hx)))
  obtain ⟨zs, last, hfold, hlast, hbegin, hforall⟩ := foldl_placeMethod hstep' hst []
  have hr : p.placeMethods holder st methods = ((sortBy (fun a b => a.2 ≤ b.2) zs).map Prod.fst, last) := by
    simp only [List.nil_append] at hfold
    simp only [placeMethods]
    rw [show (methods.zipIdx.partition fun (m, _) => m.isVirtual && (st.table.overridden? p.program m.ref).isSome) = parts from rfl, hfold]
  have hsnd : zs.map Prod.snd = (parts.1 ++ parts.2).map Prod.snd := by
    clear hfold hr hparts hstep'
    generalize parts.1 ++ parts.2 = items at hforall
    induction hforall with
    | nil => rfl
    | cons hx _ ih => rw [List.map_cons, List.map_cons, hx.1, ih]
  rw [hr]
  refine ⟨hlast, hbegin, forall₂_sorted ?_ fun z hz => ?_⟩
  · rw [hsnd]
    refine (hparts.map Prod.snd).trans ?_
    simp [List.range_eq_range']
  · obtain ⟨i, hi, rfl⟩ := List.getElem_of_mem hz
    have hi' : i < (parts.1 ++ parts.2).length := hforall.length_eq ▸ hi
    obtain ⟨hindex, hplaced⟩ := (List.forall₂_iff_get.1 hforall).2 i hi' hi
    refine ⟨((parts.1 ++ parts.2).get ⟨i, hi'⟩).1, hparts.mem_iff.1 ?_, hplaced⟩
    rw [show zs[i].2 = ((parts.1 ++ parts.2).get ⟨i, hi'⟩).2 from hindex]
    exact List.get_mem _ _

/-! ### One class -/

/-- The table begins with the methods that the class inherits and has no signature twice. -/
def Extends (inherited : VirtualTable) (st : MethodState) : Prop := inherited <+: st.table ∧ st.table.keys.Nodup

theorem extends_placeMethod {inherited : VirtualTable} (st : MethodState) (m : MethodDef) (h : Extends inherited st) :
    Extends inherited (p.placeMethod holder st m).2 := by
  refine ⟨h.1.trans (prefix_placeMethod st m), ?_⟩
  simp only [placeMethod]
  split
  · exact VirtualTable.nodup_add h.2 _ _
  · exact h.2

/-- What is known of a virtual method that was placed in a class with the given inherited
    methods and, in the end, the given table. -/
theorem PlacedIn.virtual {inherited : VirtualTable} {last : MethodState} {m m' : MethodDef}
    (h : PlacedIn p holder (Extends inherited) last m m') (hm : m.isVirtual = true) :
    m'.ref.signature ∈ last.table.keys ∧
      ∀ s ∈ inherited.keys, m'.ref.signature = s ↔ inherited.overridden? p.program m.ref = some s := by
  obtain ⟨st, ⟨hbegin, hnodup⟩, rfl, hlast⟩ := h
  refine ⟨VirtualTable.keys_subset_of_prefix hlast ?_, fun s hs => place_eq_iff hm hbegin hnodup hs⟩
  simp only [placeMethod, hm, if_true]
  exact VirtualTable.mem_keys_add _ _ _

theorem placeFields_spec (shell : ClassDef) (r : Recorder) (fields : List FieldDef) :
    ∃ fs, (p.placeFields shell r fields).1 = { shell with fields := fs } := by
  unfold placeFields
  induction fields generalizing shell r with
  | nil => exact ⟨shell.fields, rfl⟩
  | cons f fields ih =>
    obtain ⟨fs, hfs⟩ := ih _ _
    exact ⟨fs, hfs⟩

theorem placeClass_eq (p : Placement) (u : UnplacedClass) (inherited : VirtualTable) (log : PlacementLog) :
    let start := u.fieldMoves.foldl (fun r (old, new) => p.recordField r old new) log.recorder
    let st : MethodState := ⟨u.shell.methods.map (·.ref.signature), inherited,
      { log with recorder := (p.placeFields u.shell start u.fields).2 }⟩
    let r := p.placeMethods u.shell.type st u.methods
    ∃ fs, p.placeClass u inherited log =
      ({ u.shell with fields := fs, methods := u.shell.methods ++ r.1 }, r.2.table, r.2.log) := by
  let start := u.fieldMoves.foldl (fun r (old, new) => p.recordField r old new) log.recorder
  obtain ⟨fs, hfs⟩ := placeFields_spec (p := p) u.shell start u.fields
  rcases hfields : p.placeFields u.shell start u.fields with ⟨shell, recorder⟩
  obtain rfl : shell = { u.shell with fields := fs } := by rw [← hfs, hfields]
  exact ⟨fs, by rw [placeClass, hfields]⟩

/-- **A class with its members placed.** It lists the methods of its shell and then the
    others in their old order. -/
theorem placeClass_spec (u : UnplacedClass) {inherited : VirtualTable} (hnodup : inherited.keys.Nodup) (log : PlacementLog) :
    let r := p.placeClass u inherited log
    ∃ fs ms last, r.1 = { u.shell with fields := fs, methods := u.shell.methods ++ ms } ∧ last.table = r.2.1 ∧
      r.2.1.keys.Nodup ∧ inherited <+: r.2.1 ∧
      List.Forall₂ (PlacedIn p u.shell.type (Extends inherited) last) u.methods ms := by
  obtain ⟨fs, hclass⟩ := placeClass_eq p u inherited log
  obtain ⟨hlast, -, hforall⟩ := placeMethods_spec p u.shell.type u.methods (fun st m _ => extends_placeMethod st m)
    ⟨_, inherited, _⟩ ⟨List.prefix_rfl, hnodup⟩
  rw [hclass]
  exact ⟨fs, _, _, rfl, rfl, hlast.2, hlast.1, hforall⟩

/-- What holds of everything that a class inherits holds of all its methods. -/
theorem Suits.placeClass {F : Signature → MethodRef → Prop} (hF : p.Suits F) (u : UnplacedClass) {inherited : VirtualTable}
    (hinherited : inherited.Each F) (log : PlacementLog) :
    let r := p.placeClass u inherited log
    r.2.1.Each F ∧ ∀ x ∈ u.methods.zip (r.1.methods.drop u.shell.methods.length),
      x.1.isInstanceInitializer = false → F x.2.ref.signature x.1.ref := by
  obtain ⟨fs, hclass⟩ := placeClass_eq p u inherited log
  obtain ⟨hlast, -, hforall⟩ := @placeMethods_spec (fun st => st.table.Each F) p u.shell.type u.methods
    (fun st m _ hst => hF.placeMethod hst _ m) ⟨_, inherited, _⟩ hinherited
  rw [hclass]
  refine ⟨hlast, fun x hx hinit => ?_⟩
  simp only [List.drop_left] at hx
  obtain ⟨st, hst, hplaced, -⟩ := (List.forall₂_iff_zip.1 hforall).2 hx
  rw [hplaced]
  exact hF.place hst hinit _

end Placement

end DexShrinker
