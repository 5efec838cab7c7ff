/-
  DexShrinker/Proofs/App/Resolution.lean
  ======================================
  **Resolution finds the first method on its way.**

  The classes that a search for a method goes through do not depend on the method, only
  on where it starts: a class and its superclasses, and if these come to an end, the
  interfaces below (`Program.searchOrder`). A method resolves to the first definition on
  this way that has its signature, and to nothing if the way has none
  (`Program.resolveMethod_eq_some_iff`).

  The search in the interfaces visits all that can be reached: what it starts with is
  visited, and with a class all that the class names (`Program.mem_interfacesFrom`).
-/
import DexShrinker.App.Hierarchy
import DexShrinker.Proofs.Outcome
import DexShrinker.Proofs.Program
import Mathlib.Data.List.Perm.Subperm

namespace DexShrinker.Program

/-! ### The way of a search -/

/-- The class `t` and its superclasses, as far as a walk over `fuel` classes comes. -/
def superclassesUpTo (p : Program) : (fuel : Nat) → Descriptor → List ClassDef
  | 0, _ => []
  | fuel + 1, t =>
    match p.class? t with
    | none => []
    | some c => c :: c.superclass.elim [] (p.superclassesUpTo fuel)

/-- Such a walk ends at a class without a superclass. -/
def reachesTop (p : Program) : (fuel : Nat) → Descriptor → Bool
  | 0, _ => false
  | fuel + 1, t =>
    match p.class? t with
    | none => false
    | some c => c.superclass.elim true (p.reachesTop fuel)

/-- The interfaces of a stack and those they extend, in the order in which they are searched. -/
def interfacesFrom (pool : List ClassDef) : List Descriptor → List ClassDef
  | [] => []
  | t :: stack =>
    match _ : pool.find? (·.type == t) with
    | none => interfacesFrom pool stack
    | some c => c :: interfacesFrom (without pool t) (c.interfaces.reverse ++ stack)
termination_by stack => workLeft (·.interfaces.length) pool + stack.length
decreasing_by
  · simp only [List.length_cons]
    omega
  · have hlt := workLeft_without_lt (·.interfaces.length) ‹pool.find? (·.type == t) = some c›
    simp only [List.length_append, List.length_reverse, List.length_cons]
    omega

/-- The class `t` and its superclasses. -/
def above (p : Program) (t : Descriptor) : List ClassDef := p.superclassesUpTo (p.size + 1) t

/-- The interfaces that are searched after them, if they come to an end. -/
def interfacesAbove (p : Program) (t : Descriptor) : List ClassDef :=
  if p.reachesTop (p.size + 1) t then interfacesFrom p.classes ((p.above t).flatMap ClassDef.interfaces).reverse else []

/-- The classes that are searched for a method of `t`, in order. -/
def searchOrder (p : Program) (t : Descriptor) : List ClassDef := p.above t ++ p.interfacesAbove t

/-- Their methods. -/
def searched (p : Program) (t : Descriptor) : List MethodDef := (p.searchOrder t).flatMap ClassDef.methods

/-! ### Resolution -/

theorem walkSuperclasses_eq_found (p : Program) (s : Signature) (fuel : Nat) (interfaces : List Descriptor) (t : Descriptor)
    {d : MethodDef} (h : (p.superclassesUpTo fuel t).findSome? (·.methodBySignature? s) = some d) :
    p.walkSuperclasses s fuel interfaces t = .ok (.found d) := by
  induction fuel generalizing interfaces t with
  | zero => cases h
  | succ fuel ih =>
    rw [superclassesUpTo] at h
    rw [walkSuperclasses]
    cases hc : p.class? t with
    | none =>
      rw [hc] at h
      cases h
    | some c =>
      simp only [hc, List.findSome?_cons] at h ⊢
      cases hm : c.methodBySignature? s with
      | some m =>
        rw [hm] at h
        cases h
        rfl
      | none =>
        rw [hm] at h
        cases hsuper : c.superclass with
        | none =>
          rw [hsuper] at h
          cases h
        | some t' =>
          rw [hsuper] at h
          exact ih _ t' h

/-- A walk that finds nothing leaves the interfaces it has met, if it comes to an end. -/
theorem walkSuperclasses_of_none (p : Program) (s : Signature) (fuel : Nat) (interfaces : List Descriptor) (t : Descriptor)
    (h : (p.superclassesUpTo fuel t).findSome? (·.methodBySignature? s) = none) :
    if p.reachesTop fuel t then
      p.walkSuperclasses s fuel interfaces t =
        .ok (.exhausted (((p.superclassesUpTo fuel t).flatMap ClassDef.interfaces).reverse ++ interfaces))
    else p.walkSuperclasses s fuel interfaces t = .ok .broken ∨ p.walkSuperclasses s fuel interfaces t = .error .diverges := by
  induction fuel generalizing interfaces t with
  | zero => exact .inr rfl
  | succ fuel ih =>
    rw [superclassesUpTo] at h ⊢
    rw [reachesTop, walkSuperclasses]
    cases hc : p.class? t with
    | none => exact .inl rfl
    | some c =>
      simp only [hc, List.findSome?_cons] at h ⊢
      cases hm : c.methodBySignature? s with
      | some m =>
        rw [hm] at h
        cases h
      | none =>
        rw [hm] at h
        cases hsuper : c.superclass with
        | none => simp
        | some t' =>
          rw [hsuper] at h
          have ih := ih (c.interfaces.reverse ++ interfaces) t' h
          simpa using ih

theorem interfacesFrom_of_none {pool : List ClassDef} {t : Descriptor} (h : pool.find? (·.type == t) = none)
    (stack : List Descriptor) : interfacesFrom pool (t :: stack) = interfacesFrom pool stack := by
  rw [interfacesFrom]
  split
  · rfl
  · next hsome => cases h.symm.trans hsome

theorem interfacesFrom_of_some {pool : List ClassDef} {t : Descriptor} {c : ClassDef} (h : pool.find? (·.type == t) = some c)
    (stack : List Descriptor) :
    interfacesFrom pool (t :: stack) = c :: interfacesFrom (without pool t) (c.interfaces.reverse ++ stack) := by
  rw [interfacesFrom]
  split
  · next hnone => cases h.symm.trans hnone
  · next hsome =>
    cases h.symm.trans hsome
    rfl

theorem searchInterfaces_of_none {s : Signature} {pool : List ClassDef} {t : Descriptor} (h : pool.find? (·.type == t) = none)
    (stack : List Descriptor) : searchInterfaces s pool (t :: stack) = searchInterfaces s pool stack := by
  rw [searchInterfaces]
  split
  · rfl
  · next hsome => cases h.symm.trans hsome

theorem searchInterfaces_of_some {s : Signature} {pool : List ClassDef} {t : Descriptor} {c : ClassDef}
    (h : pool.find? (·.type == t) = some c) (stack : List Descriptor) :
    searchInterfaces s pool (t :: stack) =
      (c.methodBySignature? s).orElse fun _ => searchInterfaces s (without pool t) (c.interfaces.reverse ++ stack) := by
  rw [searchInterfaces]
  split
  · next hnone => cases h.symm.trans hnone
  · next hsome =>
    cases h.symm.trans hsome
    cases c.methodBySignature? s <;> rfl

theorem searchInterfaces_eq (s : Signature) (pool : List ClassDef) (stack : List Descriptor) :
    searchInterfaces s pool stack = (interfacesFrom pool stack).findSome? (·.methodBySignature? s) := by
  induction pool, stack using interfacesFrom.induct with
  | case1 pool => rw [searchInterfaces, interfacesFrom, List.findSome?_nil]
  | case2 pool t stack hnone ih => rw [interfacesFrom_of_none hnone, searchInterfaces_of_none hnone, ih]
  | case3 pool t stack c hsome ih =>
    rw [interfacesFrom_of_some hsome, searchInterfaces_of_some hsome, List.findSome?_cons, ih]
    cases c.methodBySignature? s <;> rfl

theorem findSome?_searchOrder (p : Program) (s : Signature) (t : Descriptor) :
    (p.searchOrder t).findSome? (·.methodBySignature? s) = (p.searched t).find? (·.ref.signature == s) := by
  rw [searched, List.find?_flatMap]
  rfl

/-- **A method resolves to the first one on the way of its search.** -/
theorem resolveMethod_eq_some_iff {p : Program} {m : MethodRef} {d : MethodDef} :
    p.resolveMethod m = .ok (some d) ↔ (p.searched m.holder).find? (·.ref.signature == m.signature) = some d := by
  rw [← findSome?_searchOrder, searchOrder, interfacesAbove, List.findSome?_append, resolveMethod]
  cases hfound : (p.above m.holder).findSome? (·.methodBySignature? m.signature) with
  | some d' =>
    rw [walkSuperclasses_eq_found p m.signature _ [] m.holder hfound, ok_bind]
    simp [pure, Except.pure]
  | none =>
    have hwalk := walkSuperclasses_of_none p m.signature _ [] m.holder hfound
    cases htop : p.reachesTop (p.size + 1) m.holder with
    | true =>
      rw [htop, if_pos rfl, List.append_nil] at hwalk
      rw [hwalk, ok_bind]
      simp [pure, Except.pure, searchInterfaces_eq, above]
    | false =>
      rw [htop, if_neg (by simp)] at hwalk
      rcases hwalk with hwalk | hwalk
      · rw [hwalk, ok_bind]
        simp [pure, Except.pure]
      · rw [hwalk]
        simp [bind, Except.bind]

/-- A search for a method starts at a class. -/
theorem exists_class_of_resolveMethod {p : Program} {m : MethodRef} {d : MethodDef} (h : p.resolveMethod m = .ok (some d)) :
    ∃ c, p.class? m.holder = some c := by
  cases hc : p.class? m.holder with
  | some c => exact ⟨c, rfl⟩
  | none =>
    rw [resolveMethod, walkSuperclasses, hc] at h
    cases h

/-- Of the methods with the signature of `d`, the first one is `d`. -/
def FirstIn (ms : List MethodDef) (d : MethodDef) : Prop := ms.find? (·.ref.signature == d.ref.signature) = some d

theorem resolveMethod_eq_some_iff_firstIn {p : Program} {m : MethodRef} {d : MethodDef} :
    p.resolveMethod m = .ok (some d) ↔ m.signature = d.ref.signature ∧ FirstIn (p.searched m.holder) d := by
  rw [resolveMethod_eq_some_iff]
  constructor
  · intro hfind
    have heq : d.ref.signature = m.signature := by simpa using List.find?_some hfind
    exact ⟨heq.symm, by rwa [FirstIn, heq]⟩
  · rintro ⟨heq, hfirst⟩
    rwa [heq]

theorem firstIn_append_iff {ms ms' : List MethodDef} {d : MethodDef} (hd : d ∉ ms) :
    FirstIn (ms ++ ms') d ↔ (∀ x ∈ ms, x.ref.signature ≠ d.ref.signature) ∧ FirstIn ms' d := by
  simp only [FirstIn, List.find?_append]
  cases hfind : ms.find? (·.ref.signature == d.ref.signature) with
  | some x =>
    have hx := List.mem_of_find?_eq_some hfind
    have hsignature : x.ref.signature = d.ref.signature := by simpa using List.find?_some hfind
    constructor
    · intro heq
      cases heq
      exact absurd hx hd
    · rintro ⟨hall, -⟩
      exact absurd hsignature (hall x hx)
  | none =>
    have hall : ∀ x ∈ ms, x.ref.signature ≠ d.ref.signature := by simpa using hfind
    exact ⟨fun hrest => ⟨hall, hrest⟩, fun hrest => hrest.2⟩

theorem firstIn_append_of_mem {ms ms' : List MethodDef} {d : MethodDef} (hd : d ∈ ms) : FirstIn (ms ++ ms') d ↔ FirstIn ms d := by
  simp only [FirstIn, List.find?_append]
  cases hfind : ms.find? (·.ref.signature == d.ref.signature) with
  | some x => rfl
  | none =>
    have hne := List.find?_eq_none.1 hfind d hd
    simp at hne

/-- A search starts with the methods of the class itself. -/
theorem exists_searched_eq_append {p : Program} {t : Descriptor} {c : ClassDef} (hc : p.class? t = some c) :
    ∃ ms, p.searched t = c.methods ++ ms := by
  rw [searched, searchOrder, above, superclassesUpTo, hc, List.cons_append, List.flatMap_cons]
  exact ⟨_, rfl⟩

/-! ### The superclasses on the way -/

/-- The classes are those from `t` upwards, each the superclass of the one before. -/
inductive Climbs (p : Program) : Descriptor → List ClassDef → Prop
  | last {t : Descriptor} {c : ClassDef} (hc : p.class? t = some c) : Climbs p t [c]
  | up {t s : Descriptor} {c : ClassDef} {cs : List ClassDef} (hc : p.class? t = some c) (hs : c.superclass = some s)
      (h : Climbs p s cs) : Climbs p t (c :: cs)

theorem Climbs.class?_eq {p : Program} {t : Descriptor} {cs : List ClassDef} (h : p.Climbs t cs) :
    ∀ c ∈ cs, p.class? c.type = some c := by
  induction h with
  | @last t c hc =>
    intro d hd
    rw [List.mem_singleton.1 hd, Program.type_of_class? hc]
    exact hc
  | @up t s c cs hc _ _ ih =>
    intro d hd
    rcases List.mem_cons.1 hd with rfl | hd
    · rw [Program.type_of_class? hc]
      exact hc
    · exact ih d hd

theorem climbs_of_eq_append (p : Program) (fuel : Nat) (t : Descriptor) {cs rest : List ClassDef} {c : ClassDef}
    (h : p.superclassesUpTo fuel t = cs ++ c :: rest) : p.Climbs t (cs ++ [c]) := by
  induction fuel generalizing t cs with
  | zero => simp [superclassesUpTo] at h
  | succ fuel ih =>
    rw [superclassesUpTo] at h
    cases hd : p.class? t with
    | none => simp [hd] at h
    | some d =>
      simp only [hd] at h
      cases cs with
      | nil =>
        obtain ⟨rfl, -⟩ := List.cons.inj h
        exact .last hd
      | cons x cs =>
        obtain ⟨rfl, hrest⟩ := List.cons.inj h
        cases hs : d.superclass with
        | none => simp [hs] at hrest
        | some s =>
          rw [hs] at hrest
          exact .up hd hs (ih s hrest)

theorem climbs_of_mem (p : Program) (fuel : Nat) (t : Descriptor) {c : ClassDef} (hc : c ∈ p.superclassesUpTo fuel t) :
    ∃ cs, p.Climbs t (cs ++ [c]) := by
  obtain ⟨cs, rest, heq⟩ := List.append_of_mem hc
  exact ⟨cs, p.climbs_of_eq_append fuel t heq⟩

theorem Climbs.isPrefix {p : Program} {t : Descriptor} {cs : List ClassDef} (h : p.Climbs t cs) {fuel : Nat}
    (hfuel : cs.length ≤ fuel) : cs <+: p.superclassesUpTo fuel t := by
  induction h generalizing fuel with
  | last hc =>
    cases fuel with
    | zero => simp at hfuel
    | succ fuel =>
      rw [superclassesUpTo, hc]
      exact ⟨_, rfl⟩
  | up hc hs _ ih =>
    cases fuel with
    | zero => simp at hfuel
    | succ fuel =>
      rw [superclassesUpTo, hc]
      simp only [hs, Option.elim_some]
      exact List.cons_prefix_cons.2 ⟨rfl, ih (by simpa using hfuel)⟩

/-- A walk that comes to an end goes through all classes from `t` upwards. -/
theorem climbs_of_reachesTop (p : Program) (fuel : Nat) (t : Descriptor) (h : p.reachesTop fuel t = true) :
    ∃ cs c, p.superclassesUpTo fuel t = cs ++ [c] ∧ p.Climbs t (cs ++ [c]) ∧ c.superclass = none := by
  induction fuel generalizing t with
  | zero => cases h
  | succ fuel ih =>
    rw [reachesTop] at h
    rw [superclassesUpTo]
    cases hc : p.class? t with
    | none =>
      rw [hc] at h
      cases h
    | some c =>
      simp only [hc] at h ⊢
      cases hs : c.superclass with
      | none => exact ⟨[], c, rfl, .last hc, hs⟩
      | some s =>
        rw [hs] at h
        obtain ⟨cs, d, heq, hclimbs, hd⟩ := ih s h
        refine ⟨c :: cs, d, ?_, .up hc hs hclimbs, hd⟩
        rw [Option.elim_some, heq]
        rfl

theorem Climbs.reachesTop {p : Program} {t : Descriptor} {cs : List ClassDef} {c : ClassDef} (h : p.Climbs t (cs ++ [c]))
    (hc : c.superclass = none) (fuel : Nat) (hfuel : (cs ++ [c]).length ≤ fuel) :
    p.reachesTop fuel t = true ∧ p.superclassesUpTo fuel t = cs ++ [c] := by
  generalize hcs : cs ++ [c] = ds at h hfuel
  induction h generalizing cs fuel with
  | @last t d hd =>
    obtain ⟨rfl, heq⟩ : cs = [] ∧ [c] = [d] := by
      cases cs with
      | nil => exact ⟨rfl, hcs⟩
      | cons x cs => simp at hcs
    cases heq
    cases fuel with
    | zero => simp at hfuel
    | succ fuel => simp [Program.reachesTop, superclassesUpTo, hd, hc]
  | @up t s d ds hd hs _ ih =>
    cases cs with
    | nil =>
      simp only [List.nil_append, List.cons.injEq] at hcs
      rw [← hcs.1, hc] at hs
      cases hs
    | cons x cs =>
      simp only [List.cons_append, List.cons.injEq] at hcs
      cases fuel with
      | zero => simp at hfuel
      | succ fuel =>
        obtain ⟨htop, heq⟩ := ih fuel hcs.2 (by simpa using hfuel)
        simp [Program.reachesTop, superclassesUpTo, hd, hs, htop, heq]

/-- Where ranks fall there are no more classes on the way than in the program. -/
theorem Climbs.length_le {p : Program} {t : Descriptor} {cs : List ClassDef} (h : p.Climbs t cs)
    (rank : Descriptor → Nat) (hrank : ∀ c ∈ cs, ∀ s, c.superclass = some s → rank s < rank c.type) : cs.length ≤ p.size := by
  have hnodup : (cs.map ClassDef.type).Nodup ∧ ∀ c ∈ cs, rank c.type ≤ rank t := by
    induction h with
    | @last t c hc => simp [Program.type_of_class? hc]
    | @up t s c cs hc hs _ ih =>
      obtain ⟨hnodup, hle⟩ := ih fun d hd => hrank d (List.mem_cons_of_mem c hd)
      have hlt := hrank c List.mem_cons_self s hs
      rw [Program.type_of_class? hc] at hlt
      refine ⟨?_, List.forall_mem_cons.2 ⟨Nat.le_of_eq (by rw [Program.type_of_class? hc]), fun d hd => ?_⟩⟩
      · rw [List.map_cons, List.nodup_cons, Program.type_of_class? hc]
        refine ⟨fun hmem => ?_, hnodup⟩
        obtain ⟨d, hd, hdt⟩ := List.mem_map.1 hmem
        have hle := hle d hd
        rw [hdt] at hle
        omega
      · have hle := hle d hd
        omega
  have hsub : cs.map ClassDef.type ⊆ p.classes.map ClassDef.type := by
    intro t ht
    obtain ⟨c, hc, rfl⟩ := List.mem_map.1 ht
    exact List.mem_map_of_mem (mem_classes.2 (h.class?_eq c hc))
  have hlen := (hnodup.1.subperm hsub).length_le
  rw [List.length_map, List.length_map] at hlen
  rwa [length_classes] at hlen

/-! ### The interfaces on the way -/

theorem find?_without {pool : List ClassDef} {t t' : Descriptor} (hne : t' ≠ t) :
    (without pool t).find? (·.type == t') = pool.find? (·.type == t') := by
  rw [without, List.find?_filter]
  congr 1
  funext c
  by_cases hc : c.type = t'
  · simp [hc, hne]
  · simp [hc]

/-- What a search starts with is visited, and so is what a visited class names. -/
theorem interfacesFrom_closed (pool : List ClassDef) (stack : List Descriptor) {t : Descriptor} {c : ClassDef}
    (hc : pool.find? (·.type == t) = some c) (ht : t ∈ stack ∨ ∃ d ∈ interfacesFrom pool stack, t ∈ d.interfaces) :
    c ∈ interfacesFrom pool stack := by
  induction pool, stack using interfacesFrom.induct with
  | case1 pool =>
    rcases ht with ht | ⟨d, hd, -⟩
    · cases ht
    · rw [interfacesFrom] at hd
      cases hd
  | case2 pool t' stack hnone ih =>
    rw [interfacesFrom_of_none hnone] at ht ⊢
    refine ih hc ?_
    rcases ht with ht | ht
    · rcases List.mem_cons.1 ht with rfl | ht
      · cases hnone.symm.trans hc
      · exact .inl ht
    · exact .inr ht
  | case3 pool t' stack c' hsome ih =>
    rw [interfacesFrom_of_some hsome] at ht ⊢
    by_cases heq : t = t'
    · subst heq
      cases hsome.symm.trans hc
      exact List.mem_cons_self
    · refine List.mem_cons_of_mem _ (ih (by rwa [find?_without heq]) ?_)
      rcases ht with ht | ⟨d, hd, ht⟩
      · rcases List.mem_cons.1 ht with rfl | ht
        · exact absurd rfl heq
        · exact .inl (List.mem_append_right _ ht)
      · rcases List.mem_cons.1 hd with rfl | hd
        · exact .inl (List.mem_append_left _ (List.mem_reverse.2 ht))
        · exact .inr ⟨d, hd, ht⟩

/-- The types that a search in the interfaces of a stack comes to. -/
inductive Reaches (p : Program) (stack : List Descriptor) : Descriptor → Prop
  | start {t : Descriptor} (ht : t ∈ stack) : Reaches p stack t
  | step {t : Descriptor} {c : ClassDef} (hc : p.class? c.type = some c) (h : Reaches p stack c.type)
      (ht : t ∈ c.interfaces) : Reaches p stack t

theorem find?_classes {p : Program} (t : Descriptor) : p.classes.find? (·.type == t) = p.class? t := by
  cases hc : p.class? t with
  | some c =>
    have htype := Program.type_of_class? hc
    cases hfind : p.classes.find? (·.type == t) with
    | some d =>
      have hd := mem_classes.1 (List.mem_of_find?_eq_some hfind)
      rw [show d.type = t by simpa using List.find?_some hfind, hc] at hd
      exact hd.symm
    | none =>
      have hall := List.find?_eq_none.1 hfind c (mem_classes.2 (htype ▸ hc))
      simp [htype] at hall
  | none =>
    refine List.find?_eq_none.2 fun d hd htype => ?_
    have hd := mem_classes.1 hd
    rw [show d.type = t by simpa using htype, hc] at hd
    cases hd

/-- **A search visits exactly the interfaces it can reach.** -/
theorem mem_interfacesFrom {p : Program} {stack : List Descriptor} {c : ClassDef} :
    c ∈ interfacesFrom p.classes stack ↔ p.class? c.type = some c ∧ p.Reaches stack c.type := by
  constructor
  · have hsound (pool : List ClassDef) (stack' : List Descriptor) (hpool : pool ⊆ p.classes)
        (hstack : ∀ t ∈ stack', p.Reaches stack t) (hc : c ∈ interfacesFrom pool stack') :
        p.class? c.type = some c ∧ p.Reaches stack c.type := by
      induction pool, stack' using interfacesFrom.induct with
      | case1 pool =>
        rw [interfacesFrom] at hc
        cases hc
      | case2 pool t stack' hnone ih =>
        rw [interfacesFrom_of_none hnone] at hc
        exact ih hpool (fun t' ht' => hstack t' (List.mem_cons_of_mem t ht')) hc
      | case3 pool t stack' d hsome ih =>
        rw [interfacesFrom_of_some hsome] at hc
        have hd := mem_classes.1 (hpool (List.mem_of_find?_eq_some hsome))
        have htype : d.type = t := by simpa using List.find?_some hsome
        have hreach : p.Reaches stack d.type := htype ▸ hstack t List.mem_cons_self
        rcases List.mem_cons.1 hc with rfl | hc
        · exact ⟨hd, hreach⟩
        · refine ih (fun x hx => hpool (List.mem_filter.1 hx).1) ?_ hc
          intro t' ht'
          rcases List.mem_append.1 ht' with ht' | ht'
          · exact .step hd hreach (List.mem_reverse.1 ht')
          · exact hstack t' (List.mem_cons_of_mem t ht')
    exact hsound p.classes stack (List.Subset.refl _) fun t => .start
  · rintro ⟨hc, hreach⟩
    generalize ht : c.type = t at hc hreach
    induction hreach generalizing c with
    | start hmem => exact interfacesFrom_closed _ _ ((find?_classes _).trans hc) (.inl hmem)
    | step hd hreach hmem ih => exact interfacesFrom_closed _ _ ((find?_classes _).trans hc) (.inr ⟨_, ih rfl hd, hmem⟩)

/-- All classes on the way are classes of the program. -/
theorem mem_classes_of_mem_searchOrder {p : Program} {t : Descriptor} {c : ClassDef}
    (hc : c ∈ p.searchOrder t) : c ∈ p.classes := by
  rcases List.mem_append.1 hc with hc | hc
  · obtain ⟨cs, hclimbs⟩ := p.climbs_of_mem _ t hc
    exact mem_classes.2 (hclimbs.class?_eq c (List.mem_append_right cs (List.mem_singleton_self c)))
  · unfold interfacesAbove at hc
    split at hc
    · exact mem_classes.2 (mem_interfacesFrom.1 hc).1
    · cases hc

/-- What a search finds is the first method with the signature in the class that it names as its
    holder. -/
theorem methodBySignature?_of_resolveMethod {p : Program} (hhoused : p.Housed) {m : MethodRef} {d : MethodDef}
    (h : p.resolveMethod m = .ok (some d)) :
    d.ref.signature = m.signature ∧ ∃ c, p.class? d.ref.holder = some c ∧ c.methodBySignature? m.signature = some d := by
  have hfound := resolveMethod_eq_some_iff.1 h
  have hsignature : d.ref.signature = m.signature := by simpa using List.find?_some hfound
  rw [← findSome?_searchOrder] at hfound
  obtain ⟨c, hc, hd⟩ := List.exists_of_findSome?_eq_some hfound
  have hclass := mem_classes_of_mem_searchOrder hc
  refine ⟨hsignature, c, ?_, hd⟩
  rw [hhoused c hclass d (List.mem_of_find?_eq_some hd)]
  exact mem_classes.1 hclass

/-- So it is the first one there with its reference. -/
theorem method?_of_resolveMethod {p : Program} (hhoused : p.Housed) {m : MethodRef} {d : MethodDef}
    (h : p.resolveMethod m = .ok (some d)) : p.method? d.ref = some d := by
  obtain ⟨-, c, hclass, hd⟩ := methodBySignature?_of_resolveMethod hhoused h
  rw [method?, hclass, Option.bind_some]
  obtain ⟨hsignature, before, after, hmethods, hbefore⟩ := List.find?_eq_some_iff_append.1 hd
  refine List.find?_eq_some_iff_append.2 ⟨beq_self_eq_true _, before, after, hmethods, fun x hx => ?_⟩
  have hne := hbefore x hx
  simp only [Bool.not_eq_true', beq_eq_false_iff_ne, ne_eq] at hne ⊢
  intro heq
  exact hne (heq ▸ eq_of_beq hsignature)

end DexShrinker.Program
