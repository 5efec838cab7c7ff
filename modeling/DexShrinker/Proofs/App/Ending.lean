/-
  DexShrinker/Proofs/App/Ending.lean
  ==================================
  **When resolution comes to an end.**

  Resolution goes up the superclasses and keeps no record of where it has been. Its runs
  (`Ascends`) are derivations of finite length, so a search that goes round for ever has none. That
  is the case exactly if the way up comes to a class that it comes to again, with no class on it that
  has the method (`exists_ascends_iff`): a way with more classes than the program has must meet one
  of them twice. The search in the interfaces keeps a record and always ends
  (`searchesInterfaces`).

  So the fault with which resolution answers stands for no run at all, and every other answer is that
  of a run (`resolution_ends_iff`).
-/
import DexShrinker.Proofs.App.Searching
import DexShrinker.Proofs.Chains

namespace DexShrinker

namespace Program

/-! ### The way up -/

/-- A search for `s` goes on from the class `t` to its superclass `u`. -/
def Passes (p : Program) (s : Signature) (t u : Descriptor) : Prop :=
  ∃ c, p.class? t = some c ∧ c.methodBySignature? s = none ∧ c.superclass = some u

/-- A search for `s` that starts at `t` comes to a type that it comes to again. -/
def Circles (p : Program) (s : Signature) (t : Descriptor) : Prop :=
  ∃ u, Relation.ReflTransGen (p.Passes s) t u ∧ Relation.TransGen (p.Passes s) u u

/-- The runs of a search for `s` from `t` upwards that has met the given interfaces. -/
inductive Ascends (p : Program) (s : Signature) : List Descriptor → Descriptor → SuperWalk → Prop
  | broken {interfaces : List Descriptor} {t : Descriptor} (hc : p.class? t = none) : Ascends p s interfaces t .broken
  | found {interfaces : List Descriptor} {t : Descriptor} {c : ClassDef} {m : MethodDef} (hc : p.class? t = some c)
      (hm : c.methodBySignature? s = some m) : Ascends p s interfaces t (.found m)
  | top {interfaces : List Descriptor} {t : Descriptor} {c : ClassDef} (hc : p.class? t = some c)
      (hm : c.methodBySignature? s = none) (hs : c.superclass = none) :
      Ascends p s interfaces t (.exhausted (c.interfaces.reverse ++ interfaces))
  | up {interfaces : List Descriptor} {t u : Descriptor} {c : ClassDef} {w : SuperWalk} (hc : p.class? t = some c)
      (hm : c.methodBySignature? s = none) (hs : c.superclass = some u)
      (h : Ascends p s (c.interfaces.reverse ++ interfaces) u w) : Ascends p s interfaces t w

section

variable {p : Program} {s : Signature} {interfaces : List Descriptor} {t u u' : Descriptor} {w w' : SuperWalk}

theorem Passes.unique (h : p.Passes s t u) (h' : p.Passes s t u') : u = u' := by
  obtain ⟨c, hc, -, hu⟩ := h
  obtain ⟨c', hc', -, hu'⟩ := h'
  cases hc.symm.trans hc'
  exact Option.some.inj (hu.symm.trans hu')

/-- A search that circles goes on, and goes on to circle. -/
theorem Circles.exists_passes (h : p.Circles s t) : ∃ u, p.Passes s t u ∧ p.Circles s u := by
  obtain ⟨v, hway, hround⟩ := h
  obtain ⟨u, hpass, hback⟩ := Relation.TransGen.head'_iff.1 hround
  rcases Relation.ReflTransGen.cases_head hway with rfl | ⟨x, hx, hrest⟩
  · exact ⟨u, hpass, t, hback, hround⟩
  · exact ⟨x, hx, v, hrest, hround⟩

/-- A search that circles has no run. -/
theorem Ascends.not_circles (h : p.Ascends s interfaces t w) : ¬ p.Circles s t := by
  induction h with
  | broken hc =>
    intro hcircles
    obtain ⟨_, ⟨c, hc', -, -⟩, -⟩ := hcircles.exists_passes
    cases hc.symm.trans hc'
  | found hc hm =>
    intro hcircles
    obtain ⟨_, ⟨c, hc', hm', -⟩, -⟩ := hcircles.exists_passes
    cases hc.symm.trans hc'
    cases hm.symm.trans hm'
  | top hc hm hs =>
    intro hcircles
    obtain ⟨_, ⟨c, hc', -, hs'⟩, -⟩ := hcircles.exists_passes
    cases hc.symm.trans hc'
    cases hs.symm.trans hs'
  | up hc hm hs _ ih =>
    intro hcircles
    obtain ⟨u, hpass, hcircles⟩ := hcircles.exists_passes
    obtain rfl := hpass.unique ⟨_, hc, hm, hs⟩
    exact ih hcircles

/-- How a run starts is given by the class at which it starts. -/
theorem ascends_iff : p.Ascends s interfaces t w ↔
    (p.class? t).elim (w = .broken) fun c =>
      (c.methodBySignature? s).elim
        (c.superclass.elim (w = .exhausted (c.interfaces.reverse ++ interfaces))
          fun u => p.Ascends s (c.interfaces.reverse ++ interfaces) u w)
        fun m => w = .found m := by
  constructor
  · intro h
    cases h with
    | broken hc => simp [hc]
    | found hc hm => simp [hc, hm]
    | top hc hm hs => simp [hc, hm, hs]
    | up hc hm hs h => simpa [hc, hm, hs] using h
  · intro h
    cases hc : p.class? t with
    | none =>
      rw [hc, Option.elim_none] at h
      exact h ▸ .broken hc
    | some c =>
      rw [hc, Option.elim_some] at h
      cases hm : c.methodBySignature? s with
      | some m =>
        rw [hm, Option.elim_some] at h
        exact h ▸ .found hc hm
      | none =>
        rw [hm, Option.elim_none] at h
        cases hs : c.superclass with
        | none =>
          rw [hs, Option.elim_none] at h
          exact h ▸ .top hc hm hs
        | some u =>
          rw [hs, Option.elim_some] at h
          exact .up hc hm hs h

theorem Ascends.unique (h : p.Ascends s interfaces t w) (h' : p.Ascends s interfaces t w') : w = w' := by
  induction h with
  | broken hc =>
    rw [ascends_iff, hc] at h'
    exact h'.symm
  | found hc hm =>
    rw [ascends_iff, hc, Option.elim_some, hm] at h'
    exact h'.symm
  | top hc hm hs =>
    rw [ascends_iff, hc, Option.elim_some, hm, Option.elim_none, hs] at h'
    exact h'.symm
  | up hc hm hs _ ih =>
    rw [ascends_iff, hc, Option.elim_some, hm, Option.elim_none, hs] at h'
    exact ih h'

/-! ### Counting classes -/

/-- A walk that answers is a run. -/
theorem ascends_of_walkSuperclasses {fuel : Nat} (h : p.walkSuperclasses s fuel interfaces t = .ok w) :
    p.Ascends s interfaces t w := by
  induction fuel generalizing interfaces t with
  | zero => cases h
  | succ fuel ih =>
    rw [walkSuperclasses] at h
    rw [ascends_iff]
    cases hc : p.class? t with
    | none => simpa [hc, eq_comm] using h
    | some c =>
      cases hm : c.methodBySignature? s with
      | some m => simpa [hc, hm, eq_comm] using h
      | none =>
        cases hs : c.superclass with
        | none => simpa [hc, hm, hs, eq_comm] using h
        | some u =>
          simp only [hc, hm, hs, Option.elim_some, Option.elim_none] at h ⊢
          exact ih h

/-- A walk that does not answer has passed as many classes as it may. -/
theorem exists_way_of_walkSuperclasses {fuel : Nat} {e : Fault} (h : p.walkSuperclasses s fuel interfaces t = .error e) :
    e = .diverges ∧ ∃ way : List Descriptor, way.length = fuel ∧ (t :: way).IsChain (p.Passes s) := by
  induction fuel generalizing interfaces t with
  | zero =>
    cases h
    exact ⟨rfl, [], rfl, .singleton t⟩
  | succ fuel ih =>
    rw [walkSuperclasses] at h
    cases hc : p.class? t with
    | none =>
      rw [hc] at h
      cases h
    | some c =>
      simp only [hc] at h
      cases hm : c.methodBySignature? s with
      | some m =>
        rw [hm] at h
        cases h
      | none =>
        simp only [hm] at h
        cases hs : c.superclass with
        | none =>
          rw [hs] at h
          cases h
        | some u =>
          simp only [hs] at h
          obtain ⟨rfl, way, hlength, hway⟩ := ih h
          exact ⟨rfl, u :: way, by rw [List.length_cons, hlength], .cons_cons ⟨c, hc, hm, hs⟩ hway⟩

/-- **A way that passes more classes than there are comes round.** -/
theorem circles_of_isChain {way : List Descriptor} (hway : (t :: way).IsChain (p.Passes s)) (hlength : p.size < way.length) :
    p.Circles s t := by
  have hlinked : ∀ u v, p.Passes s u v → u ∈ p.classMap.keys := by
    rintro u _ ⟨c, hc, -⟩
    exact mem_keys_of_class? hc
  exact comesRound_of_isChain hlinked hway (by rwa [Std.TreeMap.length_keys])

/-- The fault of the walk stands for a search that circles. -/
theorem walkSuperclasses_eq_error {e : Fault} (h : p.walkSuperclasses s (p.size + 1) interfaces t = .error e) :
    e = .diverges ∧ p.Circles s t := by
  obtain ⟨rfl, way, hlength, hway⟩ := exists_way_of_walkSuperclasses h
  exact ⟨rfl, circles_of_isChain hway (by omega)⟩

/-- **The walk answers what the runs end with**, and answers whenever there is one. -/
theorem walkSuperclasses_eq_ok_iff : p.walkSuperclasses s (p.size + 1) interfaces t = .ok w ↔ p.Ascends s interfaces t w := by
  refine ⟨ascends_of_walkSuperclasses, fun h => ?_⟩
  cases hwalk : p.walkSuperclasses s (p.size + 1) interfaces t with
  | ok w' => rw [(ascends_of_walkSuperclasses hwalk).unique h]
  | error e => exact absurd (walkSuperclasses_eq_error hwalk).2 h.not_circles

/-- **A search upwards ends** exactly if it does not circle. -/
theorem exists_ascends_iff : (∃ w, p.Ascends s interfaces t w) ↔ ¬ p.Circles s t := by
  constructor
  · rintro ⟨w, h⟩
    exact h.not_circles
  · intro h
    cases hwalk : p.walkSuperclasses s (p.size + 1) interfaces t with
    | ok w => exact ⟨w, ascends_of_walkSuperclasses hwalk⟩
    | error e => exact absurd (walkSuperclasses_eq_error hwalk).2 h

end

/-! ### Interfaces -/

/-- The interfaces that the class `t` names. -/
def namedInterfaces (p : Program) (t : Descriptor) : List Descriptor := (p.class? t).elim [] ClassDef.interfaces

/-- The runs of a search for `s` in the interfaces of a stack, the last one first. -/
def SearchesInterfaces (p : Program) (s : Signature) (seen stack : List Descriptor) (r : Option MethodDef) : Prop :=
  Searches (fun t => (p.class? t).bind (·.methodBySignature? s)) p.namedInterfaces (fun stack new => new.reverse ++ stack) seen stack r

/-- What is found among the classes that a search has not been to is new. -/
theorem of_find?_unseen {p : Program} {seen : List Descriptor} {t : Descriptor} {c : ClassDef}
    (h : (p.unseen seen).find? (·.type == t) = some c) : t ∉ seen ∧ p.class? t = some c := by
  have htype : c.type = t := by simpa using List.find?_some h
  have hnew : t ∉ seen := by simpa [htype] using (List.mem_filter.1 (List.mem_of_find?_eq_some h)).2
  exact ⟨hnew, by rw [← find?_unseen hnew, h]⟩

/-- **The search in the interfaces ends** with what it is said to find. -/
theorem searchesInterfaces {p : Program} (s : Signature) (seen stack : List Descriptor) :
    p.SearchesInterfaces s seen stack (searchInterfaces s (p.unseen seen) stack) := by
  generalize hpool : p.unseen seen = pool
  induction pool, stack using searchInterfaces.induct s generalizing seen with
  | case1 pool =>
    rw [searchInterfaces]
    exact .exhausted
  | case2 pool t stack hnone ih =>
    rw [searchInterfaces_of_none hnone]
    by_cases ht : t ∈ seen
    · exact .again ht (ih seen hpool)
    · -- A type without a class is new once, and nothing changes.
      have hc : p.class? t = none := by rw [← find?_unseen ht, hpool, hnone]
      have hpool' : p.unseen (t :: seen) = pool := by
        rw [unseen_cons, hpool, without, List.filter_eq_self]
        intro c hmem
        simpa using List.find?_eq_none.1 hnone c hmem
      refine .on ht (by rw [hc, Option.bind_none]) ?_
      rw [namedInterfaces, hc]
      exact ih (t :: seen) hpool'
  | case3 pool t stack c hsome m hm =>
    obtain ⟨ht, hc⟩ := of_find?_unseen (hpool ▸ hsome)
    rw [searchInterfaces_of_some hsome, hm]
    exact .hit ht (by rw [hc, Option.bind_some, hm])
  | case4 pool t stack c hsome hm ih =>
    obtain ⟨ht, hc⟩ := of_find?_unseen (hpool ▸ hsome)
    rw [searchInterfaces_of_some hsome, hm]
    refine .on ht (by rw [hc, Option.bind_some, hm]) ?_
    rw [namedInterfaces, hc]
    exact ih (t :: seen) (by rw [unseen_cons, hpool])

/-- The runs of a resolution: first the superclasses, then the interfaces of all of them. -/
inductive Resolves (p : Program) (m : MethodRef) : Option MethodDef → Prop
  | found {d : MethodDef} (h : p.Ascends m.signature [] m.holder (.found d)) : Resolves p m (some d)
  | broken (h : p.Ascends m.signature [] m.holder .broken) : Resolves p m none
  | searched {interfaces : List Descriptor} {r : Option MethodDef} (h : p.Ascends m.signature [] m.holder (.exhausted interfaces))
      (hr : p.SearchesInterfaces m.signature [] interfaces r) : Resolves p m r

/-- **When resolution ends.** Its runs end with what resolution answers, and there is one exactly if the
    superclasses of the holder do not come round before one of them has the method. -/
theorem resolution_ends_iff {p : Program} (m : MethodRef) :
    (∀ r, p.Resolves m r ↔ p.resolveMethod m = .ok r) ∧ ((∃ r, p.Resolves m r) ↔ ¬ p.Circles m.signature m.holder) := by
  have hunseen : p.unseen [] = p.classes := by simp [unseen]
  have hsearch (interfaces : List Descriptor) :
      p.SearchesInterfaces m.signature [] interfaces (searchInterfaces m.signature p.classes interfaces) := by
    have h := searchesInterfaces (p := p) m.signature [] interfaces
    rwa [hunseen] at h
  refine ⟨fun r => ?_, ?_⟩
  · rw [resolveMethod, bind_eq_ok]
    simp only [walkSuperclasses_eq_ok_iff]
    constructor
    · rintro (⟨h⟩ | h | ⟨h, hr⟩)
      · exact ⟨_, h, rfl⟩
      · exact ⟨_, h, rfl⟩
      · exact ⟨_, h, by rw [hr.unique (hsearch _)]; rfl⟩
    · rintro ⟨w, h, hr⟩
      cases w with
      | found d =>
        cases hr
        exact .found h
      | broken =>
        cases hr
        exact .broken h
      | exhausted interfaces =>
        cases hr
        exact .searched h (hsearch interfaces)
  · have hends : (∃ w, p.Ascends m.signature [] m.holder w) ↔ ¬ p.Circles m.signature m.holder := exists_ascends_iff
    rw [← hends]
    constructor
    · rintro ⟨_, ⟨h⟩ | h | ⟨h, -⟩⟩ <;> exact ⟨_, h⟩
    · rintro ⟨w, h⟩
      cases w with
      | found d => exact ⟨_, .found h⟩
      | broken => exact ⟨_, .broken h⟩
      | exhausted interfaces => exact ⟨_, .searched h (hsearch interfaces)⟩

/-- The interfaces `I` and `J` extend each other, and a search that starts in them ends all the same. -/
theorem resolution_ends_iff_cyclicSample :
    ∃ r, cyclicSample.Resolves ⟨⟨"Lp/I;"⟩, "m", ⟨.void, []⟩⟩ r := by
  have hascends : cyclicSample.Ascends ⟨"m", ⟨.void, []⟩⟩ [] ⟨"Lp/I;"⟩ (.exhausted [⟨"Lp/J;"⟩]) :=
    ascends_of_walkSuperclasses (show cyclicSample.walkSuperclasses _ 2 _ _ = _ from rfl)
  exact (resolution_ends_iff _).2.2 hascends.not_circles

/-- A class that is its own superclass. -/
def selfSample : Program :=
  .ofList [{ type := .object, kind := .library, superclass := none }, { type := ⟨"Lp/A;"⟩, superclass := some ⟨"Lp/A;"⟩ }]

/-- A search for a method that such a class does not have goes round for ever. -/
theorem resolution_diverges_of_self :
    (∀ r, ¬ selfSample.Resolves ⟨⟨"Lp/A;"⟩, "m", ⟨.void, []⟩⟩ r) ∧
      selfSample.resolveMethod ⟨⟨"Lp/A;"⟩, "m", ⟨.void, []⟩⟩ = .error .diverges := by
  have hpass : selfSample.Passes ⟨"m", ⟨.void, []⟩⟩ ⟨"Lp/A;"⟩ ⟨"Lp/A;"⟩ := ⟨_, rfl, rfl, rfl⟩
  have hcircles : selfSample.Circles ⟨"m", ⟨.void, []⟩⟩ ⟨"Lp/A;"⟩ := ⟨_, .refl, .single hpass⟩
  refine ⟨fun r hr => ?_, rfl⟩
  cases hr with
  | found h => exact h.not_circles hcircles
  | broken h => exact h.not_circles hcircles
  | searched h _ => exact h.not_circles hcircles

end Program

end DexShrinker
