/-
  DexShrinker/Proofs/Merging/Resolution.lean
  ==========================================
  **When a merge preserves resolution.**

  A search in the program after a merge goes through what the classes on its old way have
  become (`Plan.Valid.mem_searchOrder`), but also through methods that other classes of
  their groups have brought along, and the interfaces of a class may come in another
  order. So a method resolves to what its definition has become exactly if the lens gives
  it the signature of this definition and nothing before it on the new way has that
  signature (`Merging.resolves_iff_inView`).
-/
import DexShrinker.Proofs.App.Resolution
import DexShrinker.Proofs.Merging.Lasting
import DexShrinker.Proofs.Merging.Merged
import Mathlib.Data.List.TakeWhile

namespace DexShrinker.Merging

theorem forall₂_append_left {α β : Type} {R : α → β → Prop} {xs xs' : List α} {ys : List β}
    (h : List.Forall₂ R (xs ++ xs') ys) : ∃ ys₁ ys₂, ys = ys₁ ++ ys₂ ∧ List.Forall₂ R xs ys₁ ∧ List.Forall₂ R xs' ys₂ := by
  induction xs generalizing ys with
  | nil => exact ⟨[], ys, rfl, .nil, h⟩
  | cons x xs ih =>
    obtain ⟨y, ys', hr, hrest, rfl⟩ := List.forall₂_cons_left_iff.1 h
    obtain ⟨ys₁, ys₂, rfl, h₁, h₂⟩ := ih hrest
    exact ⟨y :: ys₁, ys₂, rfl, .cons hr h₁, h₂⟩

theorem exists_first_split {α β : Type} [DecidableEq β] {f : α → β} {xs : List α} {y : β} (h : ∃ x ∈ xs, f x = y) :
    ∃ pre x post, xs = pre ++ x :: post ∧ f x = y ∧ ∀ z ∈ pre, f z ≠ y := by
  obtain ⟨x, hx, hy⟩ := h
  obtain ⟨x', hfind⟩ : ∃ x', xs.find? (f · == y) = some x' := by
    rw [← Option.isSome_iff_exists, List.find?_isSome]
    exact ⟨x, hx, by simpa using hy⟩
  obtain ⟨hx', pre, post, heq, hpre⟩ := List.find?_eq_some_iff_append.1 hfind
  exact ⟨pre, x', post, heq, by simpa using hx', fun z hz => by simpa using hpre z hz⟩

/-! ### Methods in view -/

/-- What keeps the method `d` in view of a search from `t`, where types go to others by
    `type`, `p` has become `p'`, and `d` is in what `c` has become. -/
structure InView (type : Descriptor → Descriptor) (p p' : Program) (t : Descriptor) (c : ClassDef) (d : MethodDef) : Prop where
  /-- What was below `c` has become a class without a method of this signature. -/
  below : ∀ b ∈ (p.above t).takeWhile (type ·.type != type c.type), ∀ e, p'.class? (type b.type) = some e →
    ∀ x ∈ e.methods, x.ref.signature ≠ d.ref.signature
  /-- What `c` has become has no other method of this signature first. -/
  own : (∃ b ∈ p.above t, type b.type = type c.type) → ∀ e, p'.class? (type c.type) = some e → Program.FirstIn e.methods d
  /-- If `c` is among the interfaces, no interface has another method of this signature
      first. -/
  interfaces : (∀ b ∈ p.above t, type b.type ≠ type c.type) →
    Program.FirstIn ((p'.interfacesAbove (type t)).flatMap ClassDef.methods) d

/-- **Methods in view are the first of their signature.** -/
theorem firstIn_searched_iff {type : Descriptor → Descriptor} {p p' : Program} {t : Descriptor} {es rest : List ClassDef}
    (habove : p'.above (type t) = es ++ rest)
    (hforall : List.Forall₂ (fun b e => p'.class? (type b.type) = some e ∧ ∀ m ∈ e.methods, m.ref.holder = type b.type)
      (p.above t) es)
    {c e : ClassDef} (he : p'.class? (type c.type) = some e) {d : MethodDef} (hd : d ∈ e.methods)
    (hholder : d.ref.holder = type c.type) (hrest : (∀ b ∈ p.above t, type b.type ≠ type c.type) → rest = []) :
    Program.FirstIn (p'.searched (type t)) d ↔ InView type p p' t c d := by
  -- What was below `c` does not have `d`, which names another class as its holder.
  have hbelow {bs es' : List ClassDef} (hbs : ∀ b ∈ bs, type b.type ≠ type c.type)
      (hforall : List.Forall₂ (fun b e => p'.class? (type b.type) = some e ∧ ∀ m ∈ e.methods, m.ref.holder = type b.type) bs es')
      (ms : List MethodDef) :
      Program.FirstIn (es'.flatMap ClassDef.methods ++ ms) d ↔
        (∀ b ∈ bs, ∀ e, p'.class? (type b.type) = some e → ∀ x ∈ e.methods, x.ref.signature ≠ d.ref.signature) ∧
          Program.FirstIn ms d := by
    rw [Program.firstIn_append_iff]
    · refine and_congr_left' ⟨?_, ?_⟩
      · intro hall b hb e he x hx
        obtain ⟨e', he', hget, -⟩ := exists_of_mem_left hforall hb
        cases hget.symm.trans he
        exact hall x (List.mem_flatMap.2 ⟨e, he', hx⟩)
      · intro hall x hx
        obtain ⟨e, he, hx⟩ := List.mem_flatMap.1 hx
        obtain ⟨b, hb, hget, -⟩ := exists_of_mem_left hforall.flip he
        exact hall b hb e hget x hx
    · intro hmem
      obtain ⟨e, he, hmem⟩ := List.mem_flatMap.1 hmem
      obtain ⟨b, hb, -, hhoused⟩ := exists_of_mem_left hforall.flip he
      exact hbs b hb ((hhoused d hmem).symm.trans hholder)
  rw [Program.searched, Program.searchOrder, habove]
  by_cases hc : ∃ b ∈ p.above t, type b.type = type c.type
  · -- What `c` has become is where the first such class is on the old way.
    obtain ⟨bs, b, bs', hsplit, hb, hbs⟩ := exists_first_split hc
    have htake : (p.above t).takeWhile (type ·.type != type c.type) = bs := by
      rw [hsplit, List.takeWhile_append_of_pos fun x hx => by simpa using hbs x hx, List.takeWhile_cons_of_neg (by simp [hb]),
        List.append_nil]
    rw [hsplit] at hforall
    obtain ⟨es₁, es₂, rfl, hforall₁, hforall₂⟩ := forall₂_append_left hforall
    obtain ⟨e', es₃, ⟨hget, -⟩, -, rfl⟩ := List.forall₂_cons_left_iff.1 hforall₂
    obtain rfl : e = e' := by
      rw [hb, he] at hget
      exact Option.some.inj hget
    simp only [List.append_assoc, List.cons_append, List.flatMap_append, List.flatMap_cons]
    rw [hbelow hbs hforall₁, Program.firstIn_append_of_mem hd]
    constructor
    · rintro ⟨hall, hfirst⟩
      refine ⟨htake ▸ hall, fun _ e' he' => ?_, fun hno => absurd hc (by simpa using hno)⟩
      cases he.symm.trans he'
      exact hfirst
    · intro hview
      exact ⟨htake ▸ hview.below, hview.own hc e he⟩
  · have hno : ∀ b ∈ p.above t, type b.type ≠ type c.type := fun b hb heq => hc ⟨b, hb, heq⟩
    rw [hrest hno, List.append_nil, List.flatMap_append, hbelow hno hforall]
    have htake : (p.above t).takeWhile (type ·.type != type c.type) = p.above t :=
      List.takeWhile_eq_self_iff.2 fun b hb => by simpa using hno b hb
    constructor
    · rintro ⟨hall, hfirst⟩
      refine ⟨?_, fun hsome => absurd hsome hc, fun _ => hfirst⟩
      rw [htake]
      exact hall
    · intro hview
      have hall := hview.below
      rw [htake] at hall
      exact ⟨hall, hview.interfaces hno⟩

/-! ### What a class has become -/

/-- The class `c` has become `e`, which is below what the supertypes of `c` have become. -/
structure Plan.Becomes (P : Plan) (p : Program) (c e : ClassDef) : Prop where
  class?_eq : P.program.class? (P.type c.type) = some e
  superclass : ∀ d ∈ p.classes, c.superclass = some d.type → e.superclass = some (P.type d.type)
  top : c.superclass = none → e.superclass = none
  interfaces : ∀ d ∈ p.classes, d.type ∈ c.interfaces → P.type d.type ∈ e.interfaces
  housed : ∀ m ∈ e.methods, m.ref.holder = P.type c.type
  visited : ∃ w ∈ P.placement.visited P.classes, w.type = e.type ∧ w.superclass = e.superclass

namespace Plan.Valid

variable {v : View} {P : Plan}

theorem exists_becomes (h : P.Valid v) (hv : v.program.Regular) (hhoused : v.program.Housed) (hclosed : v.program.LibraryClosed)
    {c : ClassDef} (hc : c ∈ v.program.classes) : ∃ e, P.Becomes v.program c e := by
  cases hlib : c.isLibrary with
  | true =>
    have hself := h.type_of_library hv hc hlib
    have hstays {d : ClassDef} (hd : d ∈ v.program.classes) (hs : d.type ∈ c.supertypes) : P.type d.type = d.type :=
      h.type_of_library hv hd (hclosed c hc hlib d hd hs)
    refine ⟨c, by rw [hself]; exact h.class?_library hc hlib, ?_, id, ?_, ?_, c, h.mem_visited hc hlib, rfl, rfl⟩
    · intro d hd hs
      rw [hstays hd (by simp [ClassDef.supertypes, hs]), hs]
    · intro d hd hs
      rw [hstays hd (by simp [ClassDef.supertypes, hs])]
      exact hs
    · rw [hself]
      exact hhoused c hc
  | false =>
    have hprog : c ∈ v.program.programClasses := List.mem_filter.2 ⟨hc, by simpa [Program.isLibrary_eq] using hlib⟩
    obtain ⟨u, hu, types, c₀, hgathers, -, htype, hc₀, hparents⟩ := h.exists_gathers hprog
    have hclass₀ := Program.mem_classes_of_mem_programClasses hc₀
    obtain ⟨e, he, fs, ms, heq, -, hplaced⟩ := h.exists_shell hu
    obtain ⟨hsuper₀, hinterfaces₀⟩ := eq_of_parents hclass₀ hc hparents
    have hsuper : e.superclass = c.superclass.map P.type := by
      rw [heq, ← hsuper₀]
      exact hgathers.superclass
    rw [← type_class P hv hc] at htype
    refine ⟨e, ?_, ?_, ?_, ?_, ?_, u.shell, shell_mem_visited hu, by rw [heq], by rw [heq]⟩
    · rw [← htype, show u.shell.type = e.type by rw [heq]]
      exact h.class?_placed he
    · intro d _ hs
      rw [hsuper, hs]
      rfl
    · intro hs
      rw [hsuper, hs]
      rfl
    · intro d _ hs
      rw [show e.interfaces = u.shell.interfaces by rw [heq], hgathers.interfaces, List.mem_eraseDups]
      exact List.mem_map_of_mem ((hinterfaces₀ d.type).2 hs)
    · intro m hm
      rw [← htype]
      rw [heq] at hm
      rcases List.mem_append.1 hm with hm | hm
      · exact hgathers.housed m hm
      · exact hplaced m hm

/-! ### The way of a search after a merge -/

/-- The classes on a way upwards become classes on a way upwards. -/
theorem exists_climbs (h : P.Valid v) (hv : v.program.Regular) (hhoused : v.program.Housed) (hclosed : v.program.LibraryClosed)
    {t : Descriptor} {cs : List ClassDef} (hclimbs : v.program.Climbs t cs) :
    ∃ es, P.program.Climbs (P.type t) es ∧ List.Forall₂ (P.Becomes v.program) cs es := by
  induction hclimbs with
  | @last t c hc =>
    obtain rfl := Program.type_of_class? hc
    obtain ⟨e, he⟩ := h.exists_becomes hv hhoused hclosed (Program.mem_classes.2 hc)
    exact ⟨[e], .last he.class?_eq, .cons he .nil⟩
  | @up t s c cs hc hs hclimbs ih =>
    obtain rfl := Program.type_of_class? hc
    obtain ⟨e, he⟩ := h.exists_becomes hv hhoused hclosed (Program.mem_classes.2 hc)
    obtain ⟨es, hes, hforall⟩ := ih
    have hsuper : e.superclass = some (P.type s) := by
      cases hclimbs with
      | last hd =>
        obtain rfl := Program.type_of_class? hd
        exact he.superclass _ (Program.mem_classes.2 hd) hs
      | up hd =>
        obtain rfl := Program.type_of_class? hd
        exact he.superclass _ (Program.mem_classes.2 hd) hs
    exact ⟨e :: es, .up he.class?_eq hsuper hes, .cons he hforall⟩

theorem length_le_of_becomes (h : P.Valid v) (hv : v.program.WellFormed) {t : Descriptor} {cs es : List ClassDef}
    (hclimbs : P.program.Climbs t es) (hforall : List.Forall₂ (P.Becomes v.program) cs es) : es.length ≤ P.program.size := by
  obtain ⟨rank, hlayered⟩ := h.layered hv
  refine hclimbs.length_le rank fun e he s hs => ?_
  obtain ⟨c, -, hbecomes⟩ := exists_of_mem_left hforall.flip he
  obtain ⟨w, hw, htype, hsuper⟩ := hbecomes.visited
  rw [← htype]
  exact hlayered.ranked w hw s (by simp [ClassDef.supertypes, hsuper, hs])

/-- **The superclasses on the way.** They become the first classes on the way after the
    merge, and all of them if they come to an end. -/
theorem exists_above (h : P.Valid v) (hv : v.program.WellFormed) (hhoused : v.program.Housed) (hclosed : v.program.LibraryClosed)
    (t : Descriptor) :
    ∃ es rest, P.program.above (P.type t) = es ++ rest ∧ List.Forall₂ (P.Becomes v.program) (v.program.above t) es ∧
      (v.program.reachesTop (v.program.size + 1) t = true →
        rest = [] ∧ P.program.reachesTop (P.program.size + 1) (P.type t) = true) := by
  rcases List.eq_nil_or_concat (v.program.above t) with hnil | ⟨cs, c, habove⟩
  · refine ⟨[], P.program.above (P.type t), rfl, by rw [hnil]; exact .nil, fun htop => ?_⟩
    obtain ⟨cs, c, heq, -⟩ := v.program.climbs_of_reachesTop _ t htop
    rw [Program.above, heq] at hnil
    simp at hnil
  · rw [List.concat_eq_append] at habove
    obtain ⟨es, hclimbs, hforall⟩ := h.exists_climbs hv hhoused hclosed (v.program.climbs_of_eq_append _ t habove)
    have hlen := h.length_le_of_becomes hv hclimbs hforall
    obtain ⟨rest, hrest⟩ := hclimbs.isPrefix (show es.length ≤ P.program.size + 1 by omega)
    refine ⟨es, rest, hrest.symm, habove ▸ hforall, fun htop => ?_⟩
    obtain ⟨cs', top, habove', -, hnone⟩ := v.program.climbs_of_reachesTop _ t htop
    obtain ⟨rfl, htop⟩ := List.append_inj' (habove.symm.trans habove') rfl
    obtain rfl := List.singleton_inj.1 htop
    obtain ⟨es', es₂, rfl, -, hlast⟩ := forall₂_append_left hforall
    obtain ⟨e, _, hbecomes, hnil, rfl⟩ := List.forall₂_cons_left_iff.1 hlast
    obtain rfl := List.forall₂_nil_left_iff.1 hnil
    obtain ⟨htop', habove'⟩ := hclimbs.reachesTop (hbecomes.top hnone) (P.program.size + 1) (by omega)
    rw [habove'] at hrest
    exact ⟨by simpa using hrest, htop'⟩

/-- **A search after a merge goes through what the classes on its old way have become.** -/
theorem mem_searchOrder (h : P.Valid v) (hv : v.program.WellFormed) (hhoused : v.program.Housed) (hclosed : v.program.LibraryClosed)
    {t : Descriptor} {c e : ClassDef} (hc : c ∈ v.program.searchOrder t) (he : P.Becomes v.program c e) :
    e ∈ P.program.searchOrder (P.type t) := by
  obtain ⟨es, rest, habove, hforall, hend⟩ := h.exists_above hv hhoused hclosed t
  rcases List.mem_append.1 hc with hc | hc
  · obtain ⟨e', he', hbecomes⟩ := exists_of_mem_left hforall hc
    cases hbecomes.class?_eq.symm.trans he.class?_eq
    refine List.mem_append_left _ ?_
    rw [habove]
    exact List.mem_append_left _ he'
  · unfold Program.interfacesAbove at hc
    split at hc
    · next htop =>
      obtain ⟨rfl, htop'⟩ := hend htop
      rw [List.append_nil] at habove
      have hstack {d : ClassDef} (hd : v.program.class? d.type = some d)
          (hreaches : v.program.Reaches ((v.program.above t).flatMap ClassDef.interfaces).reverse d.type) :
          P.program.Reaches ((P.program.above (P.type t)).flatMap ClassDef.interfaces).reverse (P.type d.type) := by
        generalize ht : d.type = s at hd hreaches
        induction hreaches generalizing d with
        | start hmem =>
          subst ht
          rw [List.mem_reverse, List.mem_flatMap] at hmem
          obtain ⟨x, hx, hmem⟩ := hmem
          obtain ⟨x', hx', hbecomes⟩ := exists_of_mem_left hforall hx
          refine .start (List.mem_reverse.2 (List.mem_flatMap.2 ⟨x', habove ▸ hx', ?_⟩))
          exact hbecomes.interfaces d (Program.mem_classes.2 hd) hmem
        | @step s x hx _ hmem ih =>
          subst ht
          obtain ⟨x', hx'⟩ := h.exists_becomes hv hhoused hclosed (Program.mem_classes.2 hx)
          have htype := Program.type_of_class? hx'.class?_eq
          refine .step (c := x') (by rw [htype]; exact hx'.class?_eq) (htype ▸ ih rfl hx) ?_
          exact hx'.interfaces d (Program.mem_classes.2 hd) hmem
      obtain ⟨hd, hreaches⟩ := Program.mem_interfacesFrom.1 hc
      have htype := Program.type_of_class? he.class?_eq
      refine List.mem_append_right _ ?_
      rw [Program.interfacesAbove, if_pos htop']
      refine Program.mem_interfacesFrom.2 ⟨?_, ?_⟩
      · rw [htype]
        exact he.class?_eq
      · rw [htype]
        exact hstack hd hreaches
    · cases hc

end Plan.Valid

/-! ### Where the lens leads -/

section

variable {hash : HashOrder} {v : View} {maxGroupSize : Nat} {P : Plan}

theorem Plan.Valid.tracks (h : P.Valid v) (hv : v.program.Regular) (hhoused : v.program.Housed) :
    P.last.log.recorder.Tracks P.type := by
  obtain ⟨report, hmerged⟩ := h.merged
  refine Placement.tracks_walk ?_ fun u hu m hm hinit => ?_
  · refine foldlM_preserves (P := fun st : State => st.log.recorder.Tracks P.placement.merges.type)
      (fun st g _ st' hst hstep => tracks_mergeGroup hst hstep) (Recorder.tracks_start _ _) hmerged
  · obtain ⟨types, c, -, hgathers, -, htypes⟩ := h.origin hu
    obtain ⟨t, ht, d, hd, hmd⟩ := (hgathers.methods m hinit).1 hm
    rw [h.program] at hd
    have htype := Program.type_of_class? hd
    rw [hgathers.type, hhoused d (Program.mem_classes.2 (htype ▸ hd)) m hmd, htype]
    rw [← htype] at ht ⊢
    exact ((type_class P hv (Program.mem_classes.2 (htype ▸ hd))).trans (htypes d.type ht)).symm

/-- **The lens leads to the class that the holder has become.** -/
theorem Plan.Valid.exists_lookup (h : P.Valid v) (hv : v.program.Regular) (hhoused : v.program.Housed) {lens : Lens}
    (hlens : P.recorder.build v.lens = .ok lens) {c : ClassDef}
    (hc : c ∈ v.program.classes) {m : MethodRef} (hholder : m.holder = c.type) (hinit : m.isInstanceInitializer = false)
    (context : Option MethodRef) (kind : InvokeKind) :
    ∃ l, lens.lookupMethod m context kind v.lens = .ok l ∧ l.ref.holder = P.type m.holder := by
  obtain ⟨-, l, hl, href⟩ := Recorder.exists_lookup_of_build hlens m context kind
  refine ⟨l, hl, ?_⟩
  rw [href, Renaming.mapMethod, Std.TreeMap.getD_eq_getD_getElem?]
  cases hmoved : P.recorder.moves.methods[m]? with
  | some new =>
    rw [Plan.recorder, methods_foldl_recordTypes] at hmoved
    exact (h.tracks hv hhoused).methods m new hmoved hinit
  | none => exact h.mapHolder_recorder hv (hholder ▸ hv.isClass c hc)

/-! ### Resolution after a merge -/

/-- Where a type goes in a merge. -/
def typeAfter (hash : HashOrder) (v : View) (maxGroupSize : Nat) (t : Descriptor) : Descriptor :=
  match planned hash v maxGroupSize with
  | .ok (some P) => P.type t
  | _ => t

theorem typeAfter_eq (hplan : planned hash v maxGroupSize = .ok (some P)) : typeAfter hash v maxGroupSize = P.type := by
  funext t
  rw [typeAfter, hplan]

theorem typeAfter_eq_id (hplan : planned hash v maxGroupSize = .ok none) : typeAfter hash v maxGroupSize = id := by
  funext t
  rw [typeAfter, hplan]
  rfl

/-- What a method has become is in the class that its class went to, and says so. -/
theorem Placed.mem_becomes (hv : v.program.Regular)
    (hplan : planned hash v maxGroupSize = .ok (some P)) {c e : ClassDef} (hc : c ∈ v.program.classes) (he : P.Becomes v.program c e)
    {m m' : MethodDef} (hm : m ∈ c.methods) (h : Placed hash v maxGroupSize c m m') :
    m' ∈ e.methods ∧ m'.ref.holder = P.type c.type := by
  have hvalid := valid_of_planned hplan
  have hmem : m' ∈ e.methods := by
    have hget := he.class?_eq
    cases h with
    | unmerged hnone => cases hnone.symm.trans hplan
    | library hlib =>
      rw [hvalid.type_of_library hv hc hlib, hvalid.class?_library hc hlib] at hget
      exact Option.some.inj hget ▸ hm
    | @placed Q u d _ hplan' _ _ htype hd hdtype hm' =>
      cases hplan'.symm.trans hplan
      rw [← htype, ← hdtype, hvalid.class?_placed hd] at hget
      exact Option.some.inj hget ▸ List.mem_of_mem_drop (List.of_mem_zip hm').2
  exact ⟨hmem, he.housed m' hmem⟩

theorem Placed.holder_eq {r : MergeResult} (hv : v.program.Regular) (hhoused : v.program.Housed)
    (hclosed : v.program.LibraryClosed) (hrun : Merging.run hash v maxGroupSize = .ok r) {c : ClassDef} (hc : c ∈ v.program.classes)
    {m m' : MethodDef} (hm : m ∈ c.methods) (h : Placed hash v maxGroupSize c m m') :
    m'.ref.holder = typeAfter hash v maxGroupSize c.type := by
  rcases run_eq_ok hrun with ⟨hplan, -, -⟩ | ⟨P, hplan, -, -, -⟩
  · rw [← h.eq_of_unmerged hplan, typeAfter_eq_id hplan]
    exact hhoused c hc m hm
  · obtain ⟨e, he⟩ := (valid_of_planned hplan).exists_becomes hv hhoused hclosed hc
    rw [typeAfter_eq hplan]
    exact (h.mem_becomes hv hplan hc he hm).2

/-- The class that has the method which a search comes to. -/
theorem exists_mem_searchOrder (hhoused : v.program.Housed) {m : MethodRef} {d : MethodDef}
    (hd : v.program.resolveMethod m = .ok (some d)) :
    ∃ c ∈ v.program.searchOrder m.holder, d ∈ c.methods ∧ v.program.class? d.ref.holder = some c := by
  have hfind := Program.resolveMethod_eq_some_iff.1 hd
  obtain ⟨c, hc, hmem⟩ := List.mem_flatMap.1 (List.mem_of_find?_eq_some hfind)
  have hclass := Program.mem_classes_of_mem_searchOrder hc
  refine ⟨c, hc, hmem, ?_⟩
  rw [hhoused c hclass d hmem]
  exact Program.mem_classes.1 hclass

theorem exists_resolveMethod {p : Program} {m : MethodRef} {c : ClassDef} {d : MethodDef} (hc : c ∈ p.searchOrder m.holder)
    (hd : d ∈ c.methods) (hsignature : m.signature = d.ref.signature) : ∃ x, p.resolveMethod m = .ok (some x) := by
  obtain ⟨x, hx⟩ : ∃ x, (p.searched m.holder).find? (·.ref.signature == m.signature) = some x := by
    rw [← Option.isSome_iff_exists, List.find?_isSome]
    exact ⟨d, List.mem_flatMap.2 ⟨c, hc, hd⟩, by simp [hsignature]⟩
  exact ⟨x, Program.resolveMethod_eq_some_iff.2 hx⟩

/-- **When a merge preserves resolution.** A method that resolves to `d` still resolves if the
    lens gives it the signature of what `d` has become, and exactly to that if it is in view
    as well. -/
theorem resolves_iff_inView {r : MergeResult} (hv : v.program.WellFormed) (hhoused : v.program.Housed)
    (hclosed : v.program.LibraryClosed) (hrun : Merging.run hash v maxGroupSize = .ok r) {m : MethodRef} {d : MethodDef}
    (hinit : m.isInstanceInitializer = false) (hd : v.program.resolveMethod m = .ok (some d)) (context : Option MethodRef)
    (kind : InvokeKind) :
    ∃ c, v.program.class? d.ref.holder = some c ∧ (∃ d', Placed hash v maxGroupSize c d d') ∧
      (∃ l, r.lens.lookupMethod m context kind v.lens = .ok l) ∧
      ∀ d' l, Placed hash v maxGroupSize c d d' → r.lens.lookupMethod m context kind v.lens = .ok l →
        (l.ref.signature = d'.ref.signature → ∃ x, r.program.resolveMethod l.ref = .ok (some x)) ∧
        (r.program.resolveMethod l.ref = .ok (some d') ↔
          l.ref.signature = d'.ref.signature ∧ InView (typeAfter hash v maxGroupSize) v.program r.program m.holder c d') := by
  obtain ⟨c, hsearch, hmem, hc⟩ := exists_mem_searchOrder hhoused hd
  have hclass := Program.mem_classes_of_mem_searchOrder hsearch
  have hsignature : m.signature = d.ref.signature := (Program.resolveMethod_eq_some_iff_firstIn.1 hd).1
  have hinit' : d.isInstanceInitializer = false := by
    have hname : m.name = d.ref.name := congrArg Signature.name hsignature
    rw [MethodRef.isInstanceInitializer, hname] at hinit
    exact hinit
  refine ⟨c, hc, exists_placed_method hv hrun hclass hmem hinit', ?_⟩
  rcases run_eq_ok hrun with ⟨hplan, hprogram, hlens⟩ | ⟨P, hplan, -, hprogram, hlens⟩
  · obtain ⟨l, hl, href⟩ := v.lens.lookupMethod_self m context kind
    rw [hprogram, hlens, typeAfter_eq_id hplan]
    refine ⟨⟨l, hl⟩, fun d' l' hplaced hl' => ?_⟩
    cases hl.symm.trans hl'
    obtain rfl := hplaced.eq_of_unmerged hplan
    refine ⟨fun _ => ⟨d, href ▸ hd⟩, ?_⟩
    rw [Program.resolveMethod_eq_some_iff_firstIn, href]
    have hsame : List.Forall₂ (fun b e => v.program.class? (id b.type) = some e ∧ ∀ m ∈ e.methods, m.ref.holder = id b.type)
        (v.program.above m.holder) (v.program.above m.holder) := by
      refine List.forall₂_same.2 fun b hb => ?_
      obtain ⟨cs, hclimbs⟩ := v.program.climbs_of_mem _ m.holder hb
      have hb := hclimbs.class?_eq b (List.mem_append_right cs (List.mem_singleton_self b))
      exact ⟨hb, hhoused b (Program.mem_classes.2 hb)⟩
    exact and_congr_right fun _ => firstIn_searched_iff (List.append_nil _).symm hsame
      (Program.mem_classes.1 hclass) hmem (hhoused c hclass d hmem) fun _ => rfl
  · have hvalid := valid_of_planned hplan
    obtain ⟨h, hh⟩ := Program.exists_class_of_resolveMethod hd
    have htype := Program.type_of_class? hh
    obtain ⟨l, hl, hholder⟩ := hvalid.exists_lookup hv hhoused hlens (Program.mem_classes.2 (htype ▸ hh)) htype.symm
      hinit context kind
    rw [hprogram, typeAfter_eq hplan]
    refine ⟨⟨l, hl⟩, fun d' l' hplaced hl' => ?_⟩
    cases hl.symm.trans hl'
    obtain ⟨e, he⟩ := hvalid.exists_becomes hv hhoused hclosed hclass
    obtain ⟨hmem', hholder'⟩ := hplaced.mem_becomes hv hplan hclass he hmem
    obtain ⟨es, rest, habove, hforall, hend⟩ := hvalid.exists_above hv hhoused hclosed m.holder
    refine ⟨exists_resolveMethod (hholder ▸ hvalid.mem_searchOrder hv hhoused hclosed hsearch he) hmem', ?_⟩
    rw [Program.resolveMethod_eq_some_iff_firstIn, hholder]
    refine and_congr_right fun _ => firstIn_searched_iff habove (hforall.imp fun b e hb => ⟨hb.class?_eq, hb.housed⟩)
      he.class?_eq hmem' hholder' fun hno => ?_
    -- A class that is not among the superclasses is among the interfaces.
    rcases List.mem_append.1 hsearch with habove' | hinterface
    · exact absurd rfl (hno c habove')
    · unfold Program.interfacesAbove at hinterface
      split at hinterface
      · next htop => exact (hend htop).1
      · cases hinterface

end

/-! ### A call that is captured

`First` and `Second` become one class. Both are below `Base`, whose method `draw` only `First`
overrides. -/

def drawMethod (holder : String) : MethodDef where
  ref := ⟨.ofBinaryName holder, "draw", .void⟩
  access := .publicFlag
  code := none

def captureClasses : List ClassDef :=
  [{ type := .object, kind := .library, superclass := none },
    { type := .ofBinaryName "p/Base", superclass := some .object, methods := [drawMethod "p/Base"] },
    { type := .ofBinaryName "p/First", superclass := some (.ofBinaryName "p/Base"), methods := [drawMethod "p/First"] },
    { type := .ofBinaryName "p/Second", superclass := some (.ofBinaryName "p/Base") }]

def captureView : View where
  program := .ofList captureClasses

theorem capture_wellFormed : captureView.program.WellFormed where
  isClass := by decide
  acyclic := by
    refine ⟨fun t => if t = .object then 0 else if t = .ofBinaryName "p/Base" then 1 else 2, ?_⟩
    unfold Program.Ranked
    decide

theorem capture_housed : captureView.program.Housed := by
  unfold Program.Housed
  decide

theorem capture_libraryClosed : captureView.program.LibraryClosed := by
  unfold Program.LibraryClosed
  decide

/-- The method that a reference resolves to after the merge. -/
def capturedBy (m : MethodRef) : Option MethodRef :=
  match Merging.run .inserted captureView 30 with
  | .ok r =>
    match r.lens.lookupMethod m none .virtual captureView.lens with
    | .ok l => (r.program.resolveMethod l.ref).toOption.join.map MethodDef.ref
    | .error _ => none
  | .error _ => none

theorem capture_run : ∃ r, Merging.run .inserted captureView 30 = .ok r := by
  have hok : (Merging.run .inserted captureView 30).isOk = true := by decide +kernel
  cases hrun : Merging.run .inserted captureView 30 with
  | ok r => exact ⟨r, rfl⟩
  | error e => simp [hrun, Except.isOk, Except.toBool] at hok

theorem capture_mem {c : ClassDef} (hc : c ∈ captureClasses) : c ∈ captureView.program.classes :=
  Program.mem_classes.2 (Program.class?_ofList (by decide) hc)

theorem capture_resolve : captureView.program.resolveMethod ⟨.ofBinaryName "p/Second", "draw", .void⟩ =
    .ok (some (drawMethod "p/Base")) := by
  rfl

/-- Calls on `Second`, which used to run the method of `Base`. -/
theorem resolves_iff_inView_second : ∃ r c, Merging.run .inserted captureView 30 = .ok r ∧
    captureView.program.class? (.ofBinaryName "p/Base") = some c ∧ (∃ d', Placed .inserted captureView 30 c (drawMethod "p/Base") d') ∧
    ∀ d' l, Placed .inserted captureView 30 c (drawMethod "p/Base") d' →
      r.lens.lookupMethod ⟨.ofBinaryName "p/Second", "draw", .void⟩ none .virtual captureView.lens = .ok l →
      (r.program.resolveMethod l.ref = .ok (some d') ↔ l.ref.signature = d'.ref.signature ∧
        InView (typeAfter .inserted captureView 30) captureView.program r.program (.ofBinaryName "p/Second") c d') := by
  obtain ⟨r, hrun⟩ := capture_run
  obtain ⟨c, hc, hplaced, -, hall⟩ :=
    resolves_iff_inView capture_wellFormed capture_housed capture_libraryClosed hrun rfl capture_resolve none .virtual
  exact ⟨r, c, hrun, hc, hplaced, fun d' l hd' hl => (hall d' l hd' hl).2⟩

/-- The clash: calls on `Second` run the method of `First` after the merge. -/
theorem inherited_call_captured : ∃ r, Merging.run .inserted captureView 30 = .ok r ∧
    captureView.program.resolveMethod ⟨.ofBinaryName "p/Second", "draw", .void⟩ = .ok (some (drawMethod "p/Base")) ∧
    ∃ c d' l x, captureView.program.class? (.ofBinaryName "p/Base") = some c ∧ Placed .inserted captureView 30 c (drawMethod "p/Base") d' ∧
      r.lens.lookupMethod ⟨.ofBinaryName "p/Second", "draw", .void⟩ none .virtual captureView.lens = .ok l ∧
      r.program.resolveMethod l.ref = .ok (some x) ∧ x.ref = (drawMethod "p/First").ref ∧ x ≠ d' := by
  obtain ⟨r, hrun⟩ := capture_run
  have hcaptured : capturedBy ⟨.ofBinaryName "p/Second", "draw", .void⟩ = some (drawMethod "p/First").ref := by decide +kernel
  have hbase : captureClasses[1] ∈ captureView.program.classes := capture_mem (by simp [captureClasses])
  obtain ⟨d', hd'⟩ := exists_placed_method capture_wellFormed hrun hbase (m := drawMethod "p/Base")
    (by simp [captureClasses]) rfl
  have hholder := hd'.holder_eq capture_wellFormed capture_housed capture_libraryClosed hrun hbase (by simp [captureClasses])
  have hstays : typeAfter .inserted captureView 30 (.ofBinaryName "p/Base") = .ofBinaryName "p/Base" := by decide +kernel
  simp only [capturedBy, hrun] at hcaptured
  split at hcaptured
  · next l hl =>
    obtain ⟨x, hx, href⟩ := Option.map_eq_some_iff.1 hcaptured
    refine ⟨r, hrun, capture_resolve, _, d', l, x, Program.mem_classes.1 hbase, hd', hl, ?_, href, ?_⟩
    · cases hres : r.program.resolveMethod l.ref with
      | ok found =>
        rw [hres] at hx
        exact congrArg Except.ok (by simpa [Except.toOption] using hx)
      | error f => simp [hres, Except.toOption] at hx
    · rintro rfl
      rw [href, show captureClasses[1].type = .ofBinaryName "p/Base" from rfl, hstays] at hholder
      exact absurd hholder (by decide)
  · cases hcaptured

end DexShrinker.Merging
