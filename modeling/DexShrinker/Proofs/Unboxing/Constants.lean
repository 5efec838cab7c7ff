/-
  DexShrinker/Proofs/Unboxing/Constants.lean
  ==========================================
  **The constants of an enum whose class initializer is understood.**

  The constant fields of the enum are stored to once each, and there are as many instances as
  fields, with the ordinals that count from zero (`FixedEnum.MadeOf`). These are counts only:
  nothing keeps one instance from being stored to two fields while another one is stored nowhere.
  The constants count from zero exactly if no two fields are stored the same instance
  (`FixedEnum.constants_count_iff`).
-/
import DexShrinker.Unboxing.Constants
import DexShrinker.Proofs.Outcome
import DexShrinker.Proofs.Sorting
import Mathlib.Data.List.Nodup
import Mathlib.Data.List.Perm.Subperm

namespace DexShrinker

open Std (TreeMap TreeSet LawfulEqOrd)

namespace FixedEnum

/-! ### Class initializers that are understood -/

/-- The class initializer is understood, and gives every constant a value for the fields that
    are read. -/
def Fixes (c : ClassDef) (read : FieldSet) : Prop := ∃ fixed, ofClass c read = .ok (.ok fixed)

/-- The body of the class initializer makes the instances, and they are the constants. -/
structure Understood (c : ClassDef) (body : Body) (found : List Allocation) : Prop where
  decoded : ∃ clinit, c.classInitializer? = some clinit ∧ clinit.decoded = .ok (some body)
  allocations : allocations body c.type (summaries c) = .ok found
  assigned : ∃ assigned, assign body ((c.fields.filter (·.isEnumConstant c.type)).map FieldDef.ref) found = some assigned
  replaced : ∃ b, replaceAllocations body c.type found = .ok b

theorem Understood.unique {c : ClassDef} {body body' : Body} {found found' : List Allocation} (h : Understood c body found)
    (h' : Understood c body' found') : body = body' ∧ found = found' := by
  obtain ⟨clinit, hinit, hdecoded⟩ := h.decoded
  obtain ⟨clinit', hinit', hdecoded'⟩ := h'.decoded
  cases hinit.symm.trans hinit'
  cases hdecoded.symm.trans hdecoded'
  cases h.allocations.symm.trans h'.allocations
  exact ⟨rfl, rfl⟩

/-- The instances by ordinal. -/
def byOrdinal (found : List Allocation) : List Allocation := sortBy (fun a b => a.ordinal ≤ b.ordinal) found

/-- All instances have a known value in the field. -/
def HasValues (found : List Allocation) (f : FieldRef) : Prop :=
  (valuesOf (sortBy (fun a b => a.ordinal ≤ b.ordinal) found) f).isSome = true

/-- The fields that hold the constants. -/
def constantFields (c : ClassDef) : List FieldRef := (c.fields.filter (·.isEnumConstant c.type)).map FieldDef.ref

/-- The data of an enum, from the instances that are stored to its fields. -/
def dataOf (c : ClassDef) (read : FieldSet) (found : List Allocation) (assigned : FieldMap Allocation) : EnumData where
  constants := sortBy (fun a b => a.ordinal ≤ b.ordinal) (assigned.toList.map fun (f, a) => ⟨f, a.ordinal, a.name⟩)
  fieldValues := .ofList (((read.toList.filter (·.holder == c.type)).map fun f => (f, valuesOf (byOrdinal found) f)).filterMap
    fun (f, vs) => vs.map fun vs => (f, vs))

theorem missing_eq_nil {c : ClassDef} {read : FieldSet} {found : List Allocation} :
    ((read.toList.filter (·.holder == c.type)).map fun f => (f, valuesOf (sortBy (fun a b => a.ordinal ≤ b.ordinal) found) f)).filter
      (·.2.isNone) = [] ↔ ∀ f ∈ read, f.holder = c.type → HasValues found f := by
  rw [List.filter_eq_nil_iff, List.forall_mem_map]
  simp only [List.mem_filter, TreeSet.mem_toList, beq_iff_eq, and_imp, HasValues, Bool.not_eq_true, Option.isNone_eq_false_iff]

/-- **What comes of a class initializer that is understood.** -/
theorem ofClass_cases {c : ClassDef} {read : FieldSet} {fixed : FixedEnum} (h : ofClass c read = .ok (.ok fixed)) :
    (c.classInitializer? = none ∧ constantFields c = [] ∧ fixed.data = {}) ∨
      ∃ body found assigned, Understood c body found ∧ assign body (constantFields c) found = some assigned ∧
        (∀ f ∈ read, f.holder = c.type → HasValues found f) ∧ fixed.data = dataOf c read found assigned := by
  unfold ofClass at h
  dsimp only at h
  split at h
  · next hinit =>
    split at h
    · next hempty =>
      cases h
      exact .inl ⟨hinit, List.isEmpty_iff.1 hempty, rfl⟩
    · cases h
  · next clinit hinit =>
    obtain ⟨code, hdecoded, h⟩ := bind_eq_ok.1 h
    split at h
    · cases h
    · next body =>
      split at h
      · cases h
      · next found hfound =>
        split at h
        · cases h
        · next assigned hassigned =>
          split at h
          · next hvalues =>
            obtain ⟨b, hb, h⟩ := bind_eq_ok.1 h
            cases h
            have hunderstood : Understood c body found :=
              ⟨⟨clinit, hinit, hdecoded⟩, hfound, ⟨assigned, hassigned⟩, b, Outcome.lift_eq_ok.1 hb⟩
            exact .inr ⟨body, found, assigned, hunderstood, hassigned, missing_eq_nil.1 hvalues, rfl⟩
          · cases h

/-- **When a class initializer is understood.** -/
theorem fixes_cases {c : ClassDef} {read : FieldSet} :
    Fixes c read ↔ (c.classInitializer? = none ∧ (c.fields.filter (·.isEnumConstant c.type)).map FieldDef.ref = []) ∨
      ∃ body found, Understood c body found ∧ ∀ f ∈ read, f.holder = c.type → HasValues found f := by
  constructor
  · rintro ⟨fixed, h⟩
    obtain ⟨hinit, hempty, -⟩ | ⟨body, found, -, hunderstood, -, hvalues, -⟩ := ofClass_cases h
    · exact .inl ⟨hinit, hempty⟩
    · exact .inr ⟨body, found, hunderstood, hvalues⟩
  · rintro (⟨hinit, hempty⟩ | ⟨body, found, h, hvalues⟩)
    · refine ⟨{}, ?_⟩
      unfold ofClass
      rw [hinit, hempty]
      rfl
    · obtain ⟨clinit, hinit, hdecoded⟩ := h.decoded
      obtain ⟨assigned, hassigned⟩ := h.assigned
      obtain ⟨b, hb⟩ := h.replaced
      unfold Fixes ofClass
      simp only [hinit, hdecoded, ok_bind, h.allocations, hassigned, missing_eq_nil.2 hvalues, hb]
      exact ⟨_, rfl⟩

/-- **Fields that are read are asked for one by one.** -/
theorem fixes_iff {c : ClassDef} {read : FieldSet} :
    Fixes c read ↔ Fixes c ∅ ∧ ∀ f ∈ read, f.holder = c.type → Fixes c (.ofList [f]) := by
  constructor
  · intro h
    obtain hnone | ⟨body, found, h, hvalues⟩ := fixes_cases.1 h
    · exact ⟨fixes_cases.2 (.inl hnone), fun _ _ _ => fixes_cases.2 (.inl hnone)⟩
    · refine ⟨fixes_cases.2 (.inr ⟨body, found, h, by simp⟩), fun f hf htype => ?_⟩
      refine fixes_cases.2 (.inr ⟨body, found, h, fun g hg _ => ?_⟩)
      obtain rfl : f = g := by simpa using hg
      exact hvalues f hf htype
  · rintro ⟨h, hone⟩
    obtain hnone | ⟨body, found, h, -⟩ := fixes_cases.1 h
    · exact fixes_cases.2 (.inl hnone)
    · refine fixes_cases.2 (.inr ⟨body, found, h, fun f hf htype => ?_⟩)
      obtain ⟨hinit, -⟩ | ⟨body', found', h', hvalues⟩ := fixes_cases.1 (hone f hf htype)
      · obtain ⟨clinit, hsome, -⟩ := h.decoded
        cases hinit.symm.trans hsome
      · obtain ⟨-, rfl⟩ := h.unique h'
        exact hvalues f (by simp) htype

/-! ### Stores to constant fields -/

/-- What the body stores to a static field, in order. -/
def storedTo (c : Body) (f : FieldRef) : List ValueId :=
  (c.blocks.flatMap Block.body).filterMap fun i =>
    match i.op with
    | .staticPut g v => if g = f then some v else none
    | _ => none

/-- The stores of the body to the given fields. -/
def stores (c : Body) (fields : List FieldRef) : List (FieldRef × ValueId) :=
  (c.blocks.flatMap Block.body).filterMap fun i =>
    match i.op with
    | .staticPut f v => if fields.contains f then some (f, v) else none
    | _ => none

/-- Note an instance for the field that it is stored to, which must have none yet. -/
def note (found : List Allocation) (assigned : FieldMap Allocation) (x : FieldRef × ValueId) : Option (FieldMap Allocation) := do
  let a ← found.find? (·.value == x.2)
  if assigned.contains x.1 then none else some (assigned.insert x.1 a)

theorem assign_eq_some {c : Body} {fields : List FieldRef} {found : List Allocation} {assigned : FieldMap Allocation} :
    assign c fields found = some assigned ↔ (stores c fields).foldlM (note found) ∅ = some assigned ∧
      assigned.size = fields.length ∧ found.length = fields.length ∧
        ∀ i < found.length, (i : Int) ∈ found.map (·.ordinal.toInt) := by
  have hfold : assign c fields found = ((stores c fields).foldlM (note found) ∅).bind fun assigned =>
    if assigned.size = fields.length && found.length = fields.length &&
        (List.range found.length).all (fun i => (found.map (·.ordinal.toInt)).contains (Int.ofNat i)) then some assigned else none := rfl
  rw [hfold, Option.bind_eq_some_iff]
  constructor
  · rintro ⟨assigned', hstores, h⟩
    split at h
    · next hcount =>
      cases h
      simp only [Bool.and_eq_true, decide_eq_true_eq, List.all_eq_true, List.mem_range, List.contains_iff_mem] at hcount
      exact ⟨hstores, hcount.1.1, hcount.1.2, hcount.2⟩
    · cases h
  · rintro ⟨hstores, hsize, hlength, hordinals⟩
    refine ⟨assigned, hstores, if_pos ?_⟩
    simp only [Bool.and_eq_true, decide_eq_true_eq, List.all_eq_true, List.mem_range, List.contains_iff_mem]
    exact ⟨⟨hsize, hlength⟩, hordinals⟩

/-- Fields are noted once each, with the instances that are stored to them. -/
theorem foldlM_note {found : List Allocation} {xs : List (FieldRef × ValueId)} {m m' : FieldMap Allocation}
    (h : xs.foldlM (note found) m = some m') :
    (xs.map Prod.fst).Nodup ∧ (∀ x ∈ xs, x.1 ∉ m) ∧ m'.size = m.size + xs.length ∧
      ∀ f a, m'[f]? = some a ↔ m[f]? = some a ∨ ∃ v, (f, v) ∈ xs ∧ found.find? (·.value == v) = some a := by
  induction xs generalizing m with
  | nil =>
    cases h
    simp
  | cons x xs ih =>
    obtain ⟨f, v⟩ := x
    rw [List.foldlM_cons] at h
    obtain ⟨m₁, hnote, h⟩ := Option.bind_eq_some_iff.1 h
    obtain ⟨a, ha, hnote⟩ := Option.bind_eq_some_iff.1 hnote
    split at hnote
    · cases hnote
    next hnew =>
    cases hnote
    have hmem : f ∉ m := fun hmem => hnew (TreeMap.contains_iff_mem.2 hmem)
    obtain ⟨hnodup, hapart, hsize, hget⟩ := ih h
    have hother {g : FieldRef} (hg : g ∉ m.insert f a) : f ≠ g ∧ g ∉ m := by
      rw [TreeMap.mem_insert, not_or] at hg
      exact ⟨fun heq => hg.1 (by simp [heq]), hg.2⟩
    refine ⟨?_, ?_, ?_, fun g b => ?_⟩
    · rw [List.map_cons, List.nodup_cons]
      refine ⟨fun hmem => ?_, hnodup⟩
      obtain ⟨y, hy, rfl⟩ := List.mem_map.1 hmem
      exact (hother (hapart y hy)).1 rfl
    · exact List.forall_mem_cons.2 ⟨hmem, fun y hy => (hother (hapart y hy)).2⟩
    · rw [hsize, TreeMap.size_insert, if_neg hnew, List.length_cons]
      omega
    · rw [hget, TreeMap.getElem?_insert]
      constructor
      · rintro (hmem | ⟨w, hw, hfind⟩)
        · split at hmem
          · next heq =>
            obtain rfl : f = g := LawfulEqOrd.eq_of_compare heq
            cases hmem
            exact .inr ⟨v, List.mem_cons_self, ha⟩
          · exact .inl hmem
        · exact .inr ⟨w, List.mem_cons_of_mem _ hw, hfind⟩
      · rintro (hget | ⟨w, hw, hfind⟩)
        · refine .inl ?_
          rw [if_neg, hget]
          intro heq
          obtain rfl : f = g := LawfulEqOrd.eq_of_compare heq
          exact hmem (TreeMap.mem_iff_isSome_getElem?.2 (by rw [hget]; rfl))
        · rcases List.mem_cons.1 hw with heq | hw
          · cases heq
            rw [if_pos (Std.compare_self)]
            exact .inl (ha.symm.trans hfind)
          · exact .inr ⟨w, hw, hfind⟩

theorem filter_key {α β : Type} [BEq β] [LawfulBEq β] {key : α → β} {xs : List α} (h : (xs.map key).Nodup) {x : α} (hx : x ∈ xs) :
    xs.filter (key · == key x) = [x] := by
  induction xs with
  | nil => cases hx
  | cons y xs ih =>
    obtain ⟨hy, hxs⟩ := List.nodup_cons.1 h
    rcases List.mem_cons.1 hx with rfl | hx
    · rw [List.filter_cons_of_pos (by simp), List.filter_eq_nil_iff.2]
      intro z hz
      simpa using fun heq : key z = key x => hy (heq ▸ List.mem_map_of_mem hz)
    · rw [List.filter_cons_of_neg (by simpa using fun heq : key y = key x => hy (heq ▸ List.mem_map_of_mem hx)), ih hxs hx]

/-- The stores to a field among those to all given fields. -/
theorem storedTo_eq {c : Body} {fields : List FieldRef} {f : FieldRef} (hf : f ∈ fields) :
    storedTo c f = ((stores c fields).filter (·.1 == f)).map Prod.snd := by
  unfold storedTo stores
  rw [List.filter_filterMap, List.map_filterMap]
  refine List.filterMap_congr fun i _ => ?_
  split
  · next g v _ =>
    by_cases heq : g = f
    · subst heq
      simp [hf, Option.filter]
    · by_cases hg : g ∈ fields <;> simp [heq, hg, Option.filter]
  · rfl

/-! ### What is counted -/

/-- The constant is the instance `a`, which is all that the body stores to its field. -/
structure Keeps (body : Body) (k : EnumConstant) (a : Allocation) : Prop where
  stored : storedTo body k.field = [a.value]
  ordinal : k.ordinal = a.ordinal
  name : k.name = a.name

/-- Each of the fields is assigned the one instance that is stored to it, and there are as many
    instances, with the ordinals from zero on. -/
structure Assigns (body : Body) (fields : List FieldRef) (found : List Allocation) (assigned : FieldMap Allocation) : Prop where
  keys : assigned.keys.Perm fields
  count : found.length = fields.length
  stored : ∀ f a, assigned[f]? = some a → storedTo body f = [a.value] ∧ a ∈ found
  ordinals : (found.map (·.ordinal.toInt)).Perm ((List.range found.length).map Int.ofNat)

theorem assigns_of_assign {body : Body} {fields : List FieldRef} {found : List Allocation} {assigned : FieldMap Allocation}
    (h : assign body fields found = some assigned) : Assigns body fields found assigned := by
  obtain ⟨hstores, hsize, hlength, hordinals⟩ := assign_eq_some.1 h
  obtain ⟨hnodup, -, -, hget⟩ := foldlM_note hstores
  simp only [TreeMap.getElem?_emptyc, reduceCtorEq, false_or] at hget
  have hmem {f : FieldRef} {v : ValueId} (hx : (f, v) ∈ stores body fields) : f ∈ fields := by
    obtain ⟨i, -, hi⟩ := List.mem_filterMap.1 hx
    split at hi
    · split at hi
      · next hf =>
        cases hi
        exact List.contains_iff_mem.1 hf
      · cases hi
    · cases hi
  constructor
  · refine (List.subperm_of_subset TreeMap.nodup_keys fun f hf => ?_).perm_of_length_le ?_
    · obtain ⟨a, ha⟩ := Option.isSome_iff_exists.1 (TreeMap.mem_iff_isSome_getElem?.1 (TreeMap.mem_keys.1 hf))
      obtain ⟨v, hv, -⟩ := (hget f a).1 ha
      exact hmem hv
    · exact Nat.le_of_eq (hsize ▸ TreeMap.length_keys.symm)
  · exact hlength
  · intro f a ha
    obtain ⟨v, hv, hfind⟩ := (hget f a).1 ha
    obtain rfl : a.value = v := by simpa using List.find?_some hfind
    refine ⟨?_, List.mem_of_find?_eq_some hfind⟩
    -- No other store is to this field.
    rw [storedTo_eq (hmem hv), filter_key hnodup hv]
    rfl
  · refine ((List.subperm_of_subset ?_ fun n hn => ?_).perm_of_length_le ?_).symm
    · exact List.Nodup.map (fun _ _ => Int.ofNat.inj) List.nodup_range
    · obtain ⟨i, hi, rfl⟩ := List.mem_map.1 hn
      exact hordinals i (List.mem_range.1 hi)
    · simp

/-- What is known of an instance follows from its value. -/
theorem allocation_eq_ok {c : Body} {enum : Descriptor} {defs : Definitions} {known : MethodMap InitSummary} {site : BlockId × Nat}
    {v : ValueId} {a : Allocation} (h : allocation c enum defs known site v = .ok a) :
    a.value = v ∧ ∀ site', allocation c enum defs known site' v = .ok { a with site := site' } := by
  unfold allocation at h
  split at h
  · next call m args hcalls =>
    split at h
    · cases h
    · next s hs =>
      split at h
      · next n name hordinal hname =>
        split at h
        · next ordinal hn =>
          cases h
          refine ⟨rfl, fun site' => ?_⟩
          unfold allocation
          simp only [hcalls, hs, hordinal, hname, hn]
        · cases h
      · cases h
  · cases h

/-- Instances that differ in their ordinals have different values. -/
theorem nodup_values {c : ClassDef} {body : Body} {found : List Allocation} (h : allocations body c.type (summaries c) = .ok found)
    (hordinals : (found.map (·.ordinal.toInt)).Nodup) : (found.map Allocation.value).Nodup := by
  have hsites := mapM_eq_ok_iff.1 h
  rw [List.Nodup, List.pairwise_map] at hordinals ⊢
  refine hordinals.imp_of_mem fun {a a'} ha ha' hne heq => hne ?_
  obtain ⟨⟨site, v⟩, -, hsite⟩ := exists_of_mem_left hsites.flip ha
  obtain ⟨⟨site', v'⟩, -, hsite'⟩ := exists_of_mem_left hsites.flip ha'
  obtain ⟨rfl, hany⟩ := allocation_eq_ok hsite
  obtain ⟨rfl, -⟩ := allocation_eq_ok hsite'
  have heq' := (hany site').symm.trans (heq ▸ hsite')
  cases heq'
  rfl

/-- A sorted list of the numbers from zero on lists them in order. -/
theorem map_eq_range {α : Type} {key : α → Int} {xs : List α} (hperm : (xs.map key).Perm ((List.range xs.length).map Int.ofNat))
    (hsorted : xs.Pairwise fun a b => key a ≤ key b) : xs.map key = (List.range xs.length).map Int.ofNat := by
  have hsorted' : (xs.map key).Pairwise (· ≤ ·) := List.pairwise_map.2 hsorted
  refine hperm.eq_of_pairwise (fun _ _ _ _ => Int.le_antisymm) hsorted' ?_
  rw [List.pairwise_map]
  exact List.pairwise_lt_range.imp fun hlt => Int.ofNat_le.2 (Nat.le_of_lt hlt)

theorem pairwise_ordinal {α : Type} (ordinal : α → Int32) (xs : List α) :
    (sortBy (fun a b => ordinal a ≤ ordinal b) xs).Pairwise fun a b => (ordinal a).toInt ≤ (ordinal b).toInt := by
  refine (pairwise_sortBy (fun a b c => ?_) (fun a b => ?_) xs).imp fun hle => ?_
  · simp only [decide_eq_true_eq, Int32.le_iff_toInt_le]
    exact Int.le_trans
  · simp only [Bool.or_eq_true, decide_eq_true_eq, Int32.le_iff_toInt_le]
    exact Int.le_total _ _
  · exact Int32.le_iff_toInt_le.1 (of_decide_eq_true hle)

/-! ### Values of fields -/

theorem map_of_mapM {α β : Type} {g : α → Option β} {xs : List α} {ys : List β} (h : xs.mapM g = some ys) : xs.map g = ys.map some := by
  induction xs generalizing ys with
  | nil =>
    cases h
    rfl
  | cons x xs ih =>
    rw [List.mapM_cons] at h
    obtain ⟨y, hy, h⟩ := Option.bind_eq_some_iff.1 h
    obtain ⟨ys', hys, h⟩ := Option.bind_eq_some_iff.1 h
    cases h
    rw [List.map_cons, List.map_cons, hy, ih hys]

/-- The values of a field that is read are known. -/
theorem getElem?_fieldValues {c : ClassDef} {read : FieldSet} {found : List Allocation} {assigned : FieldMap Allocation}
    {f : FieldRef} {vs : List StaticValue} : (dataOf c read found assigned).fieldValues[f]? = some vs ↔
      f ∈ read ∧ f.holder = c.type ∧ valuesOf (byOrdinal found) f = some vs := by
  let known : List (FieldRef × List StaticValue) := ((read.toList.filter (·.holder == c.type)).map fun f =>
    (f, valuesOf (byOrdinal found) f)).filterMap fun (f, vs) => vs.map fun vs => (f, vs)
  have hmem {f : FieldRef} {vs : List StaticValue} : (f, vs) ∈ known ↔ f ∈ read ∧ f.holder = c.type ∧ valuesOf (byOrdinal found) f = some vs := by
    simp only [known, List.mem_filterMap, List.mem_map, List.mem_filter, TreeSet.mem_toList, beq_iff_eq, Option.map_eq_some_iff]
    constructor
    · rintro ⟨_, ⟨g, ⟨hread, hholder⟩, rfl⟩, ws, hws, heq⟩
      cases heq
      exact ⟨hread, hholder, hws⟩
    · rintro ⟨hread, hholder, hvs⟩
      exact ⟨_, ⟨f, ⟨hread, hholder⟩, rfl⟩, vs, hvs, rfl⟩
  have hdistinct : known.Pairwise fun a b => ¬ compare a.1 b.1 = .eq := by
    rw [List.pairwise_filterMap, List.pairwise_map]
    refine (TreeSet.distinct_toList.filter _).imp fun {g g'} hne x hx y hy => ?_
    obtain ⟨_, -, rfl⟩ := Option.map_eq_some_iff.1 hx
    obtain ⟨_, -, rfl⟩ := Option.map_eq_some_iff.1 hy
    exact hne
  rw [← hmem]
  constructor
  · intro h
    by_cases hf : f ∈ known.map Prod.fst
    · obtain ⟨⟨_, ws⟩, hws, rfl⟩ := List.mem_map.1 hf
      have hget := TreeMap.getElem?_ofList_of_mem Std.compare_self hdistinct hws
      obtain rfl : ws = vs := Option.some.inj (hget.symm.trans h)
      exact hws
    · rw [← List.contains_iff_mem, Bool.not_eq_true] at hf
      have hnone : (dataOf c read found assigned).fieldValues[f]? = none := TreeMap.getElem?_ofList_of_contains_eq_false hf
      cases hnone.symm.trans h
  · exact fun h => TreeMap.getElem?_ofList_of_mem Std.compare_self hdistinct h

/-! ### Constants and instances -/

/-- The instances are told apart by their values and by their ordinals, which count from zero. -/
structure Counted (found : List Allocation) : Prop where
  values : (found.map Allocation.value).Nodup
  ordinals : (found.map (·.ordinal.toInt)).Perm ((List.range found.length).map Int.ofNat)

/-- The data of the enum come from the instances that its class initializer makes. -/
structure MadeOf (c : ClassDef) (read : FieldSet) (d : EnumData) (body : Body) (found : List Allocation) : Prop where
  understood : Understood c body found
  counted : Counted found
  size : found.length = d.size
  kept : ∀ k ∈ d.constants, ∃ a ∈ found, Keeps body k a
  read : ∀ f, f ∈ d.fieldValues ↔ f ∈ read ∧ f.holder = c.type
  values : ∀ f vs, d.fieldValues[f]? = some vs → vs.length = d.size ∧
    ∀ a ∈ found, ∀ i : Nat, a.ordinal.toInt = i → vs[i]? = a.fieldValues.getD f (some (defaultValue f))

theorem perm_byOrdinal (found : List Allocation) : (byOrdinal found).Perm found := perm_sortBy _ _

/-- The instance with an ordinal is listed there. -/
theorem getElem?_byOrdinal {found : List Allocation} (h : Counted found) {a : Allocation} (ha : a ∈ found) {i : Nat}
    (hi : a.ordinal.toInt = i) : (byOrdinal found)[i]? = some a := by
  have hperm := perm_byOrdinal found
  have hrange : (byOrdinal found).map (·.ordinal.toInt) = (List.range (byOrdinal found).length).map Int.ofNat :=
    map_eq_range (by rw [hperm.length_eq]; exact (hperm.map _).trans h.ordinals) (pairwise_ordinal Allocation.ordinal found)
  obtain ⟨j, hj, rfl⟩ := List.getElem_of_mem (hperm.mem_iff.2 ha)
  have hordinal := List.getElem_of_eq hrange (i := j) (by simpa using hj)
  simp only [List.getElem_map, List.getElem_range, hi] at hordinal
  obtain rfl : i = j := Int.ofNat.inj hordinal
  exact List.getElem?_eq_getElem hj

theorem madeOf_of_assign {c : ClassDef} {read : FieldSet} {body : Body} {found : List Allocation} {assigned : FieldMap Allocation}
    (h : Understood c body found) (hassigned : assign body (constantFields c) found = some assigned)
    (hvalues : ∀ f ∈ read, f.holder = c.type → HasValues found f) :
    MadeOf c read (dataOf c read found assigned) body found := by
  have hassigns := assigns_of_assign hassigned
  have hcounted : Counted found :=
    ⟨nodup_values h.allocations (hassigns.ordinals.nodup_iff.2 (List.Nodup.map (fun _ _ => Int.ofNat.inj) List.nodup_range)),
      hassigns.ordinals⟩
  have hconstants := perm_sortBy (fun a b : EnumConstant => a.ordinal ≤ b.ordinal)
    (assigned.toList.map fun (f, a) => ⟨f, a.ordinal, a.name⟩)
  have hsize : found.length = (dataOf c read found assigned).size := by
    rw [EnumData.size, dataOf, hconstants.length_eq, List.length_map, TreeMap.length_toList, ← TreeMap.length_keys,
      hassigns.keys.length_eq, hassigns.count]
  refine ⟨h, hcounted, hsize, fun k hk => ?_, fun f => ?_, fun f vs hvs => ?_⟩
  · obtain ⟨⟨f, a⟩, hfa, rfl⟩ := List.mem_map.1 (hconstants.mem_iff.1 hk)
    obtain ⟨hstored, ha⟩ := hassigns.stored f a (TreeMap.mem_toList_iff_getElem?_eq_some.1 hfa)
    exact ⟨a, ha, hstored, rfl, rfl⟩
  · rw [TreeMap.mem_iff_isSome_getElem?, Option.isSome_iff_exists]
    constructor
    · rintro ⟨vs, hvs⟩
      obtain ⟨hread, hholder, -⟩ := getElem?_fieldValues.1 hvs
      exact ⟨hread, hholder⟩
    · rintro ⟨hread, hholder⟩
      obtain ⟨vs, hvs⟩ := Option.isSome_iff_exists.1 (hvalues f hread hholder)
      exact ⟨vs, getElem?_fieldValues.2 ⟨hread, hholder, hvs⟩⟩
  · obtain ⟨-, -, hvs⟩ := getElem?_fieldValues.1 hvs
    have hmap := map_of_mapM hvs
    constructor
    · have hlength := congrArg List.length hmap
      rw [List.length_map, List.length_map, (perm_byOrdinal found).length_eq] at hlength
      rw [← hlength, hsize]
    · intro a ha i hi
      have hget := congrArg (·[i]?) hmap
      simp only [List.getElem?_map, getElem?_byOrdinal hcounted ha hi, Option.map_some] at hget
      cases hvsi : vs[i]? with
      | none =>
        rw [hvsi] at hget
        cases hget
      | some x =>
        rw [hvsi] at hget
        exact (Option.some.inj hget).symm

/-- **The constants count from zero if and only if no two of them are one instance.** In any case each
    constant field has one constant, which is the one instance that is stored to it, and the values of
    the fields that are read are listed by ordinal. -/
theorem constants_count_iff {c : ClassDef} {read : FieldSet} {fixed : FixedEnum} (h : ofClass c read = .ok (.ok fixed)) :
    (constantFields c).Nodup ∧ (fixed.data.constants.map EnumConstant.field).Perm (constantFields c) ∧
      ((c.classInitializer? = none ∧ fixed.data = {}) ∨
        ∃ body found, MadeOf c read fixed.data body found ∧
          ((∀ (i : Nat) k, fixed.data.constants[i]? = some k → k.ordinal.toInt = i) ↔
            ∀ k ∈ fixed.data.constants, ∀ k' ∈ fixed.data.constants, storedTo body k.field = storedTo body k'.field → k = k')) := by
  obtain ⟨hinit, hempty, hdata⟩ | ⟨body, found, assigned, hunderstood, hassigned, hvalues, hdata⟩ := ofClass_cases h
  · rw [hempty, hdata]
    exact ⟨List.nodup_nil, List.Perm.refl _, .inl ⟨hinit, rfl⟩⟩
  have hassigns := assigns_of_assign hassigned
  have hmade := madeOf_of_assign hunderstood hassigned hvalues
  rw [← hdata] at hmade
  have hfields : (fixed.data.constants.map EnumConstant.field).Perm (constantFields c) := by
    rw [hdata]
    refine ((perm_sortBy _ _).map _).trans (.trans (.of_eq ?_) hassigns.keys)
    rw [List.map_map, ← TreeMap.map_fst_toList_eq_keys]
    rfl
  have hnodup : (fixed.data.constants.map EnumConstant.field).Nodup :=
    hfields.nodup_iff.2 (hassigns.keys.nodup_iff.1 TreeMap.nodup_keys)
  have hsorted : fixed.data.constants.Pairwise fun k k' => k.ordinal.toInt ≤ k'.ordinal.toInt := by
    rw [hdata]
    exact pairwise_ordinal EnumConstant.ordinal _
  have hordinals : (found.map (·.ordinal.toInt)).Nodup :=
    hmade.counted.ordinals.nodup_iff.2 (List.Nodup.map (fun _ _ => Int.ofNat.inj) List.nodup_range)
  refine ⟨hfields.nodup_iff.1 hnodup, hfields, .inr ⟨body, found, hmade, ?_⟩⟩
  constructor
  · intro hcount k hk k' hk' hstored
    obtain ⟨a, ha, hkeeps⟩ := hmade.kept k hk
    obtain ⟨a', ha', hkeeps'⟩ := hmade.kept k' hk'
    rw [hkeeps.stored, hkeeps'.stored] at hstored
    obtain rfl := List.inj_on_of_nodup_map hmade.counted.values ha ha' (List.singleton_inj.1 hstored)
    obtain ⟨i, hi, rfl⟩ := List.getElem_of_mem hk
    obtain ⟨j, hj, rfl⟩ := List.getElem_of_mem hk'
    have hcount' := hcount j _ (List.getElem?_eq_getElem hj)
    rw [hkeeps'.ordinal, ← hkeeps.ordinal, hcount i _ (List.getElem?_eq_getElem hi)] at hcount'
    obtain rfl : i = j := Int.ofNat.inj hcount'
    rfl
  · intro hapart
    have hdistinct : (fixed.data.constants.map (·.ordinal.toInt)).Nodup := by
      refine List.Nodup.map_on (fun k hk k' hk' heq => ?_) (List.Nodup.of_map _ hnodup)
      obtain ⟨a, ha, hkeeps⟩ := hmade.kept k hk
      obtain ⟨a', ha', hkeeps'⟩ := hmade.kept k' hk'
      rw [hkeeps.ordinal, hkeeps'.ordinal] at heq
      obtain rfl := List.inj_on_of_nodup_map hordinals ha ha' heq
      exact hapart k hk k' hk' (hkeeps.stored.trans hkeeps'.stored.symm)
    have hperm : (fixed.data.constants.map (·.ordinal.toInt)).Perm (found.map (·.ordinal.toInt)) := by
      refine (List.subperm_of_subset hdistinct fun n hn => ?_).perm_of_length_le ?_
      · obtain ⟨k, hk, rfl⟩ := List.mem_map.1 hn
        obtain ⟨a, ha, hkeeps⟩ := hmade.kept k hk
        exact List.mem_map.2 ⟨a, ha, by rw [hkeeps.ordinal]⟩
      · rw [List.length_map, List.length_map]
        exact Nat.le_of_eq hmade.size
    have hrange := map_eq_range ((hmade.size ▸ hperm.trans hmade.counted.ordinals :)) hsorted
    intro i k hk
    obtain ⟨hi, rfl⟩ := List.getElem?_eq_some_iff.1 hk
    have hordinal := List.getElem_of_eq hrange (i := i) (by simpa using hi)
    simpa using hordinal

/-! ### Two constants

The class initializer of `E` makes two instances, whose values are `0` and `3`. It stores the first
one to the field `A`, and the value `second` to the field `B`. -/

namespace TwoConstants

def enum : Descriptor := .ofBinaryName "p/E"

def constant (name : String) : FieldRef := ⟨enum, name, enum⟩

def init : MethodRef := ⟨enum, MethodRef.initName, .void, [.string, .int]⟩

def clinit (second : ValueId) : Body where
  method := ⟨enum, MethodRef.clinitName, .void, []⟩
  isStatic := true
  arguments := []
  values := [⟨enum, .instruction⟩, ⟨.string, .instruction⟩, ⟨.int, .instruction⟩,
    ⟨enum, .instruction⟩, ⟨.string, .instruction⟩, ⟨.int, .instruction⟩]
  blocks := [{
    body := [
      ⟨some 0, .newInstance enum, 0⟩, ⟨some 1, .constString "A", 0⟩, ⟨some 2, .constInt 0, 0⟩,
      ⟨none, .invoke .direct init [0, 1, 2] false, 0⟩,
      ⟨some 3, .newInstance enum, 0⟩, ⟨some 4, .constString "B", 0⟩, ⟨some 5, .constInt 1, 0⟩,
      ⟨none, .invoke .direct init [3, 4, 5] false, 0⟩,
      ⟨none, .staticPut (constant "A") 0, 0⟩, ⟨none, .staticPut (constant "B") second, 0⟩]
    terminator := .ret none }]

def classDef (second : ValueId) : ClassDef where
  type := enum
  superclass := some .enumBase
  fields := ["A", "B"].map fun name => ⟨constant name, .staticFlag ||| .finalFlag ||| .enumFlag, none⟩
  methods := [
    { ref := init, access := .constructorFlag, code := none, initSummary := some ⟨some (.argument 2), some (.argument 1), ∅⟩ },
    { ref := (clinit second).method, access := .staticFlag ||| .constructorFlag, code := some (.body (clinit second)) }]

/-- The fields and the ordinals of the constants, if the class initializer is understood. -/
def outcome (second : ValueId) : Option (List (String × Int32)) :=
  match ofClass (classDef second) ∅ with
  | .ok (.ok fixed) => some (fixed.data.constants.map fun k => (k.field.name, k.ordinal))
  | _ => none

theorem exists_fixed {second : ValueId} {constants : List (String × Int32)} (h : outcome second = some constants) :
    ∃ fixed, ofClass (classDef second) ∅ = .ok (.ok fixed) ∧ (fixed.data.constants.map fun k => (k.field.name, k.ordinal)) = constants := by
  unfold outcome at h
  split at h
  · next fixed hfixed => exact ⟨fixed, hfixed, Option.some.inj h⟩
  · cases h

end TwoConstants

/-- Two instances for two constants. -/
theorem constants_count_iff_two : ∃ fixed, ofClass (TwoConstants.classDef 3) ∅ = .ok (.ok fixed) ∧
    (fixed.data.constants.map fun k => (k.field.name, k.ordinal)) = [("A", 0), ("B", 1)] ∧
    (fixed.data.constants.map EnumConstant.field).Perm (constantFields (TwoConstants.classDef 3)) := by
  have houtcome : TwoConstants.outcome 3 = some [("A", 0), ("B", 1)] := by decide +kernel
  obtain ⟨fixed, hfixed, hconstants⟩ := TwoConstants.exists_fixed houtcome
  exact ⟨fixed, hfixed, hconstants, (constants_count_iff hfixed).2.1⟩

/-- One instance for two constants, which both have the ordinal zero. -/
theorem one_instance_kept_twice : ∃ fixed, ofClass (TwoConstants.classDef 0) ∅ = .ok (.ok fixed) ∧
    (fixed.data.constants.map fun k => (k.field.name, k.ordinal)) = [("A", 0), ("B", 0)] :=
  TwoConstants.exists_fixed (by decide +kernel)

end FixedEnum

end DexShrinker
