/-
  DexShrinker/Proofs/App/FieldAccess.lean
  =======================================
  **What the table of field accesses lists.**

  A method is listed as a reader or a writer of a field (`FieldAccess.Lists`). The table that
  is computed lists exactly the accesses of the bodies of program classes
  (`FieldAccess.lists_compute`), a renamed table lists the same under new names
  (`FieldAccess.lists_rename`), and a union lists what either table does
  (`FieldAccess.lists_union`).
-/
import DexShrinker.App.FieldAccess
import DexShrinker.Proofs.Outcome

namespace DexShrinker

open Std

/-- The body of the method reads the field, or writes it. -/
def MethodDef.Accesses (d : MethodDef) (f : FieldRef) (isRead : Bool) : Prop :=
  ∃ code us how, d.code = some code ∧ code.uses = .ok us ∧ .field f how ∈ us ∧ how.isRead = isRead

/-! ### The accesses of one field -/

namespace Accessors

/-- The readers, or the writers. -/
def on (a : Accessors) : (isRead : Bool) → MethodSet
  | true => a.readers
  | false => a.writers

variable {a b : Accessors} {r s : Bool} {m n : MethodRef}

theorem not_mem_on_empty : m ∉ (({} : Accessors).on r) := by
  cases r <;> exact TreeSet.not_mem_emptyc

theorem mem_on_union : m ∈ (a.union b).on r ↔ m ∈ a.on r ∨ m ∈ b.on r := by
  cases r <;> simp [on, union]

theorem mem_on_add : m ∈ (a.add s n).on r ↔ m ∈ a.on r ∨ r = s ∧ m = n := by
  have hinsert (t : MethodSet) : m ∈ t.insert n ↔ m ∈ t ∨ m = n := by
    rw [TreeSet.mem_insert, LawfulEqCmp.compare_eq_iff_eq, or_comm, eq_comm]
  cases r <;> cases s <;> simp [on, add, hinsert]

theorem isRead_iff : a.isRead = true ↔ ∃ m, m ∈ a.on true := by
  rw [isRead, Bool.not_eq_true', TreeSet.isEmpty_eq_false_iff_exists_mem]
  rfl

theorem isWritten_iff : a.isWritten = true ↔ ∃ m, m ∈ a.on false := by
  rw [isWritten, Bool.not_eq_true', TreeSet.isEmpty_eq_false_iff_exists_mem]
  rfl

end Accessors

/-! ### The table -/

namespace FieldAccess

/-- The method is listed as a reader, or as a writer, of the field. -/
def Lists (t : FieldAccess) (f : FieldRef) (isRead : Bool) (m : MethodRef) : Prop :=
  ∃ a, t[f]? = some a ∧ m ∈ a.on isRead

variable {t t' more : FieldAccess} {f g : FieldRef} {r s : Bool} {m n : MethodRef}

theorem isRead_iff : t.isRead f = true ↔ ∃ m, t.Lists f true m := by
  unfold isRead Lists
  cases t[f]? with
  | none => simp
  | some a => simpa using Accessors.isRead_iff

theorem isWritten_iff : t.isWritten f = true ↔ ∃ m, t.Lists f false m := by
  unfold isWritten Lists
  cases t[f]? with
  | none => simp
  | some a => simpa using Accessors.isWritten_iff

theorem not_lists_empty : ¬ (∅ : FieldAccess).Lists f r m := by
  rintro ⟨a, hget, -⟩
  simp at hget

/-- A table in which the accesses of one field were replaced by more. -/
theorem lists_insert {a : Accessors} {Q : Prop} (h : m ∈ a.on r ↔ m ∈ (t.getD g {}).on r ∨ Q) :
    Lists (t.insert g a) f r m ↔ t.Lists f r m ∨ f = g ∧ Q := by
  unfold Lists
  by_cases hfg : f = g
  · subst hfg
    rw [TreeMap.getD_eq_getD_getElem?] at h
    cases hget : t[f]? with
    | none => simpa [hget, Accessors.not_mem_on_empty] using h
    | some b => simpa [hget] using h
  · have hne : ¬ compare g f = .eq := fun heq => hfg (LawfulEqOrd.eq_of_compare heq).symm
    simp [TreeMap.getElem?_insert, hne, hfg]

theorem lists_merge {a : Accessors} : (t.merge g a).Lists f r m ↔ t.Lists f r m ∨ f = g ∧ m ∈ a.on r :=
  lists_insert Accessors.mem_on_union

theorem lists_record : (t.record g s n).Lists f r m ↔ t.Lists f r m ∨ f = g ∧ r = s ∧ m = n :=
  lists_insert Accessors.mem_on_add

/-- A fold whose every step adds what `Q` says of its element. -/
theorem lists_foldl {α : Type} {step : FieldAccess → α → FieldAccess} {Q : α → Prop}
    (hstep : ∀ t x, (step t x).Lists f r m ↔ t.Lists f r m ∨ Q x) (xs : List α) :
    (xs.foldl step t).Lists f r m ↔ t.Lists f r m ∨ ∃ x ∈ xs, Q x := by
  induction xs generalizing t with
  | nil => simp
  | cons x xs ih => rw [List.foldl_cons, ih, hstep, or_assoc, List.exists_mem_cons_iff]

/-- A fold that succeeds, where a step that does has found `R` of its element and adds what `Q`
    says of it. -/
theorem lists_foldlM {α ε : Type} {step : FieldAccess → α → Except ε FieldAccess} {R Q : α → Prop}
    (hstep : ∀ t x t', step t x = .ok t' → R x ∧ (t'.Lists f r m ↔ t.Lists f r m ∨ Q x)) {xs : List α}
    (h : xs.foldlM step t = .ok t') :
    (∀ x ∈ xs, R x) ∧ (t'.Lists f r m ↔ t.Lists f r m ∨ ∃ x ∈ xs, Q x) := by
  induction xs generalizing t with
  | nil =>
    cases h
    simp
  | cons x xs ih =>
    rw [List.foldlM_cons] at h
    obtain ⟨t₁, hx, h⟩ := bind_eq_ok.1 h
    obtain ⟨hR, hlists₁⟩ := hstep t x t₁ hx
    obtain ⟨hforall, hlists⟩ := ih h
    refine ⟨List.forall_mem_cons.2 ⟨hR, hforall⟩, ?_⟩
    rw [hlists, hlists₁, or_assoc, List.exists_mem_cons_iff]

theorem lists_union : (t.union more).Lists f r m ↔ t.Lists f r m ∨ more.Lists f r m := by
  have hfold : (t.union more).Lists f r m ↔ t.Lists f r m ∨ ∃ x ∈ more.toList, f = x.1 ∧ m ∈ x.2.on r := by
    refine lists_foldl ?_ more.toList
    exact fun _ _ => lists_merge
  refine hfold.trans (or_congr_right ⟨?_, ?_⟩)
  · rintro ⟨⟨g, a⟩, hmem, rfl, hm⟩
    exact ⟨a, TreeMap.mem_toList_iff_getElem?_eq_some.1 hmem, hm⟩
  · rintro ⟨a, hget, hm⟩
    exact ⟨(f, a), TreeMap.mem_toList_iff_getElem?_eq_some.2 hget, rfl, hm⟩

/-! ### Computing the table -/

theorem lists_recordUse (use : Use) :
    (recordUses n t use).Lists f r m ↔ t.Lists f r m ∨ m = n ∧ ∃ how, use = .field f how ∧ how.isRead = r := by
  cases use with
  | field g how =>
    rw [recordUses, lists_record]
    simp only [Use.field.injEq]
    refine or_congr_right ⟨?_, ?_⟩
    · rintro ⟨rfl, rfl, rfl⟩
      exact ⟨rfl, how, ⟨rfl, rfl⟩, rfl⟩
    · rintro ⟨rfl, -, ⟨rfl, rfl⟩, rfl⟩
      exact ⟨rfl, rfl, rfl⟩
  | _ => simp [recordUses]

theorem lists_recordUses (us : List Use) :
    (us.foldl (recordUses n) t).Lists f r m ↔ t.Lists f r m ∨ m = n ∧ ∃ how, .field f how ∈ us ∧ how.isRead = r := by
  rw [lists_foldl fun t use => lists_recordUse use]
  refine or_congr_right ⟨?_, ?_⟩
  · rintro ⟨-, huse, rfl, how, rfl, hread⟩
    exact ⟨rfl, how, huse, hread⟩
  · rintro ⟨rfl, how, huse, hread⟩
    exact ⟨_, huse, rfl, how, rfl, hread⟩

/-- **The computed table** lists the accesses of the bodies of program classes, which can all be
    read. -/
theorem lists_compute {p : Program} (h : compute p = .ok t) :
    (∀ c ∈ p.programClasses, ∀ d ∈ c.methods, ∀ code, d.code = some code → ∃ us, code.uses = .ok us) ∧
      (t.Lists f r m ↔ ∃ c ∈ p.programClasses, ∃ d ∈ c.methods, d.ref = m ∧ d.Accesses f r) := by
  obtain ⟨hreadable, hlists⟩ :
      (∀ d ∈ p.programClasses.flatMap ClassDef.methods, ∀ code, d.code = some code → ∃ us, code.uses = .ok us) ∧
        (t.Lists f r m ↔ (∅ : FieldAccess).Lists f r m ∨
          ∃ d ∈ p.programClasses.flatMap ClassDef.methods, d.ref = m ∧ d.Accesses f r) := by
    refine lists_foldlM (fun t d t' hd => ?_) h
    cases hcode : d.code with
    | none =>
      rw [hcode] at hd
      cases hd
      have hnone : ¬ d.Accesses f r := by
        rintro ⟨code, -, -, hsome, -⟩
        cases hcode.symm.trans hsome
      simp [hnone]
    | some code =>
      rw [hcode] at hd
      obtain ⟨us, hus, hd⟩ := bind_eq_ok.1 hd
      cases hd
      refine ⟨fun code' hcode' => ⟨us, Option.some.inj hcode' ▸ hus⟩, ?_⟩
      rw [lists_recordUses]
      refine or_congr_right ⟨?_, ?_⟩
      · rintro ⟨rfl, how, hmem, hread⟩
        exact ⟨rfl, code, us, how, hcode, hus, hmem, hread⟩
      · rintro ⟨rfl, code', us', how, hcode', hus', hmem, hread⟩
        cases hcode.symm.trans hcode'
        cases hus.symm.trans hus'
        exact ⟨rfl, how, hmem, hread⟩
  refine ⟨fun c hc d hd => hreadable d (List.mem_flatMap.2 ⟨c, hc, hd⟩), ?_⟩
  rw [hlists]
  constructor
  · rintro (h | ⟨d, hd, haccess⟩)
    · exact absurd h not_lists_empty
    · obtain ⟨c, hc, hd⟩ := List.mem_flatMap.1 hd
      exact ⟨c, hc, d, hd, haccess⟩
  · rintro ⟨c, hc, d, hd, haccess⟩
    exact .inr ⟨d, List.mem_flatMap.2 ⟨c, hc, hd⟩, haccess⟩

/-! ### Renaming the table -/

theorem lookupMethods_eq_ok {lens applied : Lens} {ms ms' : MethodSet} (h : lens.lookupMethods ms applied = .ok ms') :
    (∀ n ∈ ms, ∃ result, lens.lookupMethod n none .direct applied = .ok result) ∧
      (m ∈ ms' ↔ ∃ n ∈ ms, ∃ result, lens.lookupMethod n none .direct applied = .ok result ∧ m = result.ref) := by
  obtain ⟨refs, hrefs, h⟩ := bind_eq_ok.1 h
  cases h
  have hforall := mapM_eq_ok_iff.1 hrefs
  refine ⟨fun n hn => ?_, ?_⟩
  · obtain ⟨m, -, hlookup⟩ := exists_of_mem_left hforall (TreeSet.mem_toList.2 hn)
    obtain ⟨result, hresult, -⟩ := bind_eq_ok.1 hlookup
    exact ⟨result, hresult⟩
  rw [TreeSet.mem_ofList, List.contains_iff_mem]
  constructor
  · intro hm
    obtain ⟨n, hn, hlookup⟩ := exists_of_mem_left hforall.flip hm
    obtain ⟨result, hresult, hlookup⟩ := bind_eq_ok.1 hlookup
    cases hlookup
    exact ⟨n, TreeSet.mem_toList.1 hn, result, hresult, rfl⟩
  · rintro ⟨n, hn, result, hresult, rfl⟩
    obtain ⟨m, hm, hlookup⟩ := exists_of_mem_left hforall (TreeSet.mem_toList.2 hn)
    rw [hresult] at hlookup
    cases hlookup
    exact hm

/-- **The renamed table** lists the same accesses, under the new names of fields and methods, which
    all methods that are listed have. -/
theorem lists_rename {lens applied : Lens} (h : t.rename lens applied = .ok t') :
    (∀ g n, t.Lists g r n → ∃ result, lens.lookupMethod n none .direct applied = .ok result) ∧
      (t'.Lists f r m ↔ ∃ g n result, t.Lists g r n ∧ f = (lens.lookupField g applied).ref ∧
        lens.lookupMethod n none .direct applied = .ok result ∧ m = result.ref) := by
  obtain ⟨hfound, hlists⟩ :
      (∀ x ∈ t.toList, ∀ n ∈ x.2.on r, ∃ result, lens.lookupMethod n none .direct applied = .ok result) ∧
        (t'.Lists f r m ↔ (∅ : FieldAccess).Lists f r m ∨ ∃ x ∈ t.toList, f = (lens.lookupField x.1 applied).ref ∧
          ∃ n ∈ x.2.on r, ∃ result, lens.lookupMethod n none .direct applied = .ok result ∧ m = result.ref) := by
    refine lists_foldlM (fun t x t' hx => ?_) h
    obtain ⟨readers, hreaders, hx⟩ := bind_eq_ok.1 hx
    obtain ⟨writers, hwriters, hx⟩ := bind_eq_ok.1 hx
    cases hx
    have hon : (∀ n ∈ x.2.on r, ∃ result, lens.lookupMethod n none .direct applied = .ok result) ∧
        (m ∈ (⟨readers, writers⟩ : Accessors).on r ↔ ∃ n ∈ x.2.on r, ∃ result,
          lens.lookupMethod n none .direct applied = .ok result ∧ m = result.ref) := by
      cases r with
      | true => exact lookupMethods_eq_ok hreaders
      | false => exact lookupMethods_eq_ok hwriters
    exact ⟨hon.1, by rw [lists_merge, hon.2]⟩
  refine ⟨?_, ?_⟩
  · rintro g n ⟨a, hget, hn⟩
    exact hfound (g, a) (TreeMap.mem_toList_iff_getElem?_eq_some.2 hget) n hn
  rw [hlists]
  constructor
  · rintro (h | ⟨⟨g, a⟩, hmem, rfl, n, hn, result, hresult, rfl⟩)
    · exact absurd h not_lists_empty
    · exact ⟨g, n, result, ⟨a, TreeMap.mem_toList_iff_getElem?_eq_some.1 hmem, hn⟩, rfl, hresult, rfl⟩
  · rintro ⟨g, n, result, ⟨a, hget, hn⟩, rfl, hresult, rfl⟩
    exact .inr ⟨(g, a), TreeMap.mem_toList_iff_getElem?_eq_some.2 hget, rfl, n, hn, result, hresult, rfl⟩

/-- A field that is accessed is accessed under its new name. -/
theorem exists_lists_of_rename {lens applied : Lens} (h : t.rename lens applied = .ok t') (hlists : t.Lists g r n) :
    ∃ m, t'.Lists (lens.lookupField g applied).ref r m := by
  obtain ⟨result, hresult⟩ := (lists_rename (f := g) (m := n) h).1 g n hlists
  exact ⟨result.ref, (lists_rename h).2.2 ⟨g, n, result, hlists, rfl, hresult, rfl⟩⟩

end FieldAccess

end DexShrinker
