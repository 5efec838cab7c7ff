/-
  DexShrinker/Proofs/Body/Verify.lean
  ===================================
  **What a verified body guarantees.**

  `Body.verify` runs its checks in order and reports the first violation.
  `WellFormed` lists the properties behind the checks, and `verify_eq_ok_iff` says that
  a body passes exactly when it has all of them, so that arguments about verified
  bodies never look into the checks again.
-/
import DexShrinker.Body.Verify
import DexShrinker.Proofs.Outcome

namespace DexShrinker.Body

/-- Every target exists, nothing jumps to the entry, every phi has one operand for each
    predecessor, and every value that is read has a place, a definition and an origin. -/
structure WellFormed (c : Body) : Prop where
  targets : ∀ (b : BlockId) (block : Block), c.blocks[b]? = some block → ∀ t ∈ block.targets b, t < c.blocks.length
  entry : c.predecessorsOf 0 = []
  arity : ∀ (b : BlockId) (block : Block), c.blocks[b]? = some block →
    ∀ phi ∈ block.phis, phi.operands.length = (c.predecessorsOf b).length
  defsInRange : ∀ v ∈ c.defs, v < c.values.length
  readsInRange : ∀ v ∈ c.reads, v < c.values.length
  defined : ∀ v ∈ c.reads, v ∈ c.defs
  resolved : ∀ v ∈ c.reads, ∀ x, c.values[v]? = some x → x.origin ≠ .unresolved

/-! ### The checks one by one -/

theorem firstError?_eq_none {c : Body} {check : BlockId → Block → Option BodyError} :
    c.firstError? check = none ↔ ∀ b block, c.blocks[b]? = some block → check b block = none := by
  simp only [firstError?, List.findSome?_eq_none_iff, List.mem_mapIdx, id_eq]
  constructor
  · intro h b block hb
    obtain ⟨hlt, rfl⟩ := List.getElem?_eq_some_iff.1 hb
    exact h _ ⟨b, hlt, rfl⟩
  · rintro h x ⟨b, hlt, rfl⟩
    exact h b _ (List.getElem?_eq_getElem hlt)

theorem targetError?_eq_none {c : Body} {b : BlockId} {block : Block} :
    c.targetError? b block = none ↔ ∀ t ∈ block.targets b, t < c.blocks.length := by
  simp only [targetError?, List.findSome?_eq_none_iff]
  refine forall₂_congr fun t _ => ?_
  split
  · next hlt => simp [hlt]
  · next hge => split <;> simp [hge]

theorem phiError?_eq_none {c : Body} {b : BlockId} {block : Block} :
    c.phiError? b block = none ↔ ∀ phi ∈ block.phis, phi.operands.length = (c.predecessorsOf b).length := by
  simp [phiError?, List.findSome?_eq_none_iff]

theorem valuesInRange_eq_ok {c : Body} :
    c.valuesInRange = .ok () ↔ ∀ v ∈ c.defs ++ c.reads, v < c.values.length := by
  unfold valuesInRange
  split
  · next v hfind =>
    have hmem := List.mem_of_find?_eq_some hfind
    have hout := List.find?_some hfind
    simp only [reduceCtorEq, false_iff]
    intro h
    simp only [decide_eq_true_eq] at hout
    exact absurd hout (Nat.not_le.2 (h v hmem))
  · next hfind => simpa only [List.find?_eq_none, decide_eq_true_eq, Nat.not_le, true_iff] using hfind

theorem undefined?_eq_none {c : Body} :
    c.undefined? = none ↔
      ∀ v x, c.values[v]? = some x → v ∈ c.reads → v ∈ c.defs ∧ x.origin ≠ .unresolved := by
  simp only [undefined?, List.findSome?_eq_none_iff, List.mem_mapIdx, id_eq]
  constructor
  · intro h v x hv hread
    obtain ⟨hlt, rfl⟩ := List.getElem?_eq_some_iff.1 hv
    have hnone := h _ ⟨v, hlt, rfl⟩
    split at hnone
    · cases hnone
    · next hcheck => simpa [hread] using hcheck
  · rintro h x ⟨v, hlt, rfl⟩
    have hv := h v _ (List.getElem?_eq_getElem hlt)
    split
    · next hcheck =>
      simp only [Bool.and_eq_true, List.contains_iff_mem, Bool.or_eq_true, Bool.not_eq_true', beq_iff_eq] at hcheck
      obtain ⟨hdef, horigin⟩ := hv hcheck.1
      rcases hcheck.2 with hno | hno
      · simp [hdef] at hno
      · exact absurd hno horigin
    · rfl

/-! ### All checks together -/

/-- The checks in the order in which they run. -/
theorem verify_eq_ok_iff_checks {c : Body} : c.verify = .ok () ↔
    c.firstError? c.targetError? = none ∧ c.predecessorsOf 0 = [] ∧ c.firstError? c.phiError? = none ∧
      c.valuesInRange = .ok () ∧ c.undefined? = none := by
  unfold verify
  cases c.firstError? c.targetError? with
  | some e => simp [bind, Except.bind, Outcome.raise]
  | none =>
    cases c.predecessorsOf 0 with
    | cons p ps => simp [bind, Except.bind, Outcome.raise]
    | nil =>
      cases c.firstError? c.phiError? with
      | some e => simp [bind, Except.bind, Outcome.raise]
      | none =>
        cases c.valuesInRange with
        | error f => simp [bind, Except.bind, Outcome.lift, Outcome.stop]
        | ok u =>
          cases c.undefined? with
          | some e => simp [bind, Except.bind, Outcome.lift, Outcome.raise]
          | none => simp [bind, Except.bind, Outcome.lift, pure, Except.pure]

/-- **A body passes verification exactly when it is well formed.** -/
theorem verify_eq_ok_iff {c : Body} : c.verify = .ok () ↔ c.WellFormed := by
  rw [verify_eq_ok_iff_checks, firstError?_eq_none, firstError?_eq_none, valuesInRange_eq_ok, undefined?_eq_none]
  simp only [targetError?_eq_none, phiError?_eq_none, List.mem_append]
  constructor
  · rintro ⟨htargets, hentry, harity, hrange, hundef⟩
    have hread (v : ValueId) (hv : v ∈ c.reads) (x : Value) (hx : c.values[v]? = some x) := hundef v x hx hv
    refine ⟨htargets, hentry, harity, fun v hv => hrange v (.inl hv), fun v hv => hrange v (.inr hv), ?_, ?_⟩
    · intro v hv
      exact (hread v hv _ (List.getElem?_eq_getElem (hrange v (.inr hv)))).1
    · intro v hv x hx
      exact (hread v hv x hx).2
  · intro h
    refine ⟨h.targets, h.entry, h.arity, ?_, fun v x hx hv => ⟨h.defined v hv, h.resolved v hv x hx⟩⟩
    rintro v (hv | hv)
    · exact h.defsInRange v hv
    · exact h.readsInRange v hv

/-! ### Consequences -/

namespace WellFormed

variable {c : Body} {b : BlockId} {block : Block}

/-- Nothing jumps to the entry. -/
theorem zero_not_mem_targets (h : c.WellFormed) (hb : c.blocks[b]? = some block) : 0 ∉ block.targets b := by
  intro hzero
  have hpred : b ∈ c.predecessorsOf 0 := by
    obtain ⟨hlt, rfl⟩ := List.getElem?_eq_some_iff.1 hb
    simp [predecessorsOf, successors, hlt, Block.successors, List.mem_eraseDups, hzero]
  simp [h.entry] at hpred

end WellFormed

/-! ### Bodies of the same shape -/

/-- The block `b'` reads and defines what `b` does under the names that `f` gives, and goes
    where `b` goes. -/
structure Mirrors (f : ValueId → ValueId) (b b' : Block) : Prop where
  reads : b'.reads = b.reads.map f
  defs : b'.defs = b.defs.map f
  targets : ∀ here, b'.targets here = b.targets here
  arities : b'.phis.map (·.operands.length) = b.phis.map (·.operands.length)

section

variable {f : ValueId → ValueId} {c c' : Body}

theorem flatMap_of_mirrors {bs bs' : List Block} (h : List.Forall₂ (Mirrors f) bs bs') {g : Block → List ValueId}
    (hg : ∀ b b', Mirrors f b b' → g b' = (g b).map f) : bs'.flatMap g = (bs.flatMap g).map f := by
  induction h with
  | nil => rfl
  | cons hb _ ih => rw [List.flatMap_cons, List.flatMap_cons, List.map_append, hg _ _ hb, ih]

theorem reads_of_mirrors (h : List.Forall₂ (Mirrors f) c.blocks c'.blocks) : c'.reads = c.reads.map f :=
  flatMap_of_mirrors h fun _ _ hb => hb.reads

theorem defs_of_mirrors (ha : c'.arguments = c.arguments.map f) (h : List.Forall₂ (Mirrors f) c.blocks c'.blocks) :
    c'.defs = c.defs.map f := by
  rw [defs, defs, ha, List.map_append, flatMap_of_mirrors h fun _ _ hb => hb.defs]

theorem predecessorsOf_of_mirrors (h : List.Forall₂ (Mirrors f) c.blocks c'.blocks) (b : BlockId) :
    c'.predecessorsOf b = c.predecessorsOf b := by
  have hsucc (p : BlockId) : c'.successors p = c.successors p := by
    cases hp : c'.blocks[p]? with
    | none =>
      have hp' : c.blocks[p]? = none := by
        rw [List.getElem?_eq_none_iff] at hp ⊢
        rwa [h.length_eq]
      simp [successors, hp, hp']
    | some block' =>
      obtain ⟨block, hblock, hm⟩ := exists_of_getElem?_right h hp
      simp [successors, hp, hblock, Block.successors, hm.targets]
  simp [predecessorsOf, h.length_eq, hsucc]

/-- **A body of the same shape as a well-formed one is well formed**, if every value of it
    has an origin and the names given to definitions are values of it. -/
theorem WellFormed.mirrored (hc : c.WellFormed) (ha : c'.arguments = c.arguments.map f)
    (hb : List.Forall₂ (Mirrors f) c.blocks c'.blocks) (hrange : ∀ v ∈ c.defs, f v < c'.values.length)
    (horigin : ∀ x ∈ c'.values, x.origin ≠ .unresolved) : c'.WellFormed := by
  have hdefs := defs_of_mirrors ha hb
  have hreads := reads_of_mirrors hb
  refine ⟨?_, ?_, ?_, ?_, ?_, ?_, ?_⟩
  · intro b block' h t ht
    obtain ⟨block, hget, hm⟩ := exists_of_getElem?_right hb h
    rw [← hb.length_eq]
    exact hc.targets b block hget t (hm.targets b ▸ ht)
  · rw [predecessorsOf_of_mirrors hb, hc.entry]
  · intro b block' h phi' hphi
    obtain ⟨block, hget, hm⟩ := exists_of_getElem?_right hb h
    have hlength : phi'.operands.length ∈ block.phis.map (·.operands.length) := by
      rw [← hm.arities]
      exact List.mem_map_of_mem hphi
    obtain ⟨phi, hmem, heq⟩ := List.mem_map.1 hlength
    rw [predecessorsOf_of_mirrors hb, ← hc.arity b block hget phi hmem, heq]
  · intro v' hv'
    obtain ⟨v, hv, rfl⟩ := List.mem_map.1 (hdefs ▸ hv')
    exact hrange v hv
  · intro v' hv'
    obtain ⟨v, hv, rfl⟩ := List.mem_map.1 (hreads ▸ hv')
    exact hrange v (hc.defined v hv)
  · intro v' hv'
    obtain ⟨v, hv, rfl⟩ := List.mem_map.1 (hreads ▸ hv')
    rw [hdefs]
    exact List.mem_map_of_mem (hc.defined v hv)
  · intro v' _ x hx
    exact horigin x (List.mem_of_getElem? hx)

end

end DexShrinker.Body
