/-
  DexShrinker/Proofs/Body/Extending.lean
  ======================================
  **Bodies with more in their blocks.**

  A body may get new values that its blocks define and read themselves, lose arguments that its
  entry defines instead, and get new arguments (`Extends`). As long as the blocks go where they
  went and define what they defined, it stays strict and well formed (`Extends.strict`,
  `Extends.wellFormed`), and its phis are what they were (`Extends.aligned`).
-/
import DexShrinker.Proofs.Body.Dominance

namespace DexShrinker

/-! ### Values -/

/-- There are at least as many values as before, and only values of before have no origin if they had none. -/
structure Settles (s t : List Value) : Prop where
  length : s.length ≤ t.length
  origin : ∀ (v : ValueId) (x : Value), t[v]? = some x → x.origin = .unresolved → ∃ y, s[v]? = some y ∧ y.origin = .unresolved

namespace Settles

theorem refl (s : List Value) : Settles s s := ⟨Nat.le_refl _, fun _ x h horigin => ⟨x, h, horigin⟩⟩

theorem trans {s t r : List Value} (h : Settles s t) (h' : Settles t r) : Settles s r := by
  constructor
  · exact Nat.le_trans h.length h'.length
  · intro v x hx horigin
    obtain ⟨y, hy, horigin'⟩ := h'.origin v x hx horigin
    exact h.origin v y hy horigin'

theorem append {s new : List Value} (h : ∀ x ∈ new, x.origin ≠ .unresolved) : Settles s (s ++ new) := by
  constructor
  · simp
  · intro v x hx horigin
    rw [List.getElem?_append] at hx
    split at hx
    · exact ⟨x, hx, horigin⟩
    · exact absurd horigin (h x (List.mem_of_getElem? hx))

theorem map {s : List Value} {f : Value → Value} (h : ∀ x, (f x).origin = x.origin) : Settles s (s.map f) := by
  constructor
  · simp
  · intro v x hx horigin
    rw [List.getElem?_map, Option.map_eq_some_iff] at hx
    obtain ⟨y, hy, rfl⟩ := hx
    exact ⟨y, hy, by rwa [h] at horigin⟩

theorem modifyValue {s : List Value} {f : Value → Value} (h : ∀ x, (f x).origin = .unresolved → x.origin = .unresolved) (v : ValueId) :
    Settles s (Body.modifyValue s v f) := by
  rw [Body.modifyValue]
  split
  · next d hd =>
    constructor
    · simp
    · intro w x hx horigin
      by_cases hw : v = w
      · subst hw
        rw [List.getElem?_set_self (List.getElem?_eq_some_iff.1 hd).1] at hx
        cases hx
        exact ⟨d, hd, h d horigin⟩
      · rw [List.getElem?_set_ne hw] at hx
        exact ⟨x, hx, horigin⟩
  · exact refl s

theorem foldl {α : Type} {f : List Value → α → List Value} {xs : List α} (h : ∀ s, ∀ x ∈ xs, Settles s (f s x)) (s : List Value) :
    Settles s (xs.foldl f s) :=
  List.foldlRecOn (motive := Settles s) xs f (refl s) fun t ht x hx => ht.trans (h t x hx)

end Settles

/-! ### Instructions -/

/-- What the instructions define. -/
def dests (is : List Instr) : List ValueId := is.filterMap Instr.dest

/-- What the instructions read. -/
def instrReads (is : List Instr) : List ValueId := is.flatMap (·.op.reads)

/-- The second instructions define and read what the first ones do, and besides only new values, from `n` up to
    `m`. New values that they read they define. -/
structure Widens (n m : Nat) (is js : List Instr) : Prop where
  keeps : ∀ v ∈ dests is, v ∈ dests js
  defs : ∀ v ∈ dests js, v ∈ dests is ∨ (n ≤ v ∧ v < m)
  reads : ∀ v ∈ instrReads js, v ∈ instrReads is ∨ (v ∈ dests js ∧ n ≤ v ∧ v < m)

namespace Widens

variable {n m n' m' : Nat} {is js is' js' : List Instr}

theorem refl (n m : Nat) (is : List Instr) : Widens n m is is := ⟨fun _ h => h, fun _ h => .inl h, fun _ h => .inl h⟩

theorem of_eq {i j : Instr} (hdest : j.dest = i.dest) (hreads : j.op.reads = i.op.reads) (n m : Nat) : Widens n m [i] [j] := by
  have hdests : dests [j] = dests [i] := by simp [dests, List.filterMap_cons, hdest]
  have hread : instrReads [j] = instrReads [i] := by simp [instrReads, hreads]
  constructor
  · rw [hdests]
    exact fun _ h => h
  · rw [hdests]
    exact fun _ h => .inl h
  · rw [hread]
    exact fun _ h => .inl h

theorem mono (h : Widens n m is js) (hn : n' ≤ n) (hm : m ≤ m') : Widens n' m' is js where
  keeps := h.keeps
  defs v hv := (h.defs v hv).imp_right fun ⟨hle, hlt⟩ => ⟨Nat.le_trans hn hle, Nat.lt_of_lt_of_le hlt hm⟩
  reads v hv := (h.reads v hv).imp_right fun ⟨hdef, hle, hlt⟩ => ⟨hdef, Nat.le_trans hn hle, Nat.lt_of_lt_of_le hlt hm⟩

theorem append (h : Widens n m is js) (h' : Widens n m is' js') : Widens n m (is ++ is') (js ++ js') := by
  have hdests (xs ys : List Instr) : dests (xs ++ ys) = dests xs ++ dests ys := List.filterMap_append
  have hreads (xs ys : List Instr) : instrReads (xs ++ ys) = instrReads xs ++ instrReads ys := List.flatMap_append
  constructor
  · intro v hv
    rw [hdests, List.mem_append] at hv ⊢
    exact hv.imp (h.keeps v) (h'.keeps v)
  · intro v hv
    rw [hdests, List.mem_append] at hv ⊢
    rcases hv with hv | hv
    · exact (h.defs v hv).imp_left .inl
    · exact (h'.defs v hv).imp_left .inr
  · intro v hv
    rw [hreads, List.mem_append] at hv ⊢
    rw [hdests, List.mem_append]
    rcases hv with hv | hv
    · exact (h.reads v hv).imp .inl fun ⟨hdef, hnew⟩ => ⟨.inl hdef, hnew⟩
    · exact (h'.reads v hv).imp .inr fun ⟨hdef, hnew⟩ => ⟨.inr hdef, hnew⟩

/-- Every instruction on its own, all of them together. -/
theorem flatten {pieces : List (List Instr)} (h : List.Forall₂ (fun i js => Widens n m [i] js) is pieces) : Widens n m is pieces.flatten := by
  induction h with
  | nil => exact refl n m []
  | cons hi _ ih => exact hi.append ih

end Widens

/-! ### Bodies -/

namespace Body

/-- The block `b'` has the phis and the terminator of `b` and goes where `b` goes. It defines and reads what `b` does,
    besides values that are new or in `moved`, of which it reads only new ones that it defines. -/
structure BlockExtends (moved : List ValueId) (n m : Nat) (b b' : Block) : Prop where
  phis : b'.phis = b.phis
  terminator : b'.terminator = b.terminator
  targets : ∀ here, b'.targets here = b.targets here
  keeps : ∀ v ∈ dests b.body, v ∈ dests b'.body
  defs : ∀ v ∈ dests b'.body, v ∈ dests b.body ∨ v ∈ moved ∨ (n ≤ v ∧ v < m)
  reads : ∀ v ∈ instrReads b'.body, v ∈ instrReads b.body ∨ (v ∈ dests b'.body ∧ n ≤ v ∧ v < m)

/-- The body `c'` has more values and more in its blocks. Arguments of `c` may be defined by the entry instead. -/
structure Extends (c c' : Body) : Prop where
  values : Settles c.values c'.values
  arguments : ∀ v ∈ c'.arguments, v ∈ c.arguments ∨ (c.values.length ≤ v ∧ v < c'.values.length)
  kept : c.blocks ≠ [] → ∀ v ∈ c.arguments, v ∈ c'.arguments ∨ ∃ entry, c'.blocks[0]? = some entry ∧ v ∈ dests entry.body
  blocks : List.Forall₂ (BlockExtends c.arguments c.values.length c'.values.length) c.blocks c'.blocks

variable {c c' : Body} {b : BlockId} {v : ValueId}

theorem BlockExtends.refl (moved : List ValueId) (n m : Nat) (b : Block) : BlockExtends moved n m b b :=
  ⟨rfl, rfl, fun _ => rfl, fun _ h => h, fun _ h => .inl h, fun _ h => .inl h⟩

theorem extends_of_settles {values : List Value} (h : Settles c.values values) : c.Extends { c with values := values } where
  values := h
  arguments _ hv := .inl hv
  kept _ _ hv := .inl hv
  blocks := List.forall₂_same.2 fun b _ => BlockExtends.refl _ _ _ b

theorem mem_defs_of_availableAt (h : c.AvailableAt v b) : v ∈ c.defs := by
  rw [defs, List.mem_append]
  rcases h with hargument | ⟨d, block, hd, hdef, -⟩
  · exact .inl hargument
  · exact .inr (List.mem_flatMap.2 ⟨block, List.mem_of_getElem? hd, hdef⟩)

theorem Shaped.mem_defs_of_mem_reads (h : c.Shaped) (hstrict : c.Strict) (hv : v ∈ c.reads) : v ∈ c.defs := by
  obtain ⟨b, block, hb, ⟨phi, hphi, hv⟩ | hv⟩ := mem_reads_iff.1 hv
  · obtain ⟨p, hp⟩ := h.exists_incoming hb hphi hv
    exact mem_defs_of_availableAt (hstrict.phis b block hb phi hphi p v hp)
  · exact mem_defs_of_availableAt (hstrict.straight b block hb v hv)

/-- The same phis, and the same ways. -/
theorem aligned_of_same (h : List.Forall₂ (fun b b' => b'.phis = b.phis ∧ ∀ here, b'.targets here = b.targets here) c.blocks c'.blocks) :
    c.Aligned c' id := by
  have hpredecessors := predecessorsOf_of_targets (h.imp fun _ _ hb => hb.2)
  refine ⟨rfl, fun _ _ hij _ => hij, ?_, ?_⟩
  · intro p b hb
    have hmem := mem_predecessorsOf_of_mem_successors hb
    rw [hpredecessors] at hmem
    exact (mem_predecessorsOf.1 hmem).2
  · intro b block' hb
    obtain ⟨block, hblock, hphis, -⟩ := exists_of_getElem?_right h hb
    refine ⟨block, hblock, ?_⟩
    rw [hphis]
    refine List.forall₂_same.2 fun phi _ => ⟨rfl, fun p v hv => ?_⟩
    rwa [Incoming, hpredecessors] at hv

namespace Extends

theorem aligned (h : c.Extends c') : c.Aligned c' id := aligned_of_same (h.blocks.imp fun _ _ hb => ⟨hb.phis, hb.targets⟩)

theorem dominates (h : c.Extends c') {d : BlockId} (hd : c.Dominates d b) : c'.Dominates d b := by
  intro l hl
  have hwalk := h.aligned.walk hl
  rw [List.map_id] at hwalk
  exact hd l hwalk

theorem availableAt (h : c.Extends c') (hne : c.blocks ≠ []) (hv : c.AvailableAt v b) : c'.AvailableAt v b := by
  rcases hv with hargument | ⟨d, block, hd, hdef, hdominates⟩
  · rcases h.kept hne v hargument with hkept | ⟨entry, hentry, hdef⟩
    · exact .inl hkept
    · exact .inr ⟨0, entry, hentry, List.mem_append_right _ hdef, dominates_entry c' b⟩
  · obtain ⟨block', hd', hextends⟩ := exists_of_getElem?_left h.blocks hd
    refine .inr ⟨d, block', hd', ?_, h.dominates hdominates⟩
    rw [Block.defs, List.mem_append] at hdef ⊢
    rw [hextends.phis]
    exact hdef.imp_right (hextends.keeps v)

theorem strict (h : c.Extends c') (hc : c.Strict) : c'.Strict where
  straight b block' hb v hv := by
    obtain ⟨block, hblock, hextends⟩ := exists_of_getElem?_right h.blocks hb
    have hne : c.blocks ≠ [] := List.ne_nil_of_mem (List.mem_of_getElem? hblock)
    -- A new value is read in the block that defines it, any other one where it was read before.
    rcases List.mem_append.1 hv with hread | hread
    · rcases hextends.reads v hread with hold | ⟨hdef, -, -⟩
      · exact h.availableAt hne (hc.straight b block hblock v (List.mem_append_left _ hold))
      · exact .inr ⟨b, block', hb, List.mem_append_right _ hdef, dominates_self c' b⟩
    · rw [hextends.terminator] at hread
      exact h.availableAt hne (hc.straight b block hblock v (List.mem_append_right _ hread))
  phis b block' hb phi hphi p v hv := by
    obtain ⟨block, hblock, hextends⟩ := exists_of_getElem?_right h.blocks hb
    rw [hextends.phis] at hphi
    rw [Incoming, predecessorsOf_of_targets (h.blocks.imp fun _ _ hb => hb.targets)] at hv
    exact h.availableAt (List.ne_nil_of_mem (List.mem_of_getElem? hblock)) (hc.phis b block hblock phi hphi p v hv)

theorem mem_defs (h : c.Extends c') (hv : v ∈ c'.defs) : v ∈ c.defs ∨ v < c'.values.length := by
  rw [defs, List.mem_append] at hv ⊢
  rcases hv with hargument | hdef
  · exact (h.arguments v hargument).imp .inl fun hnew => hnew.2
  · obtain ⟨block', hblock', hdef⟩ := List.mem_flatMap.1 hdef
    obtain ⟨b, hb⟩ := List.getElem?_of_mem hblock'
    obtain ⟨block, hblock, hextends⟩ := exists_of_getElem?_right h.blocks hb
    have hold (hdef : v ∈ block.defs) : v ∈ c.blocks.flatMap Block.defs :=
      List.mem_flatMap.2 ⟨block, List.mem_of_getElem? hblock, hdef⟩
    rw [Block.defs, hextends.phis, List.mem_append] at hdef
    rcases hdef with hphi | hdef
    · exact .inl (.inr (hold (List.mem_append_left _ hphi)))
    · rcases hextends.defs v hdef with hsame | hmoved | hnew
      · exact .inl (.inr (hold (List.mem_append_right _ hsame)))
      · exact .inl (.inl hmoved)
      · exact .inr hnew.2

theorem mem_reads (h : c.Extends c') (hv : v ∈ c'.reads) : v ∈ c.reads ∨ c.values.length ≤ v := by
  obtain ⟨b, block', hb, hv⟩ := mem_reads_iff.1 hv
  obtain ⟨block, hblock, hextends⟩ := exists_of_getElem?_right h.blocks hb
  rw [mem_reads_iff]
  rcases hv with ⟨phi, hphi, hv⟩ | hv
  · rw [hextends.phis] at hphi
    exact .inl ⟨b, block, hblock, .inl ⟨phi, hphi, hv⟩⟩
  · rcases List.mem_append.1 hv with hread | hread
    · rcases hextends.reads v hread with hold | ⟨-, hnew, -⟩
      · exact .inl ⟨b, block, hblock, .inr (List.mem_append_left _ hold)⟩
      · exact .inr hnew
    · rw [hextends.terminator] at hread
      exact .inl ⟨b, block, hblock, .inr (List.mem_append_right _ hread)⟩

theorem wellFormed (h : c.Extends c') (hc : c.WellFormed) (hstrict : c.Strict) : c'.WellFormed := by
  have hdefs : ∀ v ∈ c'.defs, v < c'.values.length := by
    intro v hv
    rcases h.mem_defs hv with hold | hlt
    · exact Nat.lt_of_lt_of_le (hc.defsInRange v hold) h.values.length
    · exact hlt
  have hresolved : ∀ v ∈ c'.reads, ∀ x, c'.values[v]? = some x → x.origin ≠ .unresolved := by
    intro v hv x hx horigin
    obtain ⟨y, hy, hunresolved⟩ := h.values.origin v x hx horigin
    rcases h.mem_reads hv with hold | hnew
    · exact hc.resolved v hold y hy hunresolved
    · exact absurd (List.getElem?_eq_some_iff.1 hy).1 (Nat.not_lt.2 hnew)
  -- Only a body with blocks has a shape.
  by_cases hne : c.blocks = []
  · have hnil : c'.blocks = [] := by
      have hblocks := h.blocks
      rw [hne, List.forall₂_nil_left_iff] at hblocks
      exact hblocks
    have hreads : c'.reads = [] := by rw [Body.reads, hnil, List.flatMap_nil]
    have hget (b : BlockId) : c'.blocks[b]? = none := by rw [hnil, List.getElem?_nil]
    refine ⟨?_, ?_, ?_, hdefs, ?_, ?_, hresolved⟩
    · intro b block hb
      cases (hget b).symm.trans hb
    · simp [predecessorsOf, hnil]
    · intro b block hb
      cases (hget b).symm.trans hb
    · simp [hreads]
    · simp [hreads]
  · have hfollows : List.Forall₂ Block.Follows c.blocks c'.blocks :=
      h.blocks.imp fun _ _ hb => ⟨hb.targets, fun phi hphi => ⟨phi, hb.phis ▸ hphi, rfl⟩⟩
    have hshaped := (hc.shaped hne).follows hfollows
    have hdefined : ∀ v ∈ c'.reads, v ∈ c'.defs := fun v hv => hshaped.mem_defs_of_mem_reads (h.strict hstrict) hv
    exact ⟨hshaped.targets, hshaped.entry, hshaped.arity, hdefs, fun v hv => hdefs v (hdefined v hv), hdefined, hresolved⟩

end Extends

end Body

end DexShrinker
