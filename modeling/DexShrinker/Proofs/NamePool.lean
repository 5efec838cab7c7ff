/-
  DexShrinker/Proofs/NamePool.lean
  ================================
  **Numbers of a pool stand for strings, one to one.**

  A pool holds a list of strings, in the order of their first arrival (`NamePool.Holds`): the strings
  of a shard are those of the list that belong into it, and its slots lead back to them. So the number
  of a string is made of its shard and of its place among the strings of that shard
  (`NamePool.numberIn`), and as the list only grows at its end, it is that for good. A call of any
  kind answers this number (`Holds.tryIntern_eq_ok_iff`), and unless a shard is full it does answer.

  Numbers are compared by the code points of their strings, which is the order of the bytes of their
  UTF-8 form (`lt_iff_utf8_lt`).
-/
import DexShrinker.NamePool
import DexShrinker.Proofs.Outcome
import Mathlib.Data.Finset.Card
import Mathlib.Data.String.Basic

namespace DexShrinker

/-! ### Numbers -/

namespace PooledName

variable {shard slot : Nat}

theorem toNat_ofParts (hshard : shard < 16) (hslot : slot ≤ maxSlot) : (ofParts shard slot).raw.toNat = shard * 2 ^ 28 + slot := by
  unfold maxSlot at hslot
  have hs : shard.toUInt32.toNat = shard := UInt32.toNat_ofNat_of_lt' (by simp only [UInt32.size]; omega)
  have hl : slot.toUInt32.toNat = slot := UInt32.toNat_ofNat_of_lt' (by simp only [UInt32.size]; omega)
  have hmod : shard <<< 28 % 2 ^ 32 = shard <<< 28 := Nat.mod_eq_of_lt (by rw [Nat.shiftLeft_eq]; omega)
  rw [ofParts, UInt32.toNat_or, UInt32.toNat_shiftLeft, hs, hl, show (28 : UInt32).toNat % 32 = 28 from rfl, hmod,
    ← Nat.shiftLeft_add_eq_or_of_lt (by omega), Nat.shiftLeft_eq]

/-- A number is taken apart into the shard and the slot that it was made of. -/
theorem shard_ofParts (hshard : shard < 16) (hslot : slot ≤ maxSlot) : (ofParts shard slot).shard = shard := by
  have hnat := toNat_ofParts hshard hslot
  unfold maxSlot at hslot
  rw [PooledName.shard, UInt32.toNat_shiftRight, hnat, show (28 : UInt32).toNat % 32 = 28 from rfl, Nat.shiftRight_eq_div_pow]
  omega

theorem slot_ofParts (hshard : shard < 16) (hslot : slot ≤ maxSlot) : (ofParts shard slot).slot = slot := by
  have hnat := toNat_ofParts hshard hslot
  unfold maxSlot at hslot
  rw [PooledName.slot, UInt32.toNat_and, hnat, show (0x0FFFFFFF : UInt32).toNat = 2 ^ 28 - 1 from rfl, Nat.and_two_pow_sub_one_eq_mod]
  omega

end PooledName

/-! ### The order of bytes -/

/-- The greater of two numbers has the greater digit at the first place where they differ. -/
theorem digits_lt {v w : Nat} (h : v < w) (hw : w < 2097152) :
    v / 262144 % 8 < w / 262144 % 8 ∨ v / 262144 % 8 = w / 262144 % 8 ∧
      (v / 4096 % 64 < w / 4096 % 64 ∨ v / 4096 % 64 = w / 4096 % 64 ∧
        (v / 64 % 64 < w / 64 % 64 ∨ v / 64 % 64 = w / 64 % 64 ∧ v % 64 < w % 64)) := by
  have h₁ : v / 64 < w / 64 ∨ v / 64 = w / 64 ∧ v % 64 < w % 64 := by omega
  rcases h₁ with h₁ | ⟨h₁, hlast⟩
  · have h₂ : v / 4096 < w / 4096 ∨ v / 4096 = w / 4096 ∧ v / 64 % 64 < w / 64 % 64 := by omega
    rcases h₂ with h₂ | ⟨h₂, hthird⟩
    · have h₃ : v / 262144 < w / 262144 ∨ v / 262144 = w / 262144 ∧ v / 4096 % 64 < w / 4096 % 64 := by omega
      rcases h₃ with h₃ | ⟨h₃, hsecond⟩
      · exact .inl (by omega)
      · exact .inr ⟨by omega, .inl hsecond⟩
    · exact .inr ⟨by omega, .inr ⟨by omega, .inl hthird⟩⟩
  · exact .inr ⟨by omega, .inr ⟨by omega, .inr ⟨by omega, hlast⟩⟩⟩

/-- The bytes of the smaller of two code points are smaller, whatever follows. The first byte tells how many there are, and a
    code point of more bytes begins with a greater one. -/
theorem utf8EncodeChar_append_lt {c d : Char} (h : c < d) (xs ys : List UInt8) :
    String.utf8EncodeChar c ++ xs < String.utf8EncodeChar d ++ ys := by
  have hlt : c.val.toNat < d.val.toNat := UInt32.lt_iff_toNat_lt.1 h
  have hd : d.val.toNat < 1114112 := by
    rcases d.valid with hd | hd <;> omega
  unfold String.utf8EncodeChar
  simp only
  generalize c.val.toNat = v at hlt ⊢
  generalize d.val.toNat = w at hlt hd ⊢
  have hbyte (n : Nat) (hn : n < 256) : (UInt8.ofNat n).toNat = n := UInt8.toNat_ofNat_of_lt hn
  by_cases hfour : 65535 < v
  · -- Four bytes each, and the first that differs decides.
    have hdigits := digits_lt hlt (by omega)
    rw [if_neg (by omega), if_neg (by omega), if_neg (by omega), if_neg (by omega), if_neg (by omega), if_neg (by omega)]
    simp (disch := omega) only [List.cons_append, List.nil_append, List.cons_lt_cons_iff, UInt8.lt_iff_toNat_lt,
      ← UInt8.toNat_inj, hbyte, Nat.add_lt_add_iff_right, Nat.add_right_cancel_iff]
    rcases hdigits with h₁ | ⟨h₁, h₂ | ⟨h₂, h₃ | ⟨h₃, h₄⟩⟩⟩
    · exact .inl h₁
    · exact .inr ⟨h₁, .inl h₂⟩
    · exact .inr ⟨h₁, .inr ⟨h₂, .inl h₃⟩⟩
    · exact .inr ⟨h₁, .inr ⟨h₂, .inr ⟨h₃, .inl h₄⟩⟩⟩
  · split_ifs <;>
      simp (disch := omega) only [List.cons_append, List.nil_append, List.cons_lt_cons_iff, UInt8.lt_iff_toNat_lt,
        ← UInt8.toNat_inj, hbyte] <;>
      omega

theorem append_lt_append_iff {p xs ys : List UInt8} : p ++ xs < p ++ ys ↔ xs < ys := by
  induction p with
  | nil => rfl
  | cons b p ih => simp [ih]

theorem flatMap_utf8EncodeChar_lt_iff {cs ds : List Char} :
    cs.flatMap String.utf8EncodeChar < ds.flatMap String.utf8EncodeChar ↔ cs < ds := by
  induction cs generalizing ds with
  | nil =>
    cases ds with
    | nil => simp
    | cons d ds =>
      have hne : String.utf8EncodeChar d ++ ds.flatMap String.utf8EncodeChar ≠ [] := by simp
      obtain ⟨b, bs, hbs⟩ := List.exists_cons_of_ne_nil hne
      rw [List.flatMap_nil, List.flatMap_cons, hbs]
      exact iff_of_true (List.nil_lt_cons b bs) (List.nil_lt_cons d ds)
  | cons c cs ih =>
    cases ds with
    | nil => simp
    | cons d ds =>
      rw [List.flatMap_cons, List.flatMap_cons, List.cons_lt_cons_iff]
      rcases lt_trichotomy c d with hlt | rfl | hgt
      · exact iff_of_true (utf8EncodeChar_append_lt hlt _ _) (.inl hlt)
      · rw [append_lt_append_iff, ih]
        simp
      · refine iff_of_false (List.lt_asymm (utf8EncodeChar_append_lt hgt _ _)) ?_
        rintro (hlt | ⟨rfl, -⟩)
        · exact lt_asymm hlt hgt
        · exact lt_irrefl _ hgt

theorem toList_utf8 (s : String) : s.toUTF8.data.toList = s.toList.flatMap String.utf8EncodeChar := by
  rw [String.toUTF8_eq_toByteArray, ← String.utf8Encode_toList, List.utf8Encode, List.toList_data_toByteArray]

/-- **Strings are in the order of their bytes.** -/
theorem lt_iff_utf8_lt {s t : String} : s < t ↔ s.toUTF8.data.toList < t.toUTF8.data.toList := by
  rw [String.lt_iff_toList_lt, toList_utf8, toList_utf8, flatMap_utf8EncodeChar_lt_iff]

/-! ### What a pool holds -/

/-- The next slot leads to a new string, and the string to the slot. -/
theorem PoolShard.slots_push {shard : PoolShard} (h : ∀ (s : String) (i : Nat), shard.slots[s]? = some i ↔ shard.strings[i]? = some s)
    {s : String} (hnew : shard.slots[s]? = none) (t : String) (i : Nat) :
    (shard.push s).slots[t]? = some i ↔ (shard.push s).strings[i]? = some t := by
  simp only [push, Std.TreeMap.getElem?_insert, Std.LawfulEqCmp.compare_eq_iff_eq, Array.getElem?_push]
  by_cases heq : s = t
  · subst heq
    have hno : shard.strings[i]? ≠ some s := by
      rw [Ne, ← h, hnew]
      simp
    by_cases hi : i = shard.strings.size
    · simp [hi]
    · simp [hi, hno, Ne.symm hi]
  · by_cases hi : i = shard.strings.size
    · simp [heq, hi, h]
    · simp [heq, hi, h]

namespace NamePool

/-- The strings of a shard. -/
def ofShard (k : Fin 16) (ss : List String) : List String := ss.filter (shardOf · = k)

/-- The pool holds the strings of a list, each once. The slots and the strings of a shard lead to each other, and there are
    no more of them than numbers for the shard. -/
structure Holds (p : NamePool) (ss : List String) : Prop where
  nodup : ss.Nodup
  count : p.count = ss.length
  strings : ∀ k : Fin 16, p.shards[k].strings.toList = ofShard k ss
  slots : ∀ (k : Fin 16) (s : String) (i : Nat), p.shards[k].slots[s]? = some i ↔ p.shards[k].strings[i]? = some s
  room : ∀ k : Fin 16, (ofShard k ss).length ≤ 2 ^ 28

/-- The number of a string in a pool that holds a list of strings. -/
def numberIn (ss : List String) (s : String) : PooledName := .ofParts (shardOf s) ((ofShard (shardOf s) ss).idxOf s)

/-- The list with one more string, unless it is there. -/
def extend (ss : List String) (s : String) : List String := if s ∈ ss then ss else ss ++ [s]

variable {p p' : NamePool} {ss : List String} {s t : String} {n : PooledName}

theorem mem_ofShard : t ∈ ofShard (shardOf s) ss ↔ t ∈ ss ∧ shardOf t = shardOf s := by simp [ofShard]

theorem prefix_extend (ss : List String) (s : String) : ss <+: extend ss s := by
  unfold extend
  split
  · exact List.prefix_refl ss
  · exact List.prefix_append ss [s]

theorem mem_extend : t ∈ extend ss s ↔ t ∈ ss ∨ t = s := by
  unfold extend
  split
  · next hmem => exact ⟨.inl, fun h => h.elim id (· ▸ hmem)⟩
  · simp

/-- A string keeps its number when others follow. -/
theorem numberIn_of_prefix {ss' : List String} (h : ss <+: ss') (hs : s ∈ ss) : numberIn ss' s = numberIn ss s := by
  obtain ⟨more, rfl⟩ := h
  have hmem : s ∈ ofShard (shardOf s) ss := mem_ofShard.2 ⟨hs, rfl⟩
  rw [numberIn, numberIn, ofShard, List.filter_append, ← ofShard, List.idxOf_append_of_mem hmem]

theorem Holds.existing? (h : p.Holds ss) (s : String) : p.existing? s = if s ∈ ss then some (numberIn ss s) else none := by
  unfold NamePool.existing?
  split
  · next hmem =>
    have hslot : p.shards[shardOf s].strings[(ofShard (shardOf s) ss).idxOf s]? = some s := by
      rw [← Array.getElem?_toList, h.strings, List.getElem?_idxOf (mem_ofShard.2 ⟨hmem, rfl⟩)]
    rw [(h.slots _ _ _).2 hslot]
    rfl
  · next hnew =>
    cases hslot : p.shards[shardOf s].slots[s]? with
    | none => rfl
    | some i =>
      have hget := (h.slots _ _ _).1 hslot
      rw [← Array.getElem?_toList, h.strings] at hget
      exact absurd (mem_ofShard.1 (List.mem_of_getElem? hget)).1 hnew

/-- A new string gets the next slot of its shard. -/
theorem Holds.push (h : p.Holds ss) (hnew : s ∉ ss) (hroom : (ofShard (shardOf s) ss).length ≤ PooledName.maxSlot) :
    (p.push s).Holds (ss ++ [s]) := by
  have hshard (k : Fin 16) : (p.push s).shards[k] = if shardOf s = k then p.shards[k].push s else p.shards[k] := by
    by_cases hk : shardOf s = k
    · subst hk
      rw [if_pos rfl]
      exact Vector.getElem_set_self _
    · rw [if_neg hk]
      exact Vector.getElem_set_ne (shardOf s).isLt k.isLt fun heq => hk (Fin.ext heq)
  refine ⟨?_, ?_, fun k => ?_, fun k t i => ?_, fun k => ?_⟩
  · exact h.nodup.append (List.nodup_singleton s) (by simpa using hnew)
  · rw [List.length_append, ← h.count]
    rfl
  · rw [hshard, ofShard, List.filter_append, ← ofShard, ← h.strings]
    split
    · next hk => simp [PoolShard.push, hk]
    · next hk => simp [hk]
  · rw [hshard]
    split
    · next hk =>
      subst hk
      have hnone : p.shards[shardOf s].slots[s]? = none := by
        have hexisting := h.existing? s
        rwa [if_neg hnew, NamePool.existing?, Option.map_eq_none_iff] at hexisting
      exact PoolShard.slots_push (h.slots _) hnone t i
    · exact h.slots k t i
  · have hroom' := h.room k
    unfold PooledName.maxSlot at hroom
    rw [ofShard, List.filter_append, ← ofShard, List.length_append]
    by_cases hk : shardOf s = k
    · subst hk
      simp
      omega
    · simpa [hk] using hroom'

/-- **One call.** It answers the number of its string, which is put into its shard unless it is there. A full shard takes no
    more strings. -/
theorem Holds.tryIntern (h : p.Holds ss) (s : String) : p.tryIntern s =
    if s ∈ ss then .ok (numberIn ss s, p)
    else if (ofShard (shardOf s) ss).length ≤ PooledName.maxSlot then .ok (numberIn (ss ++ [s]) s, p.push s)
    else .error (.shardOverflow (shardOf s) (ofShard (shardOf s) ss).length) := by
  have hsize : p.shards[shardOf s].strings.size = (ofShard (shardOf s) ss).length := by rw [← h.strings, Array.length_toList]
  unfold NamePool.tryIntern
  rw [h.existing? s]
  by_cases hmem : s ∈ ss
  · rw [if_pos hmem, if_pos hmem]
  · have hplace : numberIn (ss ++ [s]) s = .ofParts (shardOf s) (ofShard (shardOf s) ss).length := by
      have hnew : s ∉ ofShard (shardOf s) ss := fun hin => hmem (mem_ofShard.1 hin).1
      have hlast : ofShard (shardOf s) (ss ++ [s]) = ofShard (shardOf s) ss ++ [s] := by simp [ofShard]
      rw [numberIn, hlast, List.idxOf_append_of_notMem hnew, List.idxOf_cons_self, Nat.add_zero]
    rw [if_neg hmem, if_neg hmem, hplace]
    simp only [hsize]

theorem Holds.of_tryIntern (h : p.Holds ss) (hcall : p.tryIntern s = .ok (n, p')) :
    p'.Holds (extend ss s) ∧ n = numberIn (extend ss s) s := by
  rw [h.tryIntern s] at hcall
  unfold extend
  split at hcall
  · next hmem =>
    cases hcall
    rw [if_pos hmem]
    exact ⟨h, rfl⟩
  · next hnew =>
    split at hcall
    · next hroom =>
      cases hcall
      rw [if_neg hnew]
      exact ⟨h.push hnew hroom, rfl⟩
    · cases hcall

/-! ### Reading numbers -/

theorem Holds.lookup? (h : p.Holds ss) (hs : s ∈ ss) : p.lookup? (numberIn ss s) = some s := by
  have hmem : s ∈ ofShard (shardOf s) ss := mem_ofShard.2 ⟨hs, rfl⟩
  have hslot : (ofShard (shardOf s) ss).idxOf s ≤ PooledName.maxSlot := by
    have hlt := List.idxOf_lt_length_of_mem hmem
    have hroom := h.room (shardOf s)
    unfold PooledName.maxSlot
    omega
  have hstring : p.shards[shardOf s].strings[(ofShard (shardOf s) ss).idxOf s]? = some s := by
    rw [← Array.getElem?_toList, h.strings, List.getElem?_idxOf hmem]
  have hshard : p.shards[(shardOf s).1]? = some p.shards[shardOf s] := Vector.getElem?_eq_getElem (shardOf s).isLt
  rw [NamePool.lookup?, numberIn, PooledName.shard_ofParts (shardOf s).isLt hslot, PooledName.slot_ofParts (shardOf s).isLt hslot,
    hshard, Option.bind_some, hstring]

theorem Holds.numberIn_inj (h : p.Holds ss) (hs : s ∈ ss) (ht : t ∈ ss) : numberIn ss s = numberIn ss t ↔ s = t := by
  refine ⟨fun heq => ?_, fun heq => heq ▸ rfl⟩
  have hlookup := h.lookup? hs
  rw [heq, h.lookup? ht] at hlookup
  exact (Option.some.inj hlookup).symm

/-- Numbers are in the order of the bytes of their strings. -/
theorem Holds.compareNames (h : p.Holds ss) (hs : s ∈ ss) (ht : t ∈ ss) : p.compareNames (numberIn ss s) (numberIn ss t) =
    some (if s.toUTF8.data.toList < t.toUTF8.data.toList then .lt
      else if s.toUTF8.data.toList = t.toUTF8.data.toList then .eq else .gt) := by
  have heq : s.toUTF8.data.toList = t.toUTF8.data.toList ↔ s = t := by
    rw [Array.toList_inj, ← ByteArray.ext_iff, String.toUTF8_eq_toByteArray, String.toUTF8_eq_toByteArray, String.toByteArray_inj]
  have hcompare : compare s t = if s < t then .lt else if s = t then .eq else .gt := rfl
  rw [NamePool.compareNames, h.lookup? hs, h.lookup? ht]
  simp only [heq, ← lt_iff_utf8_lt, ← hcompare]
  split
  · next hraw =>
    have hnumber : numberIn ss s = numberIn ss t := congrArg PooledName.mk hraw
    rw [(h.numberIn_inj hs ht).1 hnumber]
    exact congrArg some Std.ReflCmp.compare_self.symm
  · rfl

/-! ### Calls -/

/-- The kinds of calls. -/
inductive Way where
  | intern
  | internOwned
  | tryIntern
  | tryInternOwned
deriving DecidableEq

/-- A call of any kind. -/
def call (p : NamePool) (s : String) : Way → Outcome PoolError (PooledName × NamePool)
  | .intern => Outcome.lift (p.intern s)
  | .internOwned => Outcome.lift (p.internOwned s)
  | .tryIntern => Outcome.ofExcept id (p.tryIntern s)
  | .tryInternOwned => Outcome.ofExcept id (p.tryInternOwned s)

/-- Calls one after the other: their answers, and the pool after them. -/
def run (p : NamePool) : List (String × Way) → Outcome PoolError (List PooledName × NamePool)
  | [] => .ok ([], p)
  | (s, way) :: calls => do
    let (n, p) ← p.call s way
    let (ns, p) ← p.run calls
    return (n :: ns, p)

variable {calls : List (String × Way)} {ns : List PooledName} {way : Way}

theorem tryInternOwned_eq (p : NamePool) (s : String) : p.tryInternOwned s = p.tryIntern s := by
  unfold tryInternOwned NamePool.tryIntern
  cases p.existing? s <;> rfl

theorem intern_eq_ok_iff {r : PooledName × NamePool} : p.intern s = .ok r ↔ p.tryIntern s = .ok r := by
  rw [intern]
  cases p.tryIntern s <;> simp [Except.mapError]

/-- Calls differ in their failures only. -/
theorem call_eq_ok_iff {r : PooledName × NamePool} : p.call s way = .ok r ↔ p.tryIntern s = .ok r := by
  have howned : p.internOwned s = p.intern s := by rw [internOwned, tryInternOwned_eq, intern]
  cases way with
  | intern => exact Outcome.lift_eq_ok.trans intern_eq_ok_iff
  | internOwned => rw [call, howned, Outcome.lift_eq_ok, intern_eq_ok_iff]
  | tryIntern => exact Outcome.ofExcept_eq_ok
  | tryInternOwned => rw [call, tryInternOwned_eq, Outcome.ofExcept_eq_ok]

theorem run_cons_eq_ok_iff : p.run ((s, way) :: calls) = .ok (ns, p') ↔
    ∃ n p₁ ns', p.tryIntern s = .ok (n, p₁) ∧ p₁.run calls = .ok (ns', p') ∧ n :: ns' = ns := by
  simp only [run, bind_eq_ok, call_eq_ok_iff, Prod.exists]
  constructor
  · rintro ⟨n, p₁, hcall, ns', p₂, hrest, hreturn⟩
    cases hreturn
    exact ⟨n, p₁, ns', hcall, hrest, rfl⟩
  · rintro ⟨n, p₁, ns', hcall, hrest, rfl⟩
    exact ⟨n, p₁, hcall, ns', p', hrest, rfl⟩

/-- **After a run** the pool holds what it held before and the strings of the calls, and the calls have answered their numbers. -/
theorem Holds.run (h : p.Holds ss) (hrun : p.run calls = .ok (ns, p')) :
    ∃ ss', p'.Holds ss' ∧ ss <+: ss' ∧ ns = calls.map (numberIn ss' ·.1) ∧ ∀ s, s ∈ ss' ↔ s ∈ ss ∨ s ∈ calls.map Prod.fst := by
  induction calls generalizing p ss ns with
  | nil =>
    cases hrun
    exact ⟨ss, h, List.prefix_refl ss, rfl, by simp⟩
  | cons c calls ih =>
    obtain ⟨n, p₁, ns', hcall, hrest, rfl⟩ := run_cons_eq_ok_iff.1 hrun
    obtain ⟨hholds, rfl⟩ := h.of_tryIntern hcall
    obtain ⟨ss', hholds', hgrows, rfl, hmem⟩ := ih hholds hrest
    refine ⟨ss', hholds', (prefix_extend ss c.1).trans hgrows, ?_, fun s => ?_⟩
    · rw [List.map_cons, numberIn_of_prefix hgrows (mem_extend.2 (.inr rfl))]
    · rw [hmem, mem_extend, List.map_cons, List.mem_cons, or_assoc]

/-- No shard is to have more strings than it has numbers. -/
def Fits (strings : Finset String) : Prop := ∀ k : Fin 16, (strings.filter (shardOf · = k)).card ≤ 2 ^ 28

/-- There is room for a new string among strings that fit. -/
theorem Holds.room_of_fits (h : p.Holds ss) {strings : Finset String} (hfits : Fits strings) (hss : ∀ t ∈ ss, t ∈ strings)
    (hs : s ∈ strings) (hnew : s ∉ ss) : (ofShard (shardOf s) ss).length ≤ PooledName.maxSlot := by
  have hnodup : (s :: ofShard (shardOf s) ss).Nodup :=
    List.nodup_cons.2 ⟨fun hin => hnew (mem_ofShard.1 hin).1, h.nodup.filter _⟩
  have hsub : (s :: ofShard (shardOf s) ss).toFinset ⊆ strings.filter (shardOf · = shardOf s) := by
    intro t ht
    rcases List.mem_cons.1 (List.mem_toFinset.1 ht) with rfl | ht
    · exact Finset.mem_filter.2 ⟨hs, rfl⟩
    · obtain ⟨htss, htshard⟩ := mem_ofShard.1 ht
      exact Finset.mem_filter.2 ⟨hss t htss, htshard⟩
  have hle := (Finset.card_le_card hsub).trans (hfits (shardOf s))
  rw [List.toFinset_card_of_nodup hnodup, List.length_cons] at hle
  unfold PooledName.maxSlot
  omega

/-- Calls with strings that fit are answered. -/
theorem Holds.exists_run (h : p.Holds ss) {strings : Finset String} (hfits : Fits strings) (hss : ∀ t ∈ ss, t ∈ strings)
    (calls : List (String × Way)) (hcalls : ∀ c ∈ calls, c.1 ∈ strings) : ∃ ns p', p.run calls = .ok (ns, p') := by
  induction calls generalizing p ss with
  | nil => exact ⟨[], p, rfl⟩
  | cons c calls ih =>
    obtain ⟨hc, hcalls⟩ := List.forall_mem_cons.1 hcalls
    obtain ⟨n, p₁, hcall⟩ : ∃ n p₁, p.tryIntern c.1 = .ok (n, p₁) := by
      rw [h.tryIntern]
      split
      · exact ⟨_, _, rfl⟩
      · next hnew =>
        rw [if_pos (h.room_of_fits hfits hss hc hnew)]
        exact ⟨_, _, rfl⟩
    have hss' : ∀ t ∈ extend ss c.1, t ∈ strings := fun t ht => (mem_extend.1 ht).elim (hss t) (· ▸ hc)
    obtain ⟨ns, p', hrun⟩ := ih (h.of_tryIntern hcall).1 hss' hcalls
    exact ⟨n :: ns, p', run_cons_eq_ok_iff.2 ⟨n, p₁, ns, hcall, hrun, rfl⟩⟩

/-! ### The pool to start from -/

theorem holds_bare : bare.Holds [""] := by
  have hempty : Holds ⟨.replicate 16 {}, 0⟩ [] := by
    refine ⟨.nil, rfl, fun k => ?_, fun k s i => ?_, fun k => Nat.zero_le _⟩
    · rw [Fin.getElem_fin, Vector.getElem_replicate]
      rfl
    · rw [Fin.getElem_fin, Vector.getElem_replicate]
      simp
  have hbare : bare = push ⟨.replicate 16 {}, 0⟩ "" := by
    have hzero : shardOf "" = 0 := by decide
    simp only [bare, push, hzero]
    rfl
  rw [hbare]
  exact hempty.push (by simp) (Nat.zero_le _)

/-- Interning strings one after the other is a run. -/
theorem foldlM_intern_eq_ok_iff (xs : List String) :
    xs.foldlM (fun p s => do return (← p.intern s).2) p = .ok p' ↔ ∃ ns, p.run (xs.map (·, Way.intern)) = .ok (ns, p') := by
  induction xs generalizing p with
  | nil =>
    change Except.ok p = Except.ok p' ↔ ∃ ns, Except.ok ([], p) = Except.ok (ns, p')
    simp
  | cons s xs ih =>
    simp only [List.foldlM_cons, bind_eq_ok, pure_eq_ok, intern_eq_ok_iff, ih, List.map_cons, run_cons_eq_ok_iff, Prod.exists]
    constructor
    · rintro ⟨_, ⟨n, p₁, hcall, rfl⟩, ns, hrest⟩
      exact ⟨_, n, p₁, ns, hcall, hrest, rfl⟩
    · rintro ⟨_, n, p₁, ns, hcall, hrest, rfl⟩
      exact ⟨p₁, ⟨n, p₁, hcall, rfl⟩, ns, hrest⟩

/-- What is in a pool after calls: the empty string, the well-known ones and those of the calls. -/
def stringsOf (calls : List (String × Way)) : Finset String := ("" :: wellKnown ++ calls.map Prod.fst).toFinset

theorem exists_initial : ∃ p ss, initial = .ok p ∧ p.Holds ss ∧ ∀ s, s ∈ ss ↔ s ∈ "" :: wellKnown := by
  have hfits : Fits (stringsOf []) := fun k =>
    (Finset.card_le_card (Finset.filter_subset _ _)).trans (le_trans (List.toFinset_card_le _) (by decide))
  obtain ⟨ns, p, hrun⟩ := holds_bare.exists_run hfits (by simp [stringsOf]) (wellKnown.map (·, Way.intern))
    (fun c hc => by
      obtain ⟨s, hs, rfl⟩ := List.mem_map.1 hc
      exact List.mem_toFinset.2 (List.mem_append_left _ (List.mem_cons_of_mem _ hs)))
  obtain ⟨ss, hholds, -, -, hmem⟩ := holds_bare.run hrun
  refine ⟨p, ss, (foldlM_intern_eq_ok_iff wellKnown).2 ⟨ns, hrun⟩, hholds, fun s => ?_⟩
  rw [hmem, List.map_map]
  simp

/-- **Numbers and strings, one to one.** Unless some shard is to have more strings than it has numbers, a new pool answers any
    calls, one after the other, and as many strings are in it as there are different ones. Each has one number, and reads back from
    it for good. Numbers are in the order of the bytes of their strings. -/
theorem numbers_of_run (calls : List (String × Way)) (hfits : Fits (stringsOf calls)) :
    ∃ (p₀ p : NamePool) (number : String → PooledName), initial = .ok p₀ ∧ p₀.run calls = .ok (calls.map fun c => number c.1, p) ∧
      p.count = (stringsOf calls).card ∧
      (∀ s ∈ stringsOf calls, p.lookup? (number s) = some s ∧
        ∀ later ns p', p.run later = .ok (ns, p') → p'.lookup? (number s) = some s) ∧
      ∀ s ∈ stringsOf calls, ∀ t ∈ stringsOf calls, (number s = number t ↔ s = t) ∧
        p.compareNames (number s) (number t) =
          some (if s.toUTF8.data.toList < t.toUTF8.data.toList then .lt
            else if s.toUTF8.data.toList = t.toUTF8.data.toList then .eq else .gt) := by
  obtain ⟨p₀, ss₀, hinitial, hholds₀, hmem₀⟩ := exists_initial
  obtain ⟨ns, p, hrun⟩ := hholds₀.exists_run hfits
    (fun t ht => List.mem_toFinset.2 (List.mem_append_left _ ((hmem₀ t).1 ht))) calls
    (fun c hc => List.mem_toFinset.2 (List.mem_append_right _ (List.mem_map_of_mem hc)))
  obtain ⟨ss, hholds, -, rfl, hmem⟩ := hholds₀.run hrun
  have hstrings (s : String) : s ∈ stringsOf calls ↔ s ∈ ss := by
    rw [stringsOf, List.mem_toFinset, List.mem_append, hmem, hmem₀]
  refine ⟨p₀, p, numberIn ss, hinitial, hrun, ?_, fun s hs => ?_, fun s hs t ht => ?_⟩
  · have heq : stringsOf calls = ss.toFinset := Finset.ext fun s => by rw [hstrings, List.mem_toFinset]
    rw [heq, List.toFinset_card_of_nodup hholds.nodup, hholds.count]
  · rw [hstrings] at hs
    refine ⟨hholds.lookup? hs, fun later ns p' hlater => ?_⟩
    obtain ⟨ss', hholds', hgrows, -⟩ := hholds.run hlater
    rw [← numberIn_of_prefix hgrows hs]
    exact hholds'.lookup? (hgrows.mem hs)
  · rw [hstrings] at hs ht
    exact ⟨hholds.numberIn_inj hs ht, hholds.compareNames hs ht⟩

/-- Strings that are new, well known, put in before, and not of one byte for each character. -/
def callsSample : List (String × Way) :=
  [("run", .tryIntern), ("é", .internOwned), ("ordinal", .tryInternOwned), ("run", .intern), ("z", .intern)]

theorem numbers_of_run_callsSample :
    Fits (stringsOf callsSample) ∧ ∃ (p₀ p : NamePool) (number : String → PooledName), initial = .ok p₀ ∧
      p₀.run callsSample = .ok ([number "run", number "é", number "ordinal", number "run", number "z"], p) ∧ p.count = 25 ∧
        number "run" ≠ number "z" ∧ p.lookup? (number "é") = some "é" ∧ p.compareNames (number "é") (number "z") = some .gt := by
  have hfits : Fits (stringsOf callsSample) := fun k =>
    (Finset.card_le_card (Finset.filter_subset _ _)).trans (le_trans (List.toFinset_card_le _) (by decide))
  obtain ⟨p₀, p, number, hinitial, hrun, hcount, hlookup, hnumber⟩ := numbers_of_run callsSample hfits
  have hrunIn : "run" ∈ stringsOf callsSample := by decide
  have hzIn : "z" ∈ stringsOf callsSample := by decide
  have heIn : "é" ∈ stringsOf callsSample := by decide
  refine ⟨hfits, p₀, p, number, hinitial, hrun, hcount.trans (by decide), ?_, (hlookup _ heIn).1, ?_⟩
  · rw [Ne, (hnumber _ hrunIn _ hzIn).1]
    decide
  · rw [(hnumber _ heIn _ hzIn).2]
    decide

end NamePool

end DexShrinker
