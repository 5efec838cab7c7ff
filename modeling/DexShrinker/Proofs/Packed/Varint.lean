/-
  DexShrinker/Proofs/Packed/Varint.lean
  =====================================
  **A number of variable length is read back as it was written.**

  Reading goes on where it stands, puts every group of seven bits at its place, and stops behind
  the first byte without the top bit. A number that was written ends with the only such byte, and
  all of its groups lie below the sixty-fourth bit, so it is read back wherever it stands
  (`readOnto_groups`). Reading fails at the end of the bytes, and only if no byte ends a number
  (`word_of_endless`, `exists_word`). Folding and unfolding signed numbers undo each other
  (`unzigzag_zigzag`, `zigzag_unzigzag`), whatever the sixty-four bits are.
-/
import DexShrinker.Packed.Instr
import Mathlib.Data.BitVec
import Mathlib.Data.Nat.Bitwise

namespace DexShrinker

namespace Varint

/-! ### Groups -/

theorem toNat_toUInt8_of_lt {n : Nat} (h : n < 256) : n.toUInt8.toNat = n := by
  simp [Nat.mod_eq_of_lt h]

/-- A byte ends a number if its top bit is clear. -/
theorem and_top_eq_zero_iff (b : UInt8) : b &&& 0x80 = 0 ↔ b < 128 := by
  have hall : ∀ i : Fin 256, UInt8.ofFin i &&& 0x80 = 0 ↔ UInt8.ofFin i < 128 := by decide +kernel
  exact hall b.toFin

/-- The other bits of a byte are a group. -/
theorem toNat_and_group (b : UInt8) : (b &&& 0x7F).toUInt64.toNat = b.toNat % 128 := by
  rw [UInt8.toNat_toUInt64, UInt8.toNat_and]
  exact Nat.and_two_pow_sub_one_eq_mod b.toNat 7

theorem toNat_shiftLeft_of_lt {x : UInt64} {shift : Nat} (hshift : shift < 64) (h : x.toNat * 2 ^ shift < UInt64.size) :
    (x <<< shift.toUInt64).toNat = x.toNat * 2 ^ shift := by
  have hword : shift.toUInt64.toNat % 64 = shift := by
    simp
    omega
  rw [UInt64.toNat_shiftLeft, hword, Nat.shiftLeft_eq]
  exact Nat.mod_eq_of_lt h

/-- The low group of a number and the number above it, each at its place, make up the number. -/
theorem lowGroup_or_shifted {n shift : Nat} (hn : n * 2 ^ shift < UInt64.size) (hshift : shift + 7 < 64) {low : UInt64}
    (hlow : low.toNat = n % 128) :
    low <<< shift.toUInt64 ||| (n / 128).toUInt64 <<< (shift + 7).toUInt64 = n.toUInt64 <<< shift.toUInt64 := by
  have hpos : 0 < 2 ^ shift := Nat.two_pow_pos shift
  have hsize : UInt64.size = 18446744073709551616 := rfl
  have hle : n ≤ n * 2 ^ shift := Nat.le_mul_of_pos_right n hpos
  have hnumber : n.toUInt64.toNat = n := by
    simp
    omega
  have habove : (n / 128).toUInt64.toNat = n / 128 := by
    simp
    omega
  have hpow : 2 ^ (shift + 7) = 128 * 2 ^ shift := by rw [Nat.pow_add, Nat.mul_comm]
  have hlowFits : n % 128 * 2 ^ shift < UInt64.size := Nat.lt_of_le_of_lt (Nat.mul_le_mul_right _ (Nat.mod_le n 128)) hn
  have haboveFits : n / 128 * 2 ^ (shift + 7) < UInt64.size := by
    rw [hpow, ← Nat.mul_assoc]
    exact Nat.lt_of_le_of_lt (Nat.mul_le_mul_right _ (Nat.div_mul_le_self n 128)) hn
  apply UInt64.toNat.inj
  rw [UInt64.toNat_or, toNat_shiftLeft_of_lt (by omega) (hlow ▸ hlowFits), toNat_shiftLeft_of_lt hshift (habove.symm ▸ haboveFits),
    toNat_shiftLeft_of_lt (by omega) (hnumber.symm ▸ hn), hlow, habove, hnumber]
  -- Below the shift both are a group and a multiple of 128.
  have hsplit : n % 128 ||| n / 128 * 2 ^ 7 = n := by
    rw [Nat.or_comm, Nat.mul_comm, ← Nat.two_pow_add_eq_or_of_lt (show n % 128 < 2 ^ 7 by omega)]
    omega
  calc n % 128 * 2 ^ shift ||| n / 128 * 2 ^ (shift + 7)
      = (n % 128) <<< shift ||| (n / 128 * 2 ^ 7) <<< shift := by
        rw [Nat.shiftLeft_eq, Nat.shiftLeft_eq, hpow, Nat.mul_assoc]
        rfl
    _ = (n % 128 ||| n / 128 * 2 ^ 7) <<< shift := (Nat.shiftLeft_or_distrib).symm
    _ = n * 2 ^ shift := by rw [hsplit, Nat.shiftLeft_eq]

/-! ### Reading -/

/-- **The groups of a number are read back,** each at its place, whatever stands behind them. -/
theorem readOnto_groups (n : Nat) (acc : UInt64) {shift : Nat} (hshift : shift < 64) (hn : n * 2 ^ shift < UInt64.size)
    (rest : List UInt8) :
    readOnto acc shift (groups n ++ rest) = some (acc ||| n.toUInt64 <<< shift.toUInt64, rest) := by
  induction n using Nat.strongRecOn generalizing acc shift with
  | ind n ih =>
    rw [groups]
    split
    · next hlast =>
      have hbyte : n.toUInt8 < 128 := by
        rw [UInt8.lt_iff_toNat_lt, toNat_toUInt8_of_lt (by omega)]
        exact hlast
      have hgroup : (n.toUInt8 &&& 0x7F).toUInt64 = n.toUInt64 := by
        apply UInt64.toNat.inj
        rw [toNat_and_group, toNat_toUInt8_of_lt (by omega), Nat.mod_eq_of_lt hlast]
        simp
        omega
      simp only [List.singleton_append, readOnto, hshift, if_true, (and_top_eq_zero_iff _).2 hbyte, hgroup]
    · next hmore =>
      have hbyte : ¬ (n % 128 + 128).toUInt8 < 128 := by
        rw [UInt8.lt_iff_toNat_lt, toNat_toUInt8_of_lt (by omega)]
        simp
      have hlow : ((n % 128 + 128).toUInt8 &&& 0x7F).toUInt64.toNat = n % 128 := by
        rw [toNat_and_group, toNat_toUInt8_of_lt (by omega)]
        omega
      have hpow : n / 128 * 2 ^ (shift + 7) ≤ n * 2 ^ shift := by
        rw [Nat.pow_add, Nat.mul_comm (2 ^ shift), ← Nat.mul_assoc]
        exact Nat.mul_le_mul_right _ (Nat.div_mul_le_self n 128)
      -- There is a number above the group, so its place is below the sixty-fourth bit.
      have hnext : shift + 7 < 64 := by
        by_contra hout
        have hle : 2 ^ 64 ≤ n / 128 * 2 ^ (shift + 7) :=
          Nat.le_trans (Nat.pow_le_pow_right Nat.two_pos (Nat.not_lt.1 hout)) (Nat.le_mul_of_pos_left _ (by omega))
        have hsize : UInt64.size = 2 ^ 64 := rfl
        omega
      have hrest := ih (n / 128) (by omega) (acc ||| ((n % 128 + 128).toUInt8 &&& 0x7F).toUInt64 <<< shift.toUInt64) hnext (by omega)
      simp only [List.cons_append, readOnto, hshift, if_true, (and_top_eq_zero_iff _).not.2 hbyte, if_false, hrest, UInt64.or_assoc,
        lowGroup_or_shifted hn hnext hlow]

/-- **Reading gives back what was written**, whatever stands behind it. -/
@[simp] theorem read?_write (v : UInt64) (rest : List UInt8) : read? (write v ++ rest) = some (v, rest) := by
  have hfits : v.toNat * 2 ^ 0 < UInt64.size := by
    rw [Nat.pow_zero, Nat.mul_one]
    exact v.toNat_lt
  rw [read?, write, readOnto_groups v.toNat 0 (by decide) hfits rest]
  simp

theorem write_ne_nil (v : UInt64) : write v ≠ [] := by
  rw [write, groups]
  split <;> simp

/-- Nothing is read where no byte ends a number. -/
theorem readOnto_of_endless {bytes : List UInt8} (h : ∀ b ∈ bytes, 128 ≤ b) (acc : UInt64) (shift : Nat) :
    readOnto acc shift bytes = none := by
  induction bytes generalizing acc shift with
  | nil => rfl
  | cons b bs ih =>
    obtain ⟨hb, hbs⟩ := List.forall_mem_cons.1 h
    have hmore : ¬ b &&& 0x80 = 0 := by
      rw [and_top_eq_zero_iff]
      exact UInt8.not_lt.2 hb
    simp only [readOnto, hmore, if_false]
    exact ih hbs _ _

/-- Reading takes the bytes up to the first one that ends a number. -/
theorem exists_readOnto (acc : UInt64) (shift : Nat) {groups : List UInt8} {last : UInt8} (hgroups : ∀ b ∈ groups, 128 ≤ b)
    (hlast : last < 128) (rest : List UInt8) : ∃ v, readOnto acc shift (groups ++ last :: rest) = some (v, rest) := by
  induction groups generalizing acc shift with
  | nil =>
    simp only [List.nil_append, readOnto, (and_top_eq_zero_iff last).2 hlast, if_true]
    exact ⟨_, rfl⟩
  | cons b bs ih =>
    obtain ⟨hb, hbs⟩ := List.forall_mem_cons.1 hgroups
    have hmore : ¬ b &&& 0x80 = 0 := by
      rw [and_top_eq_zero_iff]
      exact UInt8.not_lt.2 hb
    simp only [List.cons_append, readOnto, hmore, if_false]
    exact ih _ _ hbs

/-! ### Signed numbers -/

/-- Shifting the sign bit all the way down spreads it over the word. -/
theorem sshiftRight_63 (b : BitVec 64) : b.sshiftRight 63 = if b.msb then BitVec.allOnes 64 else 0#64 := by
  apply BitVec.eq_of_getLsbD_eq
  intro i hi
  rw [BitVec.getLsbD_sshiftRight]
  by_cases h0 : i = 0
  · subst h0
    cases hm : b.msb <;> simp [BitVec.msb_eq_getLsbD_last] at hm ⊢ <;> simp [hm]
  · have hout : ¬ 63 + i < 64 := by omega
    cases hm : b.msb with
    | false => simp [hout]
    | true =>
      simp only [hout, hi, if_false, if_true, BitVec.getLsbD_allOnes, decide_true]
      simp
      omega

/-- The lowest bit of the folded number is the sign. -/
theorem folded_and_one (b : BitVec 64) :
    (b <<< 1 ^^^ b.sshiftRight 63) &&& 1#64 = if b.msb then 1#64 else 0#64 := by
  rw [sshiftRight_63]
  apply BitVec.eq_of_getLsbD_eq
  intro i hi
  cases b.msb <;> by_cases h0 : i = 0 <;> simp [h0, BitVec.getLsbD_one]

theorem unfolded_folded (b : BitVec 64) :
    (b <<< 1 ^^^ b.sshiftRight 63) >>> 1 ^^^ -((b <<< 1 ^^^ b.sshiftRight 63) &&& 1#64) = b := by
  rw [folded_and_one, sshiftRight_63]
  have htop : b.getLsbD 63 = b.msb := by rw [BitVec.msb_eq_getLsbD_last]
  apply BitVec.eq_of_getLsbD_eq
  intro i hi
  have hneg : -(1#64) = BitVec.allOnes 64 := rfl
  -- Above the top bit the shift brings in zeros; there the sign alone decides.
  rcases Nat.lt_or_ge i 63 with hlt | hge
  · have hin : 1 + i < 64 := by omega
    cases hm : b.msb with
    | false => simp [hin, hi]
    | true =>
      simp only [if_true, hneg, BitVec.getLsbD_xor, BitVec.getLsbD_ushiftRight, BitVec.getLsbD_shiftLeft,
        BitVec.getLsbD_allOnes, hin, hi, decide_true]
      simp
  · obtain rfl : i = 63 := by omega
    rw [htop]
    cases hm : b.msb <;> simp

/-- **Unfolding undoes folding.** -/
@[simp] theorem unzigzag_zigzag (v : Int64) : unzigzag (zigzag v) = v := by
  unfold unzigzag zigzag
  apply Int64.toBitVec.inj
  simp only [Int64.toBitVec_xor, Int64.toBitVec_neg]
  exact unfolded_folded v.toBitVec

theorem folded_unfolded (b : BitVec 64) :
    (b >>> 1 ^^^ -(b &&& 1#64)) <<< 1 ^^^ (b >>> 1 ^^^ -(b &&& 1#64)).sshiftRight 63 = b := by
  have hsign : b &&& 1#64 = if b[0] then 1#64 else 0#64 := by
    apply BitVec.eq_of_getLsbD_eq
    intro i hi
    cases hlow : b[0] <;> by_cases h0 : i = 0 <;> simp [h0, hlow, BitVec.getLsbD_one]
  have hneg : -(1#64) = BitVec.allOnes 64 := rfl
  rw [sshiftRight_63, hsign, BitVec.msb_eq_getLsbD_last]
  apply BitVec.eq_of_getLsbD_eq
  intro i hi
  -- The lowest bit is the sign, and the bits above it come back one place higher.
  rcases Nat.eq_zero_or_pos i with rfl | hpos
  · cases hlow : b[0] <;> simp [hneg, hlow]
  · have hback : 1 + (i - 1) = i := by omega
    have hin : i - 1 < 64 := by omega
    cases hlow : b[0] with
    | false => simp [hi, Nat.ne_of_gt hpos, hback]
    | true =>
      rw [if_pos rfl, hneg]
      generalize hall : BitVec.allOnes 64 = ones
      have hones (j : Nat) (hj : j < 64) : ones[j] = true := by
        subst hall
        exact BitVec.getElem_allOnes j hj
      simp [hi, hones, Nat.ne_of_gt hpos, hback]

/-- **Folding undoes unfolding.** -/
@[simp] theorem zigzag_unzigzag (u : UInt64) : zigzag (unzigzag u) = u := by
  unfold unzigzag zigzag
  apply UInt64.toBitVec_inj.1
  simp only [Int64.toBitVec_toUInt64, Int64.toBitVec_xor]
  exact folded_unfolded u.toBitVec

end Varint

/-! ### Reading at a position -/

/-- The cursor at a position of a byte string. -/
def OperandCursor.startAt (bytes : List UInt8) (position : Nat) : OperandCursor := ⟨bytes.drop position, position⟩

namespace OperandReader

/-- A number is read back where it stands, and the cursor is behind it. -/
theorem word_write (front : List UInt8) (v : UInt64) (back : List UInt8) :
    word (.startAt (front ++ Varint.write v ++ back) front.length) = .ok (v, ⟨back, (front ++ Varint.write v).length⟩) := by
  have hrest : (front ++ Varint.write v ++ back).drop front.length = Varint.write v ++ back := by
    rw [List.append_assoc, List.drop_left]
  simp only [word, next, OperandCursor.startAt, hrest, Varint.read?_write, List.length_append, Nat.add_sub_cancel]

theorem word_of_endless {c : OperandCursor} (h : ∀ b ∈ c.rest, 128 ≤ b) :
    word c = .error (.truncated (c.offset + c.rest.length)) := by
  simp only [word, next, Varint.read?, Varint.readOnto_of_endless h]

theorem exists_word {c : OperandCursor} {groups rest : List UInt8} {last : UInt8} (hrest : c.rest = groups ++ last :: rest)
    (hgroups : ∀ b ∈ groups, 128 ≤ b) (hlast : last < 128) : ∃ v, word c = .ok (v, ⟨rest, c.offset + (groups.length + 1)⟩) := by
  obtain ⟨v, hv⟩ := Varint.exists_readOnto 0 0 hgroups hlast rest
  refine ⟨v, ?_⟩
  simp only [word, next, Varint.read?, hrest, hv, List.length_append, List.length_cons]
  rw [show groups.length + (rest.length + 1) - rest.length = groups.length + 1 by omega]

end OperandReader

/-- Either no byte ends a number, or there is a first one that does. -/
theorem endless_or_exists_last (bytes : List UInt8) : (∀ b ∈ bytes, 128 ≤ b) ∨
    ∃ groups last rest, bytes = groups ++ last :: rest ∧ (∀ b ∈ groups, 128 ≤ b) ∧ last < 128 := by
  induction bytes with
  | nil => exact .inl (by simp)
  | cons b bs ih =>
    by_cases hb : b < 128
    · exact .inr ⟨[], b, bs, rfl, by simp, hb⟩
    · have hle := UInt8.not_lt.1 hb
      rcases ih with hnone | ⟨groups, last, rest, rfl, hgroups, hlast⟩
      · exact .inl (List.forall_mem_cons.2 ⟨hle, hnone⟩)
      · exact .inr ⟨b :: groups, last, rest, rfl, List.forall_mem_cons.2 ⟨hle, hgroups⟩, hlast⟩

/-- **Numbers of variable length are read back** wherever they stand, and signed ones come back out of unsigned ones and the
    other way round. Reading stops behind the first byte that ends a number, and fails only if there is none. -/
theorem OperandReader.numbers_round_trip :
    (∀ (v : UInt64) (front back : List UInt8),
      word (.startAt (front ++ Varint.write v ++ back) front.length) = .ok (v, ⟨back, (front ++ Varint.write v).length⟩)) ∧
    (∀ s : Int64, Varint.unzigzag (Varint.zigzag s) = s) ∧ (∀ u : UInt64, Varint.zigzag (Varint.unzigzag u) = u) ∧
    ∀ c : OperandCursor,
      (∃ v groups last rest, c.rest = groups ++ last :: rest ∧ (∀ b ∈ groups, 128 ≤ b) ∧ last < 128 ∧
        word c = .ok (v, ⟨rest, c.offset + (groups.length + 1)⟩)) ∨
      (∀ b ∈ c.rest, 128 ≤ b) ∧ word c = .error (.truncated (c.offset + c.rest.length)) := by
  refine ⟨fun v front back => word_write front v back, Varint.unzigzag_zigzag, Varint.zigzag_unzigzag, fun c => ?_⟩
  rcases endless_or_exists_last c.rest with hnone | ⟨groups, last, rest, hrest, hgroups, hlast⟩
  · exact .inr ⟨hnone, word_of_endless hnone⟩
  · obtain ⟨v, hv⟩ := exists_word hrest hgroups hlast
    exact .inl ⟨v, groups, last, rest, hrest, hgroups, hlast, hv⟩

/-- Ten bytes hold the largest number; groups beyond the sixty-fourth bit are dropped. -/
example : (Varint.write (-1)).length = 10 ∧ Varint.read? (Varint.write (-1)) = some (-1, []) ∧
    Varint.read? (List.replicate 10 0xFF ++ [0x7F, 5]) = some (-1, [5]) := by
  decide +kernel

end DexShrinker
