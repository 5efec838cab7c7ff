/-
  DexShrinker/Packed/Varint.lean
  ==============================
  **Integers of variable length.**

  An unsigned 64-bit number is written in groups of seven bits, lowest group first,
  with the top bit set on every byte but the last. A signed number is first folded
  into an unsigned one so that small magnitudes stay short: `0, -1, 1, -2, …` become
  `0, 1, 2, 3, …`.
-/

namespace DexShrinker.Varint

/-- The groups of a number, lowest first. -/
def groups (n : Nat) : List UInt8 :=
  if n < 128 then [n.toUInt8] else (n % 128 + 128).toUInt8 :: groups (n / 128)

/-- The written form of a 64-bit number. -/
def write (v : UInt64) : List UInt8 := groups v.toNat

/-- Read groups on top of `acc`, the next of which goes to bit `shift`, and give the bytes after
    the last group. Groups beyond the sixty-fourth bit are read and dropped; without a last
    byte there is no number. -/
def readOnto (acc : UInt64) (shift : Nat) : List UInt8 → Option (UInt64 × List UInt8)
  | [] => none
  | b :: rest =>
    let acc := if shift < 64 then acc ||| (b &&& 0x7F).toUInt64 <<< shift.toUInt64 else acc
    if b &&& 0x80 = 0 then some (acc, rest) else readOnto acc (shift + 7) rest

/-- Read a number and give the bytes after it. -/
def read? (bytes : List UInt8) : Option (UInt64 × List UInt8) := readOnto 0 0 bytes

theorem length_of_readOnto {acc v : UInt64} {shift : Nat} {bytes rest : List UInt8}
    (h : readOnto acc shift bytes = some (v, rest)) : rest.length < bytes.length := by
  induction bytes generalizing acc shift with
  | nil => simp [readOnto] at h
  | cons b bs ih =>
    simp only [readOnto] at h
    split at h
    · simp_all
    · exact Nat.lt_succ_of_lt (ih h)

/-- Reading uses up at least one byte. -/
theorem length_of_read? {bytes rest : List UInt8} {v : UInt64} (h : read? bytes = some (v, rest)) :
    rest.length < bytes.length := length_of_readOnto h

/-- Fold a signed number into an unsigned one. -/
def zigzag (v : Int64) : UInt64 := ((v <<< 1) ^^^ (v >>> 63)).toUInt64

/-- Unfold a signed number. -/
def unzigzag (u : UInt64) : Int64 := (u >>> 1).toInt64 ^^^ -(u &&& 1).toInt64

end DexShrinker.Varint
