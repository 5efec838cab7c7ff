/-
  DexShrinker/NamePool.lean
  =========================
  **Numbering strings: a pool in sixteen shards.**

  The pool gives every string that is put into it a 32-bit number: four bits of
  shard and twenty-eight bits of slot in that shard. A string goes into the shard
  that a hash of its last bytes selects, and keeps its slot for good, so equal
  strings get equal numbers and a number always reads back as its string. A shard
  whose slots are all taken refuses further strings.

  Numbers are compared by the strings they stand for, so what is kept in their order
  does not depend on which string came first.
-/
import DexShrinker.Fault
import Std.Data.TreeMap

namespace DexShrinker

open Std

/-- The number of a pooled string. -/
structure PooledName where
  raw : UInt32
deriving DecidableEq

namespace PooledName

/-- The number of the empty string. -/
def empty : PooledName := ⟨0⟩

/-- The last slot of a shard. -/
def maxSlot : Nat := 0x0FFFFFFF

/-- The number for slot `slot` of shard `shard`. -/
def ofParts (shard slot : Nat) : PooledName := ⟨shard.toUInt32 <<< 28 ||| slot.toUInt32⟩

def shard (n : PooledName) : Nat := (n.raw >>> 28).toNat

def slot (n : PooledName) : Nat := (n.raw &&& 0x0FFFFFFF).toNat

end PooledName

/-- Why a string is refused. -/
inductive PoolError where
  /-- All slots of the shard are taken. -/
  | shardOverflow (shard count : Nat)
deriving DecidableEq

namespace PoolError

def message : PoolError → String
  | shardOverflow shard count =>
    s!"interner shard {shard} exceeded capacity: {count} strings, max is {PooledName.maxSlot}"

/-- The fault of those who do not expect to be refused. -/
def fault : PoolError → Fault
  | shardOverflow _ count => .indexOutOfRange count

end PoolError

/-- Strings in the order of first arrival, and the slot of each. -/
structure PoolShard where
  slots : TreeMap String Nat := ∅
  strings : Array String := #[]

namespace PoolShard

/-- Put `s` into the next slot. -/
def push (shard : PoolShard) (s : String) : PoolShard where
  slots := shard.slots.insert s shard.strings.size
  strings := shard.strings.push s

end PoolShard

/-- Strings by shard, and how many there are. -/
structure NamePool where
  shards : Vector PoolShard 16
  count : Nat

namespace NamePool

/-- The hash that selects a shard: base 31 over at most the last twelve bytes, last
    byte first. Descriptors share their beginnings, so the end tells them apart. -/
def tailHash (s : String) : UInt32 :=
  (s.toUTF8.data.toList.reverse.take 12).foldl (fun h b => h * 31 + b.toUInt32) 0

/-- The shard of a string. -/
def shardOf (s : String) : Fin 16 := ⟨(tailHash s).toNat % 16, Nat.mod_lt _ (by decide)⟩

/-- The pool that holds the empty string only. -/
def bare : NamePool where
  shards := (Vector.replicate 16 {}).set 0 (PoolShard.push {} "")
  count := 1

/-- The number that `s` has in the pool. -/
def existing? (p : NamePool) (s : String) : Option PooledName :=
  (p.shards[shardOf s].slots[s]?).map (.ofParts (shardOf s))

/-- Put `s` into the next slot of its shard. -/
def push (p : NamePool) (s : String) : NamePool where
  shards := p.shards.set (shardOf s) (p.shards[shardOf s].push s)
  count := p.count + 1

/-- The number of `s`, which is put into the pool unless it is there. -/
def tryIntern (p : NamePool) (s : String) : Except PoolError (PooledName × NamePool) :=
  match p.existing? s with
  | some n => .ok (n, p)
  | none =>
    let slot := p.shards[shardOf s].strings.size
    if slot ≤ PooledName.maxSlot then .ok (.ofParts (shardOf s) slot, p.push s)
    else .error (.shardOverflow (shardOf s) slot)

/-- The same for a string that need not be copied. -/
def tryInternOwned (p : NamePool) (s : String) : Except PoolError (PooledName × NamePool) :=
  match p.existing? s with
  | some n => .ok (n, p)
  | none => p.tryIntern s

/-- The number of `s`, for which there is to be a slot. -/
def intern (p : NamePool) (s : String) : Guarded (PooledName × NamePool) :=
  (p.tryIntern s).mapError PoolError.fault

def internOwned (p : NamePool) (s : String) : Guarded (PooledName × NamePool) :=
  (p.tryInternOwned s).mapError PoolError.fault

/-- The string with the given number. -/
def lookup? (p : NamePool) (n : PooledName) : Option String :=
  (p.shards[n.shard]?).bind (·.strings[n.slot]?)

/-- The order of two numbers is that of their strings. -/
def compareNames (p : NamePool) (m n : PooledName) : Option Ordering :=
  if m.raw = n.raw then some .eq
  else do return compare (← p.lookup? m) (← p.lookup? n)

/-- The pool has no string beside the empty one. -/
def isEmpty (p : NamePool) : Bool := p.count ≤ 1

/-- Descriptors and member names that every program uses. -/
def wellKnown : List String :=
  ["V", "Z", "B", "S", "C", "I", "J", "F", "D", "[I", "Ljava/lang/Object;", "Ljava/lang/String;",
    "Ljava/lang/Enum;", "Ljava/lang/Class;", "<init>", "<clinit>", "ordinal", "name", "values", "valueOf",
    "$VALUES"]

/-- The pool to start from, with the well-known strings in it. -/
def initial : Guarded NamePool := wellKnown.foldlM (fun p s => do return (← p.intern s).2) bare

end NamePool

end DexShrinker
