/-
  DexShrinker/Shrink/Options.lean
  ===============================
  **What shrinking does.**

  Every pass can be switched off and has its limits here. The environment may set the
  number of workers and switch passes off; what is set afterwards counts more.

  The environment gives free text. Blanks around it do not count. A switch is on unless it
  plainly says otherwise, and a count is a positive number of at most sixty-four bits
  in decimal digits.
-/
import DexShrinker.Flow.Propagation
import DexShrinker.Merging.Merger
import DexShrinker.Unboxing.Unboxer

namespace DexShrinker

/-! ### Settings given as text -/

namespace Text

/-- The characters with the Unicode property White_Space. -/
def isBlank (c : Char) : Bool :=
  let n := c.toNat
  (0x09 ≤ n && n ≤ 0x0d) || n == 0x20 || n == 0x85 || n == 0xa0 || n == 0x1680 || (0x2000 ≤ n && n ≤ 0x200a)
    || n == 0x2028 || n == 0x2029 || n == 0x202f || n == 0x205f || n == 0x3000

/-- The text without blanks at its ends. -/
def trim (cs : List Char) : List Char :=
  ((cs.dropWhile isBlank).reverse.dropWhile isBlank).reverse

/-- The number that digits write, if all characters are digits. -/
def ofDigits? (cs : List Char) : Option Nat :=
  cs.foldlM (fun n c => if c.isDigit then some (10 * n + (c.toNat - '0'.toNat)) else none) 0

/-- Decimal digits, at least one, with or without a plus sign. -/
def number? (cs : List Char) : Option Nat :=
  match cs with
  | '+' :: c :: rest => ofDigits? (c :: rest)
  | ['+'] => none
  | [] => none
  | cs => ofDigits? cs

/-- A positive number of at most sixty-four bits, with blanks around it or not. -/
def count? (s : String) : Option Nat :=
  (number? (trim s.toList)).filter fun n => 0 < n && n < UInt64.size

/-- Anything but nothing, `0` and `false` in whatever case. -/
def isOn (s : String) : Bool :=
  let cs := trim s.toList
  !(cs.isEmpty || cs == ['0'] || cs.map Char.toLower == "false".toList)

end Text

/-! ### Options -/

/-- Which passes run, and how far they go. -/
structure Options where
  /-- The number of workers, if it is fixed. No result depends on it. -/
  jobs : Option Nat := none
  mergesClasses : Bool := true
  /-- Larger groups of classes are split. -/
  maxGroupSize : Nat := Merging.defaultMaxGroupSize
  unboxesEnums : Bool := true
  /-- Look for no second reason against an enum. -/
  unboxingEarlyExit : Bool := false
  propagatesArguments : Bool := true
  /-- Places with more sources are given up on. -/
  maxInFlow : Nat := FlowStates.defaultMaxInFlow
  /-- Check after every pass that the lens leads back to the first names. -/
  checksLens : Bool := false
deriving DecidableEq

/-- One choice. -/
inductive Setting where
  | jobs (count : Nat)
  | mergesClasses (isOn : Bool)
  | maxGroupSize (size : Nat)
  | unboxesEnums (isOn : Bool)
  | unboxingEarlyExit (isOn : Bool)
  | propagatesArguments (isOn : Bool)
  | maxInFlow (size : Nat)
  | checksLens (isOn : Bool)
deriving DecidableEq

namespace Options

/-- Make a choice. -/
def set (o : Options) : Setting → Options
  | .jobs n => { o with jobs := some n }
  | .mergesClasses b => { o with mergesClasses := b }
  | .maxGroupSize n => { o with maxGroupSize := n }
  | .unboxesEnums b => { o with unboxesEnums := b }
  | .unboxingEarlyExit b => { o with unboxingEarlyExit := b }
  | .propagatesArguments b => { o with propagatesArguments := b }
  | .maxInFlow n => { o with maxInFlow := n }
  | .checksLens b => { o with checksLens := b }

/-- The choices an environment makes. A number of workers that is none is passed over. -/
def environmentSettings (lookup : String → Option String) : List Setting :=
  let off (name : String) (s : Setting) : List Setting := if (lookup name).any Text.isOn then [s] else []
  (((lookup "PARE_JOBS").bind Text.count?).map Setting.jobs).toList
    ++ off "PARE_DISABLE_HORIZONTAL_CLASS_MERGING" (.mergesClasses false)
    ++ off "PARE_DISABLE_ENUM_UNBOXING" (.unboxesEnums false)
    ++ off "PARE_DISABLE_ARGUMENT_PROPAGATION" (.propagatesArguments false)

/-- The options after the choices of an environment. -/
def withEnvironment (o : Options) (lookup : String → Option String) : Options :=
  (environmentSettings lookup).foldl set o

/-- The options of unboxing. -/
def unboxing (o : Options) : UnboxingOptions := { earlyExit := o.unboxingEarlyExit }

end Options

end DexShrinker
