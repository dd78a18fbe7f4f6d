/-!
# Case maps given by shifts

A case map of the character standard moves long runs of letters by one fixed
distance: every letter of the run, or every second one.  This module holds such
a run and the look-up of a character in a table of them.
-/

namespace Cascade
namespace Text

/-- A run of letters that a case map moves by the same distance. -/
structure Shift where
  first : Nat
  last : Nat
  step : Nat
  distance : Int
deriving Repr, DecidableEq

namespace Shift

/-- The letters of a run: from the first to the last, by its step. -/
def covers (s : Shift) (n : Nat) : Bool :=
  s.first ≤ n && n ≤ s.last && (n - s.first) % s.step == 0

/-- Where a run sends one of its letters. -/
def apply (s : Shift) (n : Nat) : Nat :=
  ((n : Int) + s.distance).toNat

/-- The image of a code point: that of the first run that covers it, else itself. -/
def lookup (table : Array Shift) (n : Nat) : Nat :=
  match table.find? (·.covers n) with
  | some s => s.apply n
  | none => n

end Shift

/-- The lower-case form of an ASCII letter; any other character is kept. -/
def asciiLower (c : Char) : Char :=
  if 'A' ≤ c ∧ c ≤ 'Z' then Char.ofNat (c.toNat + 32) else c

end Text
end Cascade
