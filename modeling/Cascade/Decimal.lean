/-!
# Decimal numbers

The exact value of a number in a stylesheet: a coefficient times a power of ten.
`Decimal.parse` reads a numeral with an optional sign, point and exponent, and
`Decimal.render` writes the value without an exponent and without zeros that do
not count.  Both are exact; an exponent that needs more than 32 bits is refused.
-/

namespace Cascade

/-- The number `coefficient * 10 ^ exponent`. -/
structure Decimal where
  coefficient : Int
  exponent : Int
deriving Repr, DecidableEq, Inhabited

namespace Decimal

/-- Why a text is not a decimal number; each cause names the text that was read. -/
inductive Fault where
  | exponentTooLarge (text : String)
  | exponentNotNumeric (text : String)
  | manyPoints (text : String)
  | notNumeric (text : String)
deriving Repr, DecidableEq

/-- The wording of a fault. -/
def Fault.message : Fault → String
  | .exponentTooLarge s => "can't convert " ++ s ++ " to decimal: fractional part too long"
  | .exponentNotNumeric s => "can't convert " ++ s ++ " to decimal: exponent is not numeric"
  | .manyPoints s => "can't convert " ++ s ++ " to decimal: too many .s"
  | .notNumeric s => "can't convert " ++ s ++ " to decimal"

/-- The value of a run of decimal digits, read after a value that stands before it. -/
def digitsValue (acc : Nat) (cs : List Char) : Nat :=
  cs.foldl (fun n c => 10 * n + (c.toNat - '0'.toNat)) acc

/-- An integer: an optional sign and at least one digit. -/
def integer? : List Char → Option Int
  | '+' :: cs => if cs ≠ [] ∧ cs.all Char.isDigit then some (digitsValue 0 cs : Int) else none
  | '-' :: cs => if cs ≠ [] ∧ cs.all Char.isDigit then some (-(digitsValue 0 cs : Int)) else none
  | cs => if cs ≠ [] ∧ cs.all Char.isDigit then some (digitsValue 0 cs : Int) else none

/-- Exponents fit in 32 bits. -/
def exponentFits (e : Int) : Bool :=
  -2147483648 ≤ e && e ≤ 2147483647

/-- The value of a numeral. -/
def parse (text : String) : Except Fault Decimal := do
  let cs := text.toList
  let mantissa := cs.takeWhile fun c => c != 'e' && c != 'E'
  let written ←
    match cs.drop mantissa.length with
    | [] => pure 0
    | _ :: digits =>
      match integer? digits with
      | none => throw (.exponentNotNumeric text)
      | some e => if exponentFits e then pure e else throw (.exponentTooLarge text)
  let whole := mantissa.takeWhile (· != '.')
  let fraction := (mantissa.drop whole.length).drop 1
  if fraction.contains '.' then
    throw (.manyPoints (String.ofList mantissa))
  let exponent := written - fraction.length
  match integer? (whole ++ fraction) with
  | none => throw (.notNumeric (String.ofList mantissa))
  | some coefficient =>
    if exponentFits exponent then
      return ⟨coefficient, exponent⟩
    else
      throw (.exponentTooLarge text)

/-- The text without the zeros at its end. -/
def dropTrailingZeros (cs : List Char) : List Char :=
  (cs.reverse.dropWhile (· == '0')).reverse

/-- The digits of a magnitude, with a point before the last `places` of them. -/
def renderAbs (magnitude places : Nat) : List Char :=
  let digits := Nat.toDigits 10 magnitude
  let padded := List.replicate (places + 1 - digits.length) '0' ++ digits
  let whole := padded.take (padded.length - places)
  match dropTrailingZeros (padded.drop (padded.length - places)) with
  | [] => whole
  | fraction => whole ++ '.' :: fraction

/-- The value without an exponent. -/
def render (d : Decimal) : String :=
  let magnitude := d.coefficient.natAbs
  let digits :=
    if magnitude = 0 then
      ['0']
    else if 0 ≤ d.exponent then
      Nat.toDigits 10 magnitude ++ List.replicate d.exponent.toNat '0'
    else
      renderAbs magnitude (-d.exponent).toNat
  String.ofList (if d.coefficient < 0 then '-' :: digits else digits)

/-- The value is zero. -/
def isZero (d : Decimal) : Bool :=
  d.coefficient == 0

end Decimal
end Cascade
