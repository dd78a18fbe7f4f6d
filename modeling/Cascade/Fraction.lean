import Cascade.Decimal

/-!
# Fractions and numbers of 53 binary digits

A measured quantity is kept to 53 binary digits: `Fraction.toBinary` rounds to the
nearest number with so many, and `Fraction.shortest` gives the fewest decimal digits
that round to the same number again.
-/

namespace Cascade

/-- The nearest whole number to a quotient; a half goes to the even neighbour. -/
def roundDiv (num den : Nat) : Nat :=
  let q := num / den
  let r := num % den
  if 2 * r > den || (2 * r == den && q % 2 == 1) then q + 1 else q

/-- A fraction with a positive denominator. -/
structure Fraction where
  num : Nat
  den : Nat
deriving Repr, DecidableEq

namespace Fraction

/-- The sum of a whole number and a fraction. -/
def addNat (f : Fraction) (n : Nat) : Fraction :=
  ⟨f.num + n * f.den, f.den⟩

/-- The product of two fractions. -/
def mul (f g : Fraction) : Fraction :=
  ⟨f.num * g.num, f.den * g.den⟩

/-- The quotient of two fractions. -/
def div (f g : Fraction) : Fraction :=
  ⟨f.num * g.den, f.den * g.num⟩

/-- The fractions have the same value. -/
def same (f g : Fraction) : Bool :=
  f.num * g.den == g.num * f.den

/-- The magnitude of a decimal number. -/
def ofDecimal (d : Decimal) : Fraction :=
  ⟨d.coefficient.natAbs * Nat.pow 10 d.exponent.toNat, Nat.pow 10 (-d.exponent).toNat⟩

/-- The nearest fraction whose numerator has 53 binary digits over a power of two. -/
def toBinary (f : Fraction) : Fraction :=
  if f.num = 0 || f.den = 0 then ⟨0, 1⟩
  else
    let up := 54 + Nat.log2 f.den - Nat.log2 f.num
    let down := Nat.log2 f.num - (54 + Nat.log2 f.den)
    let places := if f.num * Nat.pow 2 up / (f.den * Nat.pow 2 down) < Nat.pow 2 54 then 0 else 1
    -- The quotient now has 54 or 55 digits; the last one or two are rounded away.
    let drop := places + 1
    let rounded := roundDiv (f.num * Nat.pow 2 up) (f.den * Nat.pow 2 (down + drop))
    ⟨rounded * Nat.pow 2 (down + drop), Nat.pow 2 up⟩

/-- The number of 53 binary digits nearest to the magnitude of a decimal number.  There is none from
the power 1024 of two on, and what has hundreds of zeros behind the point counts as zero. -/
def binary? (d : Decimal) : Option Fraction :=
  let place := (Nat.toDigits 10 d.coefficient.natAbs).length + d.exponent
  if d.coefficient = 0 || place < -330 then some ⟨0, 1⟩
  else if 309 < place then none
  else
    let f := (ofDecimal d).toBinary
    if f.num < Nat.pow 2 1024 * f.den then some f else none

/-- The place of the first decimal digit of a fraction, counted from the point to the left. -/
def magnitude (f : Fraction) : Int :=
  let guess : Int := (Nat.toDigits 10 f.num).length - (Nat.toDigits 10 f.den).length
  let unit := ofDecimal ⟨1, guess⟩
  if unit.num * f.den ≤ f.num * unit.den then guess + 1 else guess

/-- The decimal numbers of so many digits on both sides of a fraction, the nearer one first. -/
def neighbours (f : Fraction) (digits : Nat) : List Decimal :=
  let exponent := f.magnitude - digits
  let scaled := f.div (ofDecimal ⟨1, exponent⟩)
  let near := roundDiv scaled.num scaled.den
  let below := scaled.num / scaled.den
  [⟨near, exponent⟩, ⟨if near = below then below + 1 else below, exponent⟩]

/-- The decimal number with the fewest digits that rounds to a fraction of 53 binary digits;
seventeen are always enough. -/
def shortest (f : Fraction) : Decimal :=
  let found := (List.range 17).findSome? fun n =>
    (f.neighbours (n + 1)).find? fun d => (ofDecimal d).toBinary.same f
  found.getD ⟨0, 0⟩

end Fraction
end Cascade
