import Cascade.Fraction

/-!
# Durations

A span of time in nanoseconds, its reading and its two written forms.

`Duration.parse?` reads a sign and a sequence of numbers with units, such as
`1h30m` or `-1.5s`; a fraction of a unit is reckoned with 53 binary digits and cut to
whole nanoseconds, and the span has to fit in 64 bits.  `Duration.render` writes the
largest unit that fits first.  `Duration.seconds` writes seconds with three places,
rounded twice: first to the nearest number of 53 binary digits and then to the places.
-/

namespace Cascade

/-- A span of time. -/
structure Duration where
  nanoseconds : Int
deriving Repr, DecidableEq, Inhabited

namespace Duration

/-- No time at all. -/
def zero : Duration := ⟨0⟩

instance : Add Duration := ⟨fun a b => ⟨a.nanoseconds + b.nanoseconds⟩⟩

/-! ## Reading -/

/-- The units with their lengths. -/
def units : List (List Char × Nat) :=
  [(['n', 's'], 1), (['u', 's'], 1000), (['µ', 's'], 1000), (['μ', 's'], 1000),
    (['m', 's'], 1000000), (['s'], 1000000000), (['m'], 60000000000), (['h'], 3600000000000)]

/-- The first magnitude that does not fit. -/
def bound : Nat := Nat.pow 2 63

/-- The value of decimal digits. -/
def digitsValue (cs : List Char) : Nat :=
  cs.foldl (fun n c => 10 * n + (c.toNat - '0'.toNat)) 0

/-- The digits behind a point, with the power of ten that they are counted in.  Digits that make the
number too long are left out, and the power is kept to 53 binary digits. -/
def fractionFrom (value : Nat) (scale : Fraction) : List Char → Nat × Fraction
  | [] => (value, scale)
  | c :: cs =>
    let next := 10 * value + (c.toNat - '0'.toNat)
    if (bound - 1) / 10 < value || bound < next then (value, scale)
    else fractionFrom next (scale.mul ⟨10, 1⟩).toBinary cs

/-- The whole nanoseconds of a part of a unit, each step of the reckoning rounded to 53 binary
digits. -/
def fractionOf (length : Nat) (digits : List Char) : Nat :=
  let (value, scale) := fractionFrom 0 ⟨1, 1⟩ digits
  let step := (Fraction.mk length 1).div scale |>.toBinary
  let span := (Fraction.mk value 1).toBinary.mul step |>.toBinary
  span.num / span.den

/-- The sum of the parts of a span, in a word of 64 bits.  Every part takes at least one character,
so the fuel is the length of the text. -/
def partsFrom : Nat → Nat → List Char → Option Nat
  | _, total, [] => some total
  | 0, _, _ :: _ => none
  | fuel + 1, total, cs => do
    let whole := cs.takeWhile Char.isDigit
    let cs := cs.drop whole.length
    let (fraction, cs) :=
      match cs with
      | '.' :: rest => (rest.takeWhile Char.isDigit, rest.dropWhile Char.isDigit)
      | rest => ([], rest)
    if whole.isEmpty && fraction.isEmpty then none
    let unit := cs.takeWhile fun c => c != '.' && !c.isDigit
    let length ← units.lookup unit
    let value := digitsValue whole
    if value > bound / length then none
    let part := value * length + fractionOf length fraction
    let total := (total + part) % (2 * bound)
    if part > bound || total > bound then none
    partsFrom fuel total (cs.drop unit.length)

/-- The magnitude of a span. -/
def magnitude? (cs : List Char) : Option Nat :=
  if cs = ['0'] then some 0
  else if cs = [] then none
  else partsFrom cs.length 0 cs

/-- The span that a text denotes. -/
def parse? (text : String) : Option Duration :=
  match text.toList with
  | '-' :: cs => (magnitude? cs).map fun n => ⟨-(n : Int)⟩
  | '+' :: cs => (magnitude? cs).bind fun n => if n < bound then some ⟨n⟩ else none
  | cs => (magnitude? cs).bind fun n => if n < bound then some ⟨n⟩ else none

/-! ## Writing -/

/-- The decimal digits of a number. -/
def digits (n : Nat) : List Char :=
  Nat.toDigits 10 n

/-- The decimal digits of a number, padded with zeros to a width. -/
def paddedDigits (width n : Nat) : List Char :=
  let ds := digits n
  List.replicate (width - ds.length) '0' ++ ds

/-- A number of units with the places that count. -/
def scaled (places n : Nat) : List Char :=
  let fraction := (paddedDigits places (n % Nat.pow 10 places)).reverse.dropWhile (· == '0') |>.reverse
  digits (n / Nat.pow 10 places) ++ if fraction.isEmpty then [] else '.' :: fraction

/-- The written form of a magnitude. -/
def renderAbs (n : Nat) : List Char :=
  if n = 0 then ['0', 's']
  else if n < 1000 then digits n ++ ['n', 's']
  else if n < 1000000 then scaled 3 n ++ ['µ', 's']
  else if n < 1000000000 then scaled 6 n ++ ['m', 's']
  else
    let minutes := n / 60000000000
    let seconds := scaled 9 (n % 60000000000) ++ ['s']
    if minutes = 0 then seconds
    else if minutes < 60 then digits minutes ++ 'm' :: seconds
    else digits (minutes / 60) ++ 'h' :: digits (minutes % 60) ++ 'm' :: seconds

/-- The span with its units. -/
def render (d : Duration) : String :=
  let body := renderAbs d.nanoseconds.natAbs
  String.ofList (if d.nanoseconds < 0 then '-' :: body else body)

/-! ## Seconds -/

/-- A magnitude in seconds with three places. -/
def secondsAbs (n : Nat) : List Char :=
  let whole := n / 1000000000
  let part := (Fraction.mk (n % 1000000000) 1000000000).toBinary
  let total := (part.addNat whole).toBinary
  let thousandths := roundDiv (1000 * total.num) total.den
  digits (thousandths / 1000) ++ '.' :: paddedDigits 3 (thousandths % 1000)

/-- The span in seconds with three places. -/
def seconds (d : Duration) : String :=
  let body := secondsAbs d.nanoseconds.natAbs
  String.ofList (if d.nanoseconds < 0 then '-' :: body else body)

/-- The span in milliseconds with three places, cut to whole microseconds. -/
def milliseconds (d : Duration) : String :=
  let micros := d.nanoseconds.natAbs / 1000
  String.ofList (digits (micros / 1000) ++ '.' :: paddedDigits 3 (micros % 1000))

end Duration
end Cascade
