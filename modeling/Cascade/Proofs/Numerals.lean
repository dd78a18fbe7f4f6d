import Cascade.Token.Lexer
import Mathlib.Data.List.TakeWhile

/-!
# Numerals

The texts that the lexer takes for a number: an optional sign, digits with an
optional fraction, and an optional exponent.

**Method.**  A `Numeral` is a numeral in its parts, with the proof that the parts
are what they have to be.  `Numeral.EndsBefore` says which texts may stand behind
a numeral without becoming a part of it.

**Results.**
* `numeral_text`: the lexer reads a numeral to its end.
* `exists_numeral`: where a number starts, a numeral stands.
-/

namespace Cascade
namespace Lexer

/-! ## Runs of characters -/

theorem takeWhile_append_run {p : Char → Bool} {u rest : List Char} (hu : ∀ c ∈ u, p c = true)
    (hrest : rest.head?.any p = false) :
    (u ++ rest).takeWhile p = u := by
  rw [List.takeWhile_append_of_pos hu]
  cases rest with
  | nil => simp
  | cons c cs => simp_all

theorem dropWhile_append_run {p : Char → Bool} {u rest : List Char} (hu : ∀ c ∈ u, p c = true)
    (hrest : rest.head?.any p = false) :
    (u ++ rest).dropWhile p = rest := by
  rw [List.dropWhile_append_of_pos hu]
  cases rest with
  | nil => simp
  | cons c cs => simp_all

/-- A run that the text behind it does not lengthen is taken as a whole. -/
theorem Input.span_run {p : Char → Bool} {u rest : List Char} (q : Position)
    (hu : ∀ c ∈ u, p c = true) (hrest : rest.head?.any p = false) :
    Input.span ⟨u ++ rest, q⟩ p = (u, ⟨rest, q.afterAll u⟩) := by
  simp only [Input.span, takeWhile_append_run hu hrest, dropWhile_append_run hu hrest]

theorem head?_dropWhile_any {α : Type} (p : α → Bool) (cs : List α) :
    (cs.dropWhile p).head?.any p = false := by
  induction cs with
  | nil => rfl
  | cons c cs ih =>
    rw [List.dropWhile_cons]
    split
    · exact ih
    · simp_all

theorem Input.advance_cons (c : Char) (cs : List Char) (q : Position) :
    Input.advance ⟨c :: cs, q⟩ = ⟨cs, q.after c⟩ := by
  rfl

/-! ## The parts of a numeral -/

/-- The sign of a number. -/
inductive Sign where
  | absent
  | plus
  | minus
deriving Repr, DecidableEq

/-- The sign as it is written. -/
def Sign.text : Sign → List Char
  | .absent => []
  | .plus => ['+']
  | .minus => ['-']

/-- The text starts with an exponent. -/
def startsExponent : List Char → Bool
  | e :: s :: rest =>
    (e == 'e' || e == 'E') &&
      (isDigit s || ((s == '+' || s == '-') && rest.head?.any isDigit))
  | _ => false

/-- The exponent of a number. -/
structure Exponent where
  letter : Char
  sign : Sign
  digits : List Char
  isLetter : letter = 'e' ∨ letter = 'E'
  isDigit_digits : ∀ c ∈ digits, isDigit c = true
  digits_ne_nil : digits ≠ []

/-- The exponent as it is written. -/
def Exponent.text (x : Exponent) : List Char :=
  x.letter :: (x.sign.text ++ x.digits)

/-- The fraction as it is written; there is no point without a digit. -/
def fractionText : List Char → List Char
  | [] => []
  | digits => '.' :: digits

/-- A numeral in its parts. -/
structure Numeral where
  sign : Sign
  whole : List Char
  fraction : List Char
  exponent : Option Exponent
  isDigit_whole : ∀ c ∈ whole, isDigit c = true
  isDigit_fraction : ∀ c ∈ fraction, isDigit c = true
  digits_ne_nil : whole ≠ [] ∨ fraction ≠ []

namespace Numeral

/-- The exponent as it is written. -/
def exponentText (n : Numeral) : List Char :=
  n.exponent.elim [] Exponent.text

/-- The numeral as it is written. -/
def text (n : Numeral) : List Char :=
  n.sign.text ++ n.whole ++ fractionText n.fraction ++ n.exponentText

/-- The numeral has neither a fraction nor an exponent. -/
def isInteger (n : Numeral) : Bool :=
  n.fraction.isEmpty && n.exponent.isNone

/-- The text behind a numeral does not go on with it. -/
structure EndsBefore (n : Numeral) (rest : List Char) : Prop where
  digit : rest.head?.any isDigit = false
  exponent : n.exponent = none → startsExponent rest = false
  fraction : n.isInteger = true → startsFraction rest = false

end Numeral

/-! ## Reading a numeral -/

theorem isDigit_not_sign {c : Char} (h : isDigit c = true) :
    c ≠ '+' ∧ c ≠ '-' ∧ c ≠ '.' ∧ c ≠ 'e' ∧ c ≠ 'E' := by
  refine ⟨?_, ?_, ?_, ?_, ?_⟩ <;> (rintro rfl; exact absurd h (by decide))

theorem startsFraction_cons_of_ne {c : Char} (cs : List Char) (h : c ≠ '.') :
    startsFraction (c :: cs) = false := by
  unfold startsFraction
  split <;> simp_all

theorem exponentPart_of_not_startsExponent {cs : List Char} (p : Position)
    (h : startsExponent cs = false) :
    numeral.exponentPart ⟨cs, p⟩ = ([], ⟨cs, p⟩) := by
  match cs with
  | [] => rfl
  | [_] => rfl
  | e :: s :: rest =>
    simp only [startsExponent, Bool.and_eq_false_iff, Bool.or_eq_false_iff, beq_eq_false_iff_ne] at h
    simp only [numeral.exponentPart]
    rcases h with ⟨he, hE⟩ | ⟨hdigit, hsign⟩
    · simp [he, hE]
    · simp only [hdigit]
      grind

theorem exponentPart_text (x : Exponent) {rest : List Char} (p : Position)
    (h : rest.head?.any isDigit = false) :
    numeral.exponentPart ⟨x.text ++ rest, p⟩ = (x.text, ⟨rest, p.afterAll x.text⟩) := by
  obtain ⟨letter, sign, digits, hletter, hdigits, hne⟩ := x
  obtain ⟨d, ds, rfl⟩ := List.exists_cons_of_ne_nil hne
  have hd : isDigit d = true := hdigits d (List.mem_cons_self ..)
  have hspan : ∀ q, Input.span ⟨d :: (ds ++ rest), q⟩ isDigit =
      (d :: ds, ⟨rest, q.afterAll (d :: ds)⟩) :=
    fun q => Input.span_run q hdigits h
  cases sign with
  | absent =>
    simp [Exponent.text, Sign.text, numeral.exponentPart, hletter, hd, Input.advance_cons, hspan]
  | plus =>
    have hplus : isDigit '+' = false := by decide
    simp [Exponent.text, Sign.text, numeral.exponentPart, hletter, hd, hplus, Input.advance_cons,
      hspan]
  | minus =>
    have hminus : isDigit '-' = false := by decide
    simp [Exponent.text, Sign.text, numeral.exponentPart, hletter, hd, hminus, Input.advance_cons,
      hspan]

/-- The sign at the start of an input. -/
def signPart (i : Input) : List Char × Input :=
  match i.chars with
  | c :: _ => if c = '+' ∨ c = '-' then ([c], i.advance) else ([], i)
  | [] => ([], i)

/-- The fraction at the start of an input. -/
def fractionPart (i : Input) : List Char × Input :=
  if startsFraction i.chars then
    ('.' :: (i.advance.span isDigit).1, (i.advance.span isDigit).2)
  else
    ([], i)

/-- A numeral is read part by part. -/
theorem numeral_eq (i : Input) :
    numeral i =
      let sign := signPart i
      let whole := sign.2.span isDigit
      let fraction := fractionPart whole.2
      let exponent := numeral.exponentPart fraction.2
      (sign.1 ++ whole.1 ++ fraction.1 ++ exponent.1, fraction.1.isEmpty && exponent.1.isEmpty,
        exponent.2) := by
  rfl

theorem signPart_text (s : Sign) {rest : List Char} (p : Position)
    (h : rest.head? ≠ some '+' ∧ rest.head? ≠ some '-') :
    signPart ⟨s.text ++ rest, p⟩ = (s.text, ⟨rest, p.afterAll s.text⟩) := by
  cases s with
  | absent =>
    cases rest with
    | nil => rfl
    | cons c cs => simp_all [signPart, Sign.text]
  | plus => simp [signPart, Sign.text, Input.advance_cons]
  | minus => simp [signPart, Sign.text, Input.advance_cons]

theorem fractionPart_text {digits rest : List Char} (p : Position)
    (hdigits : ∀ c ∈ digits, isDigit c = true) (hrest : rest.head?.any isDigit = false)
    (hfraction : digits = [] → startsFraction rest = false) :
    fractionPart ⟨fractionText digits ++ rest, p⟩ =
      (fractionText digits, ⟨rest, p.afterAll (fractionText digits)⟩) := by
  cases digits with
  | nil => simp [fractionPart, fractionText, hfraction]
  | cons d ds =>
    have hd : isDigit d = true := hdigits d (List.mem_cons_self ..)
    have hspan : Input.span ⟨d :: (ds ++ rest), p.after '.'⟩ isDigit =
        (d :: ds, ⟨rest, (p.after '.').afterAll (d :: ds)⟩) :=
      Input.span_run _ hdigits hrest
    simp [fractionPart, fractionText, startsFraction, hd, Input.advance_cons, hspan]

namespace Numeral

/-- What the lexer reads of a numeral behind its sign. -/
def unsigned (n : Numeral) : List Char :=
  n.whole ++ (fractionText n.fraction ++ n.exponentText)

theorem text_eq (n : Numeral) :
    n.text = n.sign.text ++ n.unsigned := by
  simp [text, unsigned]

/-- The numeral with another sign. -/
def withSign (n : Numeral) (s : Sign) : Numeral :=
  { n with sign := s }

theorem text_withSign (n : Numeral) (s : Sign) :
    (n.withSign s).text = s.text ++ n.unsigned :=
  (n.withSign s).text_eq

theorem EndsBefore.withSign {n : Numeral} {rest : List Char} (h : n.EndsBefore rest) (s : Sign) :
    (n.withSign s).EndsBefore rest :=
  ⟨h.digit, h.exponent, h.fraction⟩

theorem exponentText_head (n : Numeral) {rest : List Char} (h : rest.head?.any isDigit = false) :
    (n.exponentText ++ rest).head?.any isDigit = false := by
  unfold exponentText
  cases n.exponent with
  | none => exact h
  | some x =>
    have hx : isDigit x.letter = false := by
      rcases x.isLetter with hletter | hletter <;> (rw [hletter]; decide)
    simp [Exponent.text, hx]

theorem fraction_head (n : Numeral) {rest : List Char} (h : rest.head?.any isDigit = false) :
    (fractionText n.fraction ++ (n.exponentText ++ rest)).head?.any isDigit = false := by
  cases n.fraction with
  | nil => exact n.exponentText_head h
  | cons d ds =>
    have hpoint : isDigit '.' = false := by decide
    simp [fractionText, hpoint]

theorem exponentPart_numeral (n : Numeral) {rest : List Char} (p : Position) (h : n.EndsBefore rest) :
    numeral.exponentPart ⟨n.exponentText ++ rest, p⟩ =
      (n.exponentText, ⟨rest, p.afterAll n.exponentText⟩) := by
  have hnone := h.exponent
  unfold exponentText at *
  cases hx : n.exponent with
  | none => exact exponentPart_of_not_startsExponent p (hnone hx)
  | some x => exact exponentPart_text x p h.digit

theorem startsFraction_behind (n : Numeral) {rest : List Char} (h : n.EndsBefore rest)
    (hfraction : n.fraction = []) :
    startsFraction (n.exponentText ++ rest) = false := by
  have hinteger := h.fraction
  unfold exponentText
  unfold isInteger at hinteger
  cases hx : n.exponent with
  | none => exact hinteger (by simp [hfraction, hx])
  | some x =>
    have hpoint : x.letter ≠ '.' := by
      rcases x.isLetter with hletter | hletter <;> (rw [hletter]; decide)
    exact startsFraction_cons_of_ne _ hpoint

theorem unsigned_head (n : Numeral) (rest : List Char) :
    (n.unsigned ++ rest).head? ≠ some '+' ∧ (n.unsigned ++ rest).head? ≠ some '-' := by
  unfold unsigned
  cases hwhole : n.whole with
  | cons d ds =>
    have hd := isDigit_not_sign (n.isDigit_whole d (by simp [hwhole]))
    simp [hd.1, hd.2.1]
  | nil =>
    obtain ⟨d, ds, hfraction⟩ :=
      List.exists_cons_of_ne_nil (n.digits_ne_nil.resolve_left (by simp [hwhole]))
    simp [hfraction, fractionText]

theorem isInteger_eq (n : Numeral) :
    ((fractionText n.fraction).isEmpty && n.exponentText.isEmpty) = n.isInteger := by
  unfold isInteger exponentText fractionText
  cases n.fraction <;> cases n.exponent <;> simp [Exponent.text]

end Numeral

/-- The lexer reads a numeral to its end. -/
theorem numeral_text (n : Numeral) {rest : List Char} (p : Position) (h : n.EndsBefore rest) :
    numeral ⟨n.text ++ rest, p⟩ = (n.text, n.isInteger, ⟨rest, p.afterAll n.text⟩) := by
  have hsign := signPart_text n.sign p (n.unsigned_head rest)
  have hwhole := Input.span_run (p.afterAll n.sign.text) n.isDigit_whole (n.fraction_head h.digit)
  have hfraction := fractionPart_text ((p.afterAll n.sign.text).afterAll n.whole)
    n.isDigit_fraction (n.exponentText_head h.digit) (n.startsFraction_behind h)
  have hexponent := n.exponentPart_numeral
    (((p.afterAll n.sign.text).afterAll n.whole).afterAll (fractionText n.fraction)) h
  have htext : n.text ++ rest = n.sign.text ++ (n.unsigned ++ rest) := by
    simp [n.text_eq]
  have hunsigned : n.unsigned ++ rest =
      n.whole ++ (fractionText n.fraction ++ (n.exponentText ++ rest)) := by
    simp [Numeral.unsigned]
  rw [numeral_eq, htext, hsign]
  simp only [hunsigned, hwhole, hfraction, hexponent, n.isInteger_eq]
  simp [Numeral.text]

theorem startsNumber_text (n : Numeral) (rest : List Char) :
    startsNumber (n.text ++ rest) = true := by
  have hunsigned : startsUnsigned (n.unsigned ++ rest) = true := by
    unfold Numeral.unsigned
    cases hwhole : n.whole with
    | cons d ds => simp [startsUnsigned, n.isDigit_whole d (by simp [hwhole])]
    | nil =>
      obtain ⟨d, ds, hfraction⟩ :=
        List.exists_cons_of_ne_nil (n.digits_ne_nil.resolve_left (by simp [hwhole]))
      have hd : isDigit d = true := n.isDigit_fraction d (by simp [hfraction])
      simp [hfraction, fractionText, startsUnsigned, startsFraction, hd]
  have hhead := n.unsigned_head rest
  rw [n.text_eq, List.append_assoc]
  cases n.sign with
  | absent =>
    cases hcs : n.unsigned ++ rest with
    | nil => simp [hcs, startsUnsigned] at hunsigned
    | cons c cs =>
      rw [hcs] at hunsigned hhead
      simp_all [Sign.text, startsNumber]
  | plus => simpa [Sign.text, startsNumber] using hunsigned
  | minus => simpa [Sign.text, startsNumber] using hunsigned

theorem Numeral.text_ne_nil (n : Numeral) :
    n.text ≠ [] := by
  intro hnil
  have hstarts := startsNumber_text n []
  rw [hnil] at hstarts
  cases hstarts

/-! ## Finding a numeral -/

theorem takeWhile_isDigit_cons_ne_nil {d : Char} (cs : List Char) (h : isDigit d = true) :
    (d :: cs).takeWhile isDigit ≠ [] := by
  simp [h]

theorem exists_exponent {cs : List Char} (hcs : cs.head?.any isDigit = false) :
    ∃ (x : Option Exponent) (rest : List Char), cs = x.elim [] Exponent.text ++ rest ∧
      rest.head?.any isDigit = false ∧ (x = none → startsExponent rest = false) := by
  by_cases h : startsExponent cs = true
  · match cs, h with
    | e :: s :: rest, h =>
      simp only [startsExponent, Bool.and_eq_true, Bool.or_eq_true, beq_iff_eq] at h
      obtain ⟨hletter, hdigit | ⟨hsign, hdigit⟩⟩ := h
      · let digits := (s :: rest).takeWhile isDigit
        refine ⟨some ⟨e, .absent, digits, hletter, fun _ hc => List.mem_takeWhile_imp hc,
          takeWhile_isDigit_cons_ne_nil rest hdigit⟩, (s :: rest).dropWhile isDigit, ?_,
          head?_dropWhile_any _ _, by simp⟩
        simp [Exponent.text, Sign.text, digits, List.takeWhile_append_dropWhile]
      · cases rest with
        | nil => simp at hdigit
        | cons d ds =>
          let digits := (d :: ds).takeWhile isDigit
          have hd : isDigit d = true := by simpa using hdigit
          rcases hsign with rfl | rfl
          · refine ⟨some ⟨e, .plus, digits, hletter, fun _ hc => List.mem_takeWhile_imp hc,
              takeWhile_isDigit_cons_ne_nil ds hd⟩, (d :: ds).dropWhile isDigit, ?_,
              head?_dropWhile_any _ _, by simp⟩
            simp [Exponent.text, Sign.text, digits, List.takeWhile_append_dropWhile]
          · refine ⟨some ⟨e, .minus, digits, hletter, fun _ hc => List.mem_takeWhile_imp hc,
              takeWhile_isDigit_cons_ne_nil ds hd⟩, (d :: ds).dropWhile isDigit, ?_,
              head?_dropWhile_any _ _, by simp⟩
            simp [Exponent.text, Sign.text, digits, List.takeWhile_append_dropWhile]
  · exact ⟨none, cs, rfl, hcs, fun _ => by simpa using h⟩

theorem startsFraction_cases {cs : List Char} (h : startsFraction cs = true) :
    ∃ d ds, cs = '.' :: d :: ds ∧ isDigit d = true := by
  unfold startsFraction at h
  split at h
  · exact ⟨_, _, rfl, h⟩
  · simp at h

theorem exists_fraction {cs : List Char} (hcs : cs.head?.any isDigit = false) :
    ∃ digits rest : List Char, cs = fractionText digits ++ rest ∧
      (∀ c ∈ digits, isDigit c = true) ∧ rest.head?.any isDigit = false ∧
      (digits = [] → startsFraction cs = false ∧ rest = cs) := by
  by_cases h : startsFraction cs = true
  · obtain ⟨d, ds, rfl, hd⟩ := startsFraction_cases h
    have hne := takeWhile_isDigit_cons_ne_nil ds hd
    obtain ⟨e, es, hdigits⟩ := List.exists_cons_of_ne_nil hne
    refine ⟨(d :: ds).takeWhile isDigit, (d :: ds).dropWhile isDigit, ?_,
      fun _ hc => List.mem_takeWhile_imp hc, head?_dropWhile_any _ _, fun hnil => absurd hnil hne⟩
    have hsplit := List.takeWhile_append_dropWhile (p := isDigit) (l := d :: ds)
    rw [hdigits] at hsplit ⊢
    exact congrArg ('.' :: ·) hsplit.symm
  · exact ⟨[], cs, rfl, by simp, hcs, fun _ => ⟨by simpa using h, rfl⟩⟩

/-- Where an unsigned number starts, its digits stand. -/
theorem exists_unsigned {cs : List Char} (h : startsUnsigned cs = true) :
    ∃ (n : Numeral) (rest : List Char), n.sign = .absent ∧ cs = n.unsigned ++ rest ∧
      n.EndsBefore rest := by
  obtain ⟨fraction, behind, hfraction, hdigits, hbehind, hnone⟩ :=
    exists_fraction (head?_dropWhile_any isDigit cs)
  obtain ⟨exponent, rest, hexponent, hrest, hends⟩ := exists_exponent hbehind
  have hne : cs.takeWhile isDigit ≠ [] ∨ fraction ≠ [] := by
    cases cs with
    | nil => simp [startsUnsigned] at h
    | cons c cs =>
      by_cases hc : isDigit c = true
      · exact .inl (takeWhile_isDigit_cons_ne_nil cs hc)
      · refine .inr fun hnil => ?_
        have hpoint := (hnone hnil).1
        simp only [List.dropWhile_cons, hc] at hpoint
        simp [startsUnsigned, hc] at h
        simp [h] at hpoint
  refine ⟨⟨.absent, cs.takeWhile isDigit, fraction, exponent, fun _ hc => List.mem_takeWhile_imp hc,
    hdigits, hne⟩, rest, rfl, ?_, hrest, hends, ?_⟩
  · have hsplit := List.takeWhile_append_dropWhile (p := isDigit) (l := cs)
    rw [hfraction, hexponent] at hsplit
    simpa [Numeral.unsigned, Numeral.exponentText] using hsplit.symm
  · intro hinteger
    simp only [Numeral.isInteger, Bool.and_eq_true, List.isEmpty_iff, Option.isNone_iff_eq_none]
      at hinteger
    obtain ⟨hnil, rfl⟩ := hinteger
    obtain ⟨hpoint, hall⟩ := hnone hnil
    rw [← hall, hexponent] at hpoint
    simpa using hpoint

/-- Where a number starts, a numeral stands. -/
theorem exists_numeral {cs : List Char} (h : startsNumber cs = true) :
    ∃ (n : Numeral) (rest : List Char), cs = n.text ++ rest ∧ n.EndsBefore rest := by
  cases cs with
  | nil => simp [startsNumber] at h
  | cons c cs =>
    by_cases hc : c = '+' ∨ c = '-'
    · obtain ⟨n, rest, -, hcs, hends⟩ := exists_unsigned (by simpa [startsNumber, hc] using h)
      rcases hc with rfl | rfl
      · exact ⟨n.withSign .plus, rest, by simp [n.text_withSign, Sign.text, hcs], hends.withSign _⟩
      · exact ⟨n.withSign .minus, rest, by simp [n.text_withSign, Sign.text, hcs], hends.withSign _⟩
    · obtain ⟨n, rest, hsign, hcs, hends⟩ := exists_unsigned (by simpa [startsNumber, hc] using h)
      exact ⟨n, rest, by simpa [Numeral.text_eq, hsign, Sign.text] using hcs, hends⟩

end Lexer
end Cascade
