import Cascade.Proofs.ShortForms
import Cascade.Proofs.SingleTokens
import Mathlib.Computability.Language

/-!
# The grammar of numbers

The numeric tokens of a source are the longest texts of a small grammar, and each
text of the grammar is a number.

**Method.**  `NumberGrammar.number` is the grammar as a language, put together by
union, concatenation and repetition, without a scanner.  Its words are the texts of
numerals (`mem_number_iff`).  A numeral that ends before the rest of the source is
the longest one there, since the scanner would read a longer one, too, and gives one
answer only (`longest_of_endsBefore`).

**Results.**
* `Covers.exists_numeral`: a numeric token is spelled by a numeral that ends before
  what follows it.
* `numeric_tokens_longest`: its text is the longest word of the grammar at its place.
-/

open Computability

namespace Cascade
namespace Lexer

/-! ## The grammar -/

namespace NumberGrammar

/-- One character with a property. -/
def one (p : Char → Bool) : Language Char :=
  {u | ∃ c, p c = true ∧ u = [c]}

/-- The words of a language, or nothing. -/
def optional (words : Language Char) : Language Char :=
  1 + words

/-- A plus or a minus. -/
def sign : Language Char :=
  one fun c => c == '+' || c == '-'

/-- At least one digit. -/
def digits : Language Char :=
  one isDigit * (one isDigit)∗

/-- Digits behind a point, perhaps with digits before it. -/
def fraction : Language Char :=
  (one isDigit)∗ * (one (· == '.') * digits)

/-- Digits behind the letter of exponents, perhaps with a sign between. -/
def exponent : Language Char :=
  one (fun c => c == 'e' || c == 'E') * (optional sign * digits)

/-- A number: a sign or none, digits or a fraction, and an exponent or none. -/
def number : Language Char :=
  optional sign * ((digits + fraction) * optional exponent)

end NumberGrammar

open NumberGrammar (one optional digits number)

theorem flatten_map_single (u : List Char) :
    (u.map fun c => [c]).flatten = u := by
  induction u with
  | nil => rfl
  | cons c u ih => rw [List.map_cons, List.flatten_cons, ih, List.singleton_append]

theorem mem_kstar_digit_iff {u : List Char} :
    u ∈ (one isDigit)∗ ↔ ∀ c ∈ u, isDigit c = true := by
  constructor
  · intro h
    obtain ⟨words, rfl, hwords⟩ := Language.mem_kstar.mp h
    intro c hc
    obtain ⟨word, hword, hc⟩ := List.mem_flatten.mp hc
    obtain ⟨d, hd, rfl⟩ := hwords word hword
    rwa [List.mem_singleton.mp hc]
  · intro h
    refine Language.mem_kstar.mpr ⟨u.map fun c => [c], (flatten_map_single u).symm, fun word hword => ?_⟩
    obtain ⟨c, hc, rfl⟩ := List.mem_map.mp hword
    exact ⟨c, h c hc, rfl⟩

theorem mem_digits_iff {u : List Char} :
    u ∈ digits ↔ u ≠ [] ∧ ∀ c ∈ u, isDigit c = true := by
  constructor
  · intro h
    obtain ⟨_, ⟨c, hc, rfl⟩, v, hv, rfl⟩ := Language.mem_mul.mp h
    exact ⟨List.cons_ne_nil c v, List.forall_mem_cons.mpr ⟨hc, mem_kstar_digit_iff.mp hv⟩⟩
  · rintro ⟨hne, hall⟩
    obtain ⟨c, v, rfl⟩ := List.exists_cons_of_ne_nil hne
    obtain ⟨hc, hv⟩ := List.forall_mem_cons.mp hall
    exact Language.append_mem_mul (a := [c]) ⟨c, hc, rfl⟩ (mem_kstar_digit_iff.mpr hv)

theorem mem_optional_sign_iff {u : List Char} :
    u ∈ optional NumberGrammar.sign ↔ ∃ s : Sign, u = s.text := by
  constructor
  · rintro (hnil | ⟨c, hc, rfl⟩)
    · exact ⟨.absent, hnil⟩
    · rcases Bool.or_eq_true_iff.mp hc with hplus | hminus
      · exact ⟨.plus, by rw [beq_iff_eq.mp hplus]; rfl⟩
      · exact ⟨.minus, by rw [beq_iff_eq.mp hminus]; rfl⟩
  · rintro ⟨s, rfl⟩
    cases s with
    | absent => exact .inl rfl
    | plus => exact .inr ⟨'+', rfl, rfl⟩
    | minus => exact .inr ⟨'-', rfl, rfl⟩

theorem mem_exponent_iff {u : List Char} :
    u ∈ NumberGrammar.exponent ↔ ∃ x : Exponent, u = x.text := by
  constructor
  · intro h
    obtain ⟨_, ⟨e, he, rfl⟩, _, hbehind, rfl⟩ := Language.mem_mul.mp h
    obtain ⟨_, hsign, v, hv, rfl⟩ := Language.mem_mul.mp hbehind
    obtain ⟨s, rfl⟩ := mem_optional_sign_iff.mp hsign
    obtain ⟨hne, hdigits⟩ := mem_digits_iff.mp hv
    exact ⟨⟨e, s, v, by simpa using he, hdigits, hne⟩, rfl⟩
  · rintro ⟨x, rfl⟩
    have hletter : [x.letter] ∈ one fun c => c == 'e' || c == 'E' :=
      ⟨x.letter, by simpa using x.isLetter, rfl⟩
    exact Language.append_mem_mul hletter (Language.append_mem_mul
      (mem_optional_sign_iff.mpr ⟨x.sign, rfl⟩)
      (mem_digits_iff.mpr ⟨x.digits_ne_nil, x.isDigit_digits⟩))

theorem mem_optional_exponent_iff {u : List Char} :
    u ∈ optional NumberGrammar.exponent ↔
      ∃ x : Option Exponent, u = x.elim [] Exponent.text := by
  constructor
  · rintro (hnil | hexponent)
    · exact ⟨none, hnil⟩
    · obtain ⟨x, rfl⟩ := mem_exponent_iff.mp hexponent
      exact ⟨some x, rfl⟩
  · rintro ⟨_ | x, rfl⟩
    · exact .inl rfl
    · exact .inr (mem_exponent_iff.mpr ⟨x, rfl⟩)

/-- Digits or a fraction: some digits, and some behind a point. -/
theorem mem_digits_or_fraction_iff {u : List Char} :
    u ∈ digits + NumberGrammar.fraction ↔
      ∃ whole behind : List Char, u = whole ++ fractionText behind ∧
        (∀ c ∈ whole, isDigit c = true) ∧ (∀ c ∈ behind, isDigit c = true) ∧
        (whole ≠ [] ∨ behind ≠ []) := by
  constructor
  · rintro (hdigits | hfraction)
    · obtain ⟨hne, hall⟩ := mem_digits_iff.mp hdigits
      exact ⟨u, [], (List.append_nil u).symm, hall, List.forall_mem_nil _, .inl hne⟩
    · obtain ⟨whole, hwhole, _, hpoint, rfl⟩ := Language.mem_mul.mp hfraction
      obtain ⟨_, ⟨c, hc, rfl⟩, behind, hbehind, rfl⟩ := Language.mem_mul.mp hpoint
      obtain ⟨hne, hall⟩ := mem_digits_iff.mp hbehind
      obtain ⟨d, ds, rfl⟩ := List.exists_cons_of_ne_nil hne
      refine ⟨whole, d :: ds, ?_, mem_kstar_digit_iff.mp hwhole, hall, .inr hne⟩
      rw [beq_iff_eq.mp hc]
      rfl
  · rintro ⟨whole, behind, rfl, hwhole, hbehind, hne⟩
    cases behind with
    | nil =>
        have hdigits := mem_digits_iff.mpr ⟨hne.resolve_right fun h => h rfl, hwhole⟩
        exact .inl ((List.append_nil whole).symm ▸ hdigits)
    | cons d ds =>
        refine .inr (Language.append_mem_mul (mem_kstar_digit_iff.mpr hwhole) ?_)
        exact Language.append_mem_mul (a := ['.']) ⟨'.', rfl, rfl⟩
          (mem_digits_iff.mpr ⟨List.cons_ne_nil d ds, hbehind⟩)

/-- The words of the grammar are the texts of numerals. -/
theorem mem_number_iff {u : List Char} :
    u ∈ number ↔ ∃ n : Numeral, u = n.text := by
  constructor
  · intro h
    obtain ⟨_, hsign, _, hbehind, rfl⟩ := Language.mem_mul.mp h
    obtain ⟨_, hdigits, _, hexponent, rfl⟩ := Language.mem_mul.mp hbehind
    obtain ⟨s, rfl⟩ := mem_optional_sign_iff.mp hsign
    obtain ⟨whole, fraction, rfl, hwhole, hfraction, hne⟩ := mem_digits_or_fraction_iff.mp hdigits
    obtain ⟨x, rfl⟩ := mem_optional_exponent_iff.mp hexponent
    refine ⟨⟨s, whole, fraction, x, hwhole, hfraction, hne⟩, ?_⟩
    simp [Numeral.text, Numeral.exponentText]
  · rintro ⟨n, rfl⟩
    have hdigits : n.whole ++ fractionText n.fraction ∈ digits + NumberGrammar.fraction :=
      mem_digits_or_fraction_iff.mpr
        ⟨n.whole, n.fraction, rfl, n.isDigit_whole, n.isDigit_fraction, n.digits_ne_nil⟩
    have hexponent := mem_optional_exponent_iff.mpr ⟨n.exponent, rfl⟩
    have htext : n.text = n.sign.text ++ (n.whole ++ fractionText n.fraction ++ n.exponentText) := by
      simp [Numeral.text]
    rw [htext]
    exact Language.append_mem_mul (mem_optional_sign_iff.mpr ⟨n.sign, rfl⟩)
      (Language.append_mem_mul hdigits hexponent)

/-! ## The longest numeral -/

/-- The text is the longest word of the language at the start of the other one. -/
structure LongestPrefix (words : Language Char) (cs u : List Char) : Prop where
  front : u <+: cs
  word : u ∈ words
  longest : ∀ v ∈ words, v <+: cs → v.length ≤ u.length

theorem startsExponent_append {u : List Char} (h : startsExponent u = true) (v : List Char) :
    startsExponent (u ++ v) = true := by
  match u, h with
  | e :: s :: rest, h =>
      cases rest with
      | nil =>
          have hdigit : isDigit s = true := by
            simp only [startsExponent, List.head?_nil, Option.any_none, Bool.and_false,
              Bool.or_false, Bool.and_eq_true] at h
            exact h.2
          simp only [startsExponent, hdigit, Bool.true_or, Bool.and_true, List.cons_append] at h ⊢
          exact h
      | cons d ds => exact h

theorem startsFraction_append {u : List Char} (h : startsFraction u = true) (v : List Char) :
    startsFraction (u ++ v) = true := by
  obtain ⟨d, ds, rfl, hd⟩ := startsFraction_cases h
  exact hd

/-- What ends before a text ends before its beginnings. -/
theorem Numeral.EndsBefore.of_append {n : Numeral} {u v : List Char} (h : n.EndsBefore (u ++ v)) :
    n.EndsBefore u where
  digit := by
    cases u with
    | nil => rfl
    | cons c cs => exact h.digit
  exponent hnone := by
    by_contra hstarts
    have hnot := h.exponent hnone
    rw [startsExponent_append (by simpa using hstarts)] at hnot
    cases hnot
  fraction hinteger := by
    by_contra hstarts
    have hnot := h.fraction hinteger
    rw [startsFraction_append (by simpa using hstarts)] at hnot
    cases hnot

theorem Numeral.endsBefore_nil (n : Numeral) :
    n.EndsBefore [] :=
  ⟨rfl, fun _ => rfl, fun _ => rfl⟩

/-- A numeral that ends before the rest is the longest one: a longer one would be read, too. -/
theorem longest_of_endsBefore {n : Numeral} {rest : List Char} (h : n.EndsBefore rest) :
    LongestPrefix number (n.text ++ rest) n.text where
  front := List.prefix_append _ _
  word := mem_number_iff.mpr ⟨n, rfl⟩
  longest := by
    intro v hv hfront
    obtain ⟨m, rfl⟩ := mem_number_iff.mp hv
    rcases List.prefix_or_prefix_of_prefix hfront (List.prefix_append n.text rest) with
      hshort | ⟨u, hlong⟩
    · exact hshort.length_le
    · obtain ⟨w, rfl⟩ : u <+: rest := by
        rwa [← hlong, List.prefix_append_right_inj] at hfront
      have hn := numeral_text n Position.start h.of_append
      have hm := numeral_text m Position.start m.endsBefore_nil
      rw [List.append_nil, ← hlong, hn] at hm
      rw [← hlong, ← (Prod.mk.inj hm).1]

/-! ## Numeric tokens -/

/-- The word for the kind of a number, integers being those without fraction and exponent. -/
def Numeral.kind (n : Numeral) : String :=
  if n.isInteger then "integer" else "number"

theorem Numeral.kind_eq_integer_iff (n : Numeral) :
    n.kind = "integer" ↔ '.' ∉ n.text ∧ 'e' ∉ n.text ∧ 'E' ∉ n.text := by
  have hkind : n.kind = "integer" ↔ n.isInteger = true := by
    unfold kind
    cases n.isInteger <;> decide
  rw [hkind, ← isIntegerText_text]
  simp only [isIntegerText, hasExponent, Bool.and_eq_true, Bool.not_eq_true',
    List.contains_eq_mem, decide_eq_false_iff_not, List.any_eq_false, Bool.or_eq_true, beq_iff_eq,
    not_or]
  constructor
  · rintro ⟨hpoint, hletters⟩
    exact ⟨hpoint, fun h => (hletters _ h).1 rfl, fun h => (hletters _ h).2 rfl⟩
  · rintro ⟨hpoint, hsmall, hcapital⟩
    exact ⟨hpoint, fun c hc => ⟨fun h => hsmall (h ▸ hc), fun h => hcapital (h ▸ hc)⟩⟩

/-- The token has the text of the numeral and says of which kind it is. -/
structure Numeral.NamedBy (n : Numeral) (t : Token) : Prop where
  text : t.text = String.ofList n.text
  kind : t.detail.flags.lookup "type" = some n.kind

/-- A numeric lexeme starts with a numeral, which ends there. -/
theorem Lexeme.exists_numeral {rest u : List Char} {t : Token} (h : Lexeme rest u t)
    (htype : t.type.isNumeric = true) :
    ∃ (n : Numeral) (v : List Char), u = n.text ++ v ∧ n.EndsBefore (v ++ rest) ∧ n.NamedBy t := by
  cases h with
  | @number n p hends => exact ⟨n, [], (List.append_nil _).symm, hends, rfl, rfl⟩
  | @percentage n p => exact ⟨n, ['%'], rfl, n.endsBefore_percent rest, rfl, rfl⟩
  | @dimension n u s p hends hname => exact ⟨n, u, rfl, hends, rfl, rfl⟩
  | @address u s run v address close wellFormed p => cases wellFormed <;> cases htype
  | @string q v s close wellFormed p => cases wellFormed <;> cases htype
  | punctuation hmem =>
      have hall : ∀ d ∈ Output.punctuation, d.2.isNumeric = false := by decide
      exact absurd htype (by simp [hall _ hmem])
  | _ => cases htype

/-- Where the account has a numeric token, a numeral stands. -/
theorem Covers.exists_numeral {before rest : List Char} {tokens : List Token}
    (h : Covers before rest tokens) :
    ∀ t ∈ tokens, t.type.isNumeric = true → ∃ (front behind : List Char) (n : Numeral),
      rest = front ++ (n.text ++ behind) ∧ t.position = Position.behind (before ++ front) ∧
        n.EndsBefore behind ∧ n.NamedBy t := by
  induction h with
  | eof => exact List.forall_mem_singleton.mpr fun htype => absurd htype Bool.false_ne_true
  | @token before gap u rest t ts _ hposition hlexeme _ ih =>
      refine List.forall_mem_cons.mpr ⟨fun htype => ?_, fun s hs htype => ?_⟩
      · obtain ⟨n, v, rfl, hends, hnamed⟩ := hlexeme.exists_numeral htype
        exact ⟨gap, v ++ rest, n, by simp, hposition, hends, hnamed⟩
      · obtain ⟨front, behind, n, rfl, hplace, hends, hnamed⟩ := ih s hs htype
        exact ⟨gap ++ u ++ front, behind, n, by simp, by simpa using hplace, hends, hnamed⟩

/-- A numeral is a token on its own. -/
theorem isToken_numeral (n : Numeral) :
    IsToken n.text ⟨.number, String.ofList n.text, Position.start, .numeral n.isInteger⟩ := by
  have hreadable : Token.Readable
      ⟨.number, String.ofList n.text, Position.start, .numeral n.isInteger⟩ := .number n
  have htext : Output.tokenText false
      ⟨.number, String.ofList n.text, Position.start, .numeral n.isInteger⟩ = n.text := by
    simp [Output.tokenText, Output.numberText]
  have hread := isToken_tokenText hreadable (by simp [Token.stopsBefore, startsName, startsFraction])
  rwa [htext] at hread

/-- Numeric tokens follow the grammar of numbers.  The text of each is the longest number at its
place in the source, and it is called an integer if it has neither a point nor an exponent; and each
number is one token. -/
theorem numeric_tokens_longest (source : String) :
    (∃ text, Normalizes source.toList text ∧ ∀ t ∈ tokenize source, t.type.isNumeric = true →
      ∃ before behind, text = before ++ behind ∧ t.position = Position.behind before ∧
        LongestPrefix number behind t.text.toList ∧
        (t.detail.flags.lookup "type" = some "integer" ↔
          '.' ∉ t.text.toList ∧ 'e' ∉ t.text.toList ∧ 'E' ∉ t.text.toList)) ∧
      ∀ u ∈ number, ∃ isInteger,
        IsToken u ⟨.number, String.ofList u, Position.start, .numeral isInteger⟩ := by
  refine ⟨⟨_, normalizes_normalize _, fun t ht htype => ?_⟩, fun u hu => ?_⟩
  · obtain ⟨before, behind, n, htext, hplace, hends, hnamed⟩ :=
      (covers_tokenize source).exists_numeral t ht htype
    refine ⟨before, n.text ++ behind, htext, hplace, ?_⟩
    rw [hnamed.text, String.toList_ofList, hnamed.kind, Option.some_inj]
    exact ⟨longest_of_endsBefore hends, n.kind_eq_integer_iff⟩
  · obtain ⟨n, rfl⟩ := mem_number_iff.mp hu
    exact ⟨n.isInteger, isToken_numeral n⟩

/-- A second point starts another number, and a letter without digits behind it a unit. -/
example : (tokenize "1.5.5e+x").map (·.text) = ["1.5", ".5", "+", "x", ""] := by
  decide +kernel

end Lexer
end Cascade
