import Cascade.Proofs.RoundTrip
import Cascade.Proofs.ShortNumbers

/-!
# Short forms of tokens

In the short form of a token list spaces are left out and numbers are rewritten.
Leaving out a space never changes the tokens; rewriting a number does, where the
new text of the number goes on with a neighbour of it.

**Method.**  `shortTokens` are the tokens that the short form is meant to give, and
`numbersApart` tells whether each number among them ends where the next token
begins, and the token before it where it begins.  For all other tokens this
follows from the source: `Screens u` says that nothing behind `u` is seen from in
front of it, so that it does not matter what the rest has become.

**Results.**
* `Lexed.joined_short`: the short tokens of a source are joined if its numbers are
  apart.
* `visibleTokens_formatValues`: then the short form has the tokens of the source, up
  to the spelling of numbers.
* `formatValues_merges_numbers`: without the condition it has not.
-/

namespace Cascade
open Lexer Output

/-! ## Short tokens -/

/-- The numeral is written without a point and without an exponent. -/
def isIntegerText (cs : List Char) : Bool :=
  !cs.contains '.' && !hasExponent cs

theorem point_not_mem_digits {ds : List Char} (h : ∀ c ∈ ds, isDigit c = true) :
    '.' ∉ ds := by
  intro hmem
  exact absurd (h '.' hmem) (by decide)

theorem point_not_mem_sign (s : Sign) :
    '.' ∉ s.text := by
  cases s <;> decide

theorem point_mem_fractionText (ds : List Char) :
    '.' ∈ fractionText ds ↔ ds ≠ [] := by
  cases ds <;> simp [fractionText]

theorem point_not_mem_exponent (x : Exponent) :
    '.' ∉ x.text := by
  simp only [Exponent.text, List.mem_cons, List.mem_append, not_or]
  refine ⟨?_, point_not_mem_sign _, point_not_mem_digits x.isDigit_digits⟩
  rcases x.isLetter with hletter | hletter <;> (rw [hletter]; decide)

theorem isIntegerText_text (n : Numeral) :
    isIntegerText n.text = n.isInteger := by
  have hexponent : '.' ∉ n.exponentText := by
    unfold Numeral.exponentText
    cases n.exponent with
    | none => simp
    | some x => exact point_not_mem_exponent x
  have hpoint : n.text.contains '.' = !n.fraction.isEmpty := by
    rw [Bool.eq_iff_iff]
    simp [Numeral.text, point_not_mem_sign, point_not_mem_digits n.isDigit_whole,
      point_mem_fractionText, hexponent]
  rw [isIntegerText, hpoint, hasExponent_text, Numeral.isInteger]
  cases n.exponent <;> simp

/-- The token in its short form: a single space, a short number or the token as it is. -/
def Token.shortened (t : Token) : Token :=
  let text := shortenNumber t.text
  match t.detail with
  | .numeral _ =>
    { t with text := text, position := Position.none, detail := .numeral (isIntegerText text.toList) }
  | .measure _ unit =>
    { t with text := text, position := Position.none,
             detail := .measure (isIntegerText text.toList) unit }
  | _ => t.spaced

theorem shortened_number (n : Numeral) (type : TokenType) (p : Position) :
    ∃ m : Numeral, m.value = n.value ∧
      Token.shortened ⟨type, String.ofList n.text, p, .numeral n.isInteger⟩ =
        ⟨type, String.ofList m.text, Position.none, .numeral m.isInteger⟩ := by
  obtain ⟨m, htext, hvalue⟩ := shortenNumber_numeral n
  refine ⟨m, hvalue, ?_⟩
  rw [← isIntegerText_text m, ← htext]
  simp [Token.shortened]

theorem shortened_dimension (n : Numeral) (unit : String) (p : Position) :
    ∃ m : Numeral, m.value = n.value ∧
      Token.shortened ⟨.dimension, String.ofList n.text, p, .measure n.isInteger unit⟩ =
        ⟨.dimension, String.ofList m.text, Position.none, .measure m.isInteger unit⟩ := by
  obtain ⟨m, htext, hvalue⟩ := shortenNumber_numeral n
  refine ⟨m, hvalue, ?_⟩
  rw [← isIntegerText_text m, ← htext]
  simp [Token.shortened]

theorem shortened_of_not_numeric {t : Token} (ht : t.Readable) (h : t.type.isNumeric = false) :
    t.shortened = t.spaced := by
  cases ht with
  | number n => exact absurd h (by simp [TokenType.isNumeric])
  | percentage n => exact absurd h (by simp [TokenType.isNumeric])
  | dimension n _ _ => exact absurd h (by simp [TokenType.isNumeric])
  | _ => rfl

/-- The second token is the first one but for the spelling of its number. -/
inductive Token.Respelled : Token → Token → Prop
  | same (t : Token) : Respelled t t
  | number (type : TokenType) (n m : Numeral) : n.value = m.value →
      Respelled ⟨type, String.ofList n.text, Position.none, .numeral n.isInteger⟩
        ⟨type, String.ofList m.text, Position.none, .numeral m.isInteger⟩
  | dimension (unit : String) (n m : Numeral) : n.value = m.value →
      Respelled ⟨.dimension, String.ofList n.text, Position.none, .measure n.isInteger unit⟩
        ⟨.dimension, String.ofList m.text, Position.none, .measure m.isInteger unit⟩

/-- A visible token is readable in its short form, which only respells its number. -/
theorem Token.Readable.shortened {t : Token} (ht : t.Readable) (hvisible : t.isWhitespace = false) :
    t.shortened.Readable ∧ Token.Respelled t.unplaced t.shortened := by
  cases hnumeric : t.type.isNumeric with
  | false =>
    rw [shortened_of_not_numeric ht hnumeric, Token.spaced_of_visible hvisible]
    exact ⟨ht.unplaced, .same _⟩
  | true =>
    cases ht with
    | number n =>
      obtain ⟨m, hvalue, hshort⟩ := shortened_number n _ _
      rw [hshort]
      exact ⟨.number m, .number _ n m hvalue.symm⟩
    | percentage n =>
      obtain ⟨m, hvalue, hshort⟩ := shortened_number n _ _
      rw [hshort]
      exact ⟨.percentage m, .number _ n m hvalue.symm⟩
    | dimension n hunit hstart =>
      obtain ⟨m, hvalue, hshort⟩ := shortened_dimension n _ _
      rw [hshort]
      exact ⟨.dimension m hunit hstart, .dimension _ n m hvalue.symm⟩
    | punctuation hc =>
      have hall : ∀ e ∈ Output.punctuation, e.2.isNumeric = false := by decide
      simp [hall _ hc] at hnumeric
    | _ => simp [TokenType.isNumeric] at hnumeric

/-- The text of the short form of a token is its text in the short form. -/
theorem tokenText_shortened {t : Token} (ht : t.Readable) :
    tokenText false t.shortened = tokenText true t := by
  cases ht with
  | number n => simp [Token.shortened, tokenText, numberText]
  | percentage n => simp [Token.shortened, tokenText, numberText]
  | dimension n _ _ => simp [Token.shortened, tokenText, numberText, Token.unit]
  | punctuation hc =>
    rw [tokenText_punctuation hc]
    exact (tokenText_spaced _).trans (tokenText_punctuation hc)
  | _ => exact tokenText_spaced _

/-! ## Texts behind which nothing is seen -/

/-- Nothing behind the text is seen from in front of it. -/
def Screens (u : List Char) : Prop :=
  ∀ cs x y : List Char, LooksLike cs (u ++ x) → LooksLike cs (u ++ y)

theorem LooksLike.of_hides {c : Char} {cs x y : List Char} (hc : hides c y = true)
    (h : LooksLike cs (c :: x)) :
    LooksLike cs (c :: y) := by
  cases h with
  | cons _ _ => exact .hidden hc
  | hidden _ => exact .hidden hc
  | hyphens => exact .hidden hc
  | blanks => exact absurd hc (by simp [hides, isBlank])
  | address hback hstart => exact .address hback hstart

theorem screens_of_hides {c : Char} (u : List Char) (hc : ∀ y, hides c y = true) :
    Screens (c :: u) :=
  fun _ _ y h => h.of_hides (hc (u ++ y))

theorem Screens.append {u : List Char} (h : Screens u) (v : List Char) :
    Screens (u ++ v) := by
  intro cs x y halike
  rw [List.append_assoc] at halike ⊢
  exact h _ _ (v ++ y) halike

theorem hides_of_isNameStart {c : Char} (h : isNameStart c = true) (y : List Char) :
    hides c y = true := by
  have hmarked := (isMarked_of_isNameStart h).1
  simp only [isMarked, Bool.or_eq_false_iff] at hmarked
  unfold hides
  split
  · exact absurd h (by decide)
  · exact absurd h (by decide)
  · exact absurd h (by decide)
  · exact absurd h (by decide)
  · rw [hmarked.1.1]
    simp only [Bool.not_false, Bool.true_and, bne_iff_ne]
    rintro rfl
    exact absurd h (by decide)

theorem screens_backslash (u : List Char) :
    Screens ('\\' :: u) := by
  intro cs x y h
  have hescape : ∀ {es fs}, ¬ LooksLike es ('\\' :: fs) := by
    intro es fs h
    cases h with
    | cons hc _ => exact hc rfl
    | hidden hc => exact ne_backslash_of_hides hc rfl
  exact absurd h hescape

/-- A name behind a hyphen is seen to be one, whatever follows it. -/
theorem screens_hyphen {d : Char} {u : List Char} (hd : isNameStart d = true ∨ d = '-' ∨ d = '\\')
    (hname : ∀ x, startsName ('-' :: d :: (u ++ x)) = true) :
    Screens ('-' :: d :: u) := by
  intro cs x y h
  cases h with
  | @cons _ cs _ _ htail =>
    rcases hd with hstart | rfl | rfl
    · exact .cons (by decide) (screens_of_hides u (hides_of_isNameStart hstart) _ _ y htail)
    · have hhead := htail.char (c := '-') (by decide) (by decide) rfl
      cases cs with
      | nil => simp at hhead
      | cons c cs =>
        rw [(Option.some.inj hhead : c = '-')]
        exact .hyphens
    · exact .cons (by decide) (screens_backslash u _ _ y htail)
  | hidden hc =>
    have hvisible : startsName ('-' :: (d :: (u ++ x))) = false := by simpa [hides] using hc
    simp [hname x] at hvisible
  | hyphens => exact .hyphens

theorem screens_escapeIdent {s : List Char} (hs : NullFree s) (hne : s ≠ []) :
    Screens (escapeIdent s) := by
  rcases escapeIdent_cases hne with ⟨rfl, htext⟩ | ⟨c, t, rfl, htext⟩ | ⟨c, t, hc, rfl, htext⟩
  · rw [htext]
    exact screens_backslash _
  · have hstart := startsName_escapeIdent hs hne
    rw [htext] at hstart ⊢
    rcases escapeStartChar_cases (hs c (by simp)) with ⟨hname, hdigit, hchar⟩ | ⟨u, hchar, hu⟩
    · rw [hchar] at hstart ⊢
      refine screens_hyphen ?_ hstart
      by_cases hhyphen : c = '-'
      · exact .inr (.inl hhyphen)
      · exact .inl (isNameStart_of_not_digit hname hdigit hhyphen)
    · rw [hchar] at hstart ⊢
      exact screens_hyphen (.inr (.inr rfl)) hstart
  · rw [htext]
    refine Screens.append ?_ _
    rcases escapeStartChar_cases (hs c (by simp)) with ⟨hname, hdigit, hchar⟩ | ⟨u, hchar, hu⟩
    · rw [hchar]
      exact screens_of_hides [] (hides_of_isNameStart (isNameStart_of_not_digit hname hdigit hc))
    · rw [hchar]
      exact screens_backslash u

theorem isBlank_of_isDelimChar {c : Char} (h : isDelimChar c = true) :
    isBlank c = false := by
  simp only [isDelimChar, Bool.and_eq_true, Bool.or_eq_true, Bool.not_eq_true'] at h
  rcases h.2 with hmarked | hspecial
  · simp only [isMarked, Bool.or_eq_false_iff] at hmarked
    exact hmarked.1.1
  · simp only [List.contains_eq_mem, List.mem_cons, List.not_mem_nil, or_false, decide_eq_true_eq]
      at hspecial
    rcases hspecial with rfl | rfl | rfl | rfl <;> decide

/-- A delimiter that ends before a text hides it, but for two hyphens behind an exclamation mark. -/
theorem hides_of_delimStops {c : Char} {y : List Char} (hc : isDelimChar c = true)
    (hstop : delimStops c y = true) (hcdo : c = '!' → ['-', '-'].isPrefixOf y = false) :
    hides c y = true := by
  unfold hides
  split
  · exact hstop
  · have hunsigned : startsUnsigned y = false := by simpa [delimStops] using hstop
    cases y with
    | nil => rfl
    | cons d ds =>
      simp only [startsUnsigned, Bool.or_eq_false_iff] at hunsigned
      simpa using hunsigned.1
  · simp only [delimStops, Bool.and_eq_true] at hstop
    exact hstop.2
  · rw [hcdo rfl]
    rfl
  · have hback : c ≠ '\\' := by
      rintro rfl
      exact absurd hc (by decide)
    simp [isBlank_of_isDelimChar hc, hback]

theorem screens_punctuation {c : Char} {type : TokenType} (h : (c, type) ∈ Output.punctuation) :
    Screens [c] := by
  have hall : ∀ e ∈ Output.punctuation, ∀ y, hides e.1 y = true := by
    simp only [Output.punctuation, List.forall_mem_cons, List.not_mem_nil]
    refine ⟨?_, ?_, ?_, ?_, ?_, ?_, ?_, ?_, ?_, by simp⟩ <;> exact fun _ => rfl
  exact screens_of_hides [] (hall _ h)

/-- What stands behind a token is not seen from in front of it, if the token ends before it. -/
theorem LooksLike.behind {t : Token} {cs x y : List Char} (ht : t.Readable)
    (hvisible : t.isWhitespace = false) (hnumeric : t.type.isNumeric = false)
    (hstop : t.stopsBefore y = true)
    (hcdo : t.text = "!" → t.type = .delim → ['-', '-'].isPrefixOf y = false)
    (h : LooksLike cs (tokenText false t ++ x)) :
    LooksLike cs (tokenText false t ++ y) := by
  have hscreens : t.type ≠ .delim → Screens (tokenText false t) := by
    intro hdelim
    cases ht with
    | space => exact absurd hvisible (by simp [Token.isWhitespace])
    | ident hs hne => simpa [tokenText] using screens_escapeIdent hs hne
    | function hs hne => simpa [tokenText] using (screens_escapeIdent hs hne).append ['(']
    | atKeyword hs hne => exact screens_of_hides _ fun _ => rfl
    | idHash hs hne => exact screens_of_hides _ fun _ => rfl
    | hash hs hne _ => exact screens_of_hides _ fun _ => rfl
    | string q hs => exact screens_of_hides _ (hides_quote q)
    | url hs => exact screens_of_hides _ fun _ => rfl
    | number n => exact absurd hnumeric (by simp [TokenType.isNumeric])
    | percentage n => exact absurd hnumeric (by simp [TokenType.isNumeric])
    | dimension n _ _ => exact absurd hnumeric (by simp [TokenType.isNumeric])
    | delim hc => exact absurd rfl hdelim
    | punctuation hc =>
      rw [tokenText_punctuation hc]
      exact screens_punctuation hc
    | cdo =>
      have hchars : Screens ['<', '!', '-', '-'] := screens_of_hides _ fun _ => rfl
      simpa [tokenText] using hchars
    | cdc =>
      have hchars : Screens ['-', '-', '>'] := screens_hyphen (.inr (.inl rfl)) fun _ => rfl
      simpa [tokenText] using hchars
  by_cases hdelim : t.type = .delim
  · cases ht with
    | @delim c p hc =>
      have hends : Output.delimStops c y = true := by simpa [Token.stopsBefore] using hstop
      have hhides := hides_of_delimStops hc hends fun hmark => hcdo (by simp [hmark]) rfl
      have hchars : tokenText false ⟨.delim, String.ofList [c], p, .none⟩ = [c] := by
        simp [tokenText]
      rw [hchars] at h ⊢
      exact h.of_hides hhides
    | punctuation hc =>
      have hall : ∀ e ∈ Output.punctuation, e.2 ≠ .delim := by decide
      exact absurd hdelim (hall _ hc)
    | _ => simp at hdelim
  · exact hscreens hdelim _ _ _ h

/-! ## Spaces that are left out -/

/-- The characters that no token but a function goes on with. -/
def gaps : List Char :=
  [' ', ',', ':', ';', ')', ']', '\x7d']

theorem delimStops_gap {x c : Char} (hc : c ∈ '(' :: gaps) (y : List Char) :
    delimStops x (c :: y) = true := by
  simp only [gaps, List.mem_cons, List.not_mem_nil, or_false] at hc
  unfold delimStops
  rcases hc with rfl | rfl | rfl | rfl | rfl | rfl | rfl | rfl <;> split <;> rfl

theorem stopsBefore_gap {a : Token} {c : Char} (ha : a.Readable) (hvisible : a.isWhitespace = false)
    (hnumeric : a.type.isNumeric = false) (hfunction : a.type ≠ .function) (hc : c ∈ gaps)
    (y : List Char) :
    a.stopsBefore (c :: y) = true := by
  have hname : nameGoesOn (c :: y) = false := by
    simp only [gaps, List.mem_cons, List.not_mem_nil, or_false] at hc
    rcases hc with rfl | rfl | rfl | rfl | rfl | rfl | rfl <;> rfl
  have hne : c ≠ '(' ∧ c ≠ '>' := by
    have hall : gaps.all (fun d => d != '(' && d != '>') = true := by decide
    simpa using List.all_eq_true.mp hall c hc
  cases ha with
  | space => exact absurd hvisible (by simp [Token.isWhitespace])
  | ident => simp [Token.stopsBefore, hname, hne]
  | function => exact absurd rfl hfunction
  | number => exact absurd hnumeric (by simp [TokenType.isNumeric])
  | percentage => exact absurd hnumeric (by simp [TokenType.isNumeric])
  | dimension => exact absurd hnumeric (by simp [TokenType.isNumeric])
  | delim => simpa [Token.stopsBefore] using delimStops_gap (List.mem_cons_of_mem _ hc) y
  | punctuation hmem =>
    have hall : ∀ e ∈ Output.punctuation, ∀ (p : Position) (rest : List Char),
        Token.stopsBefore ⟨e.2, String.ofList [e.1], p, .none⟩ rest = true := by
      simp [Output.punctuation, Token.stopsBefore]
    exact hall _ hmem _ _
  | _ => simp [Token.stopsBefore, hname]

/-- The text of a token that needs no space before it starts with a gap. -/
theorem tokenText_endsRun {t : Token} (ht : t.Readable) (h : endsRun (.token t) = true) :
    ∃ c ∈ gaps, tokenText false t = [c] := by
  cases ht with
  | @punctuation c type p hc =>
    rw [tokenText_punctuation hc]
    refine ⟨c, ?_, rfl⟩
    have hall : ∀ e ∈ Output.punctuation, endsRun (.token ⟨e.2, String.ofList [e.1], Position.none,
        .none⟩) = true → e.1 ∈ gaps := by decide
    exact hall _ hc h
  | _ => exact absurd h (by simp [endsRun, Value.hasType])

theorem tokenText_openParen {t : Token} (ht : t.Readable) (h : t.type = .openParen) :
    tokenText false t = ['('] := by
  cases ht with
  | @punctuation c type p hc =>
    have hall : ∀ e ∈ Output.punctuation, e.2 = .openParen → e.1 = '(' := by decide
    rw [tokenText_punctuation hc, show c = '(' from hall _ hc h]
  | _ => simp at h

/-- A token that needs no space behind it ends before any text, unless it is a function. -/
theorem stopsBefore_of_opensRun {a : Token} (h : opensRun (.token a) = true)
    (hfunction : a.type ≠ .function) (y : List Char) :
    a.stopsBefore y = true := by
  simp only [opensRun, Value.hasType, List.any_cons, List.any_nil, Bool.or_false, Bool.or_eq_true,
    beq_iff_eq] at h
  rcases h with h | h | h | h | h | h | h <;> simp_all [Token.stopsBefore]

theorem not_blank_of_startsName {cs : List Char} (h : startsName cs = true) :
    cs.head?.any isBlank = false := by
  cases cs with
  | nil => rfl
  | cons c cs =>
    by_cases hblank : isBlank c = true
    · simp only [isBlank, Bool.or_eq_true, beq_iff_eq] at hblank
      rcases hblank with (rfl | rfl) | rfl <;> exact absurd h (by simp [startsName, isNameStart])
    · simpa using hblank

theorem not_blank_of_startsNumber {cs : List Char} (h : startsNumber cs = true) :
    cs.head?.any isBlank = false := by
  cases cs with
  | nil => rfl
  | cons c cs =>
    by_cases hblank : isBlank c = true
    · simp only [isBlank, Bool.or_eq_true, beq_iff_eq] at hblank
      rcases hblank with (rfl | rfl) | rfl <;>
        exact absurd h (by simp [startsNumber, startsUnsigned, isDigit, startsFraction])
    · simpa using hblank

/-- The text of a visible token starts with no blank. -/
theorem tokenText_head_not_blank {t : Token} (ht : t.Readable) (hvisible : t.isWhitespace = false)
    (y : List Char) :
    (tokenText false t ++ y).head?.any isBlank = false := by
  cases ht with
  | space => exact absurd hvisible (by simp [Token.isWhitespace])
  | ident hs hne =>
    simpa [tokenText] using not_blank_of_startsName (startsName_escapeIdent hs hne y)
  | function hs hne =>
    simpa [tokenText] using not_blank_of_startsName (startsName_escapeIdent hs hne ('(' :: y))
  | string q hs =>
    have hquote : isBlank q.char = false := by cases q <;> decide
    simpa [tokenText, quoteString, Token.quote] using hquote
  | number n =>
    simpa [tokenText, numberText] using not_blank_of_startsNumber (startsNumber_text n y)
  | percentage n =>
    simpa [tokenText, numberText] using not_blank_of_startsNumber (startsNumber_text n ('%' :: y))
  | @dimension unit _ n hunit hstart =>
    simpa [tokenText, numberText, Token.unit] using
      not_blank_of_startsNumber (startsNumber_text n (escapeName unit ++ y))
  | delim hc => simpa [tokenText] using isBlank_of_isDelimChar hc
  | punctuation hc =>
    have hall : ∀ e ∈ Output.punctuation, isBlank e.1 = false := by decide
    rw [tokenText_punctuation hc]
    exact hall _ hc
  | _ => simp [tokenText, isBlank]

/-! ## Numbers that stay apart -/

/-- Each number, and each token before a number, ends where the text of the next token begins. -/
def numbersApart : List Token → Bool
  | [] => true
  | t :: ts =>
    (!(t.type.isNumeric || ts.head?.any fun u => u.type.isNumeric) || t.stopsBefore (textOf ts)) &&
      numbersApart ts

/-- The short forms of the tokens that are written behind a token. -/
def shortAfter (a : Token) (ts : List Token) : List Token :=
  (writtenAfter true (some a) ts).map Token.shortened

/-- The token, in its short form, ends before a text, and it sees of it what it saw in the source. -/
structure Meets (a : Token) (cs rest : List Char) : Prop where
  stops : a.shortened.stopsBefore rest = true
  seen : a.type = .delim → LooksLike cs rest ∨ ['-', '-'].isPrefixOf rest = false

theorem shortened_type (t : Token) :
    t.shortened.type = t.type := by
  unfold Token.shortened
  cases t.detail <;> rfl

theorem shortened_isWhitespace (t : Token) :
    t.shortened.isWhitespace = t.isWhitespace := by
  rw [Token.isWhitespace, shortened_type, Token.isWhitespace]

theorem stopsBefore_shortened {a : Token} (ha : a.Readable) (hvisible : a.isWhitespace = false)
    (hnumeric : a.type.isNumeric = false) (y : List Char) :
    a.shortened.stopsBefore y = a.stopsBefore y := by
  rw [shortened_of_not_numeric ha hnumeric, Token.spaced_of_visible hvisible]
  rfl

theorem tokenText_shortened_of_not_numeric {t : Token} (ht : t.Readable)
    (hnumeric : t.type.isNumeric = false) :
    tokenText false t.shortened = tokenText false t := by
  rw [shortened_of_not_numeric ht hnumeric, tokenText_spaced]

/-- A number starts with no two hyphens. -/
theorem twoHyphens_of_startsNumber {cs : List Char} (h : startsNumber cs = true) :
    ['-', '-'].isPrefixOf cs = false := by
  by_cases hhyphens : ['-', '-'].isPrefixOf cs = true
  · obtain ⟨ds, rfl⟩ := List.isPrefixOf_iff_prefix.mp hhyphens
    exact absurd h (by simp [startsNumber, startsUnsigned, isDigit, startsFraction])
  · exact Bool.eq_false_iff.mpr hhyphens

theorem tokenText_numeric_head {t : Token} (ht : t.Readable) (h : t.type.isNumeric = true)
    (y : List Char) :
    ['-', '-'].isPrefixOf (tokenText false t ++ y) = false := by
  cases ht with
  | number n =>
    simpa [tokenText, numberText] using twoHyphens_of_startsNumber (startsNumber_text n y)
  | percentage n =>
    simpa [tokenText, numberText] using twoHyphens_of_startsNumber (startsNumber_text n ('%' :: y))
  | @dimension unit _ n hunit hstart =>
    simpa [tokenText, numberText, Token.unit] using
      twoHyphens_of_startsNumber (startsNumber_text n (escapeName unit ++ y))
  | punctuation hc =>
    have hall : ∀ e ∈ Output.punctuation, e.2.isNumeric = false := by decide
    simp [hall _ hc] at h
  | _ => simp [TokenType.isNumeric] at h

theorem shortAfter_visible (a : Token) {t : Token} (ht : t.isWhitespace = false) (ts : List Token) :
    shortAfter a (t :: ts) = t.shortened :: shortAfter t ts := by
  simp [shortAfter, writtenAfter, ht]

theorem shortAfter_kept {a w : Token} {ts : List Token} (hw : w.isWhitespace = true)
    (hkept : keepsSpace true (some (.token a)) (ts.map .token) = true) :
    shortAfter a (w :: ts) = w.shortened :: shortAfter a ts := by
  simp [shortAfter, writtenAfter, hw, hkept]

theorem shortAfter_dropped {a w : Token} {ts : List Token} (hw : w.isWhitespace = true)
    (hdropped : keepsSpace true (some (.token a)) (ts.map .token) = false) :
    shortAfter a (w :: ts) = shortAfter a ts := by
  simp [shortAfter, writtenAfter, hw, hdropped]

theorem keepsSpace_visible (a : Token) {t : Token} (ht : t.isWhitespace = false) (ts : List Token) :
    keepsSpace true (some (.token a)) ((t :: ts).map .token) = needsSpace (.token a) (.token t) := by
  have hvalue : (Value.token t).isWhitespace = false := ht
  simp [keepsSpace, hvalue]

theorem numbersApart_tail {t : Token} {ts : List Token} (h : numbersApart (t :: ts) = true) :
    numbersApart ts = true := by
  rw [numbersApart, Bool.and_eq_true] at h
  exact h.2

theorem numbersApart_number {t : Token} {ts : List Token} (h : numbersApart (t :: ts) = true)
    (ht : t.type.isNumeric = true) :
    t.stopsBefore (textOf ts) = true := by
  rw [numbersApart, Bool.and_eq_true] at h
  simpa [ht] using h.1

theorem numbersApart_next {t u : Token} {ts : List Token} (h : numbersApart (t :: u :: ts) = true)
    (hu : u.type.isNumeric = true) :
    t.stopsBefore (textOf (u :: ts)) = true := by
  rw [numbersApart, Bool.and_eq_true] at h
  simpa [hu] using h.1

/-- A number meets whatever it is kept apart from. -/
theorem meets_of_numeric {a : Token} {cs : List Char} {ts : List Token}
    (hnumeric : a.type.isNumeric = true) (h : numbersApart (a.shortened :: ts) = true) :
    Meets a cs (textOf ts) := by
  constructor
  · exact numbersApart_number h (by rwa [shortened_type])
  · intro hdelim
    simp [hdelim, TokenType.isNumeric] at hnumeric

/-- A token meets an alike text. -/
theorem Meets.of_alike {a : Token} {cs ds : List Char} (ha : a.Readable)
    (hvisible : a.isWhitespace = false) (hnumeric : a.type.isNumeric = false)
    (hstop : a.stopsBefore cs = true) (h : LooksLike cs ds) :
    Meets a cs ds := by
  constructor
  · rw [stopsBefore_shortened ha hvisible hnumeric]
    exact h.stopsBefore hstop
  · exact fun _ => .inl h

/-- What a token has become looks as it did in the source, if the token meets what follows it. -/
theorem Spells.alike_short {raw rest ds m : List Char} {t : Token} (h : Spells raw t rest)
    (hnumeric : t.type.isNumeric = false) (hds : LooksLike rest ds) (hmeets : Meets t rest m) :
    LooksLike (raw ++ rest) (tokenText false t.shortened ++ m) := by
  have hvisible := h.isWhitespace
  have hstop : t.stopsBefore m = true := by
    rw [← stopsBefore_shortened h.readable hvisible hnumeric]
    exact hmeets.stops
  rw [tokenText_shortened_of_not_numeric h.readable hnumeric]
  by_cases hdelim : t.type = .delim
  · rcases hmeets.seen hdelim with halike | hhyphens
    · exact h.alike m halike
    · exact (h.alike ds hds).behind h.readable hvisible hnumeric hstop fun _ _ => hhyphens
  · exact (h.alike ds hds).behind h.readable hvisible hnumeric hstop fun _ hfalse =>
      absurd hfalse hdelim

/-- A token meets the short form of the token that it was read before. -/
theorem Spells.meets_short {raw rest ds : List Char} {a t : Token} {us : List Token}
    (h : Spells raw t rest) (ha : a.Readable) (hvisible : a.isWhitespace = false)
    (hstop : a.stopsBefore (raw ++ rest) = true) (hds : LooksLike rest ds)
    (hmeets : Meets t rest (textOf us))
    (hapart : numbersApart (a.shortened :: t.shortened :: us) = true) :
    Meets a (raw ++ rest) (textOf (t.shortened :: us)) := by
  cases hnumeric : a.type.isNumeric with
  | true => exact meets_of_numeric hnumeric hapart
  | false =>
    cases hnumber : t.type.isNumeric with
    | false => exact .of_alike ha hvisible hnumeric hstop (h.alike_short hnumber hds hmeets)
    | true =>
      constructor
      · exact numbersApart_next hapart (by rwa [shortened_type])
      · exact fun _ => .inr (tokenText_numeric_head (h.readable.shortened h.isWhitespace).1
          (by rwa [shortened_type]) _)

theorem not_twoHyphens_of_gap {c : Char} (hc : c ∈ '(' :: gaps) (y : List Char) :
    ['-', '-'].isPrefixOf (c :: y) = false := by
  have hall : ('(' :: gaps).all (· != '-') = true := by decide
  have hne : c ≠ '-' := by simpa using List.all_eq_true.mp hall c hc
  simp [List.isPrefixOf, hne.symm]

/-- A token that is no function meets a gap. -/
theorem meets_gap {a : Token} {c : Char} {cs y : List Char} (ha : a.Readable)
    (hvisible : a.isWhitespace = false) (hnumeric : a.type.isNumeric = false)
    (hfunction : a.type ≠ .function) (hc : c ∈ gaps) :
    Meets a cs (c :: y) := by
  constructor
  · rw [stopsBefore_shortened ha hvisible hnumeric]
    exact stopsBefore_gap ha hvisible hnumeric hfunction hc y
  · exact fun _ => .inr (not_twoHyphens_of_gap (List.mem_cons_of_mem _ hc) y)

theorem meets_paren {a : Token} {cs y : List Char} (ha : a.Readable) (hdelim : a.type = .delim) :
    Meets a cs ('(' :: y) := by
  have hvisible : a.isWhitespace = false := by simp [Token.isWhitespace, hdelim]
  have hnumeric : a.type.isNumeric = false := by rw [hdelim]; rfl
  constructor
  · rw [stopsBefore_shortened ha hvisible hnumeric]
    simp only [Token.stopsBefore, hdelim, List.all_eq_true]
    exact fun c _ => delimStops_gap (by simp) y
  · exact fun _ => .inr (not_twoHyphens_of_gap (by simp) y)

theorem type_ne_function_of_not_opensRun {a : Token} (h : opensRun (.token a) = false) :
    a.type ≠ .function := by
  intro hfunction
  simp [opensRun, Value.hasType, hfunction] at h

theorem not_numeric_of_endsRun {t : Token} (h : endsRun (.token t) = true) :
    t.type.isNumeric = false := by
  simp only [endsRun, Value.hasType, List.any_cons, List.any_nil, Bool.or_false, Bool.or_eq_true,
    beq_iff_eq] at h
  rcases h with h | h | h | h | h | h <;> (rw [h]; rfl)

theorem isQuote_of_isBlank {c : Char} (h : isBlank c = true) :
    isQuote c = false := by
  refine Bool.eq_false_iff.mpr fun hquote => ?_
  simp [isBlank_of_isQuote hquote] at h

/-- A mark that is seen through blanks stands right behind a single one. -/
theorem opensQuote_of_blanks {run rest : List Char} (hne : run ≠ [])
    (hrun : ∀ c ∈ run, isBlank c = true) (h : opensQuote (run ++ rest) = true) :
    opensQuote rest = true := by
  match run, hne, hrun with
  | [b], _, hrun =>
    have hb := hrun b (by simp)
    have hhead : rest.head?.any isQuote = true := by
      simpa [opensQuote, isQuote_of_isBlank hb, hb] using h
    cases rest with
    | nil => simp at hhead
    | cons c rest =>
      have hc : isQuote c = true := by simpa using hhead
      simp [opensQuote, hc]
  | b :: d :: run, _, hrun =>
    have hb := isQuote_of_isBlank (hrun b (by simp))
    have hd := isQuote_of_isBlank (hrun d (by simp))
    simp [opensQuote, hb, hd] at h

/-- A token that needs no space behind it ends before what follows the space. -/
theorem stopsBefore_of_blanks {a : Token} {run rest : List Char} (hne : run ≠ [])
    (hrun : ∀ c ∈ run, isBlank c = true) (hopens : opensRun (.token a) = true)
    (hstop : a.stopsBefore (run ++ rest) = true) :
    a.stopsBefore rest = true := by
  by_cases hfunction : a.type = .function
  · simp only [Token.stopsBefore, hfunction, Bool.or_eq_true] at hstop ⊢
    exact hstop.imp_right (opensQuote_of_blanks hne hrun)
  · exact stopsBefore_of_opensRun hopens hfunction rest

/-- A token meets the token behind a space that is left out. -/
theorem meets_dropped {a t : Token} {cs : List Char} {us : List Token} (ha : a.Readable)
    (hvisible : a.isWhitespace = false) (ht : t.Readable) (hopens : opensRun (.token a) = false)
    (hneeds : needsSpace (.token a) (.token t) = false)
    (hapart : numbersApart (a.shortened :: t.shortened :: us) = true) :
    Meets a cs (textOf (t.shortened :: us)) := by
  cases hnumeric : a.type.isNumeric with
  | true => exact meets_of_numeric hnumeric hapart
  | false =>
    simp only [needsSpace, hopens, Bool.not_false, Bool.true_and, Bool.and_eq_false_iff,
      Bool.not_eq_false', Bool.or_eq_false_iff] at hneeds
    rcases hneeds with hends | ⟨hparen, hword⟩
    · obtain ⟨c, hc, htext⟩ := tokenText_endsRun ht hends
      rw [textOf_cons, tokenText_shortened_of_not_numeric ht (not_numeric_of_endsRun hends), htext]
      exact meets_gap ha hvisible hnumeric (type_ne_function_of_not_opensRun hopens) hc
    · have htype : t.type = .openParen := by simpa [startsParen, Value.hasType] using hparen
      have hdelim : a.type = .delim := by simpa [endsWord] using hword
      rw [textOf_cons, tokenText_shortened_of_not_numeric ht (by rw [htype]; rfl),
        tokenText_openParen ht htype]
      exact meets_paren ha hdelim

/-- A token meets what is written behind a space that is left out. -/
theorem Lexed.meets_dropped {run rest : List Char} {ts : List Token} {a : Token} (h : Lexed rest ts)
    (hrun : ∀ c ∈ run, isBlank c = true) (hrest : rest.head?.any isBlank = false) (ha : a.Readable)
    (hvisible : a.isWhitespace = false) (hopens : opensRun (.token a) = false)
    (hdropped : keepsSpace true (some (.token a)) (ts.map .token) = false)
    (hstop : a.stopsBefore (run ++ rest) = true)
    (hapart : numbersApart (a.shortened :: shortAfter a ts) = true) :
    Meets a (run ++ rest) (textOf (shortAfter a ts)) := by
  rcases h.cases_visible hrest with ⟨rfl, rfl⟩ | ⟨raw, tail, t, us, rfl, rfl, hspells⟩
  · cases hnumeric : a.type.isNumeric with
    | true => exact meets_of_numeric hnumeric hapart
    | false => exact .of_alike ha hvisible hnumeric hstop (.trailing (by simpa using hrun))
  · rw [keepsSpace_visible a hspells.isWhitespace] at hdropped
    rw [shortAfter_visible a hspells.isWhitespace] at hapart ⊢
    exact Cascade.meets_dropped ha hvisible hspells.readable hopens hdropped hapart

/-- A space is kept only between two tokens that need it, and it ends before the second. -/
theorem Lexed.kept {rest : List Char} {ts : List Token} {a : Token} (h : Lexed rest ts)
    (hrest : rest.head?.any isBlank = false)
    (hkept : keepsSpace true (some (.token a)) (ts.map .token) = true) :
    opensRun (.token a) = false ∧ (textOf (shortAfter a ts)).head?.any isBlank = false := by
  rcases h.cases_visible hrest with ⟨rfl, rfl⟩ | ⟨raw, tail, t, us, rfl, rfl, hspells⟩
  · simp [keepsSpace] at hkept
  · have ht := hspells.isWhitespace
    rw [keepsSpace_visible a ht, needsSpace] at hkept
    simp only [Bool.and_eq_true, Bool.not_eq_true'] at hkept
    refine ⟨hkept.1.1, ?_⟩
    rw [shortAfter_visible a ht, textOf_cons]
    have hvisible : t.shortened.isWhitespace = false := by rwa [shortened_isWhitespace]
    exact tokenText_head_not_blank (hspells.readable.shortened ht).1 hvisible _

/-- The short forms of tokens that spell a text are joined, and a token that ends before the text ends
before them, if the numbers among them are apart. -/
theorem Lexed.short {cs : List Char} {ts : List Token} (h : Lexed cs ts) (a : Token)
    (hapart : numbersApart (shortAfter a ts) = true) :
    Joined (shortAfter a ts) ∧
      (a.Readable → a.isWhitespace = false → a.stopsBefore cs = true →
        numbersApart (a.shortened :: shortAfter a ts) = true →
        Meets a cs (textOf (shortAfter a ts))) := by
  induction h generalizing a with
  | nil =>
    refine ⟨trivial, fun ha hvisible hstop happart => ?_⟩
    cases hnumeric : a.type.isNumeric with
    | true => exact meets_of_numeric hnumeric happart
    | false => exact .of_alike ha hvisible hnumeric hstop .nil
  | @token raw rest t ts hspells hlexed ih =>
    have ht := hspells.isWhitespace
    rw [shortAfter_visible a ht] at hapart ⊢
    obtain ⟨hjoined, hmeets⟩ := ih t (numbersApart_tail hapart)
    have hnext := hmeets hspells.readable ht hspells.stops hapart
    refine ⟨⟨hnext.stops, hjoined⟩, fun ha hvisible hstop happart => ?_⟩
    exact hspells.meets_short ha hvisible hstop hlexed.tidy.2 hnext happart
  | @blanks run rest ts hne hrun hrest hlexed ih =>
    have hw : Token.isWhitespace ⟨.whitespace, String.ofList run, Position.none, .none⟩ = true := rfl
    cases hkept : keepsSpace true (some (.token a)) (ts.map .token) with
    | false =>
      rw [shortAfter_dropped hw hkept] at hapart ⊢
      obtain ⟨hjoined, hmeets⟩ := ih a hapart
      refine ⟨hjoined, fun ha hvisible hstop happart => ?_⟩
      cases hopens : opensRun (.token a) with
      | true =>
        -- The token meets the rest of the source already, and it is no delimiter.
        have hdirect := hmeets ha hvisible (stopsBefore_of_blanks hne hrun hopens hstop) happart
        exact ⟨hdirect.stops, fun hdelim => absurd hopens (by simp [opensRun, Value.hasType, hdelim])⟩
      | false => exact hlexed.meets_dropped hrun hrest ha hvisible hopens hkept hstop happart
    | true =>
      rw [shortAfter_kept hw hkept] at hapart ⊢
      obtain ⟨hopens, hhead⟩ := hlexed.kept hrest hkept
      obtain ⟨hjoined, -⟩ := ih a (numbersApart_tail hapart)
      refine ⟨⟨by simp [Token.stopsBefore, shortened_type, hhead], hjoined⟩,
        fun ha hvisible _ happart => ?_⟩
      cases hnumeric : a.type.isNumeric with
      | true => exact meets_of_numeric hnumeric happart
      | false =>
        exact meets_gap ha hvisible hnumeric (type_ne_function_of_not_opensRun hopens) (by decide)

/-! ## Reading the short form back -/

/-- The short forms of the tokens that the short form of a token list shows. -/
def shortTokens (ts : List Token) : List Token :=
  (writtenAfter true none ts).map Token.shortened

theorem shortTokens_blank {w : Token} (hw : w.isWhitespace = true) (ts : List Token) :
    shortTokens (w :: ts) = shortTokens ts := by
  simp [shortTokens, writtenAfter, hw, keepsSpace]

theorem shortTokens_visible {t : Token} (ht : t.isWhitespace = false) (ts : List Token) :
    shortTokens (t :: ts) = t.shortened :: shortAfter t ts := by
  simp [shortTokens, writtenAfter, ht, shortAfter]

/-- The short tokens of a text are joined if its numbers are apart. -/
theorem Lexed.joined_short {cs : List Char} {ts : List Token} (h : Lexed cs ts)
    (hapart : numbersApart (shortTokens ts) = true) :
    Joined (shortTokens ts) := by
  induction h with
  | nil => trivial
  | blanks _ _ _ _ ih =>
    rw [shortTokens_blank rfl] at hapart ⊢
    exact ih hapart
  | @token raw rest t ts hspells hlexed _ =>
    rw [shortTokens_visible hspells.isWhitespace] at hapart ⊢
    obtain ⟨hjoined, hmeets⟩ := hlexed.short t (numbersApart_tail hapart)
    have hnext := hmeets hspells.readable hspells.isWhitespace hspells.stops hapart
    exact ⟨hnext.stops, hjoined⟩

theorem Lexed.readable {cs : List Char} {ts : List Token} (h : Lexed cs ts) :
    ∀ t ∈ ts, t.isWhitespace = false → t.Readable := by
  induction h with
  | nil => simp
  | blanks _ _ _ _ ih => simpa [Token.isWhitespace] using ih
  | token hspells _ ih => simpa using ⟨fun _ => hspells.readable, ih⟩

/-- Every token that spells a text is readable in its short form, and keeps its short text. -/
theorem Lexed.shortened {cs : List Char} {ts : List Token} (h : Lexed cs ts) :
    ∀ t ∈ ts, t.shortened.Readable ∧ tokenText false t.shortened = tokenText true t := by
  induction h with
  | nil => simp
  | blanks _ _ _ _ ih => simpa using ⟨⟨.space, rfl⟩, ih⟩
  | token hspells _ ih =>
    have hshort := (hspells.readable.shortened hspells.isWhitespace).1
    simpa using ⟨⟨hshort, tokenText_shortened hspells.readable⟩, ih⟩

/-- Only tokens of the list are written. -/
theorem writtenAfter_sublist (minify : Bool) (before : Option Token) (ts : List Token) :
    (writtenAfter minify before ts).Sublist ts := by
  induction ts generalizing before with
  | nil => exact .slnil
  | cons t ts ih =>
    rw [writtenAfter]
    split
    · split
      · exact (ih before).cons_cons t
      · exact (ih before).cons t
    · exact (ih (some t)).cons_cons t

/-- All visible tokens are written. -/
theorem filter_writtenAfter (minify : Bool) (before : Option Token) (ts : List Token) :
    (writtenAfter minify before ts).filter (fun t => !t.isWhitespace) =
      ts.filter fun t => !t.isWhitespace := by
  induction ts generalizing before with
  | nil => rfl
  | cons t ts ih =>
    rw [writtenAfter]
    cases ht : t.isWhitespace with
    | false => simp [ht, ih]
    | true =>
      simp only [if_true]
      split <;> simp [ht, ih]

section Map

variable {f : Token → Token} (hf : ∀ t, (f t).type = t.type)

include hf

theorem keepsSpace_map (minify : Bool) (before : Option Token) (ts : List Token) :
    keepsSpace minify ((before.map f).map .token) ((ts.map f).map .token) =
      keepsSpace minify (before.map .token) (ts.map .token) := by
  have hblank : Token.isWhitespace ∘ f = Token.isWhitespace :=
    funext fun t => by simp [Token.isWhitespace, hf]
  have hfind : ∀ us : List Token, (us.map Value.token).find? (fun v => !v.isWhitespace) =
      (us.find? fun u => !u.isWhitespace).map Value.token := by
    intro us
    rw [List.find?_map]
    rfl
  have hmap : (ts.map f).find? (fun u => !u.isWhitespace) =
      (ts.find? fun u => !u.isWhitespace).map f := by
    rw [List.find?_map]
    exact congrArg (fun p => (ts.find? fun u => !p u).map f) hblank
  simp only [keepsSpace, hfind, hmap]
  cases before <;> cases ts.find? fun u => !u.isWhitespace <;>
    simp [needsSpace, opensRun, endsRun, startsParen, endsWord, Value.hasType, hf]

/-- Which tokens are written depends on their types only. -/
theorem writtenAfter_map (minify : Bool) (before : Option Token) (ts : List Token) :
    writtenAfter minify (before.map f) (ts.map f) = (writtenAfter minify before ts).map f := by
  induction ts generalizing before with
  | nil => rfl
  | cons t ts ih =>
    have hclass : (f t).isWhitespace = t.isWhitespace := by simp [Token.isWhitespace, hf]
    rw [List.map_cons, writtenAfter, writtenAfter, hclass, keepsSpace_map hf]
    split
    · split
      · rw [ih, List.map_cons]
      · exact ih before
    · rw [List.map_cons, ← ih (some t)]
      rfl

end Map

theorem unplaced_type (t : Token) :
    t.unplaced.type = t.type := by
  rfl

theorem shortened_unplaced (t : Token) :
    t.unplaced.shortened = t.shortened := by
  obtain ⟨type, text, p, detail⟩ := t
  cases detail <;> rfl

theorem unplaced_shortened (t : Token) :
    t.shortened.unplaced = t.shortened := by
  unfold Token.shortened
  cases t.detail <;> rfl

/-- Tokens that differ only in their places have the same short tokens and the same short form. -/
theorem shortTokens_congr {ts us : List Token} (h : ts.map Token.unplaced = us.map Token.unplaced) :
    shortTokens ts = shortTokens us ∧
      (writtenAfter true none ts).flatMap (tokenText true) =
        (writtenAfter true none us).flatMap (tokenText true) := by
  have hwritten : (writtenAfter true none ts).map Token.unplaced =
      (writtenAfter true none us).map Token.unplaced := by
    have hmap (vs : List Token) := writtenAfter_map unplaced_type true none vs
    exact (hmap ts).symm.trans ((congrArg _ h).trans (hmap us))
  have hshortened : Token.shortened ∘ Token.unplaced = Token.shortened := funext shortened_unplaced
  constructor
  · have hshort := congrArg (List.map Token.shortened) hwritten
    rwa [List.map_map, List.map_map, hshortened] at hshort
  · have htext := congrArg (List.flatMap (tokenText true)) hwritten
    rwa [List.flatMap_map, List.flatMap_map] at htext

/-- The short form of tokens that spell a text is the text of the short tokens. -/
theorem Lexed.flatMap_short {cs : List Char} {ts : List Token} (h : Lexed cs ts) :
    (writtenAfter true none ts).flatMap (tokenText true) = textOf (shortTokens ts) := by
  rw [textOf, shortTokens, List.flatMap_map]
  refine List.flatMap_congr fun t ht => ?_
  exact (h.shortened t ((writtenAfter_sublist _ _ _).subset ht)).2.symm

/-- The short tokens of a text are read back if its numbers are apart. -/
theorem Lexed.tokenize_short {cs : List Char} {ts : List Token} (h : Lexed cs ts)
    (hapart : numbersApart (shortTokens ts) = true) :
    (tokenize (String.ofList (textOf (shortTokens ts)))).map Token.unplaced =
      shortTokens ts ++ [endToken] := by
  have hreadable : ∀ t ∈ shortTokens ts, t.Readable := by
    refine List.forall_mem_map.mpr fun t ht => ?_
    exact (h.shortened t ((writtenAfter_sublist _ _ _).subset ht)).1
  have hplaced : (shortTokens ts).map Token.unplaced = shortTokens ts := by
    simp [shortTokens, unplaced_shortened]
  rw [tokenize_textOf hreadable (h.joined_short hapart), hplaced]

/-- The tokens of a source without whitespace and places. -/
def visibleTokens (source : String) : List Token :=
  ((tokenize source).map Token.unplaced).filter fun t => !t.isWhitespace

theorem filter_shortTokens (ts : List Token) :
    (shortTokens ts).filter (fun t => !t.isWhitespace) =
      (ts.filter fun t => !t.isWhitespace).map Token.shortened := by
  have hclass : (fun t : Token => !t.isWhitespace) ∘ Token.shortened = fun t => !t.isWhitespace :=
    funext fun t => by simp [shortened_isWhitespace]
  rw [shortTokens, List.filter_map, hclass, filter_writtenAfter]

/-- The visible tokens of a text are respelled in its short tokens. -/
theorem Lexed.respelled {cs : List Char} {ts : List Token} (h : Lexed cs ts) :
    List.Forall₂ Token.Respelled ((ts.filter fun t => !t.isWhitespace).map Token.unplaced)
      ((ts.filter fun t => !t.isWhitespace).map Token.shortened) := by
  rw [List.forall₂_map_left_iff, List.forall₂_map_right_iff, List.forall₂_same]
  intro t ht
  obtain ⟨hmem, hvisible⟩ := List.mem_filter.mp ht
  have hblank : t.isWhitespace = false := by simpa using hvisible
  exact ((h.readable t hmem hblank).shortened hblank).2

/-- The short form keeps the tokens of a source, up to the spelling of numbers, as long as the short
numbers stay apart from their neighbours. -/
theorem visibleTokens_formatValues {source : String} (hcomment : commentFree source = true)
    (hbackslash : '\\' ∉ source.toList) (hbad : ∀ t ∈ tokenize source, t.isBad = false)
    (hapart : numbersApart (shortTokens (contents source)) = true) :
    List.Forall₂ Token.Respelled (visibleTokens source)
      (visibleTokens (formatValues true (valuesOf (tokenize source)))) := by
  obtain ⟨ts, hlexed, htokens⟩ := exists_lexed_source hcomment hbackslash hbad
  obtain ⟨hshort, htext⟩ := shortTokens_congr (contents_unplaced hlexed.type_ne_eof htokens)
  have hclass : (fun t : Token => !t.isWhitespace) ∘ Token.unplaced = fun t => !t.isWhitespace := rfl
  rw [formatValues_tokens, htext, hlexed.flatMap_short, visibleTokens, visibleTokens, htokens,
    hlexed.tokenize_short (hshort ▸ hapart), List.filter_append, List.filter_append,
    filter_shortTokens, List.filter_map, hclass]
  exact List.rel_append hlexed.respelled (.cons (.same _) .nil)

/-- A sum in parentheses, with numbers of every kind and blanks that are left out. -/
theorem visibleTokens_formatValues_calc :
    numbersApart (shortTokens (contents "a : calc( 1.50px + -0.0 ) , +10.0e3% url( x )")) = true ∧
      List.Forall₂ Token.Respelled
        (visibleTokens "a : calc( 1.50px + -0.0 ) , +10.0e3% url( x )")
        (visibleTokens (formatValues true
          (valuesOf (tokenize "a : calc( 1.50px + -0.0 ) , +10.0e3% url( x )")))) := by
  have hapart : numbersApart (shortTokens
      (contents "a : calc( 1.50px + -0.0 ) , +10.0e3% url( x )")) = true := by
    decide +kernel
  exact ⟨hapart,
    visibleTokens_formatValues (by decide +kernel) (by decide) (by decide +kernel) hapart⟩

/-- Without the condition it does not: a sum without blanks is read back as one number. -/
theorem formatValues_merges_numbers :
    commentFree "1+0" = true ∧ '\\' ∉ "1+0".toList ∧ (∀ t ∈ tokenize "1+0", t.isBad = false) ∧
      ¬ List.Forall₂ Token.Respelled (visibleTokens "1+0")
        (visibleTokens (formatValues true (valuesOf (tokenize "1+0")))) := by
  refine ⟨by decide +kernel, by decide, by decide +kernel, fun h => ?_⟩
  have hlength : (visibleTokens "1+0").length ≠
      (visibleTokens (formatValues true (valuesOf (tokenize "1+0")))).length := by
    decide +kernel
  exact hlength h.length_eq

end Cascade
