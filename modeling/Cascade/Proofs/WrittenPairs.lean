import Cascade.Proofs.ShortForms
import Cascade.Proofs.SingleTokens

/-!
# Written pairs

Two tokens that stood apart in a source, with a comment between them, are written one
behind the other.  They are read back exactly when the first one ends where the text of
the second begins; and so is a single token, before the end of the text.

**Method.**  `Token.stopsBefore` is sufficient for a token to be read back.  Here it is
shown to be necessary: if the lexer takes the token `t` from the text of `t` and a `rest`,
then `t` ends before the `rest`, since names and numbers are read as far as they go.
There is one lemma for each family of tokens whose end depends on what follows.  A comment
at the start would hide the first token, but no token that a source gives starts one.

**Results.**
* `Token.Given.tokensFrom_iff`: what is read first from the text of a token and a rest.
* `dimension_readBack_iff`: the dimensions of a source that are read back.
* `pair_readBack_iff`: the pairs of tokens of a source that are read back.
-/

namespace Cascade
open Lexer Output

/-! ## Tokens that sources give -/

/-- A sound token as a source gives it: visible, and readable or a dimension. -/
structure Token.Given (t : Token) : Prop where
  visible : t.isWhitespace = false
  cases : t.Readable ∨ ∃ n unit, t.IsMeasure n unit

/-- The token ends before the text, and its unit starts as one. -/
def Token.endsBefore (t : Token) (rest : List Char) : Bool :=
  t.unitStarts && t.stopsBefore rest

theorem given_of_mem_tokenize {source : String} {t : Token} (ht : t ∈ tokenize source)
    (hsound : t.isSound = true) :
    t.Given where
  visible := by
    rw [Bool.eq_false_iff]
    intro hblank
    have htype : t.type = .whitespace := by simpa [Token.isWhitespace] using hblank
    simp [Token.isSound, htype] at hsound
  cases := by
    by_cases htype : t.type = .dimension
    · exact .inr (exists_measure_of_mem_tokenize ht htype)
    · exact .inl (readable_of_isSound ht hsound (by simp [Token.unitStarts, htype]))

namespace Token

variable {t : Token} {n : Numeral} {unit : List Char}

theorem IsMeasure.tokenText_eq (h : t.IsMeasure n unit) :
    tokenText false t = n.text ++ escapeName unit := by
  rw [h.eq]
  simp [tokenText, numberText, Token.unit]

theorem IsMeasure.readable (h : t.IsMeasure n unit) (hunit : t.unitStarts = true) :
    t.Readable := by
  rw [h.eq] at hunit ⊢
  exact .dimension n h.nullFree (by simpa [unitStarts, Token.unit] using hunit)

/-- A given token whose unit starts as one is readable. -/
theorem Given.readable (h : t.Given) (hunit : t.unitStarts = true) :
    t.Readable := by
  rcases h.cases with hreadable | ⟨n, unit, hmeasure⟩
  · exact hreadable
  · exact hmeasure.readable hunit

theorem Given.normal (h : t.Given) :
    Normal (tokenText false t) := by
  rcases h.cases with hreadable | ⟨n, unit, hmeasure⟩
  · exact fun _ hc => isNormal_tokenText hreadable hc
  · intro c hc
    rw [hmeasure.tokenText_eq] at hc
    rcases List.mem_append.mp hc with hc | hc
    · exact isNormal_numeral n hc
    · exact isNormal_escapeName hmeasure.nullFree hc

/-- The text of a given token starts with no blank. -/
theorem Given.head_not_blank (h : t.Given) (rest : List Char) :
    (tokenText false t ++ rest).head?.any isBlank = false := by
  rcases h.cases with hreadable | ⟨n, unit, hmeasure⟩
  · exact tokenText_head_not_blank hreadable h.visible rest
  · rw [hmeasure.tokenText_eq, List.append_assoc]
    exact not_blank_of_startsNumber (startsNumber_text n _)

theorem Given.tokenText_ne_nil (h : t.Given) :
    tokenText false t ≠ [] := by
  rcases h.cases with hreadable | ⟨n, unit, hmeasure⟩
  · exact Cascade.tokenText_ne_nil hreadable
  · rw [hmeasure.tokenText_eq]
    exact List.append_ne_nil_of_left_ne_nil (Numeral.text_ne_nil n) _

end Token

/-! ## What a name and a number take -/

/-- Where a name goes on, more is read of it. -/
theorem length_nameFrom {read : List Char} {i : Input} (h : nameGoesOn i.chars = true) :
    read.length < (nameFrom read i).1.length := by
  obtain ⟨u, s, hbehind, hread, hspells, hstops⟩ := nameFrom_behind read i
  rw [hread, List.length_append, List.length_reverse]
  cases hspells with
  | nil =>
    have hchars := hbehind.chars
    rw [List.nil_append] at hchars
    rw [hchars, hstops] at h
    cases h
  | char => simp
  | escape => simp

/-- A name that was read to the end of its text does not go on behind it. -/
theorem not_nameGoesOn_of_name {u s rest : List Char} {p q : Position}
    (hread : name ⟨u ++ rest, p⟩ = nameFrom s.reverse ⟨rest, q⟩) (h : (name ⟨u ++ rest, p⟩).1 = s) :
    nameGoesOn rest = false := by
  rw [Bool.eq_false_iff]
  intro hgoesOn
  have hlength : s.reverse.length < (nameFrom s.reverse ⟨rest, q⟩).1.length :=
    length_nameFrom hgoesOn
  rw [← hread, h, List.length_reverse] at hlength
  exact Nat.lt_irrefl _ hlength

theorem not_nameGoesOn_of_escapeIdent {s rest : List Char} (hs : NullFree s) {p : Position}
    (h : (name ⟨escapeIdent s ++ rest, p⟩).1 = s) :
    nameGoesOn rest = false :=
  not_nameGoesOn_of_name (q := p.afterAll (escapeIdent s))
    (by rw [name, nameFrom_escapeIdent hs, List.append_nil]) h

theorem not_nameGoesOn_of_escapeName {s rest : List Char} (hs : NullFree s) {p : Position}
    (h : (name ⟨escapeName s ++ rest, p⟩).1 = s) :
    nameGoesOn rest = false :=
  not_nameGoesOn_of_name (q := p.afterAll (escapeName s))
    (by rw [name, nameFrom_escapeName hs, List.append_nil]) h

theorem Lexer.Numeral.isInteger_congr {n m : Numeral} (h : m.text = n.text) :
    m.isInteger = n.isInteger := by
  rw [← isIntegerText_text, h, isIntegerText_text]

/-- A number that was read with the text of a numeral ends where this text does. -/
theorem Lexer.Numeral.endsBefore_of_read {n : Numeral} {rest : List Char} {p : Position}
    (h : (numeral ⟨n.text ++ rest, p⟩).1 = n.text) :
    n.EndsBefore rest := by
  obtain ⟨m, behind, hsplit, hends⟩ := exists_numeral (startsNumber_text n rest)
  have htext : m.text = n.text := by rw [← h, hsplit, numeral_text m p hends]
  rw [htext] at hsplit
  obtain rfl := List.append_cancel_left hsplit
  refine ⟨hends.digit, fun hnone => hends.exponent ?_, fun hinteger => hends.fraction ?_⟩
  · have hexponent := hasExponent_text m
    rw [htext, hasExponent_text, hnone] at hexponent
    simpa using hexponent.symm
  · rw [isInteger_congr htext, hinteger]

/-- A numeric token whose text is that of a numeral ends the numeral where this text does. -/
theorem Lexer.Numeral.endsBefore_of_numeric {n : Numeral} {rest : List Char} {p : Position}
    (h : (numeric ⟨n.text ++ rest, p⟩).1.text = String.ofList n.text) :
    n.EndsBefore rest := by
  refine endsBefore_of_read (p := p) (String.ofList_injective (h ▸ ?_))
  unfold numeric
  dsimp only
  split
  · rfl
  · split <;> rfl

/-- A numeral becomes what its unit or its percent sign makes of it. -/
theorem numeric_text {n : Numeral} {rest : List Char} (h : n.EndsBefore rest) (p : Position) :
    (numeric ⟨n.text ++ rest, p⟩).1.unplaced =
      if startsName rest then
        ⟨.dimension, String.ofList n.text, Position.none,
          .measure n.isInteger (String.ofList (name ⟨rest, p.afterAll n.text⟩).1)⟩
      else if rest.head? = some '%' then
        ⟨.percentage, String.ofList n.text, Position.none, .numeral n.isInteger⟩
      else
        ⟨.number, String.ofList n.text, Position.none, .numeral n.isInteger⟩ := by
  simp only [numeric, numeral_text n p h, Input.peek?]
  split
  · rfl
  · split <;> rfl

/-! ## Families of tokens -/

theorem Token.unplaced_eq_iff {t : Token} {type : TokenType} {text : String} {detail : Detail} :
    t.unplaced = ⟨type, text, Position.none, detail⟩ ↔
      t.type = type ∧ t.text = text ∧ t.detail = detail := by
  cases t
  simp [Token.unplaced]

/-- A text that starts as an identifier gives the end of a comment of old or what its name gives. -/
theorem token_escapeIdent {s rest cs : List Char} {c : Char} (hs : NullFree s) (hne : s ≠ [])
    (hcs : escapeIdent s ++ rest = c :: cs) (p : Position) :
    token ⟨c :: cs, p⟩ c =
      if ['-', '-', '>'].isPrefixOf (c :: cs) then
        (tokenAt ⟨c :: cs, p⟩ .cdc ['-', '-', '>'], Input.drop ⟨c :: cs, p⟩ 3)
      else identLike ⟨c :: cs, p⟩ := by
  have hname : startsName (c :: cs) = true := hcs ▸ startsName_escapeIdent hs hne rest
  have hnumber : startsNumber (c :: cs) = false := hcs ▸ startsNumber_escapeIdent hs hne rest
  split
  · next hcdc =>
      obtain ⟨tail, htail⟩ := List.isPrefixOf_iff_prefix.mp hcdc
      obtain ⟨rfl, -⟩ := List.cons.inj htail
      rw [token_hyphen, if_neg (by simp [hnumber]), if_pos hcdc]
  · next hcdc =>
      rw [Bool.not_eq_true] at hcdc
      exact (token_of_startsName p hname hnumber hcdc).2

theorem urlOrFunction_type (i : Input) (s : List Char) (k : Input) :
    (urlOrFunction i s k).1.type = .function ∨ (urlOrFunction i s k).1.type = .url ∨
      (urlOrFunction i s k).1.type = .badUrl := by
  unfold urlOrFunction
  split
  · dsimp only
    split
    · exact .inl rfl
    · generalize urlFrom [] _ = r
      obtain ⟨address, wellFormed, rest⟩ := r
      cases wellFormed
      · exact .inr (.inr rfl)
      · exact .inr (.inl rfl)
  · exact .inl rfl

/-- The name of addresses opens a function before a mark only. -/
theorem opensQuote_of_urlOrFunction {i : Input} {s rest : List Char} {p : Position}
    (hurl : Text.foldCase (String.ofList s) = "url") (hblank : rest.head?.any isBlank = false)
    (h : (urlOrFunction i s ⟨rest, p⟩).1.type = .function) :
    opensQuote rest = true := by
  have hbody : ((⟨rest, p⟩ : Input).span isBlank).2.chars = rest := by
    cases rest with
    | nil => rfl
    | cons d ds =>
      have hd : isBlank d = false := by simpa using hblank
      simp [Input.span, hd]
  by_cases hquote : rest.head?.any isQuote = true
  · cases rest with
    | nil => cases hquote
    | cons d ds =>
      have hd : isQuote d = true := by simpa using hquote
      simp [opensQuote, hd]
  · simp only [urlOrFunction, hurl, if_true, Input.peek?, hbody, hquote] at h
    generalize urlFrom [] _ = r at h
    obtain ⟨address, wellFormed, behind⟩ := r
    cases wellFormed <;> cases h

/-- The token that is read from the text of an identifier is an identifier before such a rest
only. -/
theorem stopsBefore_of_ident {s rest cs : List Char} {c : Char} {p q : Position} (hs : NullFree s)
    (hne : s ≠ []) (hcs : escapeIdent s ++ rest = c :: cs)
    (hread : (token ⟨c :: cs, p⟩ c).1.unplaced = ⟨.ident, String.ofList s, Position.none, .none⟩) :
    Token.stopsBefore ⟨.ident, String.ofList s, q, .none⟩ rest = true := by
  rw [token_escapeIdent hs hne hcs] at hread
  by_cases hcdc : ['-', '-', '>'].isPrefixOf (c :: cs) = true
  · rw [if_pos hcdc] at hread
    cases congrArg Token.type hread
  · rw [if_neg hcdc] at hread
    unfold identLike at hread
    dsimp only at hread
    split at hread
    · obtain ⟨htype, -⟩ := Token.unplaced_eq_iff.mp hread
      rcases urlOrFunction_type ⟨c :: cs, p⟩ (name ⟨c :: cs, p⟩).1 (name ⟨c :: cs, p⟩).2.advance
        with h | h | h <;> (rw [h] at htype; cases htype)
    · next hparen =>
        obtain ⟨-, htext, -⟩ := Token.unplaced_eq_iff.mp hread
        have hname : (name ⟨c :: cs, p⟩).1 = s := String.ofList_injective htext
        rw [← hcs] at hname hparen hcdc
        have hgoesOn := not_nameGoesOn_of_escapeIdent hs hname
        rw [name_escapeIdent hs p hgoesOn] at hparen
        have hangle : s = ['-', '-'] → rest.head? ≠ some '>' := by
          rintro rfl hangle
          obtain ⟨ds, rfl⟩ := List.head?_eq_some_iff.mp hangle
          exact hcdc rfl
        simp only [Token.stopsBefore, hgoesOn, Bool.not_false, Bool.true_and, Bool.and_eq_true,
          bne_iff_ne, Bool.not_eq_true', Bool.and_eq_false_iff, beq_eq_false_iff_ne]
        refine ⟨hparen, ?_⟩
        by_cases hhyphens : s = ['-', '-']
        · exact .inr (hangle hhyphens)
        · exact .inl (by simpa [String.ext_iff] using hhyphens)

theorem stopsBefore_of_function {s rest cs : List Char} {c : Char} {p q : Position}
    (hs : NullFree s) (hne : s ≠ []) (hcs : escapeIdent s ++ '(' :: rest = c :: cs)
    (hblank : rest.head?.any isBlank = false)
    (hread : (token ⟨c :: cs, p⟩ c).1.unplaced =
      ⟨.function, String.ofList s, Position.none, .none⟩) :
    Token.stopsBefore ⟨.function, String.ofList s, q, .none⟩ rest = true := by
  have hcdc : ['-', '-', '>'].isPrefixOf (c :: cs) = false :=
    hcs ▸ cdc_escapeIdent hs hne fun _ => by simp
  rw [token_escapeIdent hs hne hcs, if_neg (by simp [hcdc]), ← hcs] at hread
  simp only [identLike, name_escapeIdent hs p (nameGoesOn_paren rest), Input.peek?, List.head?_cons,
    Input.advance_cons, if_true] at hread
  obtain ⟨htype, -⟩ := Token.unplaced_eq_iff.mp hread
  by_cases hurl : Text.foldCase (String.ofList s) = "url"
  · simp [Token.stopsBefore, opensQuote_of_urlOrFunction hurl hblank htype]
  · simp [Token.stopsBefore, hurl]

/-- A number ends where neither a unit nor a percent sign nor more of it follows. -/
theorem stopsBefore_of_number {n : Numeral} {rest : List Char} {p q : Position}
    (hread : (numeric ⟨n.text ++ rest, p⟩).1.unplaced =
      ⟨.number, String.ofList n.text, Position.none, .numeral n.isInteger⟩) :
    Token.stopsBefore ⟨.number, String.ofList n.text, q, .numeral n.isInteger⟩ rest = true := by
  have hends := Numeral.endsBefore_of_numeric (Token.unplaced_eq_iff.mp hread).2.1
  rw [numeric_text hends] at hread
  split at hread
  · cases congrArg Token.type hread
  · next hname =>
      split at hread
      · cases congrArg Token.type hread
      · next hpercent =>
          have hfraction : (Detail.numeral n.isInteger == .numeral true && startsFraction rest) =
              false := by
            cases hinteger : n.isInteger with
            | false => rfl
            | true => rw [hends.fraction hinteger, Bool.and_false]
          simp [Token.stopsBefore, hends.digit, hname, hpercent, hfraction]

/-- A dimension ends where its unit does, if its unit starts as one behind its number. -/
theorem endsBefore_of_dimension {n : Numeral} {unit rest : List Char} {p q : Position}
    (hunit : NullFree unit) (hne : unit ≠ [])
    (hread : (numeric ⟨n.text ++ (escapeName unit ++ rest), p⟩).1.unplaced =
      ⟨.dimension, String.ofList n.text, Position.none,
        .measure n.isInteger (String.ofList unit)⟩) :
    Token.endsBefore ⟨.dimension, String.ofList n.text, q,
      .measure n.isInteger (String.ofList unit)⟩ rest = true := by
  have hends := Numeral.endsBefore_of_numeric (Token.unplaced_eq_iff.mp hread).2.1
  rw [numeric_text hends] at hread
  split at hread
  · next hname =>
      obtain ⟨-, hunitText⟩ := Detail.measure.inj (congrArg Token.detail hread)
      have hgoesOn := not_nameGoesOn_of_escapeName hunit (String.ofList_injective hunitText)
      have hstart : startsIdent unit = true := by
        rw [← startsName_escapeName hunit hne hgoesOn, hname]
      have hexponent :
          (hasExponent n.text || !startsExponent (escapeName unit ++ rest)) = true := by
        rw [hasExponent_text, Bool.or_eq_true, Bool.not_eq_true']
        cases hnone : n.exponent with
        | none => exact .inr (hends.exponent hnone)
        | some _ => exact .inl rfl
      simpa [Token.endsBefore, Token.unitStarts, Token.unit, Token.stopsBefore, hstart, hgoesOn]
        using hexponent
  · split at hread <;> cases congrArg Token.type hread

/-- An at-keyword ends where its name does. -/
theorem stopsBefore_of_atKeyword {s rest : List Char} {p q : Position} (hs : NullFree s)
    (hne : s ≠ [])
    (hread : (token ⟨'@' :: (escapeIdent s ++ rest), p⟩ '@').1.unplaced =
      ⟨.atKeyword, String.ofList s, Position.none, .none⟩) :
    Token.stopsBefore ⟨.atKeyword, String.ofList s, q, .none⟩ rest = true := by
  rw [token_at, Input.advance_cons, if_pos (startsName_escapeIdent hs hne rest)] at hread
  have hname := String.ofList_injective (Token.unplaced_eq_iff.mp hread).2.1
  simp [Token.stopsBefore, not_nameGoesOn_of_escapeIdent hs hname]

/-- The name of a hash is what is read behind its mark. -/
theorem name_of_hash {cs s : List Char} {p : Position} {detail : Detail}
    (hread : (token ⟨'#' :: cs, p⟩ '#').1.unplaced =
      ⟨.hash, String.ofList s, Position.none, detail⟩) :
    (name ⟨cs, p.after '#'⟩).1 = s := by
  rw [token_hash, Input.advance_cons] at hread
  split at hread
  · exact String.ofList_injective (Token.unplaced_eq_iff.mp hread).2.1
  · cases congrArg Token.type hread

theorem numeric_type_ne_delim (i : Input) :
    (numeric i).1.type ≠ .delim := by
  unfold numeric
  dsimp only
  split
  · exact nofun
  · split <;> exact nofun

theorem identLike_type_ne_delim (i : Input) :
    (identLike i).1.type ≠ .delim := by
  unfold identLike
  dsimp only
  split
  · rcases urlOrFunction_type i (name i).1 (name i).2.advance with h | h | h <;>
      (rw [h]; exact nofun)
  · exact nofun

/-- An unmarked character that is read as a delimiter starts no number. -/
theorem startsNumber_of_delim {c : Char} {rest : List Char} {p : Position} (hc : isMarked c = false)
    (hread : (token ⟨c :: rest, p⟩ c).1.type = .delim) :
    startsNumber (c :: rest) = false := by
  rw [Bool.eq_false_iff]
  intro hnumber
  rw [token_unmarked _ hc, if_pos hnumber] at hread
  exact numeric_type_ne_delim _ hread

/-- A mark that is read as a delimiter is the start of nothing longer. -/
theorem delimStops_of_token {c : Char} {rest : List Char} {p : Position}
    (hcomment : startsComment (c :: rest) = false)
    (hread : (token ⟨c :: rest, p⟩ c).1.type = .delim) :
    delimStops c rest = true := by
  unfold delimStops
  split
  · rw [token_hash, Input.advance_cons] at hread
    split at hread
    · cases hread
    · simp_all
  · have hnumber := startsNumber_of_delim (by decide) hread
    simpa [startsNumber] using hnumber
  · rw [token_hyphen] at hread
    split at hread
    · exact absurd hread (numeric_type_ne_delim _)
    · next hnumber =>
        split at hread
        · cases hread
        · split at hread
          · exact absurd hread (identLike_type_ne_delim _)
          · next hname =>
              have hunsigned : startsUnsigned rest = false := by simpa [startsNumber] using hnumber
              simp_all
  · have hnumber := startsNumber_of_delim (by decide) hread
    have hfraction : startsFraction ('.' :: rest) = false := by
      simp_all [startsNumber, startsUnsigned]
    rw [startsFraction_point] at hfraction
    simp [hfraction]
  · rw [token_angle] at hread
    split at hread
    · cases hread
    · next hcdo =>
        have hstart : ['!', '-', '-'].isPrefixOf rest ≠ true := hcdo
        rw [Bool.eq_false_iff.mpr hstart, Bool.not_false]
  · rw [token_at, Input.advance_cons] at hread
    split at hread
    · cases hread
    · simp_all
  · cases rest with
    | nil => rfl
    | cons d ds =>
      have hstar : d ≠ '*' := by
        rintro rfl
        cases hcomment
      simp [hstar]
  · rfl

/-! ## Tokens that are read from their texts -/

theorem token_of_numeral {n : Numeral} {rest cs : List Char} {c : Char}
    (hcs : n.text ++ rest = c :: cs) (p : Position) :
    token ⟨c :: cs, p⟩ c = numeric ⟨n.text ++ rest, p⟩ := by
  rw [hcs]
  exact (token_of_startsNumber p (hcs ▸ startsNumber_text n rest)).2

theorem Token.IsMeasure.endsBefore_of_token {t : Token} {n : Numeral} {unit : List Char}
    (ht : t.IsMeasure n unit) {rest cs : List Char} {c : Char} {p : Position}
    (hcs : tokenText false t ++ rest = c :: cs)
    (hread : (token ⟨c :: cs, p⟩ c).1.unplaced = t.unplaced) :
    t.endsBefore rest = true := by
  rw [ht.tokenText_eq, List.append_assoc] at hcs
  rw [token_of_numeral hcs, ht.eq] at hread
  rw [ht.eq]
  exact endsBefore_of_dimension ht.nullFree ht.ne_nil hread

/-- A token that is read from its text before a rest ends before this rest. -/
theorem Token.Readable.stopsBefore_of_token {t : Token} (ht : t.Readable)
    (hvisible : t.isWhitespace = false) {rest cs : List Char} {c : Char} {p : Position}
    (hcs : tokenText false t ++ rest = c :: cs) (hcomment : startsComment (c :: cs) = false)
    (hblank : rest.head?.any isBlank = false)
    (hread : (token ⟨c :: cs, p⟩ c).1.unplaced = t.unplaced) :
    t.stopsBefore rest = true := by
  cases ht with
  | space => cases hvisible
  | ident hs hne => exact stopsBefore_of_ident hs hne (by simpa [tokenText] using hcs) hread
  | function hs hne =>
      exact stopsBefore_of_function hs hne (by simpa [tokenText] using hcs) hblank hread
  | atKeyword hs hne =>
      simp only [tokenText, String.toList_ofList, List.cons_append, List.cons.injEq] at hcs
      obtain ⟨rfl, rfl⟩ := hcs
      exact stopsBefore_of_atKeyword hs hne hread
  | idHash hs hne =>
      simp only [tokenText, Token.isIdHash, String.toList_ofList, List.cons_append,
        List.cons.injEq] at hcs
      obtain ⟨rfl, rfl⟩ := hcs
      simp [Token.stopsBefore, not_nameGoesOn_of_escapeIdent hs (name_of_hash hread)]
  | hash hs hne hident =>
      simp only [tokenText, Token.isIdHash, String.toList_ofList, List.cons_append,
        List.cons.injEq] at hcs
      obtain ⟨rfl, rfl⟩ := hcs
      simp [Token.stopsBefore, not_nameGoesOn_of_escapeName hs (name_of_hash hread)]
  | number n =>
      simp only [tokenText, numberText, String.toList_ofList, if_false, Bool.false_eq_true] at hcs
      rw [token_of_numeral hcs] at hread
      exact stopsBefore_of_number hread
  | @dimension unit q n hunit hstart =>
      have hne : unit ≠ [] := by
        rintro rfl
        cases hstart
      have hmeasure : Token.IsMeasure ⟨.dimension, String.ofList n.text, q,
          .measure n.isInteger (String.ofList unit)⟩ n unit := ⟨rfl, hunit, hne⟩
      exact (Bool.and_eq_true_iff.mp (hmeasure.endsBefore_of_token hcs hread)).2
  | @delim d q hd =>
      simp only [tokenText, String.toList_ofList, List.singleton_append, List.cons.injEq] at hcs
      obtain ⟨rfl, rfl⟩ := hcs
      simpa [Token.stopsBefore] using
        delimStops_of_token hcomment (Token.unplaced_eq_iff.mp hread).1
  | string | url | percentage | cdo | cdc => simp [Token.stopsBefore]
  | punctuation hc =>
      simp only [Output.punctuation, List.mem_cons, Prod.mk.injEq, List.not_mem_nil, or_false] at hc
      rcases hc with ⟨-, rfl⟩ | ⟨-, rfl⟩ | ⟨-, rfl⟩ | ⟨-, rfl⟩ | ⟨-, rfl⟩ | ⟨-, rfl⟩ | ⟨-, rfl⟩ |
        ⟨-, rfl⟩ | ⟨-, rfl⟩ <;> rfl

theorem Token.Readable.unitStarts {t : Token} (ht : t.Readable) :
    t.unitStarts = true := by
  cases ht with
  | dimension _ _ hstart => simpa [Token.unitStarts, Token.unit] using hstart
  | punctuation hc =>
      have hall : ∀ e ∈ Output.punctuation, e.2 ≠ .dimension := by decide
      simpa [Token.unitStarts] using .inl (hall _ hc)
  | _ => rfl

/-- A given token that is read from its text before a rest ends before this rest. -/
theorem Token.Given.endsBefore_of_token {t : Token} (ht : t.Given) {rest cs : List Char} {c : Char}
    {p : Position} (hcs : tokenText false t ++ rest = c :: cs)
    (hcomment : startsComment (c :: cs) = false) (hblank : rest.head?.any isBlank = false)
    (hread : (token ⟨c :: cs, p⟩ c).1.unplaced = t.unplaced) :
    t.endsBefore rest = true := by
  rcases ht.cases with hreadable | ⟨n, unit, hmeasure⟩
  · rw [Token.endsBefore, hreadable.unitStarts,
      hreadable.stopsBefore_of_token ht.visible hcs hcomment hblank hread]
    rfl
  · exact hmeasure.endsBefore_of_token hcs hread

/-! ## Texts of one and of two tokens -/

/-- A slash or a star at the start of a token is all of it. -/
theorem Token.Given.eq_nil_of_head {t : Token} (ht : t.Given) {c : Char} {cs : List Char}
    (hcs : tokenText false t = c :: cs) (hc : c = '/' ∨ c = '*') :
    cs = [] := by
  have hname : startsName (c :: cs) = false := by
    rcases hc with rfl | rfl <;> exact startsName_cons cs (by decide) (by decide)
  have hnumber : startsNumber (c :: cs) = false := by
    rcases hc with rfl | rfl <;>
      exact startsNumber_cons cs (by decide) (by decide) (by decide) (by decide)
  rw [← hcs] at hname hnumber
  rcases ht.cases with hreadable | ⟨n, unit, hmeasure⟩
  · cases hreadable with
    | space => cases ht.visible
    | ident hs hne =>
        have hstart := startsName_escapeIdent hs hne []
        simp_all [tokenText]
    | function hs hne =>
        have hstart := startsName_escapeIdent hs hne ['(']
        simp_all [tokenText]
    | number n =>
        have hstart := startsNumber_text n []
        simp_all [tokenText, numberText]
    | percentage n =>
        have hstart := startsNumber_text n ['%']
        simp_all [tokenText, numberText]
    | @dimension unit q n =>
        have hstart := startsNumber_text n (escapeName unit)
        simp_all [tokenText, numberText, Token.unit]
    | delim =>
        simp only [tokenText, String.toList_ofList, List.cons.injEq] at hcs
        exact hcs.2.symm
    | punctuation hmem =>
        rw [tokenText_punctuation hmem, List.cons.injEq] at hcs
        exact hcs.2.symm
    | string q =>
        cases q <;> rcases hc with rfl | rfl <;>
          simp_all [tokenText, quoteString, Token.quote, Quote.char]
    | _ => rcases hc with rfl | rfl <;> simp_all [tokenText]
  · rw [hmeasure.tokenText_eq, startsNumber_text] at hnumber
    cases hnumber

/-- A token that ends before a rest is read from its text. -/
theorem Token.Given.lexes {t : Token} (ht : t.Given) {rest : List Char}
    (hends : t.endsBefore rest = true) :
    Lexes (tokenText false t) t rest := by
  rw [Token.endsBefore, Bool.and_eq_true] at hends
  exact lexes_tokenText (ht.readable hends.1) hends.2

theorem Lexer.Lexes.not_startsComment {u rest : List Char} {t : Token} (h : Lexes u t rest) :
    startsComment (u ++ rest) = false := by
  obtain ⟨c, cs, hcs, hcomment, -⟩ := h
  rwa [hcs]

/-- Read from its text before a rest, a token is the first one exactly when it ends before the rest,
and then what follows is read from the rest. -/
theorem Token.Given.tokensFrom_iff {t : Token} (ht : t.Given) {rest : List Char}
    (hcomment : startsComment (tokenText false t ++ rest) = false)
    (hblank : rest.head?.any isBlank = false) (n : Nat) (p : Position) (us : List Token) :
    (tokensFrom (n + 1) ⟨tokenText false t ++ rest, p⟩).map Token.unplaced = t.unplaced :: us ↔
      t.endsBefore rest = true ∧
        (tokensFrom n ⟨rest, p.afterAll (tokenText false t)⟩).map Token.unplaced = us := by
  constructor
  · intro hread
    have hends : t.endsBefore rest = true := by
      obtain ⟨c, cs, hcs⟩ := List.exists_cons_of_ne_nil
        (List.append_ne_nil_of_left_ne_nil ht.tokenText_ne_nil rest)
      rw [hcs] at hcomment hread
      rw [tokensFrom, skipComments_of_not_startsComment hcomment] at hread
      exact ht.endsBefore_of_token hcs hcomment hblank (List.cons.inj hread).1
    rw [(ht.lexes hends).tokensFrom n p] at hread
    exact ⟨hends, (List.cons.inj hread).2⟩
  · rintro ⟨hends, rfl⟩
    rw [(ht.lexes hends).tokensFrom n p]
    rfl

/-- A given token is all that is read from its text exactly when it ends at the end. -/
theorem Token.Given.tokensFrom_end_iff {t : Token} (ht : t.Given) {n : Nat} (hn : 0 < n)
    (p : Position) :
    (tokensFrom n ⟨tokenText false t, p⟩).map Token.unplaced = [t.unplaced, endToken] ↔
      t.endsBefore [] = true := by
  obtain ⟨n, rfl⟩ : ∃ k, n = k + 1 := ⟨n - 1, by omega⟩
  obtain ⟨c, cs, hcs⟩ := List.exists_cons_of_ne_nil ht.tokenText_ne_nil
  have hcomment : startsComment (tokenText false t ++ []) = false := by
    rw [List.append_nil, hcs]
    by_cases hslash : c = '/'
    · rw [ht.eq_nil_of_head hcs (.inl hslash), hslash]
      rfl
    · exact startsComment_cons_of_ne cs hslash
  have hstep := ht.tokensFrom_iff hcomment rfl n p [endToken]
  rw [List.append_nil, tokensFrom_nil, and_iff_left rfl] at hstep
  exact hstep

/-- Two given tokens whose texts start a comment are a slash and a star. -/
theorem Token.Given.eq_of_startsComment {t u : Token} (ht : t.Given) (hu : u.Given)
    (hcomment : startsComment (tokenText false t ++ tokenText false u) = true) :
    tokenText false t ++ tokenText false u = ['/', '*'] := by
  obtain ⟨c, cs, hcs⟩ := List.exists_cons_of_ne_nil ht.tokenText_ne_nil
  obtain ⟨d, ds, hds⟩ := List.exists_cons_of_ne_nil hu.tokenText_ne_nil
  rw [hcs, hds, List.cons_append] at hcomment ⊢
  have hslash : c = '/' := by
    by_contra hslash
    rw [startsComment_cons_of_ne _ hslash] at hcomment
    cases hcomment
  obtain rfl := ht.eq_nil_of_head hcs (.inl hslash)
  have hstar : d = '*' := by
    rw [hslash, List.nil_append] at hcomment
    unfold startsComment at hcomment
    split at hcomment
    · simp_all
    · cases hcomment
  rw [hu.eq_nil_of_head hds (.inr hstar), hslash, hstar]
  rfl

/-- Two given tokens are read back from their texts, one behind the other, exactly when the first
one ends where the second begins, and the second at the end. -/
theorem Token.Given.tokenize_pair_iff {t u : Token} (ht : t.Given) (hu : u.Given) :
    (tokenize (String.ofList (tokenText false t ++ tokenText false u))).map Token.unplaced =
        [t.unplaced, u.unplaced, endToken] ↔
      t.endsBefore (tokenText false u) = true ∧ u.endsBefore [] = true := by
  cases hcomment : startsComment (tokenText false t ++ tokenText false u) with
  | true =>
    have hcomments : (tokenize (String.ofList ['/', '*'])).map Token.unplaced = [endToken] := by
      decide +kernel
    rw [ht.eq_of_startsComment hu hcomment, hcomments]
    constructor
    · intro hlists
      simp at hlists
    · rintro ⟨hends, -⟩
      rw [(ht.lexes hends).not_startsComment] at hcomment
      cases hcomment
  | false =>
    have hnormal : Normal (tokenText false t ++ tokenText false u) :=
      fun c hc => (List.mem_append.mp hc).elim (ht.normal c) (hu.normal c)
    have hpos := List.length_pos_iff.mpr ht.tokenText_ne_nil
    have hbehind := List.length_pos_iff.mpr hu.tokenText_ne_nil
    have hblank : (tokenText false u).head?.any isBlank = false := by
      simpa using hu.head_not_blank []
    have hlength : (tokenText false t ++ tokenText false u).length =
        (tokenText false t).length - 1 + (tokenText false u).length + 1 := by
      rw [List.length_append]
      omega
    rw [tokenize_of_normal hnormal, hlength, ht.tokensFrom_iff hcomment hblank,
      hu.tokensFrom_end_iff (by omega)]

/-! ## Dimensions and pairs of a source -/

/-- The written unit is read as the unit: it starts as an identifier, and does not look like an
exponent behind a number without one. -/
def Token.keepsUnit (t : Token) : Bool :=
  startsIdent t.unit.toList &&
    (hasExponent t.text.toList || !startsExponent (escapeName t.unit.toList))

theorem Token.endsBefore_nil_of_dimension {t : Token} (htype : t.type = .dimension) :
    t.endsBefore [] = t.keepsUnit := by
  simp [endsBefore, keepsUnit, unitStarts, stopsBefore, htype, nameGoesOn, startsEscape]

theorem formatValues_token {t : Token} (ht : t.isWhitespace = false) :
    formatValues false [.token t] = String.ofList (tokenText false t) := by
  have hvalue : (Value.token t).isWhitespace = false := ht
  simp [formatValues, valuesText, valuesAfter, hvalue, valueText]

theorem formatValues_pair {t u : Token} (ht : t.isWhitespace = false)
    (hu : u.isWhitespace = false) :
    formatValues false [.token t, .token u] =
      String.ofList (tokenText false t ++ tokenText false u) := by
  have hfirst : (Value.token t).isWhitespace = false := ht
  have hsecond : (Value.token u).isWhitespace = false := hu
  simp [formatValues, valuesText, valuesAfter, hfirst, hsecond, valueText]

/-- A dimension of a source is read back from what it is written as exactly when the written unit is
read as the unit. -/
theorem dimension_readBack_iff {source : String} {t : Token} (ht : t ∈ tokenize source)
    (htype : t.type = .dimension) :
    (tokenize (formatValues false [.token t])).map Token.unplaced = [t.unplaced, endToken] ↔
      t.keepsUnit = true := by
  have hgiven : t.Given := given_of_mem_tokenize ht (by simp [Token.isSound, htype])
  have hread := hgiven.tokensFrom_end_iff (List.length_pos_iff.mpr hgiven.tokenText_ne_nil)
    Position.start
  rw [formatValues_token hgiven.visible, tokenize_of_normal hgiven.normal, hread,
    Token.endsBefore_nil_of_dimension htype]

/-- A unit that was spelled with a code and with an escaped blank. -/
theorem dimension_readBack_escapedUnit :
    (⟨.dimension, "1.5", Position.start, .measure false "p "⟩ : Token) ∈ tokenize "1.5\\70\\ " ∧
      (tokenize (formatValues false
          [.token ⟨.dimension, "1.5", Position.start, .measure false "p "⟩])).map Token.unplaced =
        [⟨.dimension, "1.5", Position.none, .measure false "p "⟩, endToken] := by
  have hmem : (⟨.dimension, "1.5", Position.start, .measure false "p "⟩ : Token) ∈
      tokenize "1.5\\70\\ " := by
    decide +kernel
  exact ⟨hmem, (dimension_readBack_iff hmem rfl).mpr (by decide +kernel)⟩

/-- Written without its escape, a unit that looks like an exponent becomes one. -/
theorem dimension_readAs_number :
    ¬ ∀ (source : String) (t : Token), t ∈ tokenize source → t.type = .dimension →
      (tokenize (formatValues false [.token t])).map Token.unplaced = [t.unplaced, endToken] := by
  intro hread
  have hmem : (⟨.dimension, "1", Position.start, .measure true "e3"⟩ : Token) ∈
      tokenize "1\\65 3" := by
    decide +kernel
  have hnumber : (tokenize (formatValues false
      [.token ⟨.dimension, "1", Position.start, .measure true "e3"⟩])).map Token.unplaced =
        [⟨.number, "1e3", Position.none, .numeral false⟩, endToken] := by
    decide +kernel
  rw [hread _ _ hmem rfl] at hnumber
  exact absurd hnumber (by decide)

/-- Two sound tokens that stand side by side among the tokens of a source, with at most comments
between them, are read back from what they are written as exactly when the first one ends where the
text of the second begins, and the second at the end. -/
theorem pair_readBack_iff {source : String} {front back : List Token} {t u : Token}
    (hsource : tokenize source = front ++ t :: u :: back) (ht : t.isSound = true)
    (hu : u.isSound = true) :
    (tokenize (formatValues false [.token t, .token u])).map Token.unplaced =
        [t.unplaced, u.unplaced, endToken] ↔
      t.endsBefore (tokenText false u) = true ∧ u.endsBefore [] = true := by
  have hmem : t ∈ tokenize source ∧ u ∈ tokenize source := by simp [hsource]
  have hfirst := given_of_mem_tokenize hmem.1 ht
  have hsecond := given_of_mem_tokenize hmem.2 hu
  rw [formatValues_pair hfirst.visible hsecond.visible, hfirst.tokenize_pair_iff hsecond]

/-- A name with an escaped sign, and behind a comment a number with a sign. -/
theorem pair_readBack_signs :
    tokenize "a\\+/**/+1" =
        [] ++ ⟨.ident, "a+", Position.start, .none⟩ :: ⟨.number, "+1", ⟨1, 8, 7⟩, .numeral true⟩ ::
          [⟨.eof, "", ⟨1, 10, 9⟩, .none⟩] ∧
      (tokenize (formatValues false [.token ⟨.ident, "a+", Position.start, .none⟩,
          .token ⟨.number, "+1", ⟨1, 8, 7⟩, .numeral true⟩])).map Token.unplaced =
        [⟨.ident, "a+", Position.none, .none⟩, ⟨.number, "+1", Position.none, .numeral true⟩,
          endToken] := by
  have hsource : tokenize "a\\+/**/+1" =
      [] ++ ⟨.ident, "a+", Position.start, .none⟩ :: ⟨.number, "+1", ⟨1, 8, 7⟩, .numeral true⟩ ::
        [⟨.eof, "", ⟨1, 10, 9⟩, .none⟩] := by
    decide +kernel
  exact ⟨hsource, (pair_readBack_iff hsource rfl rfl).mpr (by decide +kernel)⟩

/-- Without the comment between them two names are one. -/
theorem pair_readAs_name :
    ¬ ∀ (source : String) (front back : List Token) (t u : Token),
      tokenize source = front ++ t :: u :: back → t.isSound = true → u.isSound = true →
      (tokenize (formatValues false [.token t, .token u])).map Token.unplaced =
        [t.unplaced, u.unplaced, endToken] := by
  intro hread
  have hsource : tokenize "a/**/b" =
      [] ++ ⟨.ident, "a", Position.start, .none⟩ :: ⟨.ident, "b", ⟨1, 6, 5⟩, .none⟩ ::
        [⟨.eof, "", ⟨1, 7, 6⟩, .none⟩] := by
    decide +kernel
  have hname : (tokenize (formatValues false [.token ⟨.ident, "a", Position.start, .none⟩,
      .token ⟨.ident, "b", ⟨1, 6, 5⟩, .none⟩])).map Token.unplaced =
        [⟨.ident, "ab", Position.none, .none⟩, endToken] := by
    decide +kernel
  rw [hread _ _ _ _ _ hsource rfl rfl] at hname
  exact absurd hname (by decide)

end Cascade
