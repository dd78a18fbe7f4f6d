import Cascade.Proofs.Lexemes

/-!
# Texts of tokens

Tokens written one behind the other are read back as they were, as long as every
token ends where the text of the next one begins.

**Method.**  `Token.Readable` holds for the tokens that a text can give, with one
constructor for each family of them, and `Token.stopsBefore` tells whether a token
ends before a text.  `Joined` asks for this at every token of a list.

**Results.**
* `lexes_tokenText`: a readable token is read back before a text that it stops at.
* `tokenize_textOf`: so is a joined list of readable tokens.
-/

namespace Cascade
open Lexer Output

/-- The text of a name, string or address holds no null character. -/
def NullFree (s : List Char) : Prop :=
  ∀ c ∈ s, c.toNat ≠ 0

/-- The tokens that can be read back from the text they are written as. -/
inductive Token.Readable : Token → Prop
  | space {p : Position} : Readable ⟨.whitespace, " ", p, .none⟩
  | ident {s : List Char} {p : Position} :
      NullFree s → s ≠ [] → Readable ⟨.ident, String.ofList s, p, .none⟩
  | function {s : List Char} {p : Position} :
      NullFree s → s ≠ [] → Readable ⟨.function, String.ofList s, p, .none⟩
  | atKeyword {s : List Char} {p : Position} :
      NullFree s → s ≠ [] → Readable ⟨.atKeyword, String.ofList s, p, .none⟩
  | idHash {s : List Char} {p : Position} :
      NullFree s → s ≠ [] → Readable ⟨.hash, String.ofList s, p, .name true⟩
  | hash {s : List Char} {p : Position} :
      NullFree s → s ≠ [] → startsIdent s = false →
      Readable ⟨.hash, String.ofList s, p, .name false⟩
  | string {s : List Char} {p : Position} (q : Quote) :
      NullFree s → Readable ⟨.string, String.ofList s, p, .quoted q⟩
  | url {s : List Char} {p : Position} :
      NullFree s → Readable ⟨.url, String.ofList s, p, .none⟩
  | number {p : Position} (n : Numeral) :
      Readable ⟨.number, String.ofList n.text, p, .numeral n.isInteger⟩
  | percentage {p : Position} (n : Numeral) :
      Readable ⟨.percentage, String.ofList n.text, p, .numeral n.isInteger⟩
  | dimension {unit : List Char} {p : Position} (n : Numeral) :
      NullFree unit → startsIdent unit = true →
      Readable ⟨.dimension, String.ofList n.text, p, .measure n.isInteger (String.ofList unit)⟩
  | delim {c : Char} {p : Position} :
      isDelimChar c = true → Readable ⟨.delim, String.ofList [c], p, .none⟩
  | punctuation {c : Char} {type : TokenType} {p : Position} :
      (c, type) ∈ Output.punctuation → Readable ⟨type, String.ofList [c], p, .none⟩
  | cdo {p : Position} : Readable ⟨.cdo, "<!--", p, .none⟩
  | cdc {p : Position} : Readable ⟨.cdc, "-->", p, .none⟩

/-- The numeral has an exponent. -/
def hasExponent (cs : List Char) : Bool :=
  cs.any fun c => c == 'e' || c == 'E'

/-- The token ends before the text: nothing of the text belongs to it. -/
def Token.stopsBefore (t : Token) (rest : List Char) : Bool :=
  match t.type with
  | .whitespace => !rest.head?.any isBlank
  | .ident =>
    !nameGoesOn rest && rest.head? != some '(' && !(t.text == "--" && rest.head? == some '>')
  | .function => Text.foldCase t.text != "url" || opensQuote rest
  | .atKeyword => !nameGoesOn rest
  | .hash => !nameGoesOn rest
  | .number =>
    !rest.head?.any isDigit && rest.head? != some '%' && !startsName rest &&
      !(t.detail == .numeral true && startsFraction rest)
  | .dimension =>
    !nameGoesOn rest &&
      (hasExponent t.text.toList || !startsExponent (escapeName t.unit.toList ++ rest))
  | .delim => t.text.toList.all fun c => delimStops c rest
  | _ => true

/-! ## Numbers and their units -/

theorem hasExponent_digits {ds : List Char} (h : ∀ c ∈ ds, isDigit c = true) :
    hasExponent ds = false := by
  simp only [hasExponent, List.any_eq_false, Bool.or_eq_true, beq_iff_eq, not_or]
  intro c hc
  have hne := isDigit_not_sign (h c hc)
  exact ⟨hne.2.2.2.1, hne.2.2.2.2⟩

theorem hasExponent_append (u v : List Char) :
    hasExponent (u ++ v) = (hasExponent u || hasExponent v) := by
  simp [hasExponent]

theorem hasExponent_text (n : Numeral) :
    hasExponent n.text = n.exponent.isSome := by
  have hsign : hasExponent n.sign.text = false := by
    cases n.sign <;> decide
  have hfraction : hasExponent (fractionText n.fraction) = false := by
    have hdigits := hasExponent_digits n.isDigit_fraction
    unfold fractionText
    split
    · rfl
    · simpa [hasExponent] using hdigits
  have hexponent : hasExponent n.exponentText = n.exponent.isSome := by
    unfold Numeral.exponentText
    cases n.exponent with
    | none => rfl
    | some x =>
      have hletter := x.isLetter
      simp [Exponent.text, hasExponent, hletter]
  simp [Numeral.text, hasExponent_append, hsign, hasExponent_digits n.isDigit_whole, hfraction,
    hexponent]

theorem isDigit_of_startsIdent {c : Char} {s : List Char} (h : startsIdent (c :: s) = true) :
    isDigit c = false := by
  unfold startsIdent at h
  split at h
  · simp_all
  · simp_all
  · rename_i heq
    rw [(List.cons.inj heq).1]
    decide
  · rename_i heq
    rw [(List.cons.inj heq).1]
    simpa using h

/-- A written name that starts as an identifier starts with no digit and no point. -/
theorem escapeName_head {unit : List Char} (hunit : NullFree unit) (hstart : startsIdent unit = true)
    (rest : List Char) :
    (escapeName unit ++ rest).head?.any isDigit = false ∧
      startsFraction (escapeName unit ++ rest) = false := by
  cases unit with
  | nil => exact absurd hstart (by decide)
  | cons c s =>
    simp only [escapeName, List.flatMap_cons, List.append_assoc]
    rcases escapeNameChar_cases (hunit c (by simp)) with ⟨hname, htext⟩ | ⟨-, u, htext, -⟩
    · have hpoint : c ≠ '.' := by
        rintro rfl
        exact absurd hname (by decide)
      rw [htext]
      exact ⟨isDigit_of_startsIdent hstart, startsFraction_cons_of_ne _ hpoint⟩
    · rw [htext]
      exact ⟨rfl, startsFraction_cons_of_ne _ (by decide)⟩

/-- Behind a numeral a unit is read as one, unless it looks like an exponent. -/
theorem endsBefore_unit {n : Numeral} {unit rest : List Char} (hunit : NullFree unit)
    (hstart : startsIdent unit = true)
    (hexponent : (hasExponent n.text || !startsExponent (escapeName unit ++ rest)) = true) :
    n.EndsBefore (escapeName unit ++ rest) := by
  obtain ⟨hdigit, hfraction⟩ := escapeName_head hunit hstart rest
  refine ⟨hdigit, fun hnone => ?_, fun _ => hfraction⟩
  rw [hasExponent_text, hnone] at hexponent
  simpa using hexponent

/-! ## Single tokens -/

theorem nameGoesOn_append_of_ne_nil {s : List Char} (hs : NullFree s) (hne : s ≠ [])
    (rest : List Char) :
    nameGoesOn (escapeName s ++ rest) = true := by
  obtain ⟨c, s, rfl⟩ := List.exists_cons_of_ne_nil hne
  simp only [escapeName, List.flatMap_cons, List.append_assoc]
  rcases escapeNameChar_cases (hs c (by simp)) with ⟨hname, htext⟩ | ⟨-, u, htext, hu⟩
  · simp [nameGoesOn, htext, hname]
  · simp [nameGoesOn, htext, hu.startsEscape]

theorem tokenText_punctuation {c : Char} {type : TokenType} (h : (c, type) ∈ Output.punctuation)
    {minify : Bool} {p : Position} :
    tokenText minify ⟨type, String.ofList [c], p, .none⟩ = [c] := by
  simp only [Output.punctuation, List.mem_cons, Prod.mk.injEq, List.not_mem_nil, or_false] at h
  rcases h with ⟨rfl, rfl⟩ | ⟨rfl, rfl⟩ | ⟨rfl, rfl⟩ | ⟨rfl, rfl⟩ | ⟨rfl, rfl⟩ | ⟨rfl, rfl⟩ |
    ⟨rfl, rfl⟩ | ⟨rfl, rfl⟩ | ⟨rfl, rfl⟩ <;> simp [tokenText]

/-- A readable token is read back before a text that it stops at. -/
theorem lexes_tokenText {t : Token} (ht : t.Readable) {rest : List Char}
    (hstop : t.stopsBefore rest = true) :
    Lexes (tokenText false t) t rest := by
  cases ht with
  | space =>
    have hrest : rest.head?.any isBlank = false := by
      simpa only [Token.stopsBefore, Bool.not_eq_true'] using hstop
    exact lexes_blanks (by simp [tokenText]) (by simp [tokenText, isBlank]) hrest _
  | ident hs hne =>
    simp only [Token.stopsBefore, Bool.and_eq_true, Bool.not_eq_true', bne_iff_ne] at hstop
    obtain ⟨⟨hname, hparen⟩, hcdc⟩ := hstop
    have hread := lexes_ident hs hne hname hparen (by rintro rfl; simpa using hcdc)
    simpa [tokenText] using hread _
  | function hs hne =>
    simp only [Token.stopsBefore, Bool.or_eq_true, bne_iff_ne] at hstop
    have hread := lexes_function hs hne (fun hurl => hstop.resolve_left (by simp [hurl]))
    simpa [tokenText] using hread _
  | atKeyword hs hne =>
    have hname : nameGoesOn rest = false := by simpa [Token.stopsBefore] using hstop
    simpa [tokenText] using lexes_atKeyword hs hne hname _
  | idHash hs hne =>
    have hname : nameGoesOn rest = false := by simpa [Token.stopsBefore] using hstop
    have hstart := startsName_escapeIdent hs hne rest
    have hread := lexes_hash (nameGoesOn_of_startsName hstart) hstart
      (fun p => name_escapeIdent hs p hname)
    simpa [tokenText, Token.isIdHash] using hread _
  | hash hs hne hident =>
    have hname : nameGoesOn rest = false := by simpa [Token.stopsBefore] using hstop
    have hread := lexes_hash (nameGoesOn_append_of_ne_nil hs hne rest)
      (startsName_escapeName hs hne hname) (fun p => name_escapeName hs p hname)
    rw [hident] at hread
    simpa [tokenText, Token.isIdHash] using hread _
  | string q hs => simpa [tokenText, Token.quote] using lexes_string q hs rest _
  | url hs => simpa [tokenText] using lexes_url hs rest _
  | number n =>
    simp only [Token.stopsBefore, Bool.and_eq_true, Bool.not_eq_true', bne_iff_ne] at hstop
    obtain ⟨⟨⟨hdigit, hpercent⟩, hname⟩, hfraction⟩ := hstop
    have hends : n.EndsBefore rest := by
      refine Numeral.endsBefore_of_not_startsName hdigit hname fun hinteger => ?_
      simpa [hinteger] using hfraction
    simpa [tokenText, numberText] using lexes_number n hends hname hpercent _
  | percentage n => simpa [tokenText, numberText] using lexes_percentage n rest _
  | dimension n hunit hstart =>
    simp only [Token.stopsBefore, Bool.and_eq_true, Bool.not_eq_true', String.toList_ofList,
      Token.unit] at hstop
    have hread := lexes_dimension n hunit hstart (endsBefore_unit hunit hstart hstop.2) hstop.1
    simpa [tokenText, numberText, Token.unit] using hread _
  | delim hc => simpa [tokenText] using lexes_delim hc (by simpa [Token.stopsBefore] using hstop) _
  | punctuation hc =>
    rw [tokenText_punctuation hc]
    exact lexes_punctuation hc rest _
  | cdo => exact lexes_cdo rest _
  | cdc => exact lexes_cdc rest _

/-! ## Written characters are normal -/

theorem isNormal_hexEscape {c d : Char} (hzero : c.toNat ≠ 0) (hascii : c.toNat < 128)
    (h : d ∈ hexEscape c) :
    isNormal d = true := by
  simp only [hexEscape, List.cons_append, List.mem_cons, List.mem_append, List.not_mem_nil,
    or_false] at h
  rcases h with rfl | hdigit | rfl
  · decide
  · have hall := (toDigits_ascii c.toNat hascii hzero).2.2.1
    have hhex := isHexDigit_iff.mp (List.all_eq_true.mp hall d hdigit)
    exact isNormal_of_code (by omega)
  · decide

theorem isNormal_of_not_control {c : Char} (hzero : c.toNat ≠ 0) (hcontrol : isControl c = false) :
    isNormal c = true := by
  rw [Bool.eq_false_iff, ne_eq, isControl_iff] at hcontrol
  exact isNormal_of_code (by omega)

/-- A written character is normal: it is the replacement character, a code, an escape or itself. -/
theorem isNormal_written {c d : Char} {u : List Char} (hzero : c.toNat ≠ 0)
    (hu : (isControl c = false ∧ (u = [c] ∨ u = ['\\', c])) ∨
      (c.toNat < 128 ∧ u = hexEscape c))
    (h : d ∈ u) :
    isNormal d = true := by
  rcases hu with ⟨hcontrol, rfl | rfl⟩ | ⟨hascii, rfl⟩
  · rw [List.mem_singleton.mp h]
    exact isNormal_of_not_control hzero hcontrol
  · rcases List.mem_cons.mp h with rfl | hd
    · decide
    · rw [List.mem_singleton.mp hd]
      exact isNormal_of_not_control hzero hcontrol
  · exact isNormal_hexEscape hzero hascii h

theorem isNormal_escapeNameChar {c d : Char} (hzero : c.toNat ≠ 0) (h : d ∈ escapeNameChar c) :
    isNormal d = true := by
  refine isNormal_written hzero ?_ h
  unfold escapeNameChar
  by_cases hcontrol : isControl c = true
  · have hcode := isControl_iff.mp hcontrol
    exact .inr ⟨by omega, by simp [hzero, hcontrol]⟩
  · refine .inl ⟨by simpa using hcontrol, ?_⟩
    by_cases hname : isNameChar c = true <;> simp [hzero, hcontrol, hname]

theorem isNormal_quoteStringChar {mark c d : Char} (hzero : c.toNat ≠ 0)
    (h : d ∈ quoteStringChar mark c) :
    isNormal d = true := by
  refine isNormal_written hzero ?_ h
  unfold quoteStringChar
  by_cases hcontrol : isControl c = true
  · have hcode := isControl_iff.mp hcontrol
    exact .inr ⟨by omega, by simp [hzero, hcontrol]⟩
  · refine .inl ⟨by simpa using hcontrol, ?_⟩
    by_cases hspecial : c = '\\' ∨ c = mark <;> simp [hzero, hcontrol, hspecial]

theorem isNormal_escapeUrlChar {c d : Char} (hzero : c.toNat ≠ 0) (h : d ∈ escapeUrlChar c) :
    isNormal d = true := by
  refine isNormal_written hzero ?_ h
  unfold escapeUrlChar
  by_cases hcode : isControl c = true ∨ c = ' ' ∨ c = '\t'
  · have hascii : c.toNat < 128 := by
      rw [isControl_iff] at hcode
      rcases hcode with hcontrol | rfl | rfl
      · omega
      · decide
      · decide
    exact .inr ⟨hascii, by simp [hzero, hcode]⟩
  · refine .inl ⟨by simpa using (not_or.mp hcode).1, ?_⟩
    by_cases hspecial : c = '\\' ∨ c = '"' ∨ c = '\'' ∨ c = '(' ∨ c = ')' <;>
      simp [hzero, hcode, hspecial]

theorem isNormal_escapeName {s : List Char} (hs : NullFree s) {d : Char} (h : d ∈ escapeName s) :
    isNormal d = true := by
  obtain ⟨c, hc, hd⟩ := List.mem_flatMap.mp h
  exact isNormal_escapeNameChar (hs c hc) hd

theorem isNormal_escapeStartChar {c d : Char} (hzero : c.toNat ≠ 0) (h : d ∈ escapeStartChar c) :
    isNormal d = true := by
  unfold escapeStartChar at h
  split at h
  · rename_i hdigit
    have hcode := isDigit_iff.mp hdigit
    exact isNormal_hexEscape hzero (by omega) h
  · exact isNormal_escapeNameChar hzero h

theorem isNormal_escapeIdent {s : List Char} (hs : NullFree s) {d : Char} (h : d ∈ escapeIdent s) :
    isNormal d = true := by
  by_cases hne : s = []
  · subst hne
    simp [escapeIdent] at h
  · rcases escapeIdent_cases hne with ⟨rfl, htext⟩ | ⟨c, t, rfl, htext⟩ | ⟨c, t, -, rfl, htext⟩
    · rw [htext] at h
      exact List.all_eq_true.mp (by decide) d h
    · rw [htext] at h
      rcases List.mem_cons.mp h with rfl | htail
      · decide
      · rcases List.mem_append.mp htail with hd | hd
        · exact isNormal_escapeStartChar (hs c (by simp)) hd
        · exact isNormal_escapeName (fun e he => hs e (by simp [he])) hd
    · rw [htext] at h
      rcases List.mem_append.mp h with hd | hd
      · exact isNormal_escapeStartChar (hs c (by simp)) hd
      · exact isNormal_escapeName (fun e he => hs e (by simp [he])) hd

theorem isNormal_of_isDigit {c : Char} (h : isDigit c = true) :
    isNormal c = true := by
  have hcode := isDigit_iff.mp h
  exact isNormal_of_code (by omega)

theorem isNormal_sign (s : Sign) {d : Char} (h : d ∈ s.text) :
    isNormal d = true := by
  have hall : s.text.all isNormal = true := by cases s <;> decide
  exact List.all_eq_true.mp hall d h

theorem isNormal_exponent (x : Exponent) {d : Char} (h : d ∈ x.text) :
    isNormal d = true := by
  simp only [Exponent.text, List.mem_cons, List.mem_append] at h
  rcases h with rfl | hsign | hdigit
  · rcases x.isLetter with hletter | hletter <;> (rw [hletter]; decide)
  · exact isNormal_sign _ hsign
  · exact isNormal_of_isDigit (x.isDigit_digits d hdigit)

theorem isNormal_numeral (n : Numeral) {d : Char} (h : d ∈ n.text) :
    isNormal d = true := by
  simp only [Numeral.text, List.mem_append] at h
  rcases h with ((hsign | hwhole) | hfraction) | hexponent
  · exact isNormal_sign _ hsign
  · exact isNormal_of_isDigit (n.isDigit_whole d hwhole)
  · unfold fractionText at hfraction
    split at hfraction
    · simp at hfraction
    · rcases List.mem_cons.mp hfraction with rfl | hd
      · decide
      · exact isNormal_of_isDigit (n.isDigit_fraction d hd)
  · unfold Numeral.exponentText at hexponent
    cases hx : n.exponent with
    | none => simp [hx] at hexponent
    | some x =>
      rw [hx] at hexponent
      exact isNormal_exponent x hexponent

/-- The text of a readable token is normal. -/
theorem isNormal_tokenText {t : Token} (ht : t.Readable) {d : Char} (h : d ∈ tokenText false t) :
    isNormal d = true := by
  cases ht with
  | space =>
    simp only [tokenText, List.mem_singleton] at h
    subst h
    decide
  | ident hs hne => exact isNormal_escapeIdent hs (by simpa [tokenText] using h)
  | function hs hne =>
    simp only [tokenText, String.toList_ofList, List.mem_append, List.mem_singleton] at h
    rcases h with hd | rfl
    · exact isNormal_escapeIdent hs hd
    · decide
  | atKeyword hs hne =>
    simp only [tokenText, String.toList_ofList, List.mem_cons] at h
    rcases h with rfl | hd
    · decide
    · exact isNormal_escapeIdent hs hd
  | idHash hs hne =>
    simp only [tokenText, Token.isIdHash, String.toList_ofList, List.mem_cons] at h
    rcases h with rfl | hd
    · decide
    · exact isNormal_escapeIdent hs hd
  | hash hs hne hident =>
    simp only [tokenText, Token.isIdHash, String.toList_ofList, List.mem_cons] at h
    rcases h with rfl | hd
    · decide
    · exact isNormal_escapeName hs hd
  | string q hs =>
    simp only [tokenText, Token.quote, quoteString, String.toList_ofList, List.mem_append,
      List.mem_cons, List.not_mem_nil, or_false] at h
    have hmark : isNormal q.char = true := by cases q <;> decide
    rcases h with (rfl | hd) | rfl
    · exact hmark
    · obtain ⟨c, hc, hd⟩ := List.mem_flatMap.mp hd
      exact isNormal_quoteStringChar (hs c hc) hd
    · exact hmark
  | url hs =>
    simp only [tokenText, String.toList_ofList, List.mem_append, List.mem_singleton] at h
    rcases h with (hopen | hd) | rfl
    · exact List.all_eq_true.mp (by decide) d hopen
    · obtain ⟨c, hc, hd⟩ := List.mem_flatMap.mp hd
      exact isNormal_escapeUrlChar (hs c hc) hd
    · decide
  | number n => exact isNormal_numeral n (by simpa [tokenText, numberText] using h)
  | percentage n =>
    simp only [tokenText, numberText, List.mem_append, List.mem_singleton] at h
    rcases h with hd | rfl
    · exact isNormal_numeral n (by simpa using hd)
    · decide
  | dimension n hunit hstart =>
    simp only [tokenText, numberText, Token.unit, List.mem_append] at h
    rcases h with hd | hd
    · exact isNormal_numeral n (by simpa using hd)
    · exact isNormal_escapeName hunit (by simpa using hd)
  | delim hc =>
    simp only [tokenText, String.toList_ofList, List.mem_singleton] at h
    subst h
    simp only [isDelimChar, Bool.and_eq_true] at hc
    exact hc.1.1.1.1
  | punctuation hc =>
    rw [tokenText_punctuation hc, List.mem_singleton] at h
    subst h
    have hall : ∀ e ∈ Output.punctuation, isNormal e.1 = true := by decide
    exact hall _ hc
  | cdo =>
    have hall : "<!--".toList.all isNormal = true := by decide
    exact List.all_eq_true.mp hall d h
  | cdc =>
    have hall : "-->".toList.all isNormal = true := by decide
    exact List.all_eq_true.mp hall d h

/-! ## Lists of tokens -/

/-- The text of a list of tokens. -/
def textOf (ts : List Token) : List Char :=
  ts.flatMap (tokenText false)

@[simp] theorem textOf_nil :
    textOf [] = [] := by
  rfl

@[simp] theorem textOf_cons (t : Token) (ts : List Token) :
    textOf (t :: ts) = tokenText false t ++ textOf ts := by
  rfl

/-- Every token ends where the text of the next one begins. -/
def Joined : List Token → Prop
  | [] => True
  | t :: ts => t.stopsBefore (textOf ts) = true ∧ Joined ts

/-- The token without its place. -/
def Token.unplaced (t : Token) : Token :=
  { t with position := Position.none }

/-- The end token without its place. -/
def endToken : Token :=
  ⟨.eof, "", Position.none, .none⟩

theorem tokensFrom_end (n : Nat) (p : Position) :
    tokensFrom n ⟨[], p⟩ = [⟨.eof, "", p, .none⟩] := by
  cases n with
  | zero => rfl
  | succ n =>
    rw [tokensFrom, skipComments_of_not_startsComment rfl]
    rfl

theorem tokensFrom_nil (n : Nat) (p : Position) :
    (tokensFrom n ⟨[], p⟩).map Token.unplaced = [endToken] := by
  rw [tokensFrom_end]
  rfl

/-- Every token is written with at least one character. -/
theorem tokenText_ne_nil {t : Token} (ht : t.Readable) :
    tokenText false t ≠ [] := by
  cases ht with
  | ident _ hne => simpa [tokenText] using escapeIdent_ne_nil hne
  | number n => simpa [tokenText, numberText] using n.text_ne_nil
  | percentage n => simp [tokenText, numberText]
  | dimension n hunit hstart => simp [tokenText, numberText, n.text_ne_nil]
  | punctuation hc =>
    rw [tokenText_punctuation hc]
    exact List.cons_ne_nil _ _
  | _ => simp [tokenText, quoteString]

/-- A joined list of readable tokens is read back. -/
theorem tokensFrom_textOf {ts : List Token} (hts : ∀ t ∈ ts, t.Readable) (hjoined : Joined ts)
    {n : Nat} (hn : (textOf ts).length ≤ n) (p : Position) :
    (tokensFrom n ⟨textOf ts, p⟩).map Token.unplaced = ts.map Token.unplaced ++ [endToken] := by
  induction ts generalizing n p with
  | nil => exact tokensFrom_nil n p
  | cons t ts ih =>
    have ht := hts t (by simp)
    have hpos := List.length_pos_iff.mpr (tokenText_ne_nil ht)
    simp only [textOf_cons, List.length_append] at hn ⊢
    obtain ⟨n, rfl⟩ : ∃ k, n = k + 1 := ⟨n - 1, by omega⟩
    rw [(lexes_tokenText ht hjoined.1).tokensFrom n p, List.map_cons,
      ih (fun u hu => hts u (by simp [hu])) hjoined.2 (by omega)]
    rfl

/-- Tokens written one behind the other are read back, up to their places. -/
theorem tokenize_textOf {ts : List Token} (hts : ∀ t ∈ ts, t.Readable) (hjoined : Joined ts) :
    (tokenize (String.ofList (textOf ts))).map Token.unplaced =
      ts.map Token.unplaced ++ [endToken] := by
  have hnormal : normalize (textOf ts) = textOf ts := by
    refine normalize_of_isNormal fun c hc => ?_
    obtain ⟨t, ht, hc⟩ := List.mem_flatMap.mp hc
    exact isNormal_tokenText (hts t ht) hc
  rw [tokenize, String.toList_ofList, hnormal]
  exact tokensFrom_textOf hts hjoined (Nat.le_refl _) _

end Cascade
