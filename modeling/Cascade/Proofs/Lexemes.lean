import Cascade.Output.Values
import Cascade.Proofs.Escapes

/-!
# Reading tokens back

A list of tokens, written one behind the other, is read back as it was, as long
as every token ends where the text of the next one begins.

**Method.**  `Token.Readable` holds for the tokens that a text can give, and
`Token.stopsBefore` tells whether a token ends before a text.  `Lexer.Lexes u t
rest` says that the lexer reads the token `t` from `u` where `rest` follows; one
lemma for each family of tokens shows that a readable token is read from its own
text.

**Results.**
* `lexes_tokenText`: a readable token is read back before a text that it stops at.
* `tokenize_textOf`: so is a list of them, if it is `Joined`.
-/

namespace Cascade
namespace Lexer

/-! ## One step of the lexer -/

/-- The characters that a normalized text can hold. -/
def isNormal (c : Char) : Bool :=
  c != '\r' && c != '\x0c' && c != '\x00'

theorem isNormal_of_code {c : Char} (h : 32 ≤ c.toNat) :
    isNormal c = true := by
  simp only [isNormal, Bool.and_eq_true, bne_iff_ne]
  refine ⟨⟨?_, ?_⟩, ?_⟩ <;> (rintro rfl; exact absurd h (by decide))

/-- A text that is normal stays as it is. -/
theorem normalize_of_isNormal {cs : List Char} (h : ∀ c ∈ cs, isNormal c = true) :
    normalize cs = cs := by
  fun_induction normalize cs with
  | case1 => rfl
  | case2 rest ih => exact absurd (h '\r' (by simp)) (by decide)
  | case3 c rest hne ih =>
    have hc := h c (by simp)
    simp only [isNormal, Bool.and_eq_true, bne_iff_ne] at hc
    rw [ih (fun d hd => h d (by simp [hd]))]
    simp [hc.1.1, hc.1.2, hc.2]

/-- Normalizing leaves no other characters. -/
theorem isNormal_of_mem_normalize {c : Char} {cs : List Char} (h : c ∈ normalize cs) :
    isNormal c = true := by
  fun_induction normalize cs with
  | case1 => simp at h
  | case2 rest ih =>
    rcases List.mem_cons.mp h with rfl | hrest
    · decide
    · exact ih hrest
  | case3 d rest hne ih =>
    rcases List.mem_cons.mp h with rfl | hrest
    · split
      · decide
      · split
        · decide
        · simp_all [isNormal]
    · exact ih hrest

/-- The text starts with a comment. -/
def startsComment : List Char → Bool
  | '/' :: '*' :: _ => true
  | _ => false

theorem skipComments_of_not_startsComment {i : Input} (h : startsComment i.chars = false) :
    skipComments i = i := by
  rw [skipComments]
  split
  · rename_i rest hchars
    rw [hchars] at h
    exact absurd h (by simp [startsComment])
  · rfl

/-- The lexer reads the token `t` from `u` where `rest` follows. -/
def Lexes (u : List Char) (t : Token) (rest : List Char) : Prop :=
  ∃ c cs, u ++ rest = c :: cs ∧ startsComment (c :: cs) = false ∧
    ∀ p, token ⟨c :: cs, p⟩ c = ({ t with position := p }, ⟨rest, p.afterAll u⟩)

theorem lexes_of_token {u rest cs : List Char} {t : Token} {c : Char} (hcs : u ++ rest = c :: cs)
    (hcomment : startsComment (c :: cs) = false)
    (h : ∀ p, token ⟨c :: cs, p⟩ c = ({ t with position := p }, ⟨rest, p.afterAll u⟩)) :
    Lexes u t rest :=
  ⟨c, cs, hcs, hcomment, h⟩

/-- Having read a token, the lexer goes on behind it. -/
theorem Lexes.tokensFrom {u rest : List Char} {t : Token} (h : Lexes u t rest) (n : Nat)
    (p : Position) :
    tokensFrom (n + 1) ⟨u ++ rest, p⟩ =
      { t with position := p } :: tokensFrom n ⟨rest, p.afterAll u⟩ := by
  obtain ⟨c, cs, hcs, hcomment, htoken⟩ := h
  rw [hcs, Lexer.tokensFrom, skipComments_of_not_startsComment hcomment]
  simp only [htoken p]

theorem startsComment_cons_of_ne {c : Char} (cs : List Char) (h : c ≠ '/') :
    startsComment (c :: cs) = false := by
  unfold startsComment
  split <;> simp_all

/-! ## The first character of a token -/

/-- The characters that start a token of a kind of their own. -/
def isMarked (c : Char) : Bool :=
  isBlank c || isQuote c ||
    ['#', '(', ')', '[', ']', '\x7b', '\x7d', ',', ':', ';', '-', '<', '@'].contains c

theorem isMarked_iff {c : Char} :
    isMarked c = true ↔ c.toNat ∈ [32, 9, 10, 34, 39, 35, 40, 41, 91, 93, 123, 125, 44, 58, 59, 45,
      60, 64] := by
  simp [isMarked, isBlank_iff, isQuote, ← Char.toNat_inj, or_assoc]

theorem isMarked_of_isDigit {c : Char} (h : isDigit c = true) :
    isMarked c = false ∧ c ≠ '/' := by
  rw [isDigit_iff] at h
  rw [Bool.eq_false_iff, ne_eq, isMarked_iff, ne_eq, ← Char.toNat_inj]
  simp
  omega

theorem isMarked_of_isNameStart {c : Char} (h : isNameStart c = true) :
    isMarked c = false ∧ c ≠ '/' := by
  rw [isNameStart_iff] at h
  rw [Bool.eq_false_iff, ne_eq, isMarked_iff, ne_eq, ← Char.toNat_inj]
  simp
  omega

theorem token_unmarked {c : Char} (i : Input) (h : isMarked c = false) :
    token i c =
      if startsNumber i.chars then numeric i
      else if startsName i.chars then identLike i
      else single i c .delim := by
  simp only [isMarked, isQuote, Bool.or_eq_false_iff, List.contains_eq_mem, List.mem_cons,
    List.not_mem_nil, or_false, decide_eq_false_iff_not, not_or, beq_eq_false_iff_ne] at h
  unfold token
  rw [if_neg (by simp [h.1.1])]
  split <;> simp_all

theorem token_hyphen (i : Input) :
    token i '-' =
      if startsNumber i.chars then numeric i
      else if ['-', '-', '>'].isPrefixOf i.chars then (tokenAt i .cdc ['-', '-', '>'], i.drop 3)
      else if startsName i.chars then identLike i
      else single i '-' .delim := by
  rfl

theorem token_hash (i : Input) :
    token i '#' =
      if nameGoesOn i.advance.chars then
        (tokenAt i .hash (name i.advance).1 (.name (startsName i.advance.chars)),
          (name i.advance).2)
      else
        single i '#' .delim := by
  rfl

theorem token_at (i : Input) :
    token i '@' =
      if startsName i.advance.chars then
        (tokenAt i .atKeyword (name i.advance).1, (name i.advance).2)
      else
        single i '@' .delim := by
  rfl

theorem token_angle (i : Input) :
    token i '<' =
      if ['<', '!', '-', '-'].isPrefixOf i.chars then
        (tokenAt i .cdo ['<', '!', '-', '-'], i.drop 4)
      else
        single i '<' .delim := by
  rfl

theorem startsUnsigned_cons {c : Char} (cs : List Char) (hdigit : isDigit c = false)
    (hpoint : c ≠ '.') :
    startsUnsigned (c :: cs) = false := by
  simp [startsUnsigned, hdigit, startsFraction_cons_of_ne cs hpoint]

/-- Where a number starts, the token is numeric. -/
theorem token_of_startsNumber {c : Char} {cs : List Char} (p : Position)
    (h : startsNumber (c :: cs) = true) :
    c ≠ '/' ∧ token ⟨c :: cs, p⟩ c = numeric ⟨c :: cs, p⟩ := by
  by_cases hhyphen : c = '-'
  · subst hhyphen
    rw [token_hyphen, if_pos h]
    exact ⟨by decide, rfl⟩
  · have hc : isDigit c = true ∨ c = '+' ∨ c = '.' := by
      by_cases hplus : c = '+'
      · exact .inr (.inl hplus)
      · by_cases hpoint : c = '.'
        · exact .inr (.inr hpoint)
        · by_cases hdigit : isDigit c = true
          · exact .inl hdigit
          · simp [startsNumber, hplus, hhyphen, startsUnsigned_cons cs (by simpa using hdigit) hpoint]
              at h
    have hmarked : isMarked c = false ∧ c ≠ '/' := by
      rcases hc with hdigit | rfl | rfl
      · exact isMarked_of_isDigit hdigit
      · decide
      · decide
    rw [token_unmarked _ hmarked.1, if_pos h]
    exact ⟨hmarked.2, rfl⟩

theorem startsNumber_cons {c : Char} (cs : List Char) (hplus : c ≠ '+') (hhyphen : c ≠ '-')
    (hdigit : isDigit c = false) (hpoint : c ≠ '.') :
    startsNumber (c :: cs) = false := by
  simp [startsNumber, hplus, hhyphen, startsUnsigned_cons cs hdigit hpoint]

/-- Where a name starts that is no end of a comment of old, the token is like an identifier. -/
theorem token_of_startsName {c : Char} {cs : List Char} (p : Position)
    (hname : startsName (c :: cs) = true) (hnumber : startsNumber (c :: cs) = false)
    (hcdc : ['-', '-', '>'].isPrefixOf (c :: cs) = false) :
    c ≠ '/' ∧ token ⟨c :: cs, p⟩ c = identLike ⟨c :: cs, p⟩ := by
  by_cases hhyphen : c = '-'
  · subst hhyphen
    rw [token_hyphen, if_neg (by simp [hnumber]), if_neg (by simp [hcdc]), if_pos hname]
    exact ⟨by decide, rfl⟩
  · have hmarked : isMarked c = false ∧ c ≠ '/' := by
      by_cases hbackslash : c = '\\'
      · subst hbackslash
        decide
      · rw [startsName_cons cs hhyphen hbackslash] at hname
        exact isMarked_of_isNameStart hname
    rw [token_unmarked _ hmarked.1, if_neg (by simp [hnumber]), if_pos hname]
    exact ⟨hmarked.2, rfl⟩

theorem lexes_of_startsNumber {u rest : List Char} {t : Token}
    (hnumber : startsNumber (u ++ rest) = true)
    (h : ∀ p, numeric ⟨u ++ rest, p⟩ = ({ t with position := p }, ⟨rest, p.afterAll u⟩)) :
    Lexes u t rest := by
  cases hcs : u ++ rest with
  | nil => simp [hcs, startsNumber] at hnumber
  | cons c cs =>
    rw [hcs] at hnumber h
    have htoken := fun p => token_of_startsNumber p hnumber
    refine lexes_of_token hcs (startsComment_cons_of_ne cs (htoken Position.start).1) fun p => ?_
    rw [(htoken p).2, h p]

theorem lexes_of_startsName {u rest : List Char} {t : Token}
    (hname : startsName (u ++ rest) = true) (hnumber : startsNumber (u ++ rest) = false)
    (hcdc : ['-', '-', '>'].isPrefixOf (u ++ rest) = false)
    (h : ∀ p, identLike ⟨u ++ rest, p⟩ = ({ t with position := p }, ⟨rest, p.afterAll u⟩)) :
    Lexes u t rest := by
  cases hcs : u ++ rest with
  | nil => simp [hcs, startsName] at hname
  | cons c cs =>
    rw [hcs] at hname hnumber hcdc h
    have htoken := fun p => token_of_startsName p hname hnumber hcdc
    refine lexes_of_token hcs (startsComment_cons_of_ne cs (htoken Position.start).1) fun p => ?_
    rw [(htoken p).2, h p]

/-! ## Numbers -/

theorem Numeral.endsBefore_of_not_startsName {n : Numeral} {rest : List Char}
    (hdigit : rest.head?.any isDigit = false) (hname : startsName rest = false)
    (hfraction : n.isInteger = true → startsFraction rest = false) :
    n.EndsBefore rest := by
  refine ⟨hdigit, fun _ => ?_, hfraction⟩
  match rest with
  | [] => rfl
  | [_] => rfl
  | e :: c :: cs =>
    have hletter : e ≠ 'e' ∧ e ≠ 'E' := by
      constructor <;>
        (rintro rfl
         rw [startsName_of_isNameStart _ (by decide)] at hname
         exact absurd hname (by decide))
    simp [startsExponent, hletter]

theorem lexes_number (n : Numeral) {rest : List Char} (hends : n.EndsBefore rest)
    (hname : startsName rest = false) (hpercent : rest.head? ≠ some '%') (q : Position) :
    Lexes n.text ⟨.number, String.ofList n.text, q, .numeral n.isInteger⟩ rest := by
  refine lexes_of_startsNumber (startsNumber_text n rest) fun p => ?_
  simp only [numeric, numeral_text n p hends, hname, Input.peek?, if_neg hpercent]
  rfl

theorem Numeral.endsBefore_percent (n : Numeral) (rest : List Char) :
    n.EndsBefore ('%' :: rest) := by
  refine endsBefore_of_not_startsName ?_ (startsName_cons _ (by decide) (by decide)) fun _ => ?_
  · rfl
  · exact startsFraction_cons_of_ne _ (by decide)

theorem lexes_percentage (n : Numeral) (rest : List Char) (q : Position) :
    Lexes (n.text ++ ['%']) ⟨.percentage, String.ofList n.text, q, .numeral n.isInteger⟩ rest := by
  have hsplit : n.text ++ ['%'] ++ rest = n.text ++ '%' :: rest := by simp
  have hname : startsName ('%' :: rest) = false := startsName_cons _ (by decide) (by decide)
  refine lexes_of_startsNumber (by rw [hsplit]; exact startsNumber_text n _) fun p => ?_
  rw [hsplit]
  simp [numeric, numeral_text n p (n.endsBefore_percent rest), hname, Input.peek?, tokenAt,
    Input.advance_cons]

end Lexer

namespace Output
open Lexer

/-! ## Written names -/

/-- A written character starts with a character of a name or with a backslash. -/
theorem escapeNameChar_head {c : Char} (h : c.toNat ≠ 0) :
    ∃ d ds, escapeNameChar c = d :: ds ∧ (isNameChar d = true ∨ d = '\\') := by
  rcases escapeNameChar_cases h with ⟨hname, htext⟩ | ⟨-, u, htext, -⟩
  · exact ⟨c, [], htext, .inl hname⟩
  · exact ⟨'\\', u, htext, .inr rfl⟩

theorem escapeStartChar_head {c : Char} (h : c.toNat ≠ 0) :
    ∃ d ds, escapeStartChar c = d :: ds ∧
      ((isNameChar d = true ∧ isDigit d = false) ∨ d = '\\') := by
  rcases escapeStartChar_cases h with ⟨hname, hdigit, htext⟩ | ⟨u, htext, -⟩
  · exact ⟨c, [], htext, .inl ⟨hname, hdigit⟩⟩
  · exact ⟨'\\', u, htext, .inr rfl⟩

theorem startsUnsigned_escapeStartChar {c : Char} (h : c.toNat ≠ 0) (rest : List Char) :
    startsUnsigned (escapeStartChar c ++ rest) = false := by
  obtain ⟨d, ds, htext, ⟨hname, hdigit⟩ | rfl⟩ := escapeStartChar_head h
  · rw [htext]
    refine startsUnsigned_cons _ hdigit ?_
    rintro rfl
    exact absurd hname (by decide)
  · rw [htext]
    exact startsUnsigned_cons _ (by decide) (by decide)

/-- A written identifier is no number. -/
theorem startsNumber_escapeIdent {s : List Char} (hs : ∀ c ∈ s, c.toNat ≠ 0) (hne : s ≠ [])
    (rest : List Char) :
    startsNumber (escapeIdent s ++ rest) = false := by
  rcases escapeIdent_cases hne with ⟨rfl, htext⟩ | ⟨c, t, rfl, htext⟩ | ⟨c, t, hc, rfl, htext⟩
  · rw [htext]
    rfl
  · rw [htext, List.cons_append, List.append_assoc]
    exact startsUnsigned_escapeStartChar (hs c (by simp)) _
  · rw [htext, List.append_assoc]
    rcases escapeStartChar_cases (hs c (by simp)) with ⟨hname, hdigit, htext⟩ | ⟨u, htext, hu⟩
    · rw [htext, List.singleton_append]
      refine startsNumber_cons _ ?_ hc hdigit ?_ <;> (rintro rfl; exact absurd hname (by decide))
    · rw [htext, List.cons_append]
      exact startsNumber_cons _ (by decide) (by decide) (by decide) (by decide)

/-- Only two hyphens before an angle look like the end of a comment of old. -/
theorem cdc_escapeIdent {s rest : List Char} (hs : ∀ c ∈ s, c.toNat ≠ 0) (hne : s ≠ [])
    (hcdc : s = ['-', '-'] → rest.head? ≠ some '>') :
    ['-', '-', '>'].isPrefixOf (escapeIdent s ++ rest) = false := by
  rcases escapeIdent_cases hne with ⟨rfl, htext⟩ | ⟨c, t, rfl, htext⟩ | ⟨c, t, hc, rfl, htext⟩
  · rw [htext]
    rfl
  · rw [htext, List.cons_append, List.append_assoc]
    rcases escapeStartChar_cases (hs c (by simp)) with ⟨-, -, hstart⟩ | ⟨u, hstart, -⟩
    · rw [hstart]
      by_cases hhyphen : c = '-'
      · subst hhyphen
        cases t with
        | nil =>
          cases rest with
          | nil => rfl
          | cons d ds =>
            have hangle : '>' ≠ d := fun heq => hcdc rfl (by rw [heq]; rfl)
            simp [escapeName, List.isPrefixOf, hangle]
        | cons d t =>
          obtain ⟨e, es, hd, hhead⟩ := escapeNameChar_head (hs d (by simp))
          have hangle : '>' ≠ e := by
            rintro rfl
            exact absurd hhead (by decide)
          simp [escapeName, hd, List.isPrefixOf, hangle]
      · simp [List.isPrefixOf, Ne.symm hhyphen]
    · simp [hstart, List.isPrefixOf]
  · rw [htext, List.append_assoc]
    rcases escapeStartChar_cases (hs c (by simp)) with ⟨-, -, hstart⟩ | ⟨u, hstart, -⟩
    · simp [hstart, List.isPrefixOf, Ne.symm hc]
    · simp [hstart, List.isPrefixOf]

theorem lexes_dimension (n : Numeral) {unit rest : List Char} (hunit : ∀ c ∈ unit, c.toNat ≠ 0)
    (hstart : startsIdent unit = true) (hends : n.EndsBefore (escapeName unit ++ rest))
    (hrest : nameGoesOn rest = false) (q : Position) :
    Lexes (n.text ++ escapeName unit)
      ⟨.dimension, String.ofList n.text, q, .measure n.isInteger (String.ofList unit)⟩ rest := by
  have hne : unit ≠ [] := by
    rintro rfl
    exact absurd hstart (by decide)
  have hname : startsName (escapeName unit ++ rest) = true := by
    rw [startsName_escapeName hunit hne hrest, hstart]
  refine lexes_of_startsNumber (by rw [List.append_assoc]; exact startsNumber_text n _) fun p => ?_
  rw [List.append_assoc]
  simp [numeric, numeral_text n p hends, hname, name_escapeName hunit _ hrest, tokenAt]

theorem nameGoesOn_paren (cs : List Char) :
    nameGoesOn ('(' :: cs) = false := by
  have hparen : isNameChar '(' = false := by decide
  simp [nameGoesOn, hparen, startsEscape]

theorem lexes_ident {s rest : List Char} (hs : ∀ c ∈ s, c.toNat ≠ 0) (hne : s ≠ [])
    (hrest : nameGoesOn rest = false) (hparen : rest.head? ≠ some '(')
    (hcdc : s = ['-', '-'] → rest.head? ≠ some '>') (q : Position) :
    Lexes (escapeIdent s) ⟨.ident, String.ofList s, q, .none⟩ rest := by
  refine lexes_of_startsName (startsName_escapeIdent hs hne rest)
    (startsNumber_escapeIdent hs hne rest) (cdc_escapeIdent hs hne hcdc) fun p => ?_
  simp [identLike, name_escapeIdent hs p hrest, Input.peek?, hparen, tokenAt]

/-- What stands between the parenthesis of an address and its first mark: at most one blank. -/
def opensQuote : List Char → Bool
  | [] => false
  | c :: cs => isQuote c || (isBlank c && cs.head?.any isQuote)

theorem isBlank_of_isQuote {c : Char} (h : isQuote c = true) :
    isBlank c = false := by
  simp only [isQuote, Bool.or_eq_true, beq_iff_eq] at h
  rcases h with rfl | rfl <;> decide

/-- A function whose name is that of addresses is one before a string only. -/
theorem urlOrFunction_function {s rest : List Char} (i : Input) (p : Position)
    (h : Text.foldCase (String.ofList s) = "url" → opensQuote rest = true) :
    urlOrFunction i s ⟨rest, p⟩ = (tokenAt i .function s, ⟨rest, p⟩) := by
  unfold urlOrFunction
  by_cases hurl : Text.foldCase (String.ofList s) = "url"
  · have hquote := h hurl
    cases rest with
    | nil => exact absurd hquote (by decide)
    | cons c cs =>
      simp only [opensQuote, Bool.or_eq_true, Bool.and_eq_true] at hquote
      rcases hquote with hc | ⟨hc, hhead⟩
      · simp [hurl, Input.span, isBlank_of_isQuote hc, Input.peek?, hc, Input.drop]
      · cases cs with
        | nil => simp at hhead
        | cons d ds =>
          have hd : isQuote d = true := by simpa using hhead
          simp [hurl, Input.span, hc, isBlank_of_isQuote hd, Input.peek?, hd, Input.drop]
  · simp [hurl]

theorem lexes_function {s rest : List Char} (hs : ∀ c ∈ s, c.toNat ≠ 0) (hne : s ≠ [])
    (h : Text.foldCase (String.ofList s) = "url" → opensQuote rest = true) (q : Position) :
    Lexes (escapeIdent s ++ ['(']) ⟨.function, String.ofList s, q, .none⟩ rest := by
  have hsplit : escapeIdent s ++ ['('] ++ rest = escapeIdent s ++ '(' :: rest := by simp
  refine lexes_of_startsName (hsplit ▸ startsName_escapeIdent hs hne _)
    (hsplit ▸ startsNumber_escapeIdent hs hne _)
    (hsplit ▸ cdc_escapeIdent hs hne fun _ => by simp) fun p => ?_
  rw [hsplit]
  simp [identLike, name_escapeIdent hs p (nameGoesOn_paren rest), Input.peek?, Input.advance_cons,
    urlOrFunction_function _ _ h, tokenAt]

theorem foldCase_url :
    Text.foldCase "url" = "url" := by
  decide

theorem escapeIdent_url :
    escapeIdent ['u', 'r', 'l'] = ['u', 'r', 'l'] := by
  decide

/-- The text of an address starts with no blank and no mark. -/
theorem escapeUrl_head {s : List Char} (hs : ∀ c ∈ s, c.toNat ≠ 0) (rest : List Char) :
    ∃ d ds, escapeUrl s ++ ')' :: rest = d :: ds ∧ isBlank d = false ∧ isQuote d = false := by
  cases s with
  | nil => exact ⟨')', rest, rfl, by decide, by decide⟩
  | cons c s =>
    simp only [escapeUrl, List.flatMap_cons, List.append_assoc]
    rcases escapeUrlChar_cases (hs c (by simp)) with ⟨hplain, htext⟩ | ⟨u, htext, -⟩
    · exact ⟨c, _, by rw [htext]; rfl, hplain.blank, hplain.quote⟩
    · exact ⟨'\\', _, by rw [htext]; rfl, by decide, by decide⟩

theorem urlOrFunction_url {s : List Char} (hs : ∀ c ∈ s, c.toNat ≠ 0) (rest : List Char) (i : Input)
    (p : Position) :
    urlOrFunction i ['u', 'r', 'l'] ⟨escapeUrl s ++ ')' :: rest, p⟩ =
      (tokenAt i .url s, ⟨rest, (p.afterAll (escapeUrl s)).after ')'⟩) := by
  obtain ⟨d, ds, hcs, hblank, hquote⟩ := escapeUrl_head hs rest
  have hread := urlFrom_escapeUrl hs rest p
  rw [hcs] at hread ⊢
  have hspan : Input.span ⟨d :: ds, p⟩ isBlank = ([], ⟨d :: ds, p⟩) := by
    simp [Input.span, hblank]
  have hurl : Text.foldCase (String.ofList ['u', 'r', 'l']) = "url" := foldCase_url
  simp [urlOrFunction, hurl, hspan, Input.peek?, hquote, hread]

theorem lexes_url {s : List Char} (hs : ∀ c ∈ s, c.toNat ≠ 0) (rest : List Char) (q : Position) :
    Lexes ("url(".toList ++ escapeUrl s ++ [')']) ⟨.url, String.ofList s, q, .none⟩ rest := by
  have hsplit : "url(".toList ++ escapeUrl s ++ [')'] ++ rest =
      escapeIdent ['u', 'r', 'l'] ++ '(' :: (escapeUrl s ++ ')' :: rest) := by
    simp [escapeIdent_url]
  have hname : ∀ c ∈ ['u', 'r', 'l'], c.toNat ≠ 0 := by simp
  have hne : ['u', 'r', 'l'] ≠ [] := by decide
  refine lexes_of_startsName (hsplit ▸ startsName_escapeIdent hname hne _)
    (hsplit ▸ startsNumber_escapeIdent hname hne _)
    (hsplit ▸ cdc_escapeIdent hname hne fun _ => by simp) fun p => ?_
  rw [hsplit]
  simp only [identLike, name_escapeIdent hname p (nameGoesOn_paren _), Input.peek?,
    Input.advance_cons, urlOrFunction_url hs]
  simp [tokenAt, escapeIdent_url]

theorem lexes_atKeyword {s rest : List Char} (hs : ∀ c ∈ s, c.toNat ≠ 0) (hne : s ≠ [])
    (hrest : nameGoesOn rest = false) (q : Position) :
    Lexes ('@' :: escapeIdent s) ⟨.atKeyword, String.ofList s, q, .none⟩ rest := by
  refine lexes_of_token (List.cons_append ..) (startsComment_cons_of_ne _ (by decide)) fun p => ?_
  rw [token_at, Input.advance_cons, if_pos (startsName_escapeIdent hs hne rest),
    name_escapeIdent hs _ hrest]
  rfl

/-- A hash with a name, which tells whether the name starts as an identifier. -/
theorem lexes_hash {s u rest : List Char} {isId : Bool}
    (hhead : nameGoesOn (u ++ rest) = true) (hstart : startsName (u ++ rest) = isId)
    (hread : ∀ p, name ⟨u ++ rest, p⟩ = (s, ⟨rest, p.afterAll u⟩)) (q : Position) :
    Lexes ('#' :: u) ⟨.hash, String.ofList s, q, .name isId⟩ rest := by
  refine lexes_of_token (List.cons_append ..) (startsComment_cons_of_ne _ (by decide)) fun p => ?_
  rw [token_hash, Input.advance_cons, if_pos hhead, hread, hstart]
  rfl

theorem lexes_string (quote : Quote) {s : List Char} (hs : ∀ c ∈ s, c.toNat ≠ 0) (rest : List Char)
    (q : Position) :
    Lexes (quoteString quote s) ⟨.string, String.ofList s, q, .quoted quote⟩ rest := by
  have hsplit : quoteString quote s ++ rest =
      quote.char :: (s.flatMap (quoteStringChar quote.char) ++ quote.char :: rest) := by
    simp [quoteString]
  have hslash : quote.char ≠ '/' := by cases quote <;> decide
  refine lexes_of_token hsplit (startsComment_cons_of_ne _ hslash) fun p => ?_
  have htoken : ∀ i, token i quote.char = string i quote := by
    intro i
    cases quote <;> rfl
  simp [htoken, Lexer.string, Input.advance_cons, stringFrom_quoted quote hs, tokenAt, quoteString]

/-! ## Single characters -/

/-- The characters that are tokens on their own, with their types. -/
def punctuation : List (Char × TokenType) :=
  [('(', .openParen), (')', .closeParen), ('[', .openBracket), (']', .closeBracket),
    ('\x7b', .openBrace), ('\x7d', .closeBrace), (',', .comma), (':', .colon), (';', .semicolon)]

theorem lexes_punctuation {c : Char} {type : TokenType} (h : (c, type) ∈ punctuation)
    (rest : List Char) (q : Position) :
    Lexes [c] ⟨type, String.ofList [c], q, .none⟩ rest := by
  have hslash : ∀ d ∈ punctuation, d.1 ≠ '/' := by decide
  refine lexes_of_token rfl (startsComment_cons_of_ne _ (hslash _ h)) fun p => ?_
  simp only [punctuation, List.mem_cons, Prod.mk.injEq, List.not_mem_nil, or_false] at h
  rcases h with ⟨rfl, rfl⟩ | ⟨rfl, rfl⟩ | ⟨rfl, rfl⟩ | ⟨rfl, rfl⟩ | ⟨rfl, rfl⟩ | ⟨rfl, rfl⟩ |
    ⟨rfl, rfl⟩ | ⟨rfl, rfl⟩ | ⟨rfl, rfl⟩ <;> rfl

/-- The characters that are delimiters where they start nothing else. -/
def isDelimChar (c : Char) : Bool :=
  isNormal c && !isDigit c && !isNameStart c && c != '\\' &&
    (!isMarked c || ['#', '-', '<', '@'].contains c)

/-- The delimiter is not the start of a longer token before the text, and of no comment. -/
def delimStops (c : Char) (rest : List Char) : Bool :=
  match c with
  | '#' => !nameGoesOn rest
  | '+' => !startsUnsigned rest
  | '-' => !startsUnsigned rest && !startsName ('-' :: rest)
  | '.' => !rest.head?.any isDigit
  | '<' => !(['!', '-', '-'].isPrefixOf rest)
  | '@' => !startsName rest
  | '/' => rest.head? != some '*'
  | _ => true

theorem startsFraction_point (cs : List Char) :
    startsFraction ('.' :: cs) = cs.head?.any isDigit := by
  cases cs <;> rfl

theorem startsNumber_delim {c : Char} {rest : List Char} (hdigit : isDigit c = false)
    (hrest : delimStops c rest = true) :
    startsNumber (c :: rest) = false := by
  by_cases hplus : c = '+'
  · subst hplus
    simpa [delimStops, startsNumber] using hrest
  · by_cases hhyphen : c = '-'
    · subst hhyphen
      simp only [delimStops, Bool.and_eq_true, Bool.not_eq_true'] at hrest
      simpa [startsNumber] using hrest.1
    · by_cases hpoint : c = '.'
      · subst hpoint
        have hfraction : startsFraction ('.' :: rest) = false := by
          rw [startsFraction_point]
          simpa [delimStops] using hrest
        simp [startsNumber, startsUnsigned, hdigit, hfraction]
      · exact startsNumber_cons rest hplus hhyphen hdigit hpoint

theorem startsComment_delim {c : Char} {rest : List Char} (hrest : delimStops c rest = true) :
    startsComment (c :: rest) = false := by
  by_cases hslash : c = '/'
  · subst hslash
    unfold startsComment
    split
    · simp_all [delimStops]
    · rfl
  · exact startsComment_cons_of_ne rest hslash

theorem lexes_delim {c : Char} {rest : List Char} (hc : isDelimChar c = true)
    (hrest : delimStops c rest = true) (q : Position) :
    Lexes [c] ⟨.delim, String.ofList [c], q, .none⟩ rest := by
  simp only [isDelimChar, Bool.and_eq_true, Bool.or_eq_true, Bool.not_eq_true', bne_iff_ne] at hc
  obtain ⟨⟨⟨⟨-, hdigit⟩, hstart⟩, hbackslash⟩, hmarked⟩ := hc
  have hnumber := startsNumber_delim hdigit hrest
  refine lexes_of_token List.singleton_append (startsComment_delim hrest) fun p => ?_
  rcases hmarked with hunmarked | hspecial
  · have hhyphen : c ≠ '-' := by
      rintro rfl
      exact absurd hunmarked (by decide)
    have hname : startsName (c :: rest) = false := by
      rw [startsName_cons rest hhyphen hbackslash, hstart]
    rw [token_unmarked _ hunmarked, if_neg (by simp [hnumber]), if_neg (by simp [hname])]
    rfl
  · simp only [List.contains_eq_mem, List.mem_cons, List.not_mem_nil, or_false, decide_eq_true_eq]
      at hspecial
    rcases hspecial with rfl | rfl | rfl | rfl
    · simp only [delimStops, Bool.not_eq_true'] at hrest
      rw [token_hash, Input.advance_cons, if_neg (by simp [hrest])]
      rfl
    · simp only [delimStops, Bool.and_eq_true, Bool.not_eq_true'] at hrest
      have hcdc : ['-', '-', '>'].isPrefixOf ('-' :: rest) = false := by
        cases rest with
        | nil => rfl
        | cons d ds =>
          have hd : '-' ≠ d := by
            rintro rfl
            exact absurd hrest.2 (by simp [startsName])
          simp [List.isPrefixOf, hd]
      rw [token_hyphen, if_neg (by simp [hnumber]), if_neg (by simp [hcdc]),
        if_neg (by simp [hrest.2])]
      rfl
    · simp only [delimStops, Bool.not_eq_true'] at hrest
      rw [token_angle, if_neg (by simp only [List.isPrefixOf, hrest]; simp)]
      rfl
    · simp only [delimStops, Bool.not_eq_true'] at hrest
      rw [token_at, Input.advance_cons, if_neg (by simp [hrest])]
      rfl

theorem lexes_cdo (rest : List Char) (q : Position) :
    Lexes "<!--".toList ⟨.cdo, "<!--", q, .none⟩ rest := by
  refine lexes_of_token rfl (startsComment_cons_of_ne _ (by decide)) fun p => ?_
  rfl

theorem lexes_cdc (rest : List Char) (q : Position) :
    Lexes "-->".toList ⟨.cdc, "-->", q, .none⟩ rest := by
  refine lexes_of_token rfl (startsComment_cons_of_ne _ (by decide)) fun p => ?_
  rfl

/-- A run of blanks is one token. -/
theorem lexes_blanks {run rest : List Char} (hne : run ≠ []) (hrun : ∀ c ∈ run, isBlank c = true)
    (hrest : rest.head?.any isBlank = false) (q : Position) :
    Lexes run ⟨.whitespace, String.ofList run, q, .none⟩ rest := by
  obtain ⟨c, cs, rfl⟩ := List.exists_cons_of_ne_nil hne
  have hc : isBlank c = true := hrun c (by simp)
  have hslash : c ≠ '/' := by
    rintro rfl
    exact absurd hc (by decide)
  refine lexes_of_token rfl (startsComment_cons_of_ne _ hslash) fun p => ?_
  have hspan := Input.span_run p hrun hrest
  rw [List.cons_append] at hspan
  simp [token, hc, hspan, tokenAt]

end Output
end Cascade
