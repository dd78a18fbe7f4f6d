import Cascade.Proofs.ShortForms

/-!
# Tokens beside each other

Which tokens may be written beside each other where nothing is known of the text
behind them but its first token.  In the short form there is one exception: a name of
two hyphens and the sign behind it are read as one token.

**Method.**  `Near` is `Joined` up to the exception, and `fused` are the tokens that
are read.  `OpenEnded` holds for the tokens that may be followed by any token that a name
ends before; lists of tokens are treated from their end to their start.

**Results.**
* `tokenize_textOf_near`: near tokens are read back, up to the exception.
* `OpenEnded.append`: open-ended lists can be written one behind the other.
* `OpenEnded.enclosed`: what is joined up to a parenthesis is open-ended with it.
-/

namespace Cascade
open Lexer Output

/-! ## Near tokens -/

@[simp] theorem textOf_append (ts us : List Token) :
    textOf (ts ++ us) = textOf ts ++ textOf us :=
  List.flatMap_append

/-- The name and the sign behind it are read as one token. -/
def Token.fuses (t u : Token) : Bool :=
  t.type == .ident && t.text == "--" && u.isDelim ">"

/-- Every token ends where the text of the next one begins; in the short form, two that are read as
one may stand beside each other too. -/
def Near (minify : Bool) : List Token → Prop
  | [] => True
  | t :: ts =>
    (t.stopsBefore (textOf ts) = true ∨ minify = true ∧ ts.head?.any t.fuses = true) ∧
      Near minify ts

/-- The tokens that are read from near ones. -/
def fused : List Token → List Token
  | t :: u :: ts =>
    if t.fuses u then ⟨.cdc, "-->", t.position, .none⟩ :: fused ts else t :: fused (u :: ts)
  | ts => ts

theorem Token.fuses_eq {t u : Token} (h : t.fuses u = true) :
    t.type = .ident ∧ t.text = "--" ∧ u.type = .delim ∧ u.text = ">" := by
  simpa [fuses, isDelim, and_assoc] using h

theorem tokenText_fuses {t u : Token} (h : t.fuses u = true) :
    tokenText false t ++ tokenText false u = "-->".toList := by
  obtain ⟨ht, htext, hu, hutext⟩ := Token.fuses_eq h
  simp only [tokenText, ht, hu, htext, hutext]
  decide

theorem textOf_fused (ts : List Token) :
    textOf (fused ts) = textOf ts := by
  fun_induction fused ts with
  | case1 t u ts hfuses ih =>
      rw [textOf_cons, textOf_cons, textOf_cons, ih, ← List.append_assoc, tokenText_fuses hfuses]
      rfl
  | case2 t u ts _ ih => rw [textOf_cons, textOf_cons, ih]
  | case3 => rfl

theorem readable_fused {ts : List Token} (h : ∀ t ∈ ts, t.Readable) :
    ∀ t ∈ fused ts, t.Readable := by
  fun_induction fused ts with
  | case1 t u ts _ ih =>
      exact List.forall_mem_cons.mpr ⟨.cdc, ih fun v hv => h v (by simp [hv])⟩
  | case2 t u ts _ ih =>
      obtain ⟨ht, htail⟩ := List.forall_mem_cons.mp h
      exact List.forall_mem_cons.mpr ⟨ht, ih htail⟩
  | case3 => exact h

theorem Near.joined_fused {minify : Bool} {ts : List Token} (h : Near minify ts) :
    Joined (fused ts) := by
  fun_induction fused ts with
  | case1 t u ts _ ih => exact ⟨rfl, ih h.2.2⟩
  | case2 t u ts hfuses ih =>
      refine ⟨?_, ih h.2⟩
      rw [textOf_fused]
      exact h.1.resolve_right fun hpair => hfuses (by simpa using hpair.2)
  | case3 ts hshort =>
      rcases ts with _ | ⟨t, _ | ⟨u, ts⟩⟩
      · trivial
      · exact ⟨h.1.resolve_right (by simp), trivial⟩
      · exact absurd rfl (hshort t u ts)

/-- Near tokens are read back, up to those that are read as one. -/
theorem tokenize_textOf_near {minify : Bool} {ts : List Token} (hts : ∀ t ∈ ts, t.Readable)
    (h : Near minify ts) :
    (tokenize (String.ofList (textOf ts))).map Token.unplaced =
      (fused ts).map Token.unplaced ++ [endToken] := by
  rw [← textOf_fused]
  exact tokenize_textOf (readable_fused hts) h.joined_fused

/-- Fusing neither takes nor adds a token that is no name and no such sign. -/
theorem any_fused {p : Token → Bool} (hname : ∀ t : Token, t.type = .ident → p t = false)
    (hsign : ∀ t : Token, t.isDelim ">" = true → p t = false)
    (hcdc : ∀ t : Token, t.type = .cdc → p t = false) (ts : List Token) :
    (fused ts).any p = ts.any p := by
  fun_induction fused ts with
  | case1 t u ts hfuses ih =>
      obtain ⟨ht, -, hu, hsignText⟩ := Token.fuses_eq hfuses
      simp [ih, hname t ht, hsign u (by simp [Token.isDelim, hu, hsignText]), hcdc]
  | case2 t u ts _ ih => rw [List.any_cons, List.any_cons, ih]
  | case3 => rfl

/-! ## What may stand behind a name -/

/-- The delimiters that a name ends before, in both forms and in the short form alone. -/
def nameEnds : List String :=
  [".", "&", "+", "~", "|", "=", "^", "$", "*"]

/-- A name ends before the token. -/
def Token.endsName (minify : Bool) (t : Token) : Bool :=
  match t.type with
  | .whitespace | .hash | .colon | .comma | .openBracket | .closeBracket | .closeParen => true
  | .delim => nameEnds.contains t.text || minify && t.text == ">"
  | _ => false

/-- The token, if there is one, ends a name. -/
def EndsName (minify : Bool) (ts : List Token) : Prop :=
  ts.head?.all (Token.endsName minify) = true

/-- The text of a delimiter is written as it is. -/
theorem tokenText_of_isDelim {t : Token} {s : String} (h : t.isDelim s = true) :
    tokenText false t = s.toList := by
  obtain ⟨htype, htext⟩ := Token.isDelim_iff.mp h
  simp [tokenText, htype, htext]

theorem tokenText_of_ident {t : Token} (h : t.type = .ident) :
    tokenText false t = escapeIdent t.text.toList := by
  simp [tokenText, h]

/-- A mark of a type that has only one is written as this mark. -/
theorem tokenText_of_type {t : Token} (ht : t.Readable) {c : Char} {type : TokenType}
    (hc : (c, type) ∈ Output.punctuation) (h : t.type = type) :
    tokenText false t = [c] := by
  have hmarks : ∀ e ∈ Output.punctuation, ∀ d ∈ Output.punctuation, e.2 = d.2 → e.1 = d.1 := by
    decide
  have hno : ∀ d ∈ Output.punctuation, d.2 ∉ [TokenType.whitespace, .ident, .function, .atKeyword,
      .hash, .string, .url, .number, .percentage, .dimension, .delim, .cdo, .cdc] := by decide
  have hother := hno _ hc
  subst h
  cases ht with
  | punctuation hmem =>
      rw [tokenText_punctuation hmem]
      exact congrArg (fun d => [d]) (hmarks _ hmem _ hc rfl)
  | _ => simp at hother

/-- The characters that the tokens behind a name start with. -/
def endChars : List Char :=
  [' ', '#', ':', ',', '[', ']', ')', '.', '&', '+', '~', '|', '=', '^', '$', '*', '>']

theorem nameGoesOn_endChars {c : Char} (hc : c ∈ endChars) (cs : List Char) :
    nameGoesOn (c :: cs) = false ∧ c ≠ '(' := by
  have hall : endChars.all (fun d => !isNameChar d && d != '\\' && d != '(') = true := by decide
  obtain ⟨⟨hname, hback⟩, hparen⟩ : (isNameChar c = false ∧ c ≠ '\\') ∧ c ≠ '(' := by
    simpa using List.all_eq_true.mp hall c hc
  exact ⟨by simp [nameGoesOn, hname, startsEscape_cons_of_ne cs hback], hparen⟩

/-- The text of a token that ends a name starts with one of few characters, and with the sign for
children only if it is that sign. -/
theorem Token.Readable.exists_endChar {minify : Bool} {t : Token} (ht : t.Readable)
    (h : t.endsName minify = true) :
    ∃ c cs, tokenText false t = c :: cs ∧ c ∈ endChars ∧
      (c = '>' → minify = true ∧ t.isDelim ">" = true) := by
  cases ht with
  | space => exact ⟨' ', [], rfl, by decide, fun h => absurd h (by decide)⟩
  | idHash | hash => exact ⟨'#', _, rfl, by decide, fun h => absurd h (by decide)⟩
  | punctuation hmem =>
      rw [tokenText_punctuation hmem]
      refine ⟨_, [], rfl, ?_⟩
      simp only [Output.punctuation, List.mem_cons, Prod.mk.injEq, List.not_mem_nil, or_false] at hmem
      rcases hmem with ⟨rfl, rfl⟩ | ⟨rfl, rfl⟩ | ⟨rfl, rfl⟩ | ⟨rfl, rfl⟩ | ⟨rfl, rfl⟩ | ⟨rfl, rfl⟩ |
        ⟨rfl, rfl⟩ | ⟨rfl, rfl⟩ | ⟨rfl, rfl⟩ <;>
        first
        | exact ⟨by decide, fun h => absurd h (by decide)⟩
        | cases h
  | @delim c p _ =>
      refine ⟨c, [], by simp [tokenText], ?_⟩
      simp only [Token.endsName, nameEnds, List.contains_eq_mem, List.mem_cons, List.not_mem_nil,
        or_false, Bool.or_eq_true, decide_eq_true_eq, Bool.and_eq_true, beq_iff_eq,
        ← String.toList_inj, String.toList_ofList] at h
      obtain h | ⟨hminify, h⟩ := h
      · rcases h with h | h | h | h | h | h | h | h | h <;>
          (obtain rfl : c = _ := (List.cons.inj h).1
           exact ⟨by decide, fun h => absurd h (by decide)⟩)
      · obtain rfl : c = _ := (List.cons.inj h).1
        exact ⟨by decide, fun _ => ⟨hminify, rfl⟩⟩
  | _ => cases h

/-- A name ends before such a token, or is read with it as one. -/
theorem stopsBefore_or_fuses {minify : Bool} {t : Token} (hname : t.type = .ident ∨ t.type = .hash)
    {us : List Token} (hus : ∀ u ∈ us, u.Readable) (hends : EndsName minify us) :
    t.stopsBefore (textOf us) = true ∨ minify = true ∧ us.head?.any t.fuses = true := by
  cases us with
  | nil =>
      rcases hname with hname | hname <;> simp [Token.stopsBefore, hname, nameGoesOn, startsEscape]
  | cons u us =>
      have hhead : u.endsName minify = true := by simpa [EndsName] using hends
      obtain ⟨c, cs, htext, hc, hsign⟩ := (hus u List.mem_cons_self).exists_endChar hhead
      obtain ⟨hgoes, hparen⟩ := nameGoesOn_endChars hc (cs ++ textOf us)
      rw [textOf_cons, htext, List.cons_append]
      rcases hname with hname | hname
      · by_cases hfuses : t.text = "--" ∧ c = '>'
        · obtain ⟨hminify, hdelim⟩ := hsign hfuses.2
          exact .inr ⟨hminify, by simp [Token.fuses, hname, hfuses.1, hdelim]⟩
        · left
          simpa [Token.stopsBefore, hname, hgoes, hparen] using not_and_or.mp hfuses
      · left
        simp [Token.stopsBefore, hname, hgoes]

/-- The token ends before any text. -/
def Token.endsAnywhere (t : Token) : Bool :=
  match t.type with
  | .string | .colon | .comma | .openBracket | .closeBracket | .closeParen => true
  | .delim => ["&", ">", "~", "|", "=", "^", "$", "*"].contains t.text
  | _ => false

theorem stopsBefore_of_endsAnywhere {t : Token} (h : t.endsAnywhere = true) (cs : List Char) :
    t.stopsBefore cs = true := by
  unfold Token.endsAnywhere at h
  split at h
  case h_7 hdelim =>
    simp only [List.contains_eq_mem, List.mem_cons, List.not_mem_nil, or_false, decide_eq_true_eq]
      at h
    rcases h with h | h | h | h | h | h | h | h <;> simp [Token.stopsBefore, hdelim, h, delimStops]
  all_goals simp_all [Token.stopsBefore]

/-! ## Starts of compounds -/

/-- A compound may start with the token. -/
def Token.opensCompound (t : Token) : Bool :=
  match t.type with
  | .ident | .hash | .colon | .openBracket => true
  | .delim => ["*", "|", ".", "&"].contains t.text
  | _ => false

/-- A name starts with neither a digit nor a point. -/
theorem startsName_head {cs : List Char} (h : startsName cs = true) :
    cs.head?.any isDigit = false ∧ cs.head? ≠ some '.' := by
  cases cs with
  | nil => simp
  | cons c cs =>
      refine ⟨?_, ?_⟩
      · rw [List.head?_cons, Option.any_some, Bool.eq_false_iff]
        intro hdigit
        have hcode := isDigit_iff.mp hdigit
        have hhyphen : c ≠ '-' := by
          rintro rfl
          exact absurd hdigit (by decide)
        have hback : c ≠ '\\' := by
          rintro rfl
          exact absurd hdigit (by decide)
        rw [startsName_cons cs hhyphen hback, isNameStart_iff] at h
        omega
      · rintro ⟨rfl⟩
        exact absurd h (by simp [startsName, isNameStart])

theorem startsName_of_ident {t : Token} (ht : t.Readable) (hname : t.type = .ident)
    (cs : List Char) :
    startsName (tokenText false t ++ cs) = true := by
  cases ht with
  | ident hs hne => simpa [tokenText] using startsName_escapeIdent hs hne cs
  | punctuation hmem =>
      have hall : ∀ e ∈ Output.punctuation, e.2 ≠ .ident := by decide
      exact absurd hname (hall _ hmem)
  | _ => cases hname

/-- A compound starts with no number. -/
theorem not_unsigned_of_opensCompound {minify : Bool} {t : Token} {ts : List Token} (ht : t.Readable)
    (hopens : t.opensCompound = true) (hnear : Near minify (t :: ts)) :
    startsUnsigned (textOf (t :: ts)) = false := by
  have hother {c : Char} {cs : List Char} (hdigit : isDigit c = false) (hpoint : c ≠ '.') :
      startsUnsigned (c :: cs) = false := by
    simp [startsUnsigned, hdigit, startsFraction_cons_of_ne cs hpoint]
  have hident (hname : t.type = .ident) : startsUnsigned (textOf (t :: ts)) = false := by
    have hstart := startsName_head (startsName_of_ident ht hname (textOf ts))
    rw [textOf_cons]
    generalize tokenText false t ++ textOf ts = cs at hstart
    cases cs with
    | nil => rfl
    | cons c cs => exact hother (by simpa using hstart.1) (by simpa using hstart.2)
  rw [textOf_cons] at hident ⊢
  cases ht with
  | ident => exact hident rfl
  | idHash | hash => exact hother (by decide) (by decide)
  | punctuation hmem =>
      rw [tokenText_punctuation hmem]
      have hall : ∀ e ∈ Output.punctuation, isDigit e.1 = false ∧ e.1 ≠ '.' := by decide
      exact hother (hall _ hmem).1 (hall _ hmem).2
  | @delim c p hc =>
      have htext : tokenText false ⟨.delim, String.ofList [c], p, .none⟩ = [c] := by simp [tokenText]
      rw [htext]
      have hdigit : isDigit c = false := by
        simp only [isDelimChar, Bool.and_eq_true, Bool.not_eq_true'] at hc
        exact hc.1.1.1.2
      by_cases hpoint : c = '.'
      · subst hpoint
        have hstop := hnear.1.resolve_right (by
          rintro ⟨-, hpair⟩
          cases ts <;> simp [Token.fuses] at hpair)
        have hdigits : (textOf ts).head?.any isDigit = false := by
          simpa [Token.stopsBefore, delimStops] using hstop
        rw [List.singleton_append, startsUnsigned, startsFraction_point, hdigits, hdigit,
          Bool.or_self]
      · exact hother hdigit hpoint
  | _ => cases hopens

/-! ## Texts before a gap -/

section Gap

variable {x : Char} (hx : x ∈ '\x7b' :: gaps) (cs ds : List Char)

include hx

omit cs ds in
theorem eq_false_of_mem_gaps {p : Char → Bool} (hp : ('\x7b' :: gaps).any p = false) :
    p x = false :=
  Bool.eq_false_iff.mpr (List.any_eq_false.mp hp x hx)

omit cs ds in
theorem ne_of_mem_gaps {c : Char} (hc : ('\x7b' :: gaps).contains c = false) :
    x ≠ c := by
  rintro rfl
  simp [hx] at hc

theorem head?_any_gap {p : Char → Bool} (hp : ('\x7b' :: gaps).any p = false) :
    (cs ++ x :: ds).head?.any p = cs.head?.any p := by
  cases cs with
  | nil => simp [eq_false_of_mem_gaps hx hp]
  | cons c cs => rfl

theorem head?_beq_gap {c : Char} (hc : ('\x7b' :: gaps).contains c = false) :
    ((cs ++ x :: ds).head? == some c) = (cs.head? == some c) := by
  cases cs with
  | nil => simp [ne_of_mem_gaps hx hc]
  | cons d cs => rfl

omit cs ds in
/-- The space is the only blank among the gaps. -/
theorem isBlank_of_mem_gaps (hspace : x ≠ ' ') :
    isBlank x = false := by
  have hother : (isBlank x && x != ' ') = false :=
    eq_false_of_mem_gaps (p := fun c => isBlank c && c != ' ') hx (by decide)
  simpa [hspace] using hother

theorem startsEscape_gap :
    startsEscape (cs ++ x :: ds) = startsEscape cs := by
  have hline : x ≠ '\n' := ne_of_mem_gaps hx (by decide)
  rcases cs with _ | ⟨c, _ | ⟨d, cs⟩⟩
  · exact startsEscape_cons_of_ne ds (ne_of_mem_gaps hx (by decide))
  · by_cases hback : c = '\\'
    · subst hback
      simp [startsEscape, hline]
    · rw [List.cons_append, startsEscape_cons_of_ne _ hback, startsEscape_cons_of_ne _ hback]
  · by_cases hback : c = '\\'
    · subst hback
      by_cases hline : d = '\n'
      · subst hline
        rfl
      · simp [startsEscape, hline]
    · rw [List.cons_append, startsEscape_cons_of_ne _ hback, startsEscape_cons_of_ne _ hback]

theorem nameGoesOn_gap :
    nameGoesOn (cs ++ x :: ds) = nameGoesOn cs := by
  rw [nameGoesOn, nameGoesOn, head?_any_gap hx cs ds (by decide), startsEscape_gap hx cs ds]

theorem startsName_gap :
    startsName (cs ++ x :: ds) = startsName cs := by
  cases cs with
  | nil =>
      rw [List.nil_append, startsName_cons _ (ne_of_mem_gaps hx (by decide))
        (ne_of_mem_gaps hx (by decide))]
      exact eq_false_of_mem_gaps hx (by decide)
  | cons c cs =>
      rw [List.cons_append]
      by_cases hhyphen : c = '-'
      · subst hhyphen
        rw [startsName_hyphen, startsName_hyphen, head?_any_gap hx cs ds (by decide),
          startsEscape_gap hx cs ds]
      · by_cases hback : c = '\\'
        · subst hback
          exact startsEscape_gap hx ('\\' :: cs) ds
        · rw [startsName_cons _ hhyphen hback, startsName_cons _ hhyphen hback]

theorem startsFraction_gap :
    startsFraction (cs ++ x :: ds) = startsFraction cs := by
  cases cs with
  | nil => exact startsFraction_cons_of_ne ds (ne_of_mem_gaps hx (by decide))
  | cons c cs =>
      rw [List.cons_append]
      by_cases hpoint : c = '.'
      · subst hpoint
        rw [startsFraction_point, startsFraction_point, head?_any_gap hx cs ds (by decide)]
      · rw [startsFraction_cons_of_ne _ hpoint, startsFraction_cons_of_ne _ hpoint]

theorem startsUnsigned_gap :
    startsUnsigned (cs ++ x :: ds) = startsUnsigned cs := by
  have hfraction := startsFraction_gap hx cs ds
  cases cs with
  | nil =>
      have hdigit : isDigit x = false := eq_false_of_mem_gaps hx (by decide)
      change (isDigit x || startsFraction (x :: ds)) = false
      rw [hdigit]
      exact hfraction
  | cons c cs =>
      rw [List.cons_append] at hfraction ⊢
      rw [startsUnsigned, startsUnsigned, hfraction]

theorem startsExponent_gap :
    startsExponent (cs ++ x :: ds) = startsExponent cs := by
  rcases cs with _ | ⟨e, _ | ⟨s, cs⟩⟩
  · have hmark : (x == 'e' || x == 'E') = false :=
      eq_false_of_mem_gaps (p := fun c => c == 'e' || c == 'E') hx (by decide)
    cases ds <;> simp [startsExponent, hmark]
  · have hsign : (x == '+' || x == '-') = false :=
      eq_false_of_mem_gaps (p := fun c => c == '+' || c == '-') hx (by decide)
    have hdigit : isDigit x = false := eq_false_of_mem_gaps hx (by decide)
    simp [startsExponent, hdigit, hsign]
  · have hdigit : (cs ++ x :: ds).head?.any isDigit = cs.head?.any isDigit :=
      head?_any_gap hx cs ds (by decide)
    simp only [List.cons_append, startsExponent, hdigit]

/-- No quotation mark is seen through the gap. -/
theorem opensQuote_gap (hds : x = ' ' → ds.head?.any isQuote = false) :
    opensQuote (cs ++ x :: ds) = opensQuote cs := by
  cases cs with
  | nil =>
      have hmark : isQuote x = false := eq_false_of_mem_gaps hx (by decide)
      by_cases hspace : x = ' '
      · simp [opensQuote, hmark, hds hspace]
      · simp [opensQuote, hmark, isBlank_of_mem_gaps hx hspace]
  | cons c cs =>
      have hquote : (cs ++ x :: ds).head?.any isQuote = cs.head?.any isQuote :=
        head?_any_gap hx cs ds (by decide)
      simp only [List.cons_append, opensQuote, hquote]

theorem isPrefixOf_gap {us : List Char} (hus : us.any ('\x7b' :: gaps).contains = false)
    (hne : us ≠ []) :
    us.isPrefixOf (cs ++ x :: ds) = us.isPrefixOf cs := by
  induction us generalizing cs with
  | nil => exact absurd rfl hne
  | cons u us ih =>
      obtain ⟨hu, hus⟩ := Bool.or_eq_false_iff.mp hus
      cases cs with
      | nil => simp [List.isPrefixOf, (ne_of_mem_gaps hx hu).symm]
      | cons c cs =>
          simp only [List.cons_append, List.isPrefixOf]
          cases us with
          | nil => simp
          | cons v us => rw [ih cs hus (List.cons_ne_nil _ _)]

theorem delimStops_append_gap (c : Char) :
    delimStops c (cs ++ x :: ds) = delimStops c cs := by
  unfold delimStops
  split
  · rw [nameGoesOn_gap hx cs ds]
  · rw [startsUnsigned_gap hx cs ds]
  · rw [startsUnsigned_gap hx cs ds, ← List.cons_append, startsName_gap hx ('-' :: cs) ds]
  · rw [head?_any_gap hx cs ds (by decide)]
  · rw [isPrefixOf_gap hx cs ds (by decide) (by decide)]
  · rw [startsName_gap hx cs ds]
  · rw [bne, head?_beq_gap hx cs ds (by decide), ← bne]
  · rfl

/-- A visible token ends before a gap and what is behind it iff it ends before the text in front. -/
theorem stopsBefore_append_gap {t : Token} (ht : x = ' ' → t.isWhitespace = false)
    (hds : x = ' ' → ds.head?.any isQuote = false) :
    t.stopsBefore (cs ++ x :: ds) = t.stopsBefore cs := by
  unfold Token.stopsBefore
  split
  · next htype =>
      have hspace : x ≠ ' ' := fun h => by simpa [Token.isWhitespace, htype] using ht h
      cases cs <;> simp [isBlank_of_mem_gaps hx hspace]
  · rw [nameGoesOn_gap hx cs ds, bne, head?_beq_gap hx cs ds (by decide),
      head?_beq_gap hx cs ds (by decide), ← bne]
  · rw [opensQuote_gap hx cs ds hds]
  · rw [nameGoesOn_gap hx cs ds]
  · rw [nameGoesOn_gap hx cs ds]
  · rw [head?_any_gap hx cs ds (by decide), startsName_gap hx cs ds,
      startsFraction_gap hx cs ds, bne, head?_beq_gap hx cs ds (by decide), ← bne]
  · rw [nameGoesOn_gap hx cs ds, ← List.append_assoc, startsExponent_gap hx _ ds]
  · simp only [delimStops_append_gap hx cs ds]
  · rfl

end Gap

/-- A parenthesis and what is behind it make no difference to a token. -/
theorem stopsBefore_paren (t : Token) (cs ds : List Char) :
    t.stopsBefore (cs ++ ')' :: ds) = t.stopsBefore cs :=
  stopsBefore_append_gap (by decide) cs ds (by simp) (by simp)

/-! ## Open-ended lists -/

/-- Any token that a name ends before may follow the tokens. -/
structure OpenEnded (minify : Bool) (ts : List Token) : Prop where
  readable : ∀ t ∈ ts, t.Readable
  near : ∀ us : List Token, (∀ u ∈ us, u.Readable) → Near minify us → EndsName minify us →
    Near minify (ts ++ us)

namespace OpenEnded

variable {minify : Bool} {t u : Token} {ts us : List Token}

theorem nil :
    OpenEnded minify [] :=
  ⟨List.forall_mem_nil _, fun _ _ hus _ => hus⟩

theorem near_self (h : OpenEnded minify ts) :
    Near minify ts := by
  simpa using h.near [] (List.forall_mem_nil _) trivial rfl

theorem append (hts : OpenEnded minify ts) (hus : OpenEnded minify us) (hends : EndsName minify us) :
    OpenEnded minify (ts ++ us) := by
  refine ⟨List.forall_mem_append.mpr ⟨hts.readable, hus.readable⟩, fun vs hvs hnear hbehind => ?_⟩
  rw [List.append_assoc]
  refine hts.near _ (List.forall_mem_append.mpr ⟨hus.readable, hvs⟩) (hus.near vs hvs hnear hbehind) ?_
  cases us with
  | nil => exact hbehind
  | cons u us => exact hends

/-- A token before an open-ended list that it ends before, whatever is behind the list. -/
theorem cons (ht : t.Readable) (hts : OpenEnded minify ts)
    (hstop : ∀ us : List Token, (∀ u ∈ us, u.Readable) → Near minify (ts ++ us) →
      EndsName minify us → t.stopsBefore (textOf (ts ++ us)) = true ∨
        minify = true ∧ (ts ++ us).head?.any t.fuses = true) :
    OpenEnded minify (t :: ts) := by
  refine ⟨List.forall_mem_cons.mpr ⟨ht, hts.readable⟩, fun us hus hnear hends => ?_⟩
  have hbehind := hts.near us hus hnear hends
  exact ⟨hstop us hus hbehind hends, hbehind⟩

theorem cons_anywhere (ht : t.Readable) (h : t.endsAnywhere = true) (hts : OpenEnded minify ts) :
    OpenEnded minify (t :: ts) :=
  hts.cons ht fun _ _ _ _ => .inl (stopsBefore_of_endsAnywhere h _)

theorem cons_name (ht : t.Readable) (hname : t.type = .ident ∨ t.type = .hash)
    (hts : OpenEnded minify ts) (hends : EndsName minify ts) :
    OpenEnded minify (t :: ts) := by
  refine hts.cons ht fun us hus _ hbehind => ?_
  refine stopsBefore_or_fuses hname (List.forall_mem_append.mpr ⟨hts.readable, hus⟩) ?_
  cases ts with
  | nil => exact hbehind
  | cons u ts => exact hends

theorem cons_space {p : Position} (hu : u.Readable) (hvisible : u.isWhitespace = false)
    (hus : OpenEnded minify (u :: us)) :
    OpenEnded minify (⟨.whitespace, " ", p, .none⟩ :: u :: us) := by
  refine hus.cons .space fun vs _ _ _ => .inl ?_
  have hhead := tokenText_head_not_blank hu hvisible (textOf (us ++ vs))
  simpa [Token.stopsBefore] using hhead

theorem cons_point (ht : t.Readable) (hpoint : t.isDelim "." = true) (hu : u.Readable)
    (hname : u.type = .ident) (hus : OpenEnded minify (u :: us)) :
    OpenEnded minify (t :: u :: us) := by
  refine hus.cons ht fun vs _ _ _ => .inl ?_
  obtain ⟨htype, htext⟩ : t.type = .delim ∧ t.text = "." := by simpa [Token.isDelim] using hpoint
  have hhead := (startsName_head (startsName_of_ident hu hname (textOf (us ++ vs)))).1
  simpa [Token.stopsBefore, htype, htext, delimStops] using hhead

/-- A sign for the next sibling before a compound. -/
theorem cons_plus (ht : t.Readable) (hplus : t.isDelim "+" = true) (hu : u.Readable)
    (hopens : u.opensCompound = true) (hus : OpenEnded minify (u :: us)) :
    OpenEnded minify (t :: u :: us) := by
  refine hus.cons ht fun vs _ hnear _ => .inl ?_
  obtain ⟨htype, htext⟩ : t.type = .delim ∧ t.text = "+" := by simpa [Token.isDelim] using hplus
  have hunsigned := not_unsigned_of_opensCompound hu hopens hnear
  simpa [Token.stopsBefore, htype, htext, delimStops] using hunsigned

/-- What is joined up to a closing parenthesis. -/
theorem enclosed (hts : ∀ t ∈ ts, t.Readable) (hu : u.Readable) (hcloser : u.type = .closeParen)
    (hjoined : Joined (ts ++ [u])) :
    OpenEnded minify (ts ++ [u]) := by
  have hparen : tokenText false u = [')'] := tokenText_of_type hu (by decide) hcloser
  have hends : u.endsAnywhere = true := by simp [Token.endsAnywhere, hcloser]
  induction ts with
  | nil => exact nil.cons_anywhere hu hends
  | cons t ts ih =>
      obtain ⟨ht, hts⟩ := List.forall_mem_cons.mp hts
      refine (ih hts hjoined.2).cons ht fun us _ _ _ => .inl ?_
      have hstop : t.stopsBefore (textOf (ts ++ [u])) = true := hjoined.1
      have hclosed : textOf (ts ++ [u]) = textOf ts ++ [')'] := by simp [hparen]
      have hbehind : textOf (ts ++ [u] ++ us) = textOf ts ++ ')' :: textOf us := by simp [hparen]
      change t.stopsBefore (textOf (ts ++ [u] ++ us)) = true
      rw [hclosed, stopsBefore_paren] at hstop
      rw [hbehind, stopsBefore_paren, hstop]

end OpenEnded

end Cascade
