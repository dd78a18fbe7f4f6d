import Cascade.Proofs.LexicalGrammar
import Cascade.Proofs.Lookahead

/-!
# The spelling of tokens

Every token of a text without comments and backslashes is spelled by a piece of
the text, and it is written as this piece is, up to blanks, the marks of strings
and the form of addresses.

**Method.**  `Spells raw t rest` says that `raw` spells the token `t` before `rest`,
and that the token, when it is written, leaves the text alike.  There is one lemma
for each first character of a token; a malformed string or address is the only
other outcome.  Strings and addresses are read where nothing or a parenthesis stands
behind the text (`Shut`): they are the tokens that may take the parenthesis.

**Results.**
* `startsClean_cases`: a text starts with a token as it is written, a string or an address.
* `startsToken_cases`: a text starts with a spelled token or with a bad one.
* `exists_lexed`: a text without comments and bad tokens is spelled by its tokens.
-/

namespace Cascade
open Lexer Output

/-! ## Names in a source -/

/-- A normalized text without backslashes. -/
def Clean (cs : List Char) : Prop :=
  ∀ c ∈ cs, c ≠ '\\' ∧ isNormal c = true

theorem Clean.append_right {u v : List Char} (h : Clean (u ++ v)) :
    Clean v :=
  fun c hc => h c (List.mem_append_right u hc)

theorem Clean.append_left {u v : List Char} (h : Clean (u ++ v)) :
    Clean u :=
  fun c hc => h c (List.mem_append_left v hc)

theorem Clean.noBackslash {cs : List Char} (h : Clean cs) :
    NoBackslash cs :=
  fun c hc => (h c hc).1

theorem Clean.nullFree {cs : List Char} (h : Clean cs) :
    NullFree cs := by
  intro c hc hzero
  have hnull : c = '\x00' := Char.toNat_inj.mp hzero
  have hnormal := (h c hc).2
  rw [hnull] at hnormal
  exact absurd hnormal (by decide)

theorem Clean.startsEscape {cs : List Char} (h : Clean cs) :
    startsEscape cs = false := by
  cases cs with
  | nil => rfl
  | cons c cs => exact startsEscape_cons_of_ne cs (h c (by simp)).1

theorem escapeNameChar_of_isNameChar {c : Char} (h : isNameChar c = true) (hzero : c.toNat ≠ 0) :
    escapeNameChar c = [c] := by
  rcases escapeNameChar_cases hzero with ⟨-, htext⟩ | ⟨hname, -⟩
  · exact htext
  · simp [h] at hname

theorem escapeName_of_isNameChar {s : List Char} (h : ∀ c ∈ s, isNameChar c = true)
    (hs : NullFree s) :
    escapeName s = s := by
  induction s with
  | nil => rfl
  | cons c s ih =>
    rw [escapeName, List.flatMap_cons, escapeNameChar_of_isNameChar (h c (by simp)) (hs c (by simp))]
    have htail := ih (fun d hd => h d (by simp [hd])) (fun d hd => hs d (by simp [hd]))
    rw [escapeName] at htail
    rw [htail]
    rfl

theorem escapeStartChar_of_isNameChar {c : Char} (h : isNameChar c = true) (hzero : c.toNat ≠ 0)
    (hdigit : isDigit c = false) :
    escapeStartChar c = [c] := by
  simp [escapeStartChar, hdigit, escapeNameChar_of_isNameChar h hzero]

/-- An identifier of name characters needs no escape. -/
theorem escapeIdent_of_isNameChar {s : List Char} (h : ∀ c ∈ s, isNameChar c = true)
    (hs : NullFree s) (hstart : startsIdent s = true) :
    escapeIdent s = s := by
  have hne : s ≠ [] := by
    rintro rfl
    exact absurd hstart (by decide)
  have htail : ∀ t, (∀ c ∈ t, c ∈ s) → escapeName t = t := fun t ht =>
    escapeName_of_isNameChar (fun c hc => h c (ht c hc)) (fun c hc => hs c (ht c hc))
  rcases escapeIdent_cases hne with ⟨rfl, -⟩ | ⟨c, t, rfl, htext⟩ | ⟨c, t, hc, rfl, htext⟩
  · exact absurd hstart (by decide)
  · have hdigit : isDigit c = false := by simpa [startsIdent] using hstart
    rw [htext, escapeStartChar_of_isNameChar (h c (by simp)) (hs c (by simp)) hdigit,
      htail t (fun d hd => by simp [hd])]
    rfl
  · rw [htext, escapeStartChar_of_isNameChar (h c (by simp)) (hs c (by simp))
      (isDigit_of_startsIdent hstart), htail t (fun d hd => by simp [hd])]
    rfl

/-- The longest run of name characters is a name. -/
theorem nameGoesOn_dropWhile {cs : List Char} (h : Clean cs) :
    nameGoesOn (cs.dropWhile isNameChar) = false := by
  have hclean : Clean (cs.dropWhile isNameChar) :=
    fun c hc => h c ((List.dropWhile_sublist _).subset hc)
  simp [nameGoesOn, head?_dropWhile_any, hclean.startsEscape]

/-- A name at the start of a clean text, with the text behind it. -/
structure NameAt (s rest : List Char) : Prop where
  chars : ∀ c ∈ s, isNameChar c = true
  clean : Clean (s ++ rest)
  ne_nil : s ≠ []
  ends : nameGoesOn rest = false

theorem exists_nameAt {cs : List Char} (h : Clean cs) (hhead : nameGoesOn cs = true) :
    ∃ s rest, cs = s ++ rest ∧ NameAt s rest := by
  have hsplit := List.takeWhile_append_dropWhile (p := isNameChar) (l := cs)
  refine ⟨cs.takeWhile isNameChar, cs.dropWhile isNameChar, hsplit.symm,
    fun _ => List.mem_takeWhile_imp, by rwa [hsplit], ?_, nameGoesOn_dropWhile h⟩
  simp only [nameGoesOn, h.startsEscape, Bool.or_false] at hhead
  cases cs with
  | nil => simp at hhead
  | cons c cs =>
    have hc : isNameChar c = true := by simpa using hhead
    simp [hc]

namespace NameAt

variable {s rest : List Char}

theorem nullFree (h : NameAt s rest) :
    NullFree s :=
  h.clean.append_left.nullFree

theorem escapeName_eq (h : NameAt s rest) :
    escapeName s = s :=
  escapeName_of_isNameChar h.chars h.nullFree

theorem startsName_eq (h : NameAt s rest) :
    startsName (s ++ rest) = startsIdent s := by
  rw [← startsName_escapeName h.nullFree h.ne_nil h.ends, h.escapeName_eq]

theorem escapeIdent_eq (h : NameAt s rest) (hstart : startsName (s ++ rest) = true) :
    escapeIdent s = s :=
  escapeIdent_of_isNameChar h.chars h.nullFree (h.startsName_eq ▸ hstart)

end NameAt

/-! ## The spelling of a token -/

/-- The text `raw` spells the token `t` before `rest`; written, the token looks the same. -/
structure Spells (raw : List Char) (t : Token) (rest : List Char) : Prop where
  ne_nil : raw ≠ []
  lexes : Lexes raw t rest
  readable : t.Readable
  visible : t.type ≠ .whitespace
  stops : t.stopsBefore rest = true
  alike : ∀ ds, LooksLike rest ds → LooksLike (raw ++ rest) (tokenText false t ++ ds)

/-- A token spells itself where it is written without an escape. -/
theorem spells_tokenText {t : Token} {rest : List Char} (ht : t.Readable)
    (hvisible : t.type ≠ .whitespace) (hstop : t.stopsBefore rest = true)
    (htext : NoBackslash (tokenText false t)) :
    Spells (tokenText false t) t rest where
  ne_nil := tokenText_ne_nil ht
  lexes := lexes_tokenText ht hstop
  readable := ht
  visible := hvisible
  stops := hstop
  alike := fun _ h => h.append htext

/-- The text starts with a token that is spelled by its beginning. -/
def StartsToken (cs : List Char) : Prop :=
  ∃ raw t rest, cs = raw ++ rest ∧ Spells raw t rest

/-- The text starts with a token as it is written. -/
def StartsWritten (cs : List Char) : Prop :=
  ∃ t rest, cs = tokenText false t ++ rest ∧ t.Readable ∧ t.type ≠ .whitespace ∧
    t.stopsBefore rest = true

/-- Then the written token is the one that the text starts with. -/
theorem StartsWritten.startsToken {cs : List Char} (h : StartsWritten cs) (hclean : Clean cs) :
    StartsToken cs := by
  obtain ⟨t, rest, rfl, ht, hvisible, hstop⟩ := h
  exact ⟨_, t, rest, rfl, spells_tokenText ht hvisible hstop hclean.append_left.noBackslash⟩

/-! ## Tokens at the start of a source -/

theorem startsWritten_of_startsNumber {cs : List Char} (hclean : Clean cs)
    (h : startsNumber cs = true) :
    StartsWritten cs := by
  obtain ⟨n, rest, rfl, hends⟩ := exists_numeral h
  by_cases hname : startsName rest = true
  · obtain ⟨unit, rest, rfl, hunit⟩ :=
      exists_nameAt hclean.append_right (nameGoesOn_of_startsName hname)
    have hstart : startsIdent unit = true := hunit.startsName_eq ▸ hname
    have hexponent : (hasExponent n.text || !startsExponent (unit ++ rest)) = true := by
      have hnone := hends.exponent
      rw [hasExponent_text]
      cases hx : n.exponent with
      | none => simp [hnone hx]
      | some x => rfl
    refine ⟨⟨.dimension, String.ofList n.text, Position.none,
      .measure n.isInteger (String.ofList unit)⟩, rest, ?_,
      .dimension n hunit.nullFree hstart, by simp, ?_⟩
    · simp [tokenText, numberText, Token.unit, hunit.escapeName_eq]
    · simpa [Token.stopsBefore, Token.unit, hunit.ends, hunit.escapeName_eq] using hexponent
  · by_cases hpercent : rest.head? = some '%'
    · obtain ⟨rest, rfl⟩ : ∃ tail, rest = '%' :: tail := by
        cases rest with
        | nil => simp at hpercent
        | cons c cs => exact ⟨cs, by simpa using hpercent⟩
      exact ⟨⟨.percentage, String.ofList n.text, Position.none, .numeral n.isInteger⟩, rest,
        by simp [tokenText, numberText], .percentage n, by simp, rfl⟩
    · refine ⟨⟨.number, String.ofList n.text, Position.none, .numeral n.isInteger⟩, rest,
        by simp [tokenText, numberText], .number n, by simp, ?_⟩
      have hfraction := hends.fraction
      simp only [Token.stopsBefore, Bool.and_eq_true, Bool.not_eq_true', bne_iff_ne]
      refine ⟨⟨⟨hends.digit, hpercent⟩, by simpa using hname⟩, ?_⟩
      cases hinteger : n.isInteger with
      | true => simp [hfraction hinteger]
      | false => rfl

/-- A delimiter spells itself. -/
theorem startsWritten_delim {c : Char} {cs : List Char} (hc : isDelimChar c = true)
    (hstop : delimStops c cs = true) :
    StartsWritten (c :: cs) :=
  ⟨⟨.delim, String.ofList [c], Position.none, .none⟩, cs, by simp [tokenText], .delim hc, by simp,
    by simpa [Token.stopsBefore] using hstop⟩

theorem startsWritten_atKeyword {cs : List Char} (hclean : Clean ('@' :: cs)) :
    StartsWritten ('@' :: cs) := by
  have htail : Clean cs := fun c hc => hclean c (by simp [hc])
  by_cases hname : startsName cs = true
  · obtain ⟨s, rest, rfl, hs⟩ := exists_nameAt htail (nameGoesOn_of_startsName hname)
    exact ⟨⟨.atKeyword, String.ofList s, Position.none, .none⟩, rest,
      by simp [tokenText, hs.escapeIdent_eq hname], .atKeyword hs.nullFree hs.ne_nil, by simp,
      by simp [Token.stopsBefore, hs.ends]⟩
  · exact startsWritten_delim (by decide) (by simpa [delimStops] using hname)

theorem startsWritten_hash {cs : List Char} (hclean : Clean ('#' :: cs)) :
    StartsWritten ('#' :: cs) := by
  have htail : Clean cs := fun c hc => hclean c (by simp [hc])
  by_cases hhead : nameGoesOn cs = true
  · obtain ⟨s, rest, rfl, hs⟩ := exists_nameAt htail hhead
    by_cases hname : startsName (s ++ rest) = true
    · exact ⟨⟨.hash, String.ofList s, Position.none, .name true⟩, rest,
        by simp [tokenText, Token.isIdHash, hs.escapeIdent_eq hname],
        .idHash hs.nullFree hs.ne_nil, by simp, by simp [Token.stopsBefore, hs.ends]⟩
    · have hstart : startsIdent s = false := by
        rw [hs.startsName_eq] at hname
        simpa using hname
      exact ⟨⟨.hash, String.ofList s, Position.none, .name false⟩, rest,
        by simp [tokenText, Token.isIdHash, hs.escapeName_eq],
        .hash hs.nullFree hs.ne_nil hstart, by simp, by simp [Token.stopsBefore, hs.ends]⟩
  · exact startsWritten_delim (by decide) (by simpa [delimStops] using hhead)

theorem startsWritten_angle (cs : List Char) :
    StartsWritten ('<' :: cs) := by
  by_cases hcdo : ['!', '-', '-'].isPrefixOf cs = true
  · obtain ⟨rest, rfl⟩ := List.isPrefixOf_iff_prefix.mp hcdo
    exact ⟨⟨.cdo, "<!--", Position.none, .none⟩, rest, rfl, .cdo, by simp, rfl⟩
  · exact startsWritten_delim (by decide) (by simp only [delimStops, hcdo]; rfl)

theorem startsWritten_punctuation {c : Char} (type : TokenType) (cs : List Char)
    (h : (c, type) ∈ Output.punctuation) :
    StartsWritten (c :: cs) := by
  have htypes : ∀ e ∈ Output.punctuation, e.2 ≠ .whitespace ∧
      ∀ rest, Token.stopsBefore ⟨e.2, String.ofList [e.1], Position.none, .none⟩ rest = true := by
    simp [Output.punctuation, Token.stopsBefore]
  exact ⟨⟨type, String.ofList [c], Position.none, .none⟩, cs, by rw [tokenText_punctuation h]; rfl,
    .punctuation h, (htypes _ h).1, (htypes _ h).2 cs⟩

/-! ## Strings -/

/-- The text goes on inside of a string: it holds neither its mark nor a backslash nor a line feed. -/
def InString (mark : Char) (s : List Char) : Prop :=
  ∀ c ∈ s, c ≠ mark ∧ c ≠ '\\' ∧ c ≠ '\n'

/-- A string ends at its mark, it goes on to the end of the text, or a line feed cuts it off. -/
theorem inString_cases (mark : Char) {cs : List Char} (hclean : Clean cs) :
    (∃ s rest, cs = s ++ mark :: rest ∧ InString mark s) ∨ InString mark cs ∨
      ∃ s rest, cs = s ++ '\n' :: rest ∧ InString mark s := by
  induction cs with
  | nil => exact .inr (.inl (List.forall_mem_nil _))
  | cons c cs ih =>
    obtain ⟨⟨hback, -⟩, htail⟩ := List.forall_mem_cons.mp hclean
    by_cases hmark : c = mark
    · exact .inl ⟨[], cs, by rw [hmark]; rfl, List.forall_mem_nil _⟩
    · by_cases hline : c = '\n'
      · exact .inr (.inr ⟨[], cs, by rw [hline]; rfl, List.forall_mem_nil _⟩)
      · have hc : c ≠ mark ∧ c ≠ '\\' ∧ c ≠ '\n' := ⟨hmark, hback, hline⟩
        rcases ih htail with ⟨s, rest, rfl, hs⟩ | hs | ⟨s, rest, rfl, hs⟩
        · exact .inl ⟨c :: s, rest, rfl, List.forall_mem_cons.mpr ⟨hc, hs⟩⟩
        · exact .inr (.inl (List.forall_mem_cons.mpr ⟨hc, hs⟩))
        · exact .inr (.inr ⟨c :: s, rest, rfl, List.forall_mem_cons.mpr ⟨hc, hs⟩⟩)

theorem stringFrom_run {mark : Char} {s : List Char} (hs : InString mark s) (read rest : List Char)
    (p : Position) :
    stringFrom mark read ⟨s ++ rest, p⟩ =
      stringFrom mark (s.reverse ++ read) ⟨rest, p.afterAll s⟩ := by
  induction s generalizing read p with
  | nil => rfl
  | cons c s ih =>
    obtain ⟨⟨hmark, hbackslash, hline⟩, hs⟩ := List.forall_mem_cons.mp hs
    rw [List.cons_append, stringFrom_char p hmark hbackslash hline, ih hs]
    simp

/-- A bad token: a string or an address that is not closed as it should be. -/
def Token.isBad (t : Token) : Bool :=
  t.type == .badString || t.type == .badUrl

/-- The token at the start of the text is a bad one. -/
def StartsBad (cs : List Char) : Prop :=
  ∃ c tail, cs = c :: tail ∧ ∀ p, (token ⟨c :: tail, p⟩ c).1.isBad = true

/-- Nothing stands behind the text, or a parenthesis. -/
def Shut (tail : List Char) : Prop :=
  tail = [] ∨ ∃ more, tail = ')' :: more

/-- The text starts with a token that ends inside of it, whatever shuts the text. -/
def StartsWithin (cs : List Char) : Prop :=
  ∃ raw t rest, cs = raw ++ rest ∧ ∀ tail, Shut tail → Spells raw t (rest ++ tail)

/-- The token at the start of the text is a bad one, whatever shuts the text. -/
def StartsBadly (cs : List Char) : Prop :=
  ∀ tail, Shut tail → StartsBad (cs ++ tail)

/-- The token at the start of the text is all of it, and takes a parenthesis behind it, too. -/
structure Overruns (cs : List Char) : Prop where
  spells : ∃ t, Spells cs t []
  takes : ∃ c ds, cs = c :: ds ∧
    ∀ more p, (token ⟨c :: ds ++ ')' :: more, p⟩ c).2.chars.length ≤ more.length

/-- A class that holds no parenthesis does not see what shuts the text. -/
theorem Shut.head?_any {tail : List Char} (h : Shut tail) {p : Char → Bool} (hp : p ')' = false)
    (cs : List Char) :
    (cs ++ tail).head?.any p = cs.head?.any p := by
  cases cs with
  | nil => rcases h with rfl | ⟨more, rfl⟩ <;> simp [hp]
  | cons c cs => rfl

/-- What takes the parenthesis takes all of the text. -/
theorem startsToken_of_startsWithin {cs : List Char}
    (h : StartsWithin cs ∨ StartsBadly cs ∨ Overruns cs) :
    StartsToken cs ∨ StartsBad cs := by
  rcases h with ⟨raw, t, rest, hcs, hspells⟩ | hbad | ⟨⟨t, hspells⟩, -⟩
  · exact .inl ⟨raw, t, rest, hcs, List.append_nil rest ▸ hspells [] (.inl rfl)⟩
  · exact .inr (List.append_nil cs ▸ hbad [] (.inl rfl))
  · exact .inl ⟨cs, t, [], (List.append_nil cs).symm, hspells⟩

theorem hides_quote (q : Quote) (rest : List Char) :
    hides q.char rest = true := by
  cases q <;> rfl

theorem token_quote (q : Quote) (i : Input) :
    token i q.char = string i q := by
  cases q <;> rfl

/-- A string that ends well is spelled by what was read. -/
theorem spells_string (q : Quote) {s raw rest : List Char} (hs : NullFree s)
    (hread : ∀ p, stringFrom q.char [] ⟨raw ++ rest, p⟩ = (s, true, ⟨rest, p.afterAll raw⟩)) :
    Spells (q.char :: raw) ⟨.string, String.ofList s, Position.none, .quoted q⟩ rest where
  ne_nil := by simp
  lexes := by
    have hslash : q.char ≠ '/' := by cases q <;> decide
    refine lexes_of_token rfl (startsComment_cons_of_ne _ hslash) fun p => ?_
    simp [token_quote, Lexer.string, Input.advance_cons, hread, tokenAt]
  readable := .string q hs
  visible := by simp
  stops := rfl
  alike := by
    intro ds _
    exact .hidden (hides_quote q _)

theorem string_rest (i : Input) (q : Quote) :
    (Lexer.string i q).2 = (stringFrom q.char [] i.advance).2.2 := by
  unfold Lexer.string
  split <;> next hread => rw [hread]

/-- A string ends inside of the text, or it is a bad one, or it takes what shuts the text. -/
theorem startsWithin_string (q : Quote) {cs : List Char} (hclean : Clean (q.char :: cs)) :
    StartsWithin (q.char :: cs) ∨ StartsBadly (q.char :: cs) ∨ Overruns (q.char :: cs) := by
  have hchars : Clean cs := (List.forall_mem_cons.mp hclean).2
  rcases inString_cases q.char hchars with ⟨s, rest, rfl, hs⟩ | hs | ⟨s, rest, rfl, hs⟩
  · have hcs : q.char :: (s ++ q.char :: rest) = (q.char :: (s ++ [q.char])) ++ rest := by simp
    refine .inl ⟨_, _, rest, hcs, fun tail _ =>
      spells_string q hchars.append_left.nullFree fun p => ?_⟩
    rw [List.append_assoc, List.singleton_append, stringFrom_run hs, stringFrom_mark]
    simp
  · refine .inr (.inr ⟨⟨_, spells_string q hchars.nullFree fun p => ?_⟩, q.char, cs, rfl,
      fun more p => ?_⟩)
    · rw [List.append_nil, ← List.append_nil cs, stringFrom_run hs, stringFrom]
      simp
    · have hmark : ')' ≠ q.char := by cases q <;> decide
      rw [token_quote, string_rest, List.cons_append, Input.advance_cons, stringFrom_run hs,
        stringFrom_char _ hmark (by decide) (by decide)]
      obtain ⟨u, s, close, hbehind, -⟩ := stringFrom_behind q.char (')' :: (cs.reverse ++ []))
        ⟨more, ((p.after q.char).afterAll cs).after ')'⟩
      have hlength := congrArg List.length hbehind.chars
      rw [List.length_append] at hlength
      exact hlength ▸ Nat.le_add_left _ _
  · refine .inr (.inl fun tail _ => ⟨q.char, s ++ '\n' :: rest ++ tail, rfl, fun p => ?_⟩)
    have hline : '\n' ≠ q.char := by cases q <;> decide
    have hbad : stringFrom q.char s.reverse ⟨'\n' :: (rest ++ tail), (p.after q.char).afterAll s⟩ =
        (s, false, ⟨'\n' :: (rest ++ tail), (p.after q.char).afterAll s⟩) := by
      rw [stringFrom]
      simp [hline]
    simp [token_quote, Lexer.string, Input.advance_cons, stringFrom_run hs, hbad, tokenAt, Token.isBad]

/-! ## Identifiers, functions and addresses -/

/-- The address that has been read so far ends inside of the text, whatever shuts the text. -/
def UrlWithin (read cs : List Char) : Prop :=
  ∃ s raw rest, cs = raw ++ rest ∧ NullFree s ∧
    ∀ tail, Shut tail → ∀ p, urlFrom read ⟨cs ++ tail, p⟩ = (s, true, ⟨rest ++ tail, p.afterAll raw⟩)

/-- The address that has been read so far ends with the text, and with a parenthesis behind it. -/
structure UrlOverruns (read cs : List Char) : Prop where
  ends : ∃ s, NullFree s ∧ ∀ p, urlFrom read ⟨cs, p⟩ = (s, true, ⟨[], p.afterAll cs⟩)
  takes : ∀ more p, (urlFrom read ⟨cs ++ ')' :: more, p⟩).2.2.chars = more

/-- Behind a blank an address has to end. -/
theorem urlFrom_blank {c : Char} {cs read : List Char} (hc : isBlank c = true)
    (hread : NullFree read.reverse) :
    UrlWithin read (c :: cs) ∨
    (∀ tail, Shut tail → ∀ p, (urlFrom read ⟨c :: cs ++ tail, p⟩).2.1 = false) ∨
    UrlOverruns read (c :: cs) := by
  have hcloser : c ≠ ')' := by
    rintro rfl
    exact absurd hc (by decide)
  have hsplit := List.takeWhile_append_dropWhile (p := isBlank) (l := cs)
  have hrun : ∀ d ∈ cs.takeWhile isBlank, isBlank d = true := fun _ => List.mem_takeWhile_imp
  have hbehind := head?_dropWhile_any isBlank cs
  generalize cs.takeWhile isBlank = run at hsplit hrun
  generalize cs.dropWhile isBlank = rest at hsplit hbehind
  subst hsplit
  have hspan {tail : List Char} (htail : Shut tail) (p : Position) :
      Input.span ⟨run ++ (rest ++ tail), p⟩ isBlank = (run, ⟨rest ++ tail, p.afterAll run⟩) :=
    Input.span_run p hrun ((htail.head?_any (by decide) rest).trans hbehind)
  cases rest with
  | nil =>
    refine .inr (.inr ⟨⟨read.reverse, hread, fun p => ?_⟩, fun more p => ?_⟩)
    · have hrest := hspan (.inl rfl)
      rw [List.append_nil, List.append_nil] at hrest
      rw [List.append_nil, urlFrom]
      simp only [hcloser, hc, hrest]
      simp [Input.peek?]
    · rw [List.cons_append, List.append_assoc, urlFrom]
      simp only [hcloser, hc, hspan (.inr ⟨more, rfl⟩)]
      simp [Input.peek?, Input.advance_cons]
  | cons d rest =>
    by_cases hd : d = ')'
    · subst hd
      refine .inl ⟨read.reverse, c :: run ++ [')'], rest, by simp, hread, fun tail htail p => ?_⟩
      rw [List.cons_append, List.append_assoc, urlFrom]
      simp only [hcloser, hc, hspan htail]
      simp [Input.peek?, Input.advance_cons]
    · refine .inr (.inl fun tail htail p => ?_)
      rw [List.cons_append, List.append_assoc, urlFrom]
      simp only [hcloser, hc, hspan htail]
      simp [Input.peek?]

/-- An unquoted address ends inside of the text, or it is a bad one, or what shuts the text ends
it. -/
theorem urlFrom_cases {cs : List Char} (hclean : Clean cs) (read : List Char) (hread : NullFree read) :
    UrlWithin read cs ∨
    (∀ tail, Shut tail → ∀ p, (urlFrom read ⟨cs ++ tail, p⟩).2.1 = false) ∨
    UrlOverruns read cs := by
  have hreversed : NullFree read.reverse := fun d hd => hread d (by simpa using hd)
  induction cs generalizing read with
  | nil =>
    refine .inr (.inr ⟨⟨read.reverse, hreversed, fun p => ?_⟩, fun more p => ?_⟩)
    · rw [urlFrom]
      rfl
    · rw [List.nil_append, urlFrom_closer]
  | cons c cs ih =>
    have hback : c ≠ '\\' := (hclean c (by simp)).1
    by_cases hcloser : c = ')'
    · subst hcloser
      refine .inl ⟨read.reverse, [')'], cs, rfl, hreversed, fun tail _ p => ?_⟩
      rw [List.cons_append, urlFrom_closer]
      rfl
    · by_cases hblank : isBlank c = true
      · exact urlFrom_blank hblank hreversed
      · by_cases hstop : isQuote c = true ∨ c = '(' ∨ isNonPrintable c = true
        · refine .inr (.inl fun tail _ p => ?_)
          rw [List.cons_append, urlFrom]
          simp [hcloser, hblank, hstop]
        · simp only [not_or] at hstop
          have hplain : IsUrlChar c := ⟨by simpa using hblank, by simpa using hstop.2.2,
            by simpa using hstop.1, hstop.2.1, hcloser, hback⟩
          have hzero : NullFree (c :: read) := by
            intro d hd
            rcases List.mem_cons.mp hd with rfl | hd
            · exact hclean.nullFree d (by simp)
            · exact hread d hd
          have hzero' : NullFree (c :: read).reverse := fun d hd => hzero d (List.mem_reverse.mp hd)
          have hstep (more : List Char) (p : Position) :
              urlFrom read ⟨c :: cs ++ more, p⟩ = urlFrom (c :: read) ⟨cs ++ more, p.after c⟩ := by
            rw [List.cons_append, urlFrom_char _ hplain]
          rcases ih (fun d hd => hclean d (by simp [hd])) (c :: read) hzero hzero' with
            ⟨s, raw, rest, rfl, hs, hgood⟩ | hbad | ⟨⟨s, hs, hgood⟩, hends⟩
          · exact .inl ⟨s, c :: raw, rest, rfl, hs, fun tail htail p => by
              rw [hstep, hgood tail htail]
              rfl⟩
          · exact .inr (.inl fun tail htail p => by rw [hstep, hbad tail htail])
          · refine .inr (.inr ⟨⟨s, hs, fun p => ?_⟩, fun more p => ?_⟩)
            · rw [urlFrom_char _ hplain, hgood]
              rfl
            · rw [hstep, hends]

/-- A name is read before whatever ends it. -/
theorem NameAt.name_eq {s rest behind : List Char} (h : NameAt s rest)
    (hbehind : nameGoesOn behind = false) (p : Position) :
    name ⟨s ++ behind, p⟩ = (s, ⟨behind, p.afterAll s⟩) := by
  have hread := name_escapeName h.nullFree p hbehind
  rwa [h.escapeName_eq] at hread

/-- What a name before a parenthesis gives is what the parenthesis opens. -/
theorem NameAt.identLike_paren {s rest : List Char} (h : NameAt s rest) (behind : List Char)
    (p : Position) :
    identLike ⟨s ++ '(' :: behind, p⟩ =
      urlOrFunction ⟨s ++ '(' :: behind, p⟩ s ⟨behind, (p.afterAll s).after '('⟩ := by
  simp [identLike, h.name_eq (nameGoesOn_paren behind), Input.peek?, Input.advance_cons]

/-- The name of addresses and its parenthesis stand at the start of a clean text. -/
structure AddressAt (s behind : List Char) : Prop where
  name : NameAt s ('(' :: behind)
  isUrl : Text.foldCase (String.ofList s) = "url"
  starts : startsIdent s = true

theorem AddressAt.escapeIdent_eq {s behind : List Char} (h : AddressAt s behind) :
    escapeIdent s = s :=
  escapeIdent_of_isNameChar h.name.chars h.name.nullFree h.starts

/-- The token is like an identifier, whatever is behind the parenthesis. -/
theorem AddressAt.starts_name {s behind : List Char} (h : AddressAt s behind) (rest : List Char) :
    startsName (s ++ '(' :: rest) = true ∧ startsNumber (s ++ '(' :: rest) = false ∧
      ['-', '-', '>'].isPrefixOf (s ++ '(' :: rest) = false := by
  have hname := startsName_escapeIdent h.name.nullFree h.name.ne_nil ('(' :: rest)
  have hnumber := startsNumber_escapeIdent h.name.nullFree h.name.ne_nil ('(' :: rest)
  have hcdc : ['-', '-', '>'].isPrefixOf (escapeIdent s ++ '(' :: rest) = false :=
    cdc_escapeIdent h.name.nullFree h.name.ne_nil (by simp)
  rw [h.escapeIdent_eq] at hname hnumber hcdc
  exact ⟨hname, hnumber, hcdc⟩

/-- Before a string the name of addresses is a function's; one blank is left. -/
theorem opensQuote_drop {run body : List Char} (hrun : ∀ c ∈ run, isBlank c = true)
    (hbody : body.head?.any isQuote = true) :
    opensQuote ((run ++ body).drop (run.length - 1)) = true := by
  rcases List.eq_nil_or_concat run with rfl | ⟨front, b, rfl⟩
  · cases body with
    | nil => simp at hbody
    | cons c cs => simpa [opensQuote] using .inl hbody
  · have hb : isBlank b = true := hrun b (by simp)
    simp [opensQuote, hb, hbody]

section Addresses

variable {s run body tail : List Char}

/-- Of the blanks before a mark, a function takes all but the last. -/
theorem AddressAt.spells_function (h : AddressAt s (run ++ body)) (hrun : ∀ c ∈ run, isBlank c = true)
    (hbody : (body ++ tail).head?.any isBlank = false)
    (hquote : (body ++ tail).head?.any isQuote = true) :
    Spells (s ++ '(' :: run.take (run.length - 1)) ⟨.function, String.ofList s, Position.none, .none⟩
      (run.drop (run.length - 1) ++ (body ++ tail)) := by
  have hback : NoBackslash s := h.name.clean.append_left.noBackslash
  obtain ⟨hname, hnumber, hcdc⟩ := h.starts_name (run ++ (body ++ tail))
  have htext : s ++ '(' :: (run ++ (body ++ tail)) =
      s ++ '(' :: run.take (run.length - 1) ++ (run.drop (run.length - 1) ++ (body ++ tail)) := by
    rw [List.append_assoc, List.cons_append, ← List.append_assoc (run.take _), List.take_append_drop]
  have hkept : (run ++ (body ++ tail)).drop (run.length - 1) =
      run.drop (run.length - 1) ++ (body ++ tail) :=
    List.drop_append_of_le_length (Nat.sub_le _ _)
  have htaken : (run ++ (body ++ tail)).take (run.length - 1) = run.take (run.length - 1) :=
    List.take_append_of_le_length (Nat.sub_le _ _)
  have hopens := opensQuote_drop hrun hquote
  rw [hkept] at hopens
  refine ⟨by simp, ?_, .function h.name.nullFree h.name.ne_nil, by simp,
    by simp [Token.stopsBefore, hopens], fun ds _ => ?_⟩
  · refine lexes_of_startsName (htext ▸ hname) (htext ▸ hnumber) (htext ▸ hcdc) fun p => ?_
    rw [← htext, h.name.identLike_paren]
    simp only [urlOrFunction, h.isUrl, Input.span_run _ hrun hbody, takeWhile_append_run hrun hbody,
      Input.peek?, hquote, Input.drop, hkept, htaken, tokenAt]
    simp
  · rw [← htext]
    simp only [tokenText, String.toList_ofList, h.escapeIdent_eq, List.append_assoc]
    exact .append hback (.hidden rfl)

/-- So it ends inside of the text. -/
theorem AddressAt.function_within (h : AddressAt s (run ++ body)) (hrun : ∀ c ∈ run, isBlank c = true)
    (hbody : body.head?.any isBlank = false) (hquote : body.head?.any isQuote = true) :
    StartsWithin (s ++ '(' :: (run ++ body)) := by
  have htext : s ++ '(' :: (run ++ body) =
      s ++ '(' :: run.take (run.length - 1) ++ (run.drop (run.length - 1) ++ body) := by
    rw [List.append_assoc, List.cons_append, ← List.append_assoc (run.take _), List.take_append_drop]
  refine ⟨_, ⟨.function, String.ofList s, Position.none, .none⟩, _, htext, fun tail htail => ?_⟩
  rw [List.append_assoc]
  exact h.spells_function hrun ((htail.head?_any (by decide) body).trans hbody)
    ((htail.head?_any (by decide) body).trans hquote)

/-- Without a mark the name and its parenthesis open an address. -/
theorem AddressAt.token_eq (h : AddressAt s (run ++ body)) (hrun : ∀ c ∈ run, isBlank c = true)
    {c : Char} {ds : List Char} (hchars : s ++ '(' :: (run ++ body) = c :: ds)
    (hbody : (body ++ tail).head?.any isBlank = false)
    (hquote : (body ++ tail).head?.any isQuote = false) :
    startsName (c :: (ds ++ tail)) = true ∧ ∀ p,
      c ≠ '/' ∧ token ⟨c :: (ds ++ tail), p⟩ c =
        let url := urlFrom [] ⟨body ++ tail, ((p.afterAll s).after '(').afterAll run⟩
        (⟨if url.2.1 then .url else .badUrl, String.ofList url.1, p, .none⟩, url.2.2) := by
  have htext : s ++ '(' :: (run ++ (body ++ tail)) = c :: (ds ++ tail) := by
    simpa using congrArg (· ++ tail) hchars
  obtain ⟨hname, hnumber, hcdc⟩ := htext ▸ h.starts_name (run ++ (body ++ tail))
  refine ⟨hname, fun p => ?_⟩
  obtain ⟨hslash, htoken⟩ := token_of_startsName p hname hnumber hcdc
  refine ⟨hslash, ?_⟩
  rw [htoken, ← htext, h.name.identLike_paren]
  dsimp only
  generalize hurl : urlFrom [] ⟨body ++ tail, ((p.afterAll s).after '(').afterAll run⟩ = url
  obtain ⟨address, ends, rest⟩ := url
  simp only [urlOrFunction, h.isUrl, Input.span_run _ hrun hbody, Input.peek?, hquote, hurl]
  cases ends <;> rfl

/-- An address that ends where `rest` and `tail` are left is spelled by what stands before them. -/
theorem AddressAt.spells_address {raw t : List Char} (rest tail : List Char)
    (h : AddressAt s (run ++ (raw ++ rest))) (hrun : ∀ c ∈ run, isBlank c = true)
    (ht : NullFree t) (hbody : (raw ++ rest ++ tail).head?.any isBlank = false)
    (hquote : (raw ++ rest ++ tail).head?.any isQuote = false)
    (hread : ∀ p, urlFrom [] ⟨raw ++ rest ++ tail, p⟩ = (t, true, ⟨rest ++ tail, p.afterAll raw⟩)) :
    Spells (s ++ '(' :: (run ++ raw)) ⟨.url, String.ofList t, Position.none, .none⟩ (rest ++ tail) := by
  obtain ⟨c, ds, hchars⟩ : ∃ c ds, s ++ '(' :: (run ++ (raw ++ rest)) = c :: ds :=
    List.exists_cons_of_ne_nil (by simp)
  obtain ⟨hname, htoken⟩ := h.token_eq hrun hchars hbody hquote
  have htext : s ++ '(' :: (run ++ raw) ++ (rest ++ tail) = c :: (ds ++ tail) := by
    simpa using congrArg (· ++ tail) hchars
  have hback : c ≠ '\\' := h.name.clean.noBackslash c (by simp [hchars])
  refine ⟨by simp, ?_, .url ht, by simp, rfl, fun ds _ => htext ▸ .address hback hname⟩
  refine lexes_of_token htext (startsComment_cons_of_ne _ (htoken Position.none).1) fun p => ?_
  rw [(htoken p).2, hread]
  simp

/-- An address ends inside of the text, or it is a bad one, or what shuts the text ends it. -/
theorem AddressAt.address_within (h : AddressAt s (run ++ body)) (hrun : ∀ c ∈ run, isBlank c = true)
    (hbody : body.head?.any isBlank = false) (hquote : body.head?.any isQuote = false) :
    StartsWithin (s ++ '(' :: (run ++ body)) ∨ StartsBadly (s ++ '(' :: (run ++ body)) ∨
      Overruns (s ++ '(' :: (run ++ body)) := by
  have hclean : Clean body := fun c hc => h.name.clean c (by simp [hc])
  have hblank {tail : List Char} (htail : Shut tail) : (body ++ tail).head?.any isBlank = false :=
    (htail.head?_any (by decide) body).trans hbody
  have hmark {tail : List Char} (htail : Shut tail) : (body ++ tail).head?.any isQuote = false :=
    (htail.head?_any (by decide) body).trans hquote
  obtain ⟨c, ds, hchars⟩ : ∃ c ds, s ++ '(' :: (run ++ body) = c :: ds :=
    List.exists_cons_of_ne_nil (by simp)
  have htoken {tail : List Char} (htail : Shut tail) :=
    (h.token_eq hrun hchars (hblank htail) (hmark htail)).2
  rcases urlFrom_cases hclean [] (List.forall_mem_nil _) with
    ⟨t, raw, rest, rfl, ht, hgood⟩ | hbad | ⟨⟨t, ht, hgood⟩, hends⟩
  · have hcs : s ++ '(' :: (run ++ (raw ++ rest)) = s ++ '(' :: (run ++ raw) ++ rest := by simp
    exact .inl ⟨_, _, rest, hcs, fun tail htail =>
      h.spells_address rest tail hrun ht (hblank htail) (hmark htail) (hgood tail htail)⟩
  · refine .inr (.inl fun tail htail => ⟨c, ds ++ tail, by rw [hchars]; rfl, fun p => ?_⟩)
    simp [(htoken htail p).2, hbad tail htail, Token.isBad]
  · refine .inr (.inr ⟨⟨⟨.url, String.ofList t, Position.none, .none⟩, ?_⟩, c, ds, hchars,
      fun more p => ?_⟩)
    · have hbehind : body ++ [] ++ [] = body := by rw [List.append_nil, List.append_nil]
      have haddress : AddressAt s (run ++ (body ++ [])) := by rwa [List.append_nil]
      refine haddress.spells_address [] [] hrun ht ?_ ?_ ?_
      · rw [hbehind]
        exact hbody
      · rw [hbehind]
        exact hquote
      · rw [hbehind]
        exact hgood
    · rw [List.cons_append, (htoken (.inr ⟨more, rfl⟩) p).2]
      exact (congrArg List.length (hends more _)).le

/-- The function or address of that name ends inside of the text, or it is a bad address, or it takes
what shuts the text. -/
theorem AddressAt.startsWithin {behind : List Char} (h : AddressAt s behind) :
    StartsWithin (s ++ '(' :: behind) ∨ StartsBadly (s ++ '(' :: behind) ∨
      Overruns (s ++ '(' :: behind) := by
  have hsplit := List.takeWhile_append_dropWhile (p := isBlank) (l := behind)
  have hrun : ∀ c ∈ behind.takeWhile isBlank, isBlank c = true := fun _ => List.mem_takeWhile_imp
  have hbody := head?_dropWhile_any isBlank behind
  generalize behind.takeWhile isBlank = run at hsplit hrun
  generalize behind.dropWhile isBlank = body at hsplit hbody
  subst hsplit
  cases hquote : body.head?.any isQuote with
  | true => exact .inl (h.function_within hrun hbody hquote)
  | false => exact h.address_within hrun hbody hquote

end Addresses

/-- The text starts with a token as it is written, or with a function or address of that name. -/
theorem startsWritten_of_startsName {cs : List Char} (hclean : Clean cs) (hname : startsName cs = true)
    (hcdc : ['-', '-', '>'].isPrefixOf cs = false) :
    StartsWritten cs ∨ ∃ s behind, cs = s ++ '(' :: behind ∧ AddressAt s behind := by
  obtain ⟨s, rest, rfl, hs⟩ := exists_nameAt hclean (nameGoesOn_of_startsName hname)
  have hident := hs.escapeIdent_eq hname
  by_cases hparen : rest.head? = some '('
  · obtain ⟨behind, rfl⟩ : ∃ tail, rest = '(' :: tail := by
      cases rest with
      | nil => simp at hparen
      | cons c cs => exact ⟨cs, by simpa using hparen⟩
    by_cases hurl : Text.foldCase (String.ofList s) = "url"
    · exact .inr ⟨s, behind, rfl, hs, hurl, hs.startsName_eq ▸ hname⟩
    · exact .inl ⟨⟨.function, String.ofList s, Position.none, .none⟩, behind, by simp [tokenText, hident],
        .function hs.nullFree hs.ne_nil, by simp, by simp [Token.stopsBefore, hurl]⟩
  · refine .inl ⟨⟨.ident, String.ofList s, Position.none, .none⟩, rest, by simp [tokenText, hident],
      .ident hs.nullFree hs.ne_nil, by simp, ?_⟩
    have hangle : s = ['-', '-'] → rest.head? ≠ some '>' := by
      rintro rfl hangle
      cases rest with
      | nil => simp at hangle
      | cons c cs => simp_all [List.isPrefixOf]
    simp only [Token.stopsBefore, hs.ends, Bool.not_false, Bool.true_and, Bool.and_eq_true,
      bne_iff_ne, Bool.not_eq_true', Bool.and_eq_false_iff, beq_eq_false_iff_ne]
    refine ⟨hparen, ?_⟩
    by_cases hhyphens : s = ['-', '-']
    · exact .inr (hangle hhyphens)
    · exact .inl (by simpa [String.ext_iff] using hhyphens)

/-! ## All tokens of a source -/

theorem startsNumber_of_isDigit {c : Char} (cs : List Char) (h : isDigit c = true) :
    startsNumber (c :: cs) = true := by
  have hsign := isDigit_not_sign h
  simp [startsNumber, hsign.1, hsign.2.1, startsUnsigned, h]

/-- A character that starts neither a number nor a name nor a comment is a delimiter. -/
theorem delimStops_of_unmarked {c : Char} {cs : List Char} (hmarked : isMarked c = false)
    (hnumber : startsNumber (c :: cs) = false) (hcomment : startsComment (c :: cs) = false) :
    delimStops c cs = true := by
  unfold delimStops
  split
  · exact absurd hmarked (by decide)
  · simpa [startsNumber] using hnumber
  · exact absurd hmarked (by decide)
  · have hdigit : isDigit '.' = false := by decide
    simpa [startsNumber, startsUnsigned, hdigit, startsFraction_point] using hnumber
  · exact absurd hmarked (by decide)
  · exact absurd hmarked (by decide)
  · cases cs with
    | nil => rfl
    | cons d ds =>
      rw [bne_iff_ne]
      intro hstar
      rw [(Option.some.inj hstar : d = '*')] at hcomment
      exact absurd hcomment (by simp [startsComment])
  · rfl

/-- The text starts with a token that is written as it stands there, with a string, or with a
function or address of that name. -/
def StartsClean (cs : List Char) : Prop :=
  StartsWritten cs ∨ (∃ (q : Quote) (ds : List Char), cs = q.char :: ds) ∨
    ∃ s behind, cs = s ++ '(' :: behind ∧ AddressAt s behind

theorem StartsClean.of_name {cs : List Char}
    (h : StartsWritten cs ∨ ∃ s behind, cs = s ++ '(' :: behind ∧ AddressAt s behind) :
    StartsClean cs :=
  h.imp_right .inr

theorem startsClean_unmarked {c : Char} {cs : List Char} (hclean : Clean (c :: cs))
    (hcomment : startsComment (c :: cs) = false) (hmarked : isMarked c = false) :
    StartsClean (c :: cs) := by
  have hback := (hclean c (by simp)).1
  have hhyphen : c ≠ '-' := by
    rintro rfl
    exact absurd hmarked (by decide)
  by_cases hnumber : startsNumber (c :: cs) = true
  · exact .inl (startsWritten_of_startsNumber hclean hnumber)
  · have hnumber : startsNumber (c :: cs) = false := by simpa using hnumber
    by_cases hname : startsName (c :: cs) = true
    · exact .of_name (startsWritten_of_startsName hclean hname
        (by simp [List.isPrefixOf, Ne.symm hhyphen]))
    · refine .inl (startsWritten_delim ?_ (delimStops_of_unmarked hmarked hnumber hcomment))
      have hdigit : isDigit c = false := by
        by_cases hdigit : isDigit c = true
        · simp [startsNumber_of_isDigit cs hdigit] at hnumber
        · simpa using hdigit
      rw [startsName_cons cs hhyphen hback] at hname
      simp [isDelimChar, (hclean c (by simp)).2, hdigit, hname, hback, hmarked]

theorem startsClean_hyphen {cs : List Char} (hclean : Clean ('-' :: cs)) :
    StartsClean ('-' :: cs) := by
  by_cases hnumber : startsNumber ('-' :: cs) = true
  · exact .inl (startsWritten_of_startsNumber hclean hnumber)
  · have hnumber : startsNumber ('-' :: cs) = false := by simpa using hnumber
    by_cases hcdc : ['-', '-', '>'].isPrefixOf ('-' :: cs) = true
    · obtain ⟨rest, hrest⟩ := List.isPrefixOf_iff_prefix.mp hcdc
      exact .inl ⟨⟨.cdc, "-->", Position.none, .none⟩, rest, hrest.symm, .cdc, by simp, rfl⟩
    · by_cases hname : startsName ('-' :: cs) = true
      · have hcdc := by simpa only [Bool.not_eq_true] using hcdc
        exact .of_name (startsWritten_of_startsName hclean hname hcdc)
      · refine .inl (startsWritten_delim (by decide) ?_)
        have hunsigned : startsUnsigned cs = false := by simpa [startsNumber] using hnumber
        simpa [delimStops, hunsigned] using hname

/-- A clean text that starts with no blank and no comment. -/
theorem startsClean_cases {c : Char} {cs : List Char} (hclean : Clean (c :: cs))
    (hcomment : startsComment (c :: cs) = false) (hblank : isBlank c = false) :
    StartsClean (c :: cs) := by
  cases hmarked : isMarked c with
  | false => exact startsClean_unmarked hclean hcomment hmarked
  | true =>
    rcases isMarked_cases hmarked with hfalse | ⟨q, rfl⟩ | ⟨type, hpunctuation⟩ | hspecial
    · rw [hblank] at hfalse
      cases hfalse
    · exact .inr (.inl ⟨q, cs, rfl⟩)
    · exact .inl (startsWritten_punctuation type cs hpunctuation)
    · simp only [List.mem_cons, List.not_mem_nil, or_false] at hspecial
      rcases hspecial with rfl | rfl | rfl | rfl
      · exact .inl (startsWritten_hash hclean)
      · exact startsClean_hyphen hclean
      · exact .inl (startsWritten_angle cs)
      · exact .inl (startsWritten_atKeyword hclean)

/-- A text that starts with no blank and no comment starts with a token. -/
theorem startsToken_cases {c : Char} {cs : List Char} (hclean : Clean (c :: cs))
    (hcomment : startsComment (c :: cs) = false) (hblank : isBlank c = false) :
    StartsToken (c :: cs) ∨ StartsBad (c :: cs) := by
  rcases startsClean_cases hclean hcomment hblank with hwritten | ⟨q, ds, hcs⟩ | ⟨s, behind, hcs, h⟩
  · exact .inl (hwritten.startsToken hclean)
  · rw [hcs] at hclean ⊢
    exact startsToken_of_startsWithin (startsWithin_string q hclean)
  · rw [hcs]
    exact startsToken_of_startsWithin h.startsWithin

/-- The tokens `ts` are spelled by the text. -/
inductive Lexed : List Char → List Token → Prop
  | nil : Lexed [] []
  | blanks {run rest : List Char} {ts : List Token} :
      run ≠ [] → (∀ c ∈ run, isBlank c = true) → rest.head?.any isBlank = false → Lexed rest ts →
      Lexed (run ++ rest) (⟨.whitespace, String.ofList run, Position.none, .none⟩ :: ts)
  | token {raw rest : List Char} {t : Token} {ts : List Token} :
      Spells raw t rest → Lexed rest ts → Lexed (raw ++ rest) (t :: ts)

namespace Lexer

/-- No comment stands between the tokens of the input. -/
def commentFreeFrom : Nat → Input → Bool
  | 0, _ => true
  | n + 1, i =>
    match i.chars with
    | [] => true
    | c :: cs => !startsComment (c :: cs) && commentFreeFrom n (token i c).2

end Lexer

/-- No comment stands between the tokens of the source. -/
def commentFree (source : String) : Bool :=
  commentFreeFrom (normalize source.toList).length (Input.ofChars (normalize source.toList))

/-- Having read a token of a source without comments, the lexer goes on with one. -/
theorem commentFreeFrom_of_reads {raw rest : List Char} {t : Token} (h : Lexes raw t rest) {n : Nat}
    {p : Position} (hcomment : commentFreeFrom (n + 1) ⟨raw ++ rest, p⟩ = true) :
    commentFreeFrom n ⟨rest, p.afterAll raw⟩ = true := by
  obtain ⟨c, cs, hcs, -, htoken⟩ := h
  rw [hcs] at hcomment
  simp only [commentFreeFrom, Bool.and_eq_true, htoken p] at hcomment
  exact hcomment.2

/-- A source without comments and bad tokens is spelled by its tokens. -/
theorem exists_lexed {n : Nat} {cs : List Char} {p : Position} (hn : cs.length ≤ n)
    (hclean : Clean cs) (hcomment : commentFreeFrom n ⟨cs, p⟩ = true)
    (hbad : ∀ t ∈ tokensFrom n ⟨cs, p⟩, t.isBad = false) :
    ∃ ts, Lexed cs ts ∧
      (tokensFrom n ⟨cs, p⟩).map Token.unplaced = ts.map Token.unplaced ++ [endToken] := by
  induction n generalizing cs p with
  | zero =>
    obtain rfl : cs = [] := List.length_eq_zero_iff.mp (Nat.le_zero.mp hn)
    exact ⟨[], .nil, tokensFrom_nil 0 p⟩
  | succ n ih =>
    -- What is left of the source behind its first token is spelled by the other tokens.
    have hstep : ∀ {raw rest t}, cs = raw ++ rest → raw ≠ [] → Lexes raw t rest →
        (∀ ts, Lexed rest ts → Lexed cs (t :: ts)) →
        ∃ ts, Lexed cs ts ∧ (tokensFrom (n + 1) ⟨cs, p⟩).map Token.unplaced =
          ts.map Token.unplaced ++ [endToken] := by
      intro raw rest t hcs hraw hlexes hlexed
      subst hcs
      have hpos := List.length_pos_iff.mpr hraw
      rw [hlexes.tokensFrom] at hbad ⊢
      rw [List.length_append] at hn
      obtain ⟨ts, hts, htokens⟩ := ih (by omega) hclean.append_right
        (commentFreeFrom_of_reads hlexes hcomment) (fun u hu => hbad u (by simp [hu]))
      exact ⟨t :: ts, hlexed ts hts, by simp [htokens, Token.unplaced]⟩
    cases cs with
    | nil => exact ⟨[], .nil, tokensFrom_nil _ p⟩
    | cons c cs =>
      by_cases hblank : isBlank c = true
      · have hsplit := List.takeWhile_append_dropWhile (p := isBlank) (l := c :: cs)
        have hrun : ∀ d ∈ (c :: cs).takeWhile isBlank, isBlank d = true :=
          fun _ => List.mem_takeWhile_imp
        have hne : (c :: cs).takeWhile isBlank ≠ [] := by simp [hblank]
        have hrest := head?_dropWhile_any isBlank (c :: cs)
        refine hstep hsplit.symm hne (lexes_blanks hne hrun hrest Position.none) fun ts hts => ?_
        have hlexed := Lexed.blanks hne hrun hrest hts
        rwa [hsplit] at hlexed
      · have hfree : startsComment (c :: cs) = false := by
          simp only [commentFreeFrom, Bool.and_eq_true, Bool.not_eq_true'] at hcomment
          exact hcomment.1
        rcases startsToken_cases hclean hfree (by simpa using hblank) with
          ⟨raw, t, rest, hcs, hspells⟩ | ⟨d, ds, hcs, hstart⟩
        · refine hstep hcs hspells.ne_nil hspells.lexes fun ts hts => ?_
          rw [hcs]
          exact .token hspells hts
        · obtain ⟨rfl, rfl⟩ := List.cons.inj hcs
          have hfirst := hbad (token ⟨c :: cs, p⟩ c).1 (by
            rw [tokensFrom, skipComments_of_not_startsComment hfree]
            simp)
          simp [hstart p] at hfirst

end Cascade
