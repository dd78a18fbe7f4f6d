import Cascade.Proofs.Spelling
import Mathlib.Data.List.DropRight

/-!
# Writing the tokens of a text

The tokens of a text without comments and backslashes, written with one space for
each run of blanks, are the tokens of the text that is written.

**Method.**  A token stops before the rest of the source, and it has to stop before
the text of the tokens that were read from this rest.  As the two are alike, the
tokens that spell a source are joined when they are written.

**Results.**
* `valuesAfter_tokens`: the text of values that are tokens is the text of the tokens
  that are written.
* `Lexed.joined`: the tokens that spell a text are joined.
* `tokenize_formatValues`: so they are read back from what is written.
-/

namespace Cascade
open Lexer Output

/-! ## What is written -/

/-- The token is whitespace. -/
def Token.isWhitespace (t : Token) : Bool :=
  t.type == .whitespace

/-- The tokens that are written behind a given one: all but the spaces that are not kept. -/
def writtenAfter (minify : Bool) (before : Option Token) : List Token → List Token
  | [] => []
  | t :: ts =>
    if t.isWhitespace then
      if keepsSpace minify (before.map .token) (ts.map .token) then
        t :: writtenAfter minify before ts
      else
        writtenAfter minify before ts
    else
      t :: writtenAfter minify (some t) ts

theorem tokenText_isWhitespace {minify : Bool} {t : Token} (h : t.isWhitespace = true) :
    tokenText minify t = [' '] := by
  have htype : t.type = .whitespace := by simpa [Token.isWhitespace] using h
  simp [tokenText, htype]

/-- The text of tokens is that of the ones that are written. -/
theorem valuesAfter_tokens (minify : Bool) (before : Option Token) (ts : List Token) :
    valuesAfter minify (before.map .token) (ts.map .token) =
      (writtenAfter minify before ts).flatMap (tokenText minify) := by
  induction ts generalizing before with
  | nil => simp [valuesAfter, writtenAfter]
  | cons t ts ih =>
    have hvalue : (Value.token t).isWhitespace = t.isWhitespace := rfl
    simp only [List.map_cons, valuesAfter, writtenAfter, hvalue]
    split
    · rename_i hblank
      split
      · rw [ih, List.flatMap_cons, tokenText_isWhitespace hblank]
        rfl
      · exact ih before
    · rw [List.flatMap_cons, ← ih (some t)]
      rfl

theorem find?_isSome_tokens (ts : List Token) :
    ((ts.map Value.token).find? fun v => !v.isWhitespace).isSome = !ts.all Token.isWhitespace := by
  induction ts with
  | nil => rfl
  | cons t ts ih =>
    have hvalue : (Value.token t).isWhitespace = t.isWhitespace := rfl
    rw [List.map_cons, List.find?_cons, hvalue]
    cases ht : t.isWhitespace with
    | false => simp [ht]
    | true => simpa [ht] using ih

/-- Outside the short form a space is kept between two tokens. -/
theorem keepsSpace_pretty (before : Option Token) (ts : List Token) :
    keepsSpace false (before.map .token) (ts.map .token) =
      (before.isSome && !ts.all Token.isWhitespace) := by
  rw [← find?_isSome_tokens]
  unfold keepsSpace
  cases before <;> cases (ts.map Value.token).find? fun v => !v.isWhitespace <;> rfl

theorem rdropWhile_cons {α : Type} {p : α → Bool} (a : α) (l : List α) :
    (a :: l).rdropWhile p = if p a && l.all p then [] else a :: l.rdropWhile p := by
  induction l using List.reverseRecOn with
  | nil => simp [List.rdropWhile_singleton]
  | append_singleton l b ih =>
    rw [← List.cons_append, List.rdropWhile_concat, List.rdropWhile_concat, ih]
    by_cases hb : p b = true <;> simp [hb]

theorem rdropWhile_append_of_not {α : Type} {p : α → Bool} {a : α} (ha : p a = false) (l l' : List α) :
    (l ++ a :: l').rdropWhile p = l ++ a :: l'.rdropWhile p := by
  induction l with
  | nil => rw [List.nil_append, rdropWhile_cons, ha]; rfl
  | cons b l ih =>
    have hall : (l ++ a :: l').all p = false := by simp [ha]
    rw [List.cons_append, rdropWhile_cons, hall, Bool.and_false, if_neg (by simp), ih]
    rfl

/-- Behind a token all spaces are written but those at the end. -/
theorem writtenAfter_some (t : Token) (ts : List Token) :
    writtenAfter false (some t) ts = ts.rdropWhile Token.isWhitespace := by
  induction ts generalizing t with
  | nil => rfl
  | cons u ts ih =>
    rw [writtenAfter, rdropWhile_cons, keepsSpace_pretty]
    cases hu : u.isWhitespace with
    | false => simp [ih]
    | true =>
      cases hts : ts.all Token.isWhitespace with
      | false => simp [ih]
      | true => simpa [ih] using hts

/-- The tokens without the whitespace at both ends. -/
def trimTokens (ts : List Token) : List Token :=
  (ts.dropWhile Token.isWhitespace).rdropWhile Token.isWhitespace

/-- All spaces are written but those at both ends. -/
theorem writtenAfter_none (ts : List Token) :
    writtenAfter false none ts = trimTokens ts := by
  induction ts with
  | nil => rfl
  | cons t ts ih =>
    unfold trimTokens at ih ⊢
    rw [writtenAfter, keepsSpace_pretty]
    cases ht : t.isWhitespace with
    | false => simp [ht, writtenAfter_some, rdropWhile_cons]
    | true => simpa [ht] using ih

/-- The token without its place, where whitespace is a single space. -/
def Token.spaced (t : Token) : Token :=
  { t with text := if t.isWhitespace then " " else t.text, position := Position.none }

theorem Token.spaced_of_visible {t : Token} (h : t.isWhitespace = false) :
    t.spaced = t.unplaced := by
  simp [Token.spaced, Token.unplaced, h]

theorem tokenText_spaced (t : Token) :
    tokenText false t.spaced = tokenText false t := by
  cases ht : t.isWhitespace with
  | true =>
    have hspaced : t.spaced.isWhitespace = true := ht
    rw [tokenText_isWhitespace ht, tokenText_isWhitespace hspaced]
  | false =>
    rw [Token.spaced_of_visible ht]
    rfl

theorem textOf_map_spaced (ts : List Token) :
    textOf (ts.map Token.spaced) = textOf ts := by
  simp only [textOf, List.flatMap_map, tokenText_spaced]

/-! ## Spelled tokens are joined -/

/-- Tokens are tidy when they are joined and read back, once written with single spaces. -/
structure Tidy (ts : List Token) : Prop where
  readable : ∀ t ∈ ts.map Token.spaced, t.Readable
  joined : Joined (ts.map Token.spaced)

theorem Tidy.nil :
    Tidy [] := by
  constructor
  · simp
  · trivial

theorem Tidy.cons {t : Token} {ts : List Token} (ht : t.spaced.Readable)
    (hstop : t.spaced.stopsBefore (textOf ts) = true) (hts : Tidy ts) :
    Tidy (t :: ts) := by
  constructor
  · simpa using ⟨ht, by simpa using hts.readable⟩
  · exact ⟨by rwa [textOf_map_spaced], hts.joined⟩

theorem Token.Readable.unplaced {t : Token} (ht : t.Readable) :
    t.unplaced.Readable := by
  cases ht <;> constructor <;> assumption

/-- A visible token in front of tidy ones. -/
theorem Tidy.cons_visible {t : Token} {ts : List Token} (hvisible : t.isWhitespace = false)
    (ht : t.Readable) (hstop : t.stopsBefore (textOf ts) = true) (hts : Tidy ts) :
    Tidy (t :: ts) := by
  refine hts.cons ?_ ?_
  · rw [Token.spaced_of_visible hvisible]
    exact ht.unplaced
  · rw [Token.spaced_of_visible hvisible]
    exact hstop

theorem Spells.isWhitespace {raw rest : List Char} {t : Token} (h : Spells raw t rest) :
    t.isWhitespace = false := by
  simpa [Token.isWhitespace] using h.visible

/-- A text that starts with no blank is empty or starts with a token. -/
theorem Lexed.cases_visible {rest : List Char} {ts : List Token} (h : Lexed rest ts)
    (hrest : rest.head?.any isBlank = false) :
    (rest = [] ∧ ts = []) ∨
      ∃ raw tail t us, rest = raw ++ tail ∧ ts = t :: us ∧ Spells raw t tail := by
  cases h with
  | nil => exact .inl ⟨rfl, rfl⟩
  | @blanks run tail us hne hrun _ _ =>
    obtain ⟨b, bs, rfl⟩ := List.exists_cons_of_ne_nil hne
    simp [hrun b (by simp)] at hrest
  | token hspells _ => exact .inr ⟨_, _, _, _, rfl, rfl, hspells⟩

/-- Whitespace alone does not spell a text that starts with no blank. -/
theorem Lexed.eq_nil_of_all {rest : List Char} {ts : List Token} (h : Lexed rest ts)
    (hrest : rest.head?.any isBlank = false) (hall : ts.all Token.isWhitespace = true) :
    rest = [] := by
  rcases h.cases_visible hrest with ⟨hnil, -⟩ | ⟨raw, tail, t, us, -, rfl, hspells⟩
  · exact hnil
  · simp [hspells.isWhitespace] at hall

/-- The tokens that spell a text are tidy, and their text is alike. -/
theorem Lexed.tidy {cs : List Char} {ts : List Token} (h : Lexed cs ts) :
    Tidy (ts.rdropWhile Token.isWhitespace) ∧
      LooksLike cs (textOf (ts.rdropWhile Token.isWhitespace)) := by
  induction h with
  | nil => exact ⟨.nil, .nil⟩
  | @blanks run rest ts hne hrun hrest hlexed ih =>
    rw [rdropWhile_cons]
    cases hall : ts.all Token.isWhitespace with
    | true =>
      obtain rfl := hlexed.eq_nil_of_all hrest hall
      simp only [Token.isWhitespace, List.append_nil]
      exact ⟨.nil, .trailing hrun⟩
    | false =>
      have hstop : Token.stopsBefore ⟨.whitespace, " ", Position.none, .none⟩ rest = true := by
        simp [Token.stopsBefore, hrest]
      simp only [Bool.and_false]
      exact ⟨ih.1.cons .space (ih.2.stopsBefore hstop), .blanks hne hrun ih.2⟩
  | @token raw rest t ts hspells hlexed ih =>
    have ht := hspells.isWhitespace
    rw [rdropWhile_cons, ht]
    exact ⟨ih.1.cons_visible ht hspells.readable (ih.2.stopsBefore hspells.stops),
      hspells.alike _ ih.2⟩

/-- Behind the blanks at its start a text is spelled by the tokens behind them. -/
theorem Lexed.dropBlanks {cs : List Char} {ts : List Token} (h : Lexed cs ts) :
    ∃ rest, Lexed rest (ts.dropWhile Token.isWhitespace) := by
  induction h with
  | nil => exact ⟨[], .nil⟩
  | blanks _ _ _ _ ih => simpa [Token.isWhitespace] using ih
  | @token raw rest t ts hspells hlexed ih =>
    rw [List.dropWhile_cons_of_neg (by simp [hspells.isWhitespace])]
    exact ⟨_, .token hspells hlexed⟩

/-- The tokens of a source without the end token. -/
def contents (source : String) : List Token :=
  (tokenize source).filter fun t => t.type != .eof

/-- Trimming comes before or after a change that leaves whitespace what it is. -/
theorem trimTokens_map {f : Token → Token} (hf : ∀ t, (f t).isWhitespace = t.isWhitespace)
    (ts : List Token) :
    trimTokens (ts.map f) = (trimTokens ts).map f := by
  have hclass : Token.isWhitespace ∘ f = Token.isWhitespace := funext hf
  simp only [trimTokens, List.rdropWhile, List.dropWhile_map, ← List.map_reverse, hclass]

theorem spaced_unplaced :
    Token.spaced ∘ Token.unplaced = Token.spaced := by
  rfl

/-- Places do not count for what is written. -/
theorem trimTokens_spaced_congr {ts us : List Token}
    (h : ts.map Token.unplaced = us.map Token.unplaced) :
    (trimTokens ts).map Token.spaced = (trimTokens us).map Token.spaced := by
  have htrim : (trimTokens ts).map Token.unplaced = (trimTokens us).map Token.unplaced := by
    have hclass (t : Token) : t.unplaced.isWhitespace = t.isWhitespace := rfl
    rw [← trimTokens_map hclass, h, trimTokens_map hclass]
  have hspaced := congrArg (List.map Token.spaced) htrim
  rwa [List.map_map, List.map_map, spaced_unplaced] at hspaced

theorem Token.Readable.type_ne_eof {t : Token} (ht : t.Readable) :
    t.type ≠ .eof := by
  cases ht with
  | punctuation hc =>
    have hall : ∀ e ∈ Output.punctuation, e.2 ≠ .eof := by decide
    exact hall _ hc
  | _ => simp

theorem Lexed.type_ne_eof {cs : List Char} {ts : List Token} (h : Lexed cs ts) :
    ∀ t ∈ ts, t.type ≠ .eof := by
  induction h with
  | nil => simp
  | blanks _ _ _ _ ih => simpa using ih
  | token hspells _ ih => simpa using ⟨hspells.readable.type_ne_eof, ih⟩

/-- The end token is the only one that is left out. -/
theorem contents_unplaced {source : String} {ts : List Token} (hts : ∀ t ∈ ts, t.type ≠ .eof)
    (h : (tokenize source).map Token.unplaced = ts.map Token.unplaced ++ [endToken]) :
    (contents source).map Token.unplaced = ts.map Token.unplaced := by
  have hfilter := congrArg (List.filter fun t => t.type != .eof) h
  have hclass : (fun t : Token => t.type != .eof) ∘ Token.unplaced = fun t => t.type != .eof := rfl
  have hall : ts.filter (fun t => t.type != .eof) = ts := by
    rw [List.filter_eq_self]
    simpa using hts
  rw [List.filter_append, List.filter_map, List.filter_map, hclass, hall] at hfilter
  simpa [contents, endToken] using hfilter

theorem clean_normalize {cs : List Char} (h : '\\' ∉ cs) :
    Clean (normalize cs) := by
  intro c hc
  refine ⟨?_, isNormal_of_mem_normalize hc⟩
  rintro rfl
  fun_induction normalize cs with
  | case1 => simp at hc
  | case2 rest ih =>
    simp only [List.mem_cons, not_or] at h hc
    rcases hc with hfalse | hc
    · exact absurd hfalse (by decide)
    · exact ih h.2.2 hc
  | case3 d rest hne ih =>
    simp only [List.mem_cons, not_or] at h hc
    rcases hc with hfalse | hc
    · split at hfalse
      · exact absurd hfalse (by decide)
      · split at hfalse
        · exact absurd hfalse (by decide)
        · exact h.1 hfalse
    · exact ih h.2 hc

/-- A source without comments, backslashes and bad tokens is spelled by its tokens. -/
theorem exists_lexed_source {source : String} (hcomment : commentFree source = true)
    (hbackslash : '\\' ∉ source.toList) (hbad : ∀ t ∈ tokenize source, t.isBad = false) :
    ∃ ts, Lexed (normalize source.toList) ts ∧
      (tokenize source).map Token.unplaced = ts.map Token.unplaced ++ [endToken] :=
  exists_lexed (Nat.le_refl _) (clean_normalize hbackslash) hcomment hbad

/-- The trimmed tokens of such a source are tidy. -/
theorem tidy_contents {source : String} (hcomment : commentFree source = true)
    (hbackslash : '\\' ∉ source.toList) (hbad : ∀ t ∈ tokenize source, t.isBad = false) :
    Tidy (trimTokens (contents source)) := by
  obtain ⟨ts, hlexed, htokens⟩ := exists_lexed_source hcomment hbackslash hbad
  have hcontents := contents_unplaced hlexed.type_ne_eof htokens
  obtain ⟨rest, hvisible⟩ := hlexed.dropBlanks
  have htidy : Tidy (trimTokens ts) := hvisible.tidy.1
  have hspaced := trimTokens_spaced_congr hcontents
  exact ⟨hspaced ▸ htidy.readable, hspaced ▸ htidy.joined⟩

/-- Tidy tokens are read back with single spaces. -/
theorem Tidy.tokenize {ts : List Token} (h : Tidy ts) :
    (tokenize (String.ofList (textOf ts))).map Token.unplaced =
      ts.map Token.spaced ++ [endToken] := by
  rw [← textOf_map_spaced, tokenize_textOf h.readable h.joined]
  simp [Token.spaced, Token.unplaced]

theorem formatValues_tokens (minify : Bool) (source : String) :
    formatValues minify (valuesOf (tokenize source)) =
      String.ofList ((writtenAfter minify none (contents source)).flatMap (tokenText minify)) := by
  rw [formatValues, valuesText, valuesOf, ← valuesAfter_tokens]
  rfl

/-- What is written is the text of the trimmed tokens. -/
theorem formatValues_trimTokens (source : String) :
    formatValues false (valuesOf (tokenize source)) =
      String.ofList (textOf (trimTokens (contents source))) := by
  rw [formatValues_tokens, writtenAfter_none, textOf]

/-- Written with single spaces, the tokens of a source are read back. -/
theorem tokenize_formatValues {source : String} (hcomment : commentFree source = true)
    (hbackslash : '\\' ∉ source.toList) (hbad : ∀ t ∈ tokenize source, t.isBad = false) :
    (tokenize (formatValues false (valuesOf (tokenize source)))).map Token.unplaced =
      (trimTokens (contents source)).map Token.spaced ++ [endToken] := by
  rw [formatValues_trimTokens]
  exact (tidy_contents hcomment hbackslash hbad).tokenize

/-- A rule with blanks around it and a run of them inside. -/
theorem tokenize_formatValues_rule :
    (tokenize (formatValues false (valuesOf (tokenize " a\n\t>b\x7bc:url( x )1.50px ")))).map
        Token.unplaced =
      [⟨.ident, "a", Position.none, .none⟩, ⟨.whitespace, " ", Position.none, .none⟩,
        ⟨.delim, ">", Position.none, .none⟩, ⟨.ident, "b", Position.none, .none⟩,
        ⟨.openBrace, "\x7b", Position.none, .none⟩, ⟨.ident, "c", Position.none, .none⟩,
        ⟨.colon, ":", Position.none, .none⟩, ⟨.url, "x", Position.none, .none⟩,
        ⟨.dimension, "1.50", Position.none, .measure false "px"⟩, endToken] := by
  rw [tokenize_formatValues (by decide +kernel) (by decide) (by decide +kernel)]
  decide +kernel

end Cascade
