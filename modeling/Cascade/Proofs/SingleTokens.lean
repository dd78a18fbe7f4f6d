import Cascade.Proofs.SourceTokens

/-!
# Single tokens

What the writer makes of a text is a single token that gives the text back, whatever
characters it holds: a string between marks, an address, and, for a text that is not
empty, an identifier, an at-keyword and a hash.

**Method.**  `IsToken text t` says that a source is the token `t` and nothing else.  A
readable token that ends before nothing is read from its own text, so each of the
writers needs only the constructor of `Token.Readable` that its tokens have.  Behind an
identifier more text may stand: normalizing does not reach across the seam.

**Results.**
* `isToken_tokenText`: a readable token is the only one of its text.
* `escapes_undone`: strings, addresses, names and hashes are read back as they were.
* `ident_before_null`: only a null character, which is replaced first, joins an identifier that
  it could not go on with.
-/

namespace Cascade
open Lexer Output

/-! ## Texts of one token -/

/-- The source is one token, which stands at its start, and has its end behind that. -/
def IsToken (text : List Char) (t : Token) : Prop :=
  tokenize (String.ofList text) =
    [{ t with position := Position.start }, ⟨.eof, "", Position.start.afterAll text, .none⟩]

theorem tokenize_of_normal {cs : List Char} (h : Normal cs) :
    tokenize (String.ofList cs) = tokensFrom cs.length ⟨cs, Position.start⟩ := by
  rw [tokenize, String.toList_ofList, normalize_of_isNormal h]
  rfl

/-- A text that the lexer takes for a token to its end is a text of that token. -/
theorem isToken_of_lexes {u : List Char} {t : Token} (hu : Normal u) (h : Lexes u t []) :
    IsToken u t := by
  obtain ⟨c, cs, hcs, -⟩ := id h
  have hlength : u.length = cs.length + 1 := by
    rw [← List.append_nil u, hcs, List.length_cons]
  have hread := h.tokensFrom cs.length Position.start
  rw [List.append_nil, tokensFrom_end] at hread
  rw [IsToken, tokenize_of_normal hu, hlength]
  exact hread

/-- A readable token is the only one of the text that it is written as. -/
theorem isToken_tokenText {t : Token} (ht : t.Readable) (hstop : t.stopsBefore [] = true) :
    IsToken (tokenText false t) t :=
  isToken_of_lexes (fun _ hc => isNormal_tokenText ht hc) (lexes_tokenText ht hstop)

/-! ## Text behind an identifier -/

theorem normalize_cons {c : Char} (hc : isNormal c = true) (cs : List Char) :
    normalize (c :: cs) = c :: normalize cs := by
  simp only [isNormal, Bool.and_eq_true, bne_iff_ne] at hc
  rw [normalize.eq_3 c cs fun _ hreturn _ => hc.1.1 hreturn]
  simp [hc]

/-- Normalizing leaves a normal front as it is. -/
theorem normalize_append {u : List Char} (hu : Normal u) (v : List Char) :
    normalize (u ++ v) = u ++ normalize v := by
  induction u with
  | nil => rfl
  | cons c u ih =>
    rw [List.cons_append, normalize_cons (hu c (List.mem_cons_self ..)), ih hu.tail,
      List.cons_append]

/-- The first character of a normalized text. -/
theorem head?_normalize (c : Char) (cs : List Char) :
    (normalize (c :: cs)).head? =
      some (if c = '\r' ∨ c = '\x0c' then '\n' else if c = '\x00' then '\ufffd' else c) := by
  unfold normalize
  split
  · contradiction
  · next heq =>
      obtain ⟨rfl, -⟩ := List.cons.inj heq
      rfl
  · next heq =>
      obtain ⟨rfl, -⟩ := List.cons.inj heq
      rfl

/-- The text does not go on with an identifier in front of it, and does not make anything else of
it: it starts with no character of a name, no backslash, no opening parenthesis and no angle. -/
def leavesIdent : List Char → Bool
  | [] => true
  | c :: _ => !isNameChar c && c != '\\' && c != '(' && c != '>'

theorem leavesIdent_normalize {cs : List Char} (h : leavesIdent cs = true)
    (hnull : cs.head? ≠ some '\x00') :
    leavesIdent (normalize cs) = true := by
  cases cs with
  | nil => rfl
  | cons c cs =>
    have hhead := head?_normalize c cs
    have hc : c ≠ '\x00' := by simpa using hnull
    rw [if_neg hc] at hhead
    obtain ⟨ds, hds⟩ := List.head?_eq_some_iff.mp hhead
    rw [hds]
    split
    · rfl
    · exact h

/-- An identifier ends before such a text. -/
theorem stopsBefore_of_leavesIdent {cs : List Char} (h : leavesIdent cs = true) (s : String)
    (p : Position) :
    Token.stopsBefore ⟨.ident, s, p, .none⟩ cs = true := by
  cases cs with
  | nil => simp [Token.stopsBefore, nameGoesOn, startsEscape]
  | cons c cs =>
    simp only [leavesIdent, Bool.and_eq_true, Bool.not_eq_true', bne_iff_ne] at h
    obtain ⟨⟨⟨hname, hback⟩, hparen⟩, hangle⟩ := h
    simp [Token.stopsBefore, nameGoesOn, hname, startsEscape_cons_of_ne cs hback, hparen, hangle]

/-- A readable token in front of a text that it stops at is the first one that is read. -/
theorem head?_tokenize_tokenText {t : Token} (ht : t.Readable) (rest : String)
    (hstop : t.stopsBefore (normalize rest.toList) = true) :
    (tokenize (String.ofList (tokenText false t) ++ rest)).head? =
      some { t with position := Position.start } := by
  have hnormal : Normal (tokenText false t) := fun _ hc => isNormal_tokenText ht hc
  have hpos := List.length_pos_iff.mpr (tokenText_ne_nil ht)
  have hlength : (tokenText false t ++ normalize rest.toList).length =
      (tokenText false t).length - 1 + (normalize rest.toList).length + 1 := by
    rw [List.length_append]
    omega
  rw [tokenize, String.toList_append, String.toList_ofList, normalize_append hnormal, tokens,
    hlength, Input.ofChars, (lexes_tokenText ht hstop).tokensFrom]
  rfl

/-! ## Escapes are undone -/

/-- The mark that the flag of a string asks for: a double one, unless the flag is a single mark. -/
def Quote.ofFlag (flag : String) : Quote :=
  if flag = "'" then .single else .double

/-- Written as a string, an address or, unless it is empty, a name, the text is read back. -/
structure EscapesUndone (s : String) : Prop where
  string : ∀ flag : String, IsToken (quoteString (.ofFlag flag) s.toList)
    ⟨.string, s, Position.start, .quoted (.ofFlag flag)⟩
  url : IsToken ("url(".toList ++ escapeUrl s.toList ++ [')']) ⟨.url, s, Position.start, .none⟩
  ident : s ≠ "" → IsToken (escapeIdent s.toList) ⟨.ident, s, Position.start, .none⟩
  atKeyword : s ≠ "" →
    IsToken ('@' :: escapeIdent s.toList) ⟨.atKeyword, s, Position.start, .none⟩
  hash : s ≠ "" → IsToken ('#' :: escapeIdent s.toList) ⟨.hash, s, Position.start, .name true⟩
  before : s ≠ "" → ∀ rest : String, leavesIdent rest.toList = true →
    rest.toList.head? ≠ some '\x00' →
    (tokenize (String.ofList (escapeIdent s.toList) ++ rest)).head? =
      some ⟨.ident, s, Position.start, .none⟩

theorem nullFree_of_not_mem {cs : List Char} (h : '\x00' ∉ cs) :
    NullFree cs := by
  intro c hc hzero
  have hnull : c = '\x00' := Char.toNat_inj.mp hzero
  exact h (hnull ▸ hc)

/-- A text without null characters is read back from each of its written forms. -/
theorem escapesUndone_of_nullFree {cs : List Char} (hs : NullFree cs) :
    EscapesUndone (String.ofList cs) := by
  have hname : nameGoesOn [] = false := rfl
  constructor
  case string =>
    intro flag
    have hread := isToken_tokenText
      (.string (p := Position.start) (Quote.ofFlag flag) hs) (by simp [Token.stopsBefore])
    simpa [tokenText, Token.quote] using hread
  case url =>
    have hread := isToken_tokenText (.url (p := Position.start) hs) (by simp [Token.stopsBefore])
    simpa [tokenText] using hread
  case ident =>
    intro hne
    have hread := isToken_tokenText (.ident (p := Position.start) hs (by simpa using hne))
      (by simp [Token.stopsBefore, hname])
    simpa [tokenText] using hread
  case atKeyword =>
    intro hne
    have hread := isToken_tokenText (.atKeyword (p := Position.start) hs (by simpa using hne))
      (by simp [Token.stopsBefore, hname])
    simpa [tokenText] using hread
  case hash =>
    intro hne
    have hread := isToken_tokenText (.idHash (p := Position.start) hs (by simpa using hne))
      (by simp [Token.stopsBefore, hname])
    simpa [tokenText, Token.isIdHash] using hread
  case before =>
    intro hne rest hrest hnull
    have hread := head?_tokenize_tokenText (.ident (p := Position.start) hs (by simpa using hne))
      rest (stopsBefore_of_leavesIdent (leavesIdent_normalize hrest hnull) _ _)
    simpa [tokenText] using hread

/-- A hash whose name is no identifier is read back, wherever it comes from. -/
theorem isToken_escapeName {source : String} {t : Token} (ht : t ∈ tokenize source)
    (htype : t.type = .hash) (hdetail : t.detail = .name false) :
    IsToken ('#' :: escapeName t.text.toList) t := by
  have hreadable : t.Readable :=
    readable_of_isSound ht (by simp [Token.isSound, htype]) (by simp [Token.unitStarts, htype])
  have hread := isToken_tokenText hreadable
    (by simp [Token.stopsBefore, htype, nameGoesOn, startsEscape])
  simpa [tokenText, htype, Token.isIdHash, hdetail] using hread

/-- Escaping is undone by the lexer.  A text without null characters is read back from its string,
its address and, unless it is empty, its identifier, its at-keyword and its hash; the identifier
also before any text that starts with no character of a name, no null character, no backslash, no
opening parenthesis and no angle.  A hash of a source whose name is no identifier is read back as well. -/
theorem escapes_undone :
    (∀ s : String, '\x00' ∉ s.toList → EscapesUndone s) ∧
      ∀ (source : String) (t : Token), t ∈ tokenize source → t.type = .hash →
        t.detail = .name false → IsToken ('#' :: escapeName t.text.toList) t := by
  refine ⟨fun s hs => ?_, fun source t ht htype hdetail => isToken_escapeName ht htype hdetail⟩
  have hundone := escapesUndone_of_nullFree (nullFree_of_not_mem hs)
  rwa [String.ofList_toList] at hundone

/-- A text that needs all kinds of escapes, before a parenthesis too, and a hash that starts with a
digit. -/
theorem escapes_undone_digits :
    '\x00' ∉ "-1'\n".toList ∧
      IsToken "-\\31 \\'\\a ".toList ⟨.ident, "-1'\n", Position.start, .none⟩ ∧
      IsToken "'-1\\'\\a '".toList ⟨.string, "-1'\n", Position.start, .quoted .single⟩ ∧
      (tokenize (String.ofList "-\\31 \\'\\a ".toList ++ ")")).head? =
        some ⟨.ident, "-1'\n", Position.start, .none⟩ ∧
      (⟨.hash, "1 ", ⟨1, 2, 1⟩, .name false⟩ : Token) ∈ tokenize " #1\\ " ∧
      IsToken "#1\\ ".toList ⟨.hash, "1 ", ⟨1, 2, 1⟩, .name false⟩ := by
  have hundone := escapes_undone.1 "-1'\n" (by decide)
  have hident : escapeIdent "-1'\n".toList = "-\\31 \\'\\a ".toList := by decide +kernel
  have hstring : quoteString (.ofFlag "'") "-1'\n".toList = "'-1\\'\\a '".toList := by
    decide +kernel
  have hname : '#' :: escapeName "1 ".toList = "#1\\ ".toList := by decide +kernel
  have hhash : (⟨.hash, "1 ", ⟨1, 2, 1⟩, .name false⟩ : Token) ∈ tokenize " #1\\ " := by
    decide +kernel
  refine ⟨by decide, ?_, ?_, ?_, hhash, ?_⟩
  · exact hident ▸ hundone.ident (by decide)
  · exact hstring ▸ hundone.string "'"
  · exact hident ▸ hundone.before (by decide) ")" (by decide) (by decide)
  · have hread := escapes_undone.2 _ _ hhash rfl rfl
    rwa [hname] at hread

/-- A null character is none of a name, but what it is replaced by is one. -/
theorem ident_before_null :
    ¬ ∀ s rest : String, '\x00' ∉ s.toList → s ≠ "" → leavesIdent rest.toList = true →
      (tokenize (String.ofList (escapeIdent s.toList) ++ rest)).head? =
        some ⟨.ident, s, Position.start, .none⟩ := by
  intro hread
  have hjoined : (tokenize (String.ofList (escapeIdent "a".toList) ++ "\x00")).head? =
      some ⟨.ident, "a\ufffd", Position.start, .none⟩ := by
    decide +kernel
  rw [hread "a" "\x00" (by decide) (by decide) (by decide)] at hjoined
  exact absurd hjoined (by decide)

end Cascade
