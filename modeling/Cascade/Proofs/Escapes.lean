import Cascade.Output.Escape
import Cascade.Proofs.Numerals

/-!
# Reading escapes back

What the writer escapes the lexer reads back: names, strings and addresses keep
their characters, whatever these are.

**Method.**  `EscapeOf u c` says that `u` behind a backslash stands for `c`.  Every
character that the writer does not leave as it is becomes such an escape, so that
each of the three scanners of the lexer needs one lemma for a character left as it
is and one for an escape.

**Results.**
* `name_escapeName`, `name_escapeIdent`: a name is read back.
* `stringFrom_quoted`: so is a string.
* `urlFrom_escapeUrl`: so is an address.
-/

namespace Cascade
namespace Lexer

/-! ## Character classes by code -/

theorem isDigit_iff {c : Char} :
    isDigit c = true ↔ 48 ≤ c.toNat ∧ c.toNat ≤ 57 := by
  simp [isDigit, Char.le_def, UInt32.le_iff_toNat_le]

theorem isHexDigit_iff {c : Char} :
    isHexDigit c = true ↔ (48 ≤ c.toNat ∧ c.toNat ≤ 57) ∨ (97 ≤ c.toNat ∧ c.toNat ≤ 102) ∨
      (65 ≤ c.toNat ∧ c.toNat ≤ 70) := by
  simp [isHexDigit, isDigit_iff, Char.le_def, UInt32.le_iff_toNat_le, or_assoc]

theorem isNameStart_iff {c : Char} :
    isNameStart c = true ↔ (97 ≤ c.toNat ∧ c.toNat ≤ 122) ∨ (65 ≤ c.toNat ∧ c.toNat ≤ 90) ∨
      c.toNat = 95 ∨ 128 ≤ c.toNat := by
  simp [isNameStart, Char.le_def, UInt32.le_iff_toNat_le, ← Char.toNat_inj, or_assoc]

theorem isNameChar_iff {c : Char} :
    isNameChar c = true ↔ isNameStart c = true ∨ isDigit c = true ∨ c.toNat = 45 := by
  simp [isNameChar, ← Char.toNat_inj, or_assoc]

theorem isBlank_iff {c : Char} :
    isBlank c = true ↔ c.toNat = 32 ∨ c.toNat = 9 ∨ c.toNat = 10 := by
  simp [isBlank, ← Char.toNat_inj, or_assoc]

/-! ## Single escapes -/

/-- Behind a backslash, `u` stands for the character `c`. -/
structure EscapeOf (u : List Char) (c : Char) : Prop where
  head : ∃ d ds, u = d :: ds ∧ d ≠ '\n'
  read : ∀ (rest : List Char) (p : Position),
    escape ⟨u ++ rest, p⟩ = (c, ⟨rest, p.afterAll u⟩)

theorem EscapeOf.startsEscape {u : List Char} {c : Char} (h : EscapeOf u c) (rest : List Char) :
    startsEscape ('\\' :: (u ++ rest)) = true := by
  obtain ⟨d, ds, rfl, hd⟩ := h.head
  unfold Lexer.startsEscape
  split <;> simp_all

/-- A character that is no hexadecimal digit stands for itself. -/
theorem escapeOf_self {c : Char} (hhex : isHexDigit c = false) (hline : c ≠ '\n') :
    EscapeOf [c] c where
  head := ⟨c, [], rfl, hline⟩
  read := by
    intro rest p
    simp [escape, hhex, Input.advance_cons]

/-- What the code of an ASCII character has to be. -/
theorem toDigits_ascii : ∀ n < 128, n ≠ 0 →
    Nat.toDigits 16 n ≠ [] ∧ (Nat.toDigits 16 n).length ≤ 5 ∧
      (Nat.toDigits 16 n).all isHexDigit = true ∧
      charOfHex (Nat.toDigits 16 n) = Char.ofNat n := by
  decide +kernel

theorem isHexDigit_not_blank {c : Char} (h : isHexDigit c = true) :
    c ≠ '\n' := by
  rintro rfl
  exact absurd h (by decide)

/-- An ASCII character is read from its code. -/
theorem escapeOf_code {c : Char} (hzero : c.toNat ≠ 0) (hascii : c.toNat < 128) :
    EscapeOf (Nat.toDigits 16 c.toNat ++ [' ']) c := by
  obtain ⟨hne, hlength, hall, hchar⟩ := toDigits_ascii c.toNat hascii hzero
  have hhex := List.all_eq_true.mp hall
  rw [Char.ofNat_toNat] at hchar
  obtain ⟨d, ds, hdigits⟩ := List.exists_cons_of_ne_nil hne
  rw [hdigits] at hlength hhex hchar ⊢
  have hd : isHexDigit d = true := hhex d (List.mem_cons_self ..)
  refine ⟨⟨d, ds ++ [' '], rfl, isHexDigit_not_blank hd⟩, fun rest p => ?_⟩
  have hblank : isHexDigit ' ' = false := by decide
  have htake : ((d :: ds ++ [' '] ++ rest).take 6).takeWhile isHexDigit = d :: ds := by
    have hsplit : (d :: ds ++ [' '] ++ rest).take 6 =
        d :: ds ++ (' ' :: rest).take (6 - (d :: ds).length) := by
      rw [List.append_assoc, List.take_append, List.take_of_length_le (by omega)]
      rfl
    obtain ⟨k, hk⟩ : ∃ k, 6 - (d :: ds).length = k + 1 := ⟨5 - (d :: ds).length, by omega⟩
    rw [hsplit, takeWhile_append_run hhex (by rw [hk]; simp [hblank])]
  have hdrop : Input.drop ⟨d :: ds ++ [' '] ++ rest, p⟩ (d :: ds).length =
      ⟨' ' :: rest, p.afterAll (d :: ds)⟩ := by
    simp [Input.drop]
  have hspace : isBlank ' ' = true := by decide
  unfold escape
  simp only [htake, hdrop, hchar]
  simp [hd, Input.peek?, Input.advance_cons, hspace]

/-! ## Names -/

/-- A name goes on with the text. -/
def nameGoesOn (cs : List Char) : Bool :=
  cs.head?.any isNameChar || startsEscape cs

theorem nameFrom_of_not_goesOn {read cs : List Char} (p : Position) (h : nameGoesOn cs = false) :
    nameFrom read ⟨cs, p⟩ = (read.reverse, ⟨cs, p⟩) := by
  simp only [nameGoesOn, Bool.or_eq_false_iff] at h
  cases cs with
  | nil => rw [nameFrom]
  | cons c cs =>
    have hc : isNameChar c = false := by simpa using h.1
    rw [nameFrom]
    simp [hc, h.2]

theorem nameFrom_char {read cs : List Char} {c : Char} (p : Position) (h : isNameChar c = true) :
    nameFrom read ⟨c :: cs, p⟩ = nameFrom (c :: read) ⟨cs, p.after c⟩ := by
  rw [nameFrom]
  simp [h]

theorem nameFrom_escape {read u rest : List Char} {c : Char} (p : Position) (h : EscapeOf u c) :
    nameFrom read ⟨'\\' :: (u ++ rest), p⟩ =
      nameFrom (c :: read) ⟨rest, (p.after '\\').afterAll u⟩ := by
  have hbackslash : isNameChar '\\' = false := by decide
  rw [nameFrom]
  simp [hbackslash, h.startsEscape, h.read]

/-! ## The start of a name -/

theorem startsName_cons {c : Char} (cs : List Char) (hhyphen : c ≠ '-') (hbackslash : c ≠ '\\') :
    startsName (c :: cs) = isNameStart c := by
  unfold startsName
  split <;> simp_all

theorem startsName_of_isNameStart {c : Char} (cs : List Char) (h : isNameStart c = true) :
    startsName (c :: cs) = true := by
  rw [startsName_cons cs (by rintro rfl; exact absurd h (by decide))
    (by rintro rfl; exact absurd h (by decide)), h]

theorem EscapeOf.startsName {u : List Char} {c : Char} (h : EscapeOf u c) (rest : List Char) :
    startsName ('\\' :: (u ++ rest)) = true :=
  h.startsEscape rest

/-- Behind a hyphen a name starts more freely. -/
theorem startsName_hyphen (cs : List Char) :
    startsName ('-' :: cs) =
      (cs.head?.any (fun c => isNameStart c || c == '-') || startsEscape cs) := by
  cases cs with
  | nil => rfl
  | cons c cs => rfl

theorem nameGoesOn_of_startsName {cs : List Char} (h : startsName cs = true) :
    nameGoesOn cs = true := by
  unfold startsName at h
  unfold nameGoesOn
  split at h
  · have : isNameChar '-' = true := by decide
    simp [this]
  · simp [h]
  · simp only [Bool.and_eq_true] at h
    simp [isNameChar_iff, h.2]
  · exact absurd h (by decide)

/-! ## Strings and addresses -/

theorem stringFrom_char {mark c : Char} {read cs : List Char} (p : Position) (hmark : c ≠ mark)
    (hbackslash : c ≠ '\\') (hline : c ≠ '\n') :
    stringFrom mark read ⟨c :: cs, p⟩ = stringFrom mark (c :: read) ⟨cs, p.after c⟩ := by
  rw [stringFrom]
  simp [hmark, hbackslash, hline]

theorem stringFrom_escape {mark c : Char} {read u rest : List Char} (p : Position)
    (hmark : mark ≠ '\\') (h : EscapeOf u c) :
    stringFrom mark read ⟨'\\' :: (u ++ rest), p⟩ =
      stringFrom mark (c :: read) ⟨rest, (p.after '\\').afterAll u⟩ := by
  obtain ⟨d, ds, rfl, hd⟩ := h.head
  have hread := h.read rest (p.after '\\')
  rw [List.cons_append] at hread ⊢
  rw [stringFrom]
  simp [hmark.symm, hd, hread]

theorem stringFrom_mark {mark : Char} {read cs : List Char} (p : Position) :
    stringFrom mark read ⟨mark :: cs, p⟩ = (read.reverse, true, ⟨cs, p.after mark⟩) := by
  rw [stringFrom]
  simp

/-- The characters that an unquoted address holds as they are. -/
structure IsUrlChar (c : Char) : Prop where
  blank : isBlank c = false
  printable : isNonPrintable c = false
  quote : isQuote c = false
  opener : c ≠ '('
  closer : c ≠ ')'
  backslash : c ≠ '\\'

theorem urlFrom_char {c : Char} {read cs : List Char} (p : Position) (h : IsUrlChar c) :
    urlFrom read ⟨c :: cs, p⟩ = urlFrom (c :: read) ⟨cs, p.after c⟩ := by
  rw [urlFrom]
  simp [h.blank, h.printable, h.quote, h.opener, h.closer, h.backslash]

theorem urlFrom_escape {c : Char} {read u rest : List Char} (p : Position) (h : EscapeOf u c) :
    urlFrom read ⟨'\\' :: (u ++ rest), p⟩ =
      urlFrom (c :: read) ⟨rest, (p.after '\\').afterAll u⟩ := by
  have hblank : isBlank '\\' = false := by decide
  have hprintable : isNonPrintable '\\' = false := by decide
  have hquote : isQuote '\\' = false := by decide
  rw [urlFrom]
  simp [hblank, hprintable, hquote, h.startsEscape, h.read]

theorem urlFrom_closer {read cs : List Char} (p : Position) :
    urlFrom read ⟨')' :: cs, p⟩ = (read.reverse, true, ⟨cs, p.after ')'⟩) := by
  rw [urlFrom]
  simp

end Lexer

namespace Output
open Lexer

/-! ## Characters as they are written -/

theorem isControl_iff {c : Char} :
    isControl c = true ↔ (1 ≤ c.toNat ∧ c.toNat ≤ 31) ∨ c.toNat = 127 := by
  simp [isControl]

theorem hexEscape_escapeOf {c : Char} (hzero : c.toNat ≠ 0) (hascii : c.toNat < 128) :
    ∃ u, hexEscape c = '\\' :: u ∧ EscapeOf u c :=
  ⟨_, rfl, escapeOf_code hzero hascii⟩

theorem hexEscape_control {c : Char} (h : isControl c = true) :
    ∃ u, hexEscape c = '\\' :: u ∧ EscapeOf u c := by
  rw [isControl_iff] at h
  exact hexEscape_escapeOf (by omega) (by omega)

theorem ne_newline_of_not_control {c : Char} (h : isControl c = false) :
    c ≠ '\n' := by
  rintro rfl
  exact absurd h (by decide)

/-- A character of a name is left as it is or escaped. -/
theorem escapeNameChar_cases {c : Char} (hzero : c.toNat ≠ 0) :
    (isNameChar c = true ∧ escapeNameChar c = [c]) ∨
      (isNameChar c = false ∧ ∃ u, escapeNameChar c = '\\' :: u ∧ EscapeOf u c) := by
  unfold escapeNameChar
  by_cases hcontrol : isControl c = true
  · have hname : isNameChar c = false := by
      rw [Bool.eq_false_iff, ne_eq, isNameChar_iff, isNameStart_iff, isDigit_iff]
      rw [isControl_iff] at hcontrol
      omega
    exact .inr ⟨hname, by simpa [hzero, hcontrol] using hexEscape_control hcontrol⟩
  · by_cases hname : isNameChar c = true
    · simp [hzero, hcontrol, hname]
    · have hhex : isHexDigit c = false := by
        rw [Bool.eq_false_iff, ne_eq, isHexDigit_iff]
        rw [isNameChar_iff, isNameStart_iff, isDigit_iff] at hname
        omega
      refine .inr ⟨by simpa using hname, [c], by simp [hzero, hcontrol, hname],
        escapeOf_self hhex ?_⟩
      exact ne_newline_of_not_control (by simpa using hcontrol)

/-- So is the first character of an identifier, and a digit is escaped. -/
theorem escapeStartChar_cases {c : Char} (hzero : c.toNat ≠ 0) :
    (isNameChar c = true ∧ isDigit c = false ∧ escapeStartChar c = [c]) ∨
      ∃ u, escapeStartChar c = '\\' :: u ∧ EscapeOf u c := by
  unfold escapeStartChar
  by_cases hdigit : isDigit c = true
  · have hascii := isDigit_iff.mp hdigit
    exact .inr (by simpa [hdigit] using hexEscape_escapeOf hzero (by omega))
  · rcases escapeNameChar_cases hzero with ⟨hname, htext⟩ | ⟨-, hescape⟩
    · exact .inl (by simp [hdigit, hname, htext])
    · exact .inr (by simpa [hdigit] using hescape)

/-- A character of a string is left as it is or escaped. -/
theorem quoteStringChar_cases {mark c : Char} (hzero : c.toNat ≠ 0)
    (hmark : isHexDigit mark = false) :
    (c ≠ mark ∧ c ≠ '\\' ∧ c ≠ '\n' ∧ quoteStringChar mark c = [c]) ∨
      ∃ u, quoteStringChar mark c = '\\' :: u ∧ EscapeOf u c := by
  unfold quoteStringChar
  by_cases hcontrol : isControl c = true
  · exact .inr (by simpa [hzero, hcontrol] using hexEscape_control hcontrol)
  · have hline := ne_newline_of_not_control (by simpa using hcontrol)
    by_cases hspecial : c = '\\' ∨ c = mark
    · have hhex : isHexDigit c = false := by
        rcases hspecial with rfl | rfl
        · decide
        · exact hmark
      exact .inr ⟨[c], by simp [hzero, hcontrol, hspecial], escapeOf_self hhex hline⟩
    · simp only [not_or] at hspecial
      exact .inl ⟨hspecial.2, hspecial.1, hline, by simp [hzero, hcontrol, hspecial]⟩

/-- A character of an address is left as it is or escaped. -/
theorem escapeUrlChar_cases {c : Char} (hzero : c.toNat ≠ 0) :
    (IsUrlChar c ∧ escapeUrlChar c = [c]) ∨
      ∃ u, escapeUrlChar c = '\\' :: u ∧ EscapeOf u c := by
  unfold escapeUrlChar
  by_cases hcode : isControl c = true ∨ c = ' ' ∨ c = '\t'
  · have hascii : c.toNat < 128 := by
      rw [isControl_iff] at hcode
      rcases hcode with hcontrol | rfl | rfl
      · omega
      · decide
      · decide
    exact .inr (by simpa [hzero, hcode] using hexEscape_escapeOf hzero hascii)
  · have hcontrol : isControl c = false := by
      simp only [not_or] at hcode
      simpa using hcode.1
    have hline := ne_newline_of_not_control hcontrol
    by_cases hspecial : c = '\\' ∨ c = '"' ∨ c = '\'' ∨ c = '(' ∨ c = ')'
    · have hhex : isHexDigit c = false := by
        rcases hspecial with rfl | rfl | rfl | rfl | rfl <;> decide
      exact .inr ⟨[c], by simp [hzero, hcode, hspecial], escapeOf_self hhex hline⟩
    · refine .inl ⟨?_, by simp [hzero, hcode, hspecial]⟩
      simp only [not_or] at hcode hspecial
      refine ⟨by simp [isBlank, hcode, hline], ?_, by simp [isQuote, hspecial], hspecial.2.2.2.1,
        hspecial.2.2.2.2, hspecial.1⟩
      rw [Bool.eq_false_iff, ne_eq, isControl_iff] at hcontrol
      simp [isNonPrintable]
      omega

/-! ## Whole texts -/

theorem nameFrom_escapeName {s : List Char} (hs : ∀ c ∈ s, c.toNat ≠ 0) (read rest : List Char)
    (p : Position) :
    nameFrom read ⟨escapeName s ++ rest, p⟩ =
      nameFrom (s.reverse ++ read) ⟨rest, p.afterAll (escapeName s)⟩ := by
  induction s generalizing read p with
  | nil => rfl
  | cons c s ih =>
    have ih := ih (fun d hd => hs d (List.mem_cons_of_mem c hd))
    simp only [escapeName, List.flatMap_cons, List.append_assoc] at ih ⊢
    rcases escapeNameChar_cases (hs c (List.mem_cons_self ..)) with
      ⟨hname, htext⟩ | ⟨-, u, htext, hu⟩
    · rw [htext, List.singleton_append, nameFrom_char p hname, ih]
      simp
    · rw [htext, List.cons_append, nameFrom_escape p hu, ih]
      simp

theorem nameFrom_escapeStartChar {c : Char} (hc : c.toNat ≠ 0) (read rest : List Char)
    (p : Position) :
    nameFrom read ⟨escapeStartChar c ++ rest, p⟩ =
      nameFrom (c :: read) ⟨rest, p.afterAll (escapeStartChar c)⟩ := by
  rcases escapeStartChar_cases hc with ⟨hname, -, htext⟩ | ⟨u, htext, hu⟩
  · rw [htext, List.singleton_append, nameFrom_char p hname]
    rfl
  · rw [htext, List.cons_append, nameFrom_escape p hu]
    rfl

/-- A name is read back. -/
theorem name_escapeName {s rest : List Char} (hs : ∀ c ∈ s, c.toNat ≠ 0) (p : Position)
    (hrest : nameGoesOn rest = false) :
    name ⟨escapeName s ++ rest, p⟩ = (s, ⟨rest, p.afterAll (escapeName s)⟩) := by
  rw [name, nameFrom_escapeName hs, nameFrom_of_not_goesOn _ hrest]
  simp

/-- An identifier is a lone hyphen, has a hyphen in front, or starts with another character. -/
theorem escapeIdent_cases {s : List Char} (hne : s ≠ []) :
    (s = ['-'] ∧ escapeIdent s = ['\\', '-']) ∨
      (∃ c t, s = '-' :: c :: t ∧ escapeIdent s = '-' :: (escapeStartChar c ++ escapeName t)) ∨
      ∃ c t, c ≠ '-' ∧ s = c :: t ∧ escapeIdent s = escapeStartChar c ++ escapeName t := by
  fun_cases escapeIdent s with
  | case1 => exact absurd rfl hne
  | case2 => exact .inl ⟨rfl, rfl⟩
  | case3 c t => exact .inr (.inl ⟨c, t, rfl, rfl⟩)
  | case4 c t hlone hhyphen =>
    refine .inr (.inr ⟨c, t, ?_, rfl, rfl⟩)
    rintro rfl
    cases t with
    | nil => exact hlone rfl rfl
    | cons d ds => exact hhyphen d ds rfl rfl

theorem escapeNameChar_ne_nil (c : Char) :
    escapeNameChar c ≠ [] := by
  fun_cases escapeNameChar c <;> simp [hexEscape]

theorem escapeStartChar_ne_nil (c : Char) :
    escapeStartChar c ≠ [] := by
  unfold escapeStartChar
  split
  · simp [hexEscape]
  · exact escapeNameChar_ne_nil c

theorem escapeIdent_ne_nil {s : List Char} (hne : s ≠ []) :
    escapeIdent s ≠ [] := by
  rcases escapeIdent_cases hne with ⟨-, htext⟩ | ⟨c, t, -, htext⟩ | ⟨c, t, -, -, htext⟩
  · simp [htext]
  · simp [htext]
  · simp [htext, escapeStartChar_ne_nil]

/-- A written identifier is read to its end, whatever follows. -/
theorem nameFrom_escapeIdent {s : List Char} (hs : ∀ c ∈ s, c.toNat ≠ 0) (read rest : List Char)
    (p : Position) :
    nameFrom read ⟨escapeIdent s ++ rest, p⟩ =
      nameFrom (s.reverse ++ read) ⟨rest, p.afterAll (escapeIdent s)⟩ := by
  by_cases hne : s = []
  · subst hne
    rfl
  · rcases escapeIdent_cases hne with ⟨rfl, htext⟩ | ⟨c, t, rfl, htext⟩ | ⟨c, t, -, rfl, htext⟩
    · have hescape : EscapeOf ['-'] '-' := escapeOf_self (by decide) (by decide)
      rw [htext, List.cons_append, nameFrom_escape p hescape]
      rfl
    · have hhyphen : isNameChar '-' = true := by decide
      rw [htext, List.cons_append, List.append_assoc, nameFrom_char p hhyphen,
        nameFrom_escapeStartChar (hs c (by simp)),
        nameFrom_escapeName (fun d hd => hs d (by simp [hd]))]
      simp
    · rw [htext, List.append_assoc, nameFrom_escapeStartChar (hs c (by simp)),
        nameFrom_escapeName (fun d hd => hs d (by simp [hd]))]
      simp

/-- An identifier is read back. -/
theorem name_escapeIdent {s rest : List Char} (hs : ∀ c ∈ s, c.toNat ≠ 0) (p : Position)
    (hrest : nameGoesOn rest = false) :
    name ⟨escapeIdent s ++ rest, p⟩ = (s, ⟨rest, p.afterAll (escapeIdent s)⟩) := by
  rw [name, nameFrom_escapeIdent hs, nameFrom_of_not_goesOn _ hrest]
  simp

/-- The name starts as an identifier has to: with no digit, also not behind a hyphen. -/
def startsIdent : List Char → Bool
  | [] => false
  | ['-'] => false
  | '-' :: c :: _ => !isDigit c
  | c :: _ => !isDigit c

theorem isNameStart_of_not_digit {c : Char} (hname : isNameChar c = true)
    (hdigit : isDigit c = false) (hhyphen : c ≠ '-') :
    isNameStart c = true := by
  rcases isNameChar_iff.mp hname with hstart | hfalse | hcode
  · exact hstart
  · simp [hdigit] at hfalse
  · exact absurd (Char.toNat_inj.mp hcode) hhyphen

theorem isNameStart_or_hyphen_eq {c : Char} (h : isNameChar c = true) :
    (isNameStart c || c == '-') = !isDigit c := by
  by_cases hdigit : isDigit c = true
  · have hcode := isDigit_iff.mp hdigit
    have hstart : isNameStart c = false := by
      rw [Bool.eq_false_iff, ne_eq, isNameStart_iff]
      omega
    have hhyphen : c ≠ '-' := by
      rintro rfl
      exact absurd hdigit (by decide)
    simp [hstart, hhyphen, hdigit]
  · have hdigit : isDigit c = false := by simpa using hdigit
    by_cases hhyphen : c = '-'
    · subst hhyphen
      simp [hdigit]
    · simp [isNameStart_of_not_digit h hdigit hhyphen, hdigit]

theorem ne_backslash_of_isNameChar {c : Char} (h : isNameChar c = true) :
    c ≠ '\\' := by
  rintro rfl
  exact absurd h (by decide)

theorem startsEscape_cons_of_ne {c : Char} (cs : List Char) (h : c ≠ '\\') :
    startsEscape (c :: cs) = false := by
  unfold startsEscape
  split <;> simp_all

theorem not_isDigit_of_not_isNameChar {c : Char} (h : isNameChar c = false) :
    isDigit c = false := by
  simp only [isNameChar, Bool.or_eq_false_iff] at h
  exact h.1.2

/-- A written name starts a name exactly when it starts as an identifier. -/
theorem startsName_escapeName {s rest : List Char} (hs : ∀ c ∈ s, c.toNat ≠ 0) (hne : s ≠ [])
    (hrest : nameGoesOn rest = false) :
    startsName (escapeName s ++ rest) = startsIdent s := by
  have hhyphen : escapeNameChar '-' = ['-'] := by decide
  fun_cases startsIdent s with
  | case1 => exact absurd rfl hne
  | case2 =>
    simp only [nameGoesOn, Bool.or_eq_false_iff] at hrest
    simp only [escapeName, List.flatMap_cons, List.flatMap_nil, hhyphen, List.append_nil,
      List.singleton_append, startsName_hyphen, hrest.2, Bool.or_false]
    cases rest with
    | nil => rfl
    | cons c cs =>
      have hc := hrest.1
      simp only [List.head?_cons, Option.any_some, isNameChar, Bool.or_eq_false_iff] at hc ⊢
      exact ⟨hc.1.1, hc.2⟩
  | case3 c s =>
    simp only [escapeName, List.flatMap_cons, hhyphen, List.cons_append, List.nil_append,
      List.append_assoc, startsName_hyphen]
    rcases escapeNameChar_cases (hs c (by simp)) with ⟨hname, htext⟩ | ⟨hname, u, htext, hu⟩
    · simp only [htext, List.cons_append, List.nil_append, List.head?_cons, Option.any_some,
        startsEscape_cons_of_ne _ (ne_backslash_of_isNameChar hname), Bool.or_false]
      exact isNameStart_or_hyphen_eq hname
    · simp [htext, List.cons_append, hu.startsEscape, not_isDigit_of_not_isNameChar hname]
  | case4 c s hne' hhyphen' =>
    have hc : c ≠ '-' := by
      rintro rfl
      cases s with
      | nil => exact hne' rfl rfl
      | cons d ds => exact hhyphen' d ds rfl rfl
    simp only [escapeName, List.flatMap_cons, List.append_assoc]
    rcases escapeNameChar_cases (hs c (by simp)) with ⟨hname, htext⟩ | ⟨hname, u, htext, hu⟩
    · rw [htext, List.singleton_append, startsName_cons _ hc (ne_backslash_of_isNameChar hname),
        ← isNameStart_or_hyphen_eq hname]
      simp [hc]
    · rw [htext, List.cons_append, hu.startsName, not_isDigit_of_not_isNameChar hname]
      rfl

/-- An identifier starts a name. -/
theorem startsName_escapeIdent {s : List Char} (hs : ∀ c ∈ s, c.toNat ≠ 0) (hne : s ≠ [])
    (rest : List Char) :
    startsName (escapeIdent s ++ rest) = true := by
  rcases escapeIdent_cases hne with ⟨rfl, htext⟩ | ⟨c, t, rfl, htext⟩ | ⟨c, t, hc, rfl, htext⟩
  · rw [htext]
    rfl
  · rw [htext, List.cons_append, startsName_hyphen, List.append_assoc]
    rcases escapeStartChar_cases (hs c (by simp)) with ⟨hname, hdigit, htext⟩ | ⟨u, htext, hu⟩
    · have hstart := isNameStart_or_hyphen_eq hname
      simp only [hdigit, Bool.not_false] at hstart
      simp [htext, hstart]
    · simp [htext, hu.startsEscape]
  · rw [htext, List.append_assoc]
    rcases escapeStartChar_cases (hs c (by simp)) with ⟨hname, hdigit, htext⟩ | ⟨u, htext, hu⟩
    · rw [htext, List.singleton_append]
      exact startsName_of_isNameStart _ (isNameStart_of_not_digit hname hdigit hc)
    · rw [htext, List.cons_append]
      exact hu.startsName _

theorem stringFrom_quoteStringChars {mark : Char} {s : List Char} (hs : ∀ c ∈ s, c.toNat ≠ 0)
    (hhex : isHexDigit mark = false) (hmark : mark ≠ '\\') (read rest : List Char) (p : Position) :
    stringFrom mark read ⟨s.flatMap (quoteStringChar mark) ++ rest, p⟩ =
      stringFrom mark (s.reverse ++ read)
        ⟨rest, p.afterAll (s.flatMap (quoteStringChar mark))⟩ := by
  induction s generalizing read p with
  | nil => rfl
  | cons c s ih =>
    have ih := ih (fun d hd => hs d (List.mem_cons_of_mem c hd))
    simp only [List.flatMap_cons, List.append_assoc]
    rcases quoteStringChar_cases (hs c (List.mem_cons_self ..)) hhex with
      ⟨hplain, hbackslash, hline, htext⟩ | ⟨u, htext, hu⟩
    · rw [htext, List.singleton_append, stringFrom_char p hplain hbackslash hline, ih]
      simp
    · rw [htext, List.cons_append, stringFrom_escape p hmark hu, ih]
      simp

theorem isHexDigit_quote (q : Quote) :
    isHexDigit q.char = false := by
  cases q <;> decide

theorem quote_ne_backslash (q : Quote) :
    q.char ≠ '\\' := by
  cases q <;> decide

/-- A string is read back behind its opening mark. -/
theorem stringFrom_quoted (q : Quote) {s : List Char} (hs : ∀ c ∈ s, c.toNat ≠ 0)
    (rest : List Char) (p : Position) :
    stringFrom q.char [] ⟨s.flatMap (quoteStringChar q.char) ++ q.char :: rest, p⟩ =
      (s, true, ⟨rest, (p.afterAll (s.flatMap (quoteStringChar q.char))).after q.char⟩) := by
  rw [stringFrom_quoteStringChars hs (isHexDigit_quote q) (quote_ne_backslash q), stringFrom_mark]
  simp

theorem urlFrom_escapeUrlChars {s : List Char} (hs : ∀ c ∈ s, c.toNat ≠ 0) (read rest : List Char)
    (p : Position) :
    urlFrom read ⟨escapeUrl s ++ rest, p⟩ =
      urlFrom (s.reverse ++ read) ⟨rest, p.afterAll (escapeUrl s)⟩ := by
  induction s generalizing read p with
  | nil => rfl
  | cons c s ih =>
    have ih := ih (fun d hd => hs d (List.mem_cons_of_mem c hd))
    simp only [escapeUrl, List.flatMap_cons, List.append_assoc] at ih ⊢
    rcases escapeUrlChar_cases (hs c (List.mem_cons_self ..)) with ⟨hplain, htext⟩ | ⟨u, htext, hu⟩
    · rw [htext, List.singleton_append, urlFrom_char p hplain, ih]
      simp
    · rw [htext, List.cons_append, urlFrom_escape p hu, ih]
      simp

/-- An address is read back up to its closing parenthesis. -/
theorem urlFrom_escapeUrl {s : List Char} (hs : ∀ c ∈ s, c.toNat ≠ 0) (rest : List Char)
    (p : Position) :
    urlFrom [] ⟨escapeUrl s ++ ')' :: rest, p⟩ =
      (s, true, ⟨rest, (p.afterAll (escapeUrl s)).after ')'⟩) := by
  rw [urlFrom_escapeUrlChars hs, urlFrom_closer]
  simp

end Output
end Cascade
