import Cascade.Proofs.Coverage
import Cascade.Proofs.Joining

/-!
# The tokens that sources have

A visible token of a source can be written so that it is read back, whatever escapes
it was spelled with, unless it is malformed: no text of a token holds a null
character, and no name is empty.  Only the unit of a dimension may have to be spelled
with an escape that the writer does not give it.

**Method.**  `Lexeme` says how the tokens of a source are spelled, and its names and
strings are made of the characters of the source and of the characters that escapes
stand for.

**Results.**
* `Lexeme.readable`: a sound token that is spelled by a normalized text is readable, if
  its unit starts as an identifier.
* `exists_measure_of_mem_tokenize`: what is known of a dimension without this.
* `readable_of_mem_tokenize`: the plain tokens of a source are readable.
-/

namespace Cascade

open Output (startsIdent)

/-- The token is visible and well formed: no whitespace and not the end, no malformed string or
address, and no backslash that escapes nothing. -/
def Token.isSound (t : Token) : Bool :=
  match t.type with
  | .eof | .whitespace | .badString | .badUrl => false
  | .delim => t.text != "\\"
  | _ => true

/-- The unit of the token starts as an identifier, if the token is a dimension. -/
def Token.unitStarts (t : Token) : Bool :=
  t.type != .dimension || startsIdent t.unit.toList

/-- The token is a name, a string, a mark or one of the brackets, colons and commas. -/
def Token.isPlain (t : Token) : Bool :=
  match t.type with
  | .ident | .function | .string => true
  | .hash => t.isIdHash
  | .delim => t.text != "\\"
  | .colon | .comma | .openBracket | .closeBracket | .openParen | .closeParen => true
  | _ => false

theorem Token.isSound_of_isPlain {t : Token} (h : t.isPlain = true) :
    t.isSound = true := by
  unfold isPlain at h
  unfold isSound
  cases htype : t.type <;> simp_all

theorem Token.unitStarts_of_isPlain {t : Token} (h : t.isPlain = true) :
    t.unitStarts = true := by
  have hne : t.type ≠ .dimension := by
    intro htype
    simp [isPlain, htype] at h
  simp [unitStarts, hne]

/-- The token is a dimension with the given numeral and unit. -/
structure Token.IsMeasure (t : Token) (n : Lexer.Numeral) (unit : List Char) : Prop where
  eq : t = ⟨.dimension, String.ofList n.text, t.position, .measure n.isInteger (String.ofList unit)⟩
  nullFree : NullFree unit
  ne_nil : unit ≠ []

namespace Lexer

open Output (isDelimChar isNameStart_of_not_digit isNameStart_or_hyphen_eq startsIdent)

/-- The text is one that normalizing can give. -/
def Normal (cs : List Char) : Prop :=
  ∀ c ∈ cs, isNormal c = true

theorem Normal.append_left {u v : List Char} (h : Normal (u ++ v)) :
    Normal u :=
  fun c hc => h c (List.mem_append_left v hc)

theorem Normal.append_right {u v : List Char} (h : Normal (u ++ v)) :
    Normal v :=
  fun c hc => h c (List.mem_append_right u hc)

theorem Normal.tail {c : Char} {cs : List Char} (h : Normal (c :: cs)) :
    Normal cs :=
  (List.forall_mem_cons.mp h).2

theorem toNat_ne_zero_of_isNormal {c : Char} (h : isNormal c = true) :
    c.toNat ≠ 0 := by
  intro hzero
  have hnull : c = '\x00' := Char.toNat_inj.mp hzero
  rw [hnull] at h
  exact absurd h (by decide)

/-! ## Escapes, names and strings -/

/-- No code stands for the null character. -/
theorem charOfHex_ne_zero (digits : List Char) :
    (charOfHex digits).toNat ≠ 0 := by
  unfold charOfHex
  dsimp only
  split
  · decide
  · next hcode =>
      simp only [not_or, not_and, Nat.not_le] at hcode
      obtain ⟨hzero, hmax, hsurrogate⟩ := hcode
      generalize digits.foldl _ 0 = value at *
      have hvalid : value.isValidChar := by
        unfold Nat.isValidChar
        omega
      rw [Char.ofNat, dif_pos hvalid]
      exact hzero

theorem SpellsEscape.ne_zero {rest v : List Char} {c : Char} (h : SpellsEscape rest v c)
    (hv : Normal v) :
    c.toNat ≠ 0 := by
  cases h with
  | code => exact charOfHex_ne_zero _
  | self => exact toNat_ne_zero_of_isNormal (hv c (List.mem_singleton_self c))
  | atEnd => decide

theorem SpellsName.nullFree {rest u s : List Char} (h : SpellsName rest u s) (hu : Normal u) :
    NullFree s := by
  induction h with
  | nil => exact List.forall_mem_nil _
  | char _ _ ih =>
      obtain ⟨hc, htail⟩ := List.forall_mem_cons.mp hu
      exact List.forall_mem_cons.mpr ⟨toNat_ne_zero_of_isNormal hc, ih htail⟩
  | escape hescape _ ih =>
      exact List.forall_mem_cons.mpr
        ⟨hescape.ne_zero hu.tail.append_left, ih hu.tail.append_right⟩

theorem SpellsString.nullFree {mark : Char} {rest u s : List Char} (h : SpellsString mark rest u s)
    (hu : Normal u) :
    NullFree s := by
  induction h with
  | nil => exact List.forall_mem_nil _
  | char _ _ _ _ ih =>
      obtain ⟨hc, htail⟩ := List.forall_mem_cons.mp hu
      exact List.forall_mem_cons.mpr ⟨toNat_ne_zero_of_isNormal hc, ih htail⟩
  | escape _ hescape _ ih =>
      exact List.forall_mem_cons.mpr
        ⟨hescape.ne_zero hu.tail.append_left, ih hu.tail.append_right⟩
  | continuation _ ih => exact ih hu.tail.tail

theorem SpellsAddress.nullFree {rest u s : List Char} (h : SpellsAddress rest u s) (hu : Normal u) :
    NullFree s := by
  induction h with
  | nil => exact List.forall_mem_nil _
  | char _ _ ih =>
      obtain ⟨hc, htail⟩ := List.forall_mem_cons.mp hu
      exact List.forall_mem_cons.mpr ⟨toNat_ne_zero_of_isNormal hc, ih htail⟩
  | escape hescape _ ih =>
      exact List.forall_mem_cons.mpr
        ⟨hescape.ne_zero hu.tail.append_left, ih hu.tail.append_right⟩

/-- What spells an escape stands behind its backslash. -/
theorem SpellsEscape.startsEscape {rest v : List Char} {c : Char} (h : SpellsEscape rest v c) :
    startsEscape ('\\' :: (v ++ rest)) = true := by
  have hline : (v ++ rest).head? ≠ some '\n' := by
    cases h with
    | @code digits blank hne _ hhex =>
        obtain ⟨d, ds, rfl⟩ := List.exists_cons_of_ne_nil hne
        simpa using isHexDigit_not_blank (hhex d (List.mem_cons_self ..))
    | self _ hline => simpa using hline
    | atEnd hend => simp [hend]
  by_contra hnot
  exact hline (head?_of_not_startsEscape hnot)

/-- A text starts a name where what it spells starts as an identifier. -/
theorem SpellsName.startsName {rest u s : List Char} (h : SpellsName rest u s)
    (hstart : startsIdent s = true) :
    startsName (u ++ rest) = true := by
  cases h with
  | nil => exact absurd hstart (by decide)
  | escape hescape _ =>
      rw [List.cons_append, List.append_assoc]
      exact hescape.startsEscape
  | @char c u s hc hspells =>
      have hdigit := isDigit_of_startsIdent hstart
      by_cases hhyphen : c = '-'
      · subst hhyphen
        rw [List.cons_append, startsName_hyphen]
        cases hspells with
        | nil => exact absurd hstart (by decide)
        | escape hescape _ =>
            have hescaped := hescape.startsEscape
            simp [hescaped]
        | @char d u s hd _ =>
            have hbehind : isDigit d = false := by simpa [startsIdent] using hstart
            have hname := isNameStart_or_hyphen_eq hd
            simp only [hbehind, Bool.not_false] at hname
            simp [hname]
      · exact startsName_of_isNameStart _ (isNameStart_of_not_digit hc hdigit hhyphen)

/-- A mark starts neither a number nor a name. -/
theorem isDelimChar_of_not_starts {c : Char} {rest : List Char} (hc : isNormal c = true)
    (hback : c ≠ '\\') (hmark : isMarked c = false ∨ c ∈ ['#', '-', '<', '@'])
    (hnumber : startsNumber (c :: rest) = false) (hname : startsName (c :: rest) = false) :
    isDelimChar c = true := by
  have hdigit : isDigit c = false := by
    rw [Bool.eq_false_iff]
    intro hdigit
    have hsign := isDigit_not_sign hdigit
    simp [startsNumber, startsUnsigned, hdigit, hsign] at hnumber
  have hstart : isNameStart c = false := by
    by_cases hhyphen : c = '-'
    · subst hhyphen
      decide
    · rwa [startsName_cons rest hhyphen hback] at hname
  simp only [isDelimChar, hc, hdigit, hstart, bne_iff_ne.mpr hback, Bool.not_false, Bool.true_and,
    Bool.or_eq_true, Bool.not_eq_true', List.contains_iff_mem]
  exact hmark

/-- A sound token that is spelled by a normalized text can be read back from what it is written as,
if its unit starts as an identifier. -/
theorem Lexeme.readable {rest u : List Char} {t : Token} (h : Lexeme rest u t) (hu : Normal u)
    (hsound : t.isSound = true) (hunit : t.unitStarts = true) :
    t.Readable := by
  cases h with
  | whitespace => cases hsound
  | ident hname => exact .ident (hname.spells.nullFree hu) hname.ne_nil
  | function hname => exact .function (hname.spells.nullFree hu.append_left) hname.ne_nil
  | @address u s run v address close wellFormed p hname hurl hrun hquote hspells _ =>
      cases wellFormed with
      | false => cases hsound
      | true => exact .url (hspells.nullFree hu.append_right.tail.append_right.append_left)
  | atKeyword hname => exact .atKeyword (hname.spells.nullFree hu.tail) hname.ne_nil
  | @hash u s p hname =>
      have hs := hname.spells.nullFree hu.tail
      cases hstarts : startsName (u ++ rest) with
      | true => exact .idHash hs hname.ne_nil
      | false =>
        refine .hash hs hname.ne_nil ?_
        rw [Bool.eq_false_iff]
        intro hident
        rw [hname.spells.startsName hident] at hstarts
        cases hstarts
  | @string q v s close wellFormed p hspells _ =>
      cases wellFormed with
      | false => cases hsound
      | true => exact .string q (hspells.nullFree hu.tail.append_left)
  | number => exact .number _
  | percentage => exact .percentage _
  | @dimension n u s p _ hname =>
      refine .dimension n (hname.spells.nullFree hu.append_right) ?_
      simpa [Token.unitStarts, Token.unit] using hunit
  | cdo => exact .cdo
  | cdc => exact .cdc
  | punctuation hmem => exact .punctuation hmem
  | @delim c p hmark hnumber hname =>
      have hback : c ≠ '\\' := by
        rintro rfl
        simp [Token.isSound] at hsound
      exact .delim (isDelimChar_of_not_starts (hu c (List.mem_singleton_self c)) hback hmark hnumber
        hname)

/-- A dimension that is spelled by a normalized text has a unit without null characters. -/
theorem Lexeme.exists_measure {rest u : List Char} {t : Token} (h : Lexeme rest u t) (hu : Normal u)
    (htype : t.type = .dimension) :
    ∃ n unit, t.IsMeasure n unit := by
  cases h with
  | @dimension n u s p _ hname =>
      exact ⟨n, s, rfl, hname.spells.nullFree hu.append_right, hname.ne_nil⟩
  | @address u s run v address close wellFormed p => cases wellFormed <;> cases htype
  | @string q v s close wellFormed p => cases wellFormed <;> cases htype
  | punctuation hmem =>
      have hall : ∀ d ∈ Output.punctuation, d.2 ≠ .dimension := by decide
      exact absurd htype (hall _ hmem)
  | _ => cases htype

/-! ## The tokens of a source -/

/-- Every token of the account but the end has its lexeme. -/
theorem Covers.exists_lexeme {before rest : List Char} {tokens : List Token}
    (h : Covers before rest tokens) (hrest : Normal rest) :
    ∀ t ∈ tokens, t.type ≠ .eof → ∃ u behind, Normal u ∧ Lexeme behind u t := by
  induction h with
  | eof => exact List.forall_mem_singleton.mpr fun hend => absurd rfl hend
  | token _ _ hlexeme _ ih =>
      have hbehind := hrest.append_right
      exact List.forall_mem_cons.mpr
        ⟨fun _ => ⟨_, _, hbehind.append_left, hlexeme⟩, ih hbehind.append_right⟩

/-- A token of a source is spelled by a normalized text. -/
theorem exists_lexeme_of_mem_tokenize {source : String} {t : Token} (ht : t ∈ tokenize source)
    (hend : t.type ≠ .eof) :
    ∃ u behind, Normal u ∧ Lexeme behind u t :=
  (covers_tokenize source).exists_lexeme (fun _ hc => isNormal_of_mem_normalize hc) t ht hend

theorem type_ne_eof_of_isSound {t : Token} (h : t.isSound = true) :
    t.type ≠ .eof := by
  intro htype
  simp [Token.isSound, htype] at h

/-- A sound token of a source can be read back from what it is written as, if its unit starts as an
identifier. -/
theorem readable_of_isSound {source : String} {t : Token} (ht : t ∈ tokenize source)
    (hsound : t.isSound = true) (hunit : t.unitStarts = true) :
    t.Readable := by
  have hend := type_ne_eof_of_isSound hsound
  obtain ⟨u, behind, hu, hlexeme⟩ := exists_lexeme_of_mem_tokenize ht hend
  exact hlexeme.readable hu hsound hunit

/-- A dimension of a source has a unit without null characters. -/
theorem exists_measure_of_mem_tokenize {source : String} {t : Token} (ht : t ∈ tokenize source)
    (htype : t.type = .dimension) :
    ∃ n unit, t.IsMeasure n unit := by
  obtain ⟨u, behind, hu, hlexeme⟩ := exists_lexeme_of_mem_tokenize ht (by simp [htype])
  exact hlexeme.exists_measure hu htype

/-- The plain tokens of a source can be read back from what they are written as. -/
theorem readable_of_mem_tokenize {source : String} :
    ∀ t ∈ tokenize source, t.isPlain = true → t.Readable :=
  fun _ ht hplain =>
    readable_of_isSound ht (Token.isSound_of_isPlain hplain) (Token.unitStarts_of_isPlain hplain)

end Lexer
end Cascade
