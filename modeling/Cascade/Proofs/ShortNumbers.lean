import Cascade.Output.Number
import Cascade.Proofs.Escapes
import Mathlib.Algebra.Order.Field.Rat
import Mathlib.Data.List.DropRight
import Mathlib.Tactic.FieldSimp
import Mathlib.Tactic.Ring

/-!
# Short forms of numbers

The short form of a numeral is a numeral of the same value.

**Method.**  A numeral stands for a decimal number, a coefficient and an exponent,
and `Decimal.value` is the rational that such a number is.  Reading, rendering and
dropping the zero before the point are shown one by one to give numerals of the
same value.

**Results.**
* `parse_text`: a numeral is read as the decimal number it stands for.
* `render_numeral`: a decimal number is rendered as a numeral of its value.
* `shortenNumber_numeral`: so the short form of a numeral is one of its value.
-/

namespace Cascade
open Lexer

/-! ## Values -/

/-- The number that a decimal is. -/
def Decimal.value (d : Decimal) : ℚ :=
  d.coefficient * 10 ^ d.exponent

namespace Lexer

/-- The factor that a sign stands for. -/
def Sign.factor : Sign → Int
  | .minus => -1
  | _ => 1

/-- The number that an exponent is. -/
def Exponent.value (x : Exponent) : Int :=
  x.sign.factor * Decimal.digitsValue 0 x.digits

/-- The exponent that a numeral is written with. -/
def Numeral.written (n : Numeral) : Int :=
  n.exponent.elim 0 Exponent.value

/-- The decimal number that a numeral stands for. -/
def Numeral.decimal (n : Numeral) : Decimal :=
  ⟨n.sign.factor * Decimal.digitsValue 0 (n.whole ++ n.fraction), n.written - n.fraction.length⟩

/-- The value of a numeral. -/
def Numeral.value (n : Numeral) : ℚ :=
  n.decimal.value

end Lexer

/-! ## Digits -/

namespace Decimal

theorem isDigit_eq (c : Char) :
    c.isDigit = isDigit c := by
  rw [Bool.eq_iff_iff, isDigit_iff]
  simp [Char.isDigit, UInt32.le_iff_toNat_le]

theorem digitsValue_append (acc : Nat) (u v : List Char) :
    digitsValue acc (u ++ v) = digitsValue (digitsValue acc u) v := by
  simp [digitsValue]

theorem digitsValue_zeros (acc k : Nat) :
    digitsValue acc (List.replicate k '0') = acc * 10 ^ k := by
  induction k generalizing acc with
  | zero => simp [digitsValue]
  | succ k ih =>
    have hzero : ('0'.toNat - '0'.toNat) = 0 := by decide
    rw [List.replicate_succ]
    calc digitsValue acc ('0' :: List.replicate k '0')
        = digitsValue (10 * acc) (List.replicate k '0') := by simp [digitsValue]
      _ = acc * 10 ^ (k + 1) := by rw [ih, Nat.pow_succ]; ring

theorem digitsValue_zeros_append (k : Nat) (u : List Char) :
    digitsValue 0 (List.replicate k '0' ++ u) = digitsValue 0 u := by
  rw [digitsValue_append, digitsValue_zeros, Nat.zero_mul]

theorem digitsValue_toDigits (n : Nat) :
    digitsValue 0 (Nat.toDigits 10 n) = n :=
  Nat.ofDigitChars_toDigits (by decide) (by decide)

theorem isDigit_of_mem_toDigits {n : Nat} {c : Char} (h : c ∈ Nat.toDigits 10 n) :
    isDigit c = true := by
  rw [← isDigit_eq]
  exact Nat.isDigit_of_mem_toDigits (by decide) (by decide) h

/-! ## Reading -/

theorem integer?_sign (s : Sign) {ds : List Char} (hds : ∀ c ∈ ds, isDigit c = true) (hne : ds ≠ []) :
    integer? (s.text ++ ds) = some (s.factor * (digitsValue 0 ds : Int)) := by
  have hall : ds.all Char.isDigit = true := by
    simpa [List.all_eq_true, isDigit_eq] using hds
  cases s with
  | absent =>
    unfold integer?
    split
    · exact absurd (hds '+' (by simp_all [Sign.text])) (by decide)
    · exact absurd (hds '-' (by simp_all [Sign.text])) (by decide)
    · simp [Sign.text, hne, hall, Sign.factor]
  | plus => simp [Sign.text, integer?, hne, hall, Sign.factor]
  | minus => simp [Sign.text, integer?, hne, hall, Sign.factor]

/-- The text of a numeral before its exponent. -/
def mantissaText (n : Numeral) : List Char :=
  n.sign.text ++ n.whole ++ fractionText n.fraction

theorem text_eq_mantissa (n : Numeral) :
    n.text = mantissaText n ++ n.exponentText := by
  rfl

theorem mem_sign {s : Sign} {c : Char} (h : c ∈ s.text) :
    c = '+' ∨ c = '-' := by
  cases s <;> simp_all [Sign.text]

theorem mem_mantissaText {n : Numeral} {c : Char} (h : c ∈ mantissaText n) :
    c ≠ 'e' ∧ c ≠ 'E' := by
  simp only [mantissaText, List.mem_append] at h
  rcases h with (hsign | hwhole) | hfraction
  · rcases mem_sign hsign with rfl | rfl <;> decide
  · have hne := isDigit_not_sign (n.isDigit_whole c hwhole)
    exact ⟨hne.2.2.2.1, hne.2.2.2.2⟩
  · unfold fractionText at hfraction
    split at hfraction
    · simp at hfraction
    · rcases List.mem_cons.mp hfraction with rfl | hdigit
      · decide
      · have hne := isDigit_not_sign (n.isDigit_fraction c hdigit)
        exact ⟨hne.2.2.2.1, hne.2.2.2.2⟩

theorem takeWhile_mantissa (n : Numeral) :
    n.text.takeWhile (fun c => c != 'e' && c != 'E') = mantissaText n := by
  rw [text_eq_mantissa]
  refine takeWhile_append_run (fun c hc => by simpa using mem_mantissaText hc) ?_
  unfold Numeral.exponentText
  cases n.exponent with
  | none => rfl
  | some x => rcases x.isLetter with hletter | hletter <;> simp [Exponent.text, hletter]

theorem takeWhile_whole (n : Numeral) :
    (mantissaText n).takeWhile (· != '.') = n.sign.text ++ n.whole := by
  refine takeWhile_append_run (fun c hc => ?_) ?_
  · rw [bne_iff_ne]
    rcases List.mem_append.mp hc with hsign | hwhole
    · rcases mem_sign hsign with rfl | rfl <;> decide
    · exact (isDigit_not_sign (n.isDigit_whole c hwhole)).2.2.1
  · cases n.fraction <;> rfl

theorem drop_whole (n : Numeral) :
    ((mantissaText n).drop (n.sign.text ++ n.whole).length).drop 1 = n.fraction := by
  rw [mantissaText, List.drop_left]
  cases n.fraction <;> rfl

/-- A numeral is read as the decimal number it stands for, if its exponents fit. -/
theorem parse_text (n : Numeral) :
    parse (String.ofList n.text) =
      if exponentFits n.written && exponentFits n.decimal.exponent then .ok n.decimal
      else .error (.exponentTooLarge (String.ofList n.text)) := by
  have hdrop : n.text.drop (mantissaText n).length = n.exponentText := by
    rw [text_eq_mantissa, List.drop_left]
  have hdigits : ∀ c ∈ n.whole ++ n.fraction, isDigit c = true := by
    intro c hc
    rcases List.mem_append.mp hc with hwhole | hfraction
    · exact n.isDigit_whole c hwhole
    · exact n.isDigit_fraction c hfraction
  have hne : n.whole ++ n.fraction ≠ [] := by
    simpa [or_iff_not_imp_left] using n.digits_ne_nil
  have hpoint : n.fraction.contains '.' = false := by
    rw [List.contains_eq_mem, decide_eq_false_iff_not]
    intro hmem
    exact absurd (n.isDigit_fraction '.' hmem) (by decide)
  have hinteger := integer?_sign n.sign hdigits hne
  unfold parse
  simp only [String.toList_ofList, takeWhile_mantissa, hdrop, takeWhile_whole, drop_whole, hpoint,
    List.append_assoc, hinteger]
  have hdecimal : n.decimal = ⟨n.sign.factor * digitsValue 0 (n.whole ++ n.fraction),
      n.written - n.fraction.length⟩ := rfl
  cases hx : n.exponent with
  | none =>
    have hwritten : n.written = 0 := by simp [Numeral.written, hx]
    have hfits : exponentFits 0 = true := by decide
    simp only [Numeral.exponentText, hx, Option.elim_none, hdecimal, hwritten, hfits, Bool.true_and]
    rfl
  | some x =>
    have hwritten : n.written = x.sign.factor * digitsValue 0 x.digits := by
      simp [Numeral.written, hx, Exponent.value]
    have hexponent := integer?_sign x.sign x.isDigit_digits x.digits_ne_nil
    simp only [Numeral.exponentText, hx, Option.elim_some, Exponent.text, hexponent, hdecimal,
      hwritten]
    cases exponentFits (x.sign.factor * digitsValue 0 x.digits) <;> rfl

/-! ## Rendering -/

theorem exists_dropTrailingZeros (cs : List Char) :
    ∃ k, cs = dropTrailingZeros cs ++ List.replicate k '0' := by
  have hsplit := List.rdropWhile_append_rtakeWhile (p := fun c : Char => c == '0') (l := cs)
  have hzeros : cs.rtakeWhile (· == '0') =
      List.replicate (cs.rtakeWhile (· == '0')).length '0' := by
    rw [List.eq_replicate_iff]
    exact ⟨rfl, fun c hc => by simpa using List.mem_rtakeWhile_imp hc⟩
  rw [hzeros] at hsplit
  exact ⟨_, hsplit.symm⟩

/-- The digits of a magnitude with some places behind the point. -/
structure Rendered (magnitude places : Nat) (whole fraction : List Char) : Prop where
  isDigit_whole : ∀ c ∈ whole, isDigit c = true
  isDigit_fraction : ∀ c ∈ fraction, isDigit c = true
  whole_ne_nil : whole ≠ []
  value : ∃ k, digitsValue 0 (whole ++ fraction) * 10 ^ k = magnitude ∧ fraction.length + k = places

theorem exists_renderAbs (magnitude places : Nat) :
    ∃ whole fraction, renderAbs magnitude places = whole ++ fractionText fraction ∧
      Rendered magnitude places whole fraction := by
  let digits := Nat.toDigits 10 magnitude
  let padded := List.replicate (places + 1 - digits.length) '0' ++ digits
  have hpadded : ∀ c ∈ padded, isDigit c = true := by
    intro c hc
    rcases List.mem_append.mp hc with hzero | hdigit
    · rw [List.eq_of_mem_replicate hzero]
      decide
    · exact isDigit_of_mem_toDigits hdigit
  have hlength : places < padded.length := by
    simp only [padded, List.length_append, List.length_replicate]
    omega
  let whole := padded.take (padded.length - places)
  let behind := padded.drop (padded.length - places)
  have hsplit : whole ++ behind = padded := List.take_append_drop ..
  obtain ⟨k, hk⟩ := exists_dropTrailingZeros behind
  refine ⟨whole, dropTrailingZeros behind, ?_, ?_, ?_, ?_, k, ?_, ?_⟩
  · unfold renderAbs
    cases hzeros : dropTrailingZeros behind with
    | nil =>
      simp only [behind, padded, digits] at hzeros
      simp only [hzeros]
      exact (List.append_nil whole).symm
    | cons c cs =>
      simp only [behind, padded, digits] at hzeros
      simp only [hzeros]
      rfl
  · exact fun c hc => hpadded c (List.mem_of_mem_take hc)
  · intro c hc
    refine hpadded c (List.mem_of_mem_drop (i := padded.length - places) ?_)
    show c ∈ behind
    rw [hk]
    exact List.mem_append_left _ hc
  · rw [← List.length_pos_iff, List.length_take]
    omega
  · calc digitsValue 0 (whole ++ dropTrailingZeros behind) * 10 ^ k
        = digitsValue 0 (whole ++ dropTrailingZeros behind ++ List.replicate k '0') := by
          rw [digitsValue_append 0 (whole ++ _), digitsValue_zeros]
      _ = digitsValue 0 padded := by rw [List.append_assoc, ← hk, hsplit]
      _ = magnitude := by rw [digitsValue_zeros_append, digitsValue_toDigits]
  · have hbehind := congrArg List.length hk
    have hdrop : behind.length = padded.length - (padded.length - places) := List.length_drop
    simp only [List.length_append, List.length_replicate] at hbehind
    omega

/-- The value of digits is that of the magnitude and its places. -/
theorem Rendered.value_eq {magnitude places : Nat} {whole fraction : List Char}
    (h : Rendered magnitude places whole fraction) :
    (digitsValue 0 (whole ++ fraction) : ℚ) * 10 ^ (-(fraction.length : ℤ)) =
      magnitude * 10 ^ (-(places : ℤ)) := by
  obtain ⟨k, hvalue, hplaces⟩ := h.value
  have hcancel : (10 : ℚ) ^ k * 10 ^ (-(k : ℤ)) = 1 := by
    rw [zpow_neg, zpow_natCast, mul_inv_cancel₀ (pow_ne_zero k (by norm_num))]
  calc (digitsValue 0 (whole ++ fraction) : ℚ) * 10 ^ (-(fraction.length : ℤ))
      = digitsValue 0 (whole ++ fraction) * 10 ^ (-(fraction.length : ℤ)) *
          (10 ^ k * 10 ^ (-(k : ℤ))) := by rw [hcancel, mul_one]
    _ = (digitsValue 0 (whole ++ fraction) * 10 ^ k : ℕ) *
          (10 ^ (-(fraction.length : ℤ)) * 10 ^ (-(k : ℤ))) := by
        push_cast
        ring
    _ = magnitude * 10 ^ (-(places : ℤ)) := by
        rw [hvalue, ← hplaces, ← zpow_add₀ (by norm_num)]
        push_cast
        ring_nf

/-- The digits of a decimal number, with their value. -/
theorem exists_rendered (d : Decimal) :
    ∃ whole fraction, d.render.toList =
        (if d.coefficient < 0 then ['-'] else []) ++ (whole ++ fractionText fraction) ∧
      (∀ c ∈ whole, isDigit c = true) ∧ (∀ c ∈ fraction, isDigit c = true) ∧ whole ≠ [] ∧
      (digitsValue 0 (whole ++ fraction) : ℚ) * 10 ^ (-(fraction.length : ℤ)) =
        d.coefficient.natAbs * 10 ^ d.exponent := by
  have hrender : ∀ cs, (String.ofList (if d.coefficient < 0 then '-' :: cs else cs)).toList =
      (if d.coefficient < 0 then ['-'] else []) ++ cs := by
    intro cs
    split <;> simp
  unfold render
  simp only [hrender]
  by_cases hzero : d.coefficient.natAbs = 0
  · refine ⟨['0'], [], by simp [hzero, fractionText], by simp [isDigit], by simp, by simp, ?_⟩
    simp [hzero, digitsValue]
  · by_cases hexponent : 0 ≤ d.exponent
    · refine ⟨Nat.toDigits 10 d.coefficient.natAbs ++ List.replicate d.exponent.toNat '0', [],
        by simp [hzero, hexponent, fractionText], ?_, by simp, ?_, ?_⟩
      · intro c hc
        rcases List.mem_append.mp hc with hdigit | hzeros
        · exact isDigit_of_mem_toDigits hdigit
        · rw [List.eq_of_mem_replicate hzeros]
          decide
      · simp
      · have hpower : (10 : ℚ) ^ d.exponent = 10 ^ d.exponent.toNat := by
          rw [← zpow_natCast, Int.toNat_of_nonneg hexponent]
        simp [digitsValue_append, digitsValue_toDigits, digitsValue_zeros, hpower]
    · obtain ⟨whole, fraction, htext, h⟩ :=
        exists_renderAbs d.coefficient.natAbs (-d.exponent).toNat
      refine ⟨whole, fraction, by simp [hzero, hexponent, htext], h.isDigit_whole,
        h.isDigit_fraction, h.whole_ne_nil, ?_⟩
      rw [h.value_eq, Int.toNat_of_nonneg (by omega), neg_neg]

/-- A decimal number is rendered as a numeral of its value. -/
theorem render_numeral (d : Decimal) :
    ∃ n : Numeral, d.render.toList = n.text ∧ n.exponent = none ∧
      n.sign = (if d.coefficient < 0 then .minus else .absent) ∧ n.value = d.value := by
  obtain ⟨whole, fraction, htext, hwhole, hfraction, hne, hvalue⟩ := exists_rendered d
  refine ⟨⟨if d.coefficient < 0 then .minus else .absent, whole, fraction, none, hwhole, hfraction,
    .inl hne⟩, ?_, rfl, rfl, ?_⟩
  · rw [htext]
    split <;> simp [Numeral.text, Numeral.exponentText, Sign.text]
  · have hsign : ((if d.coefficient < 0 then Sign.minus else Sign.absent).factor : ℚ) *
        d.coefficient.natAbs = d.coefficient := by
      have hint : (if d.coefficient < 0 then Sign.minus else Sign.absent).factor *
          (d.coefficient.natAbs : Int) = d.coefficient := by
        split
        · simp only [Sign.factor]
          omega
        · simp only [Sign.factor]
          omega
      have hcast := congrArg (fun z : Int => (z : ℚ)) hint
      simpa only [Int.cast_mul, Int.cast_natCast] using hcast
    simp only [Numeral.value, Numeral.decimal, Numeral.written, Option.elim_none, zero_sub, value]
    push_cast
    rw [mul_assoc, hvalue, ← mul_assoc, hsign]

end Decimal

/-! ## Short forms -/

namespace Output
open Decimal

/-- The numeral without the digits before its point. -/
def fractionOnly (n : Numeral) (h : n.fraction ≠ []) : Numeral :=
  { n with whole := [], isDigit_whole := by simp, digits_ne_nil := .inr h }

theorem value_fractionOnly {n : Numeral} (h : n.fraction ≠ []) (hwhole : n.whole = ['0']) :
    (fractionOnly n h).value = n.value := by
  have hdigits : digitsValue 0 ('0' :: n.fraction) = digitsValue 0 n.fraction :=
    digitsValue_zeros_append 1 n.fraction
  simp [Numeral.value, Numeral.decimal, fractionOnly, hwhole, hdigits, Numeral.written]

/-- A zero before a point is the whole part of the numeral. -/
theorem whole_of_leadingZero {n : Numeral} {rest : List Char}
    (h : n.whole ++ fractionText n.fraction = '0' :: '.' :: rest) :
    n.whole = ['0'] ∧ fractionText n.fraction = '.' :: rest := by
  have hwhole := n.isDigit_whole
  match hcs : n.whole with
  | [] =>
    rw [hcs] at h
    cases hfraction : n.fraction <;> simp [hfraction, fractionText] at h
  | [d] =>
    rw [hcs] at h
    obtain ⟨rfl, hrest⟩ := List.cons.inj h
    exact ⟨rfl, hrest⟩
  | d :: e :: ds =>
    rw [hcs] at h hwhole
    obtain ⟨rfl, -⟩ := List.cons.inj (List.cons.inj h).2
    exact absurd (hwhole '.' (by simp)) (by decide)

theorem text_of_no_exponent {n : Numeral} (h : n.exponent = none) :
    n.text = n.sign.text ++ (n.whole ++ fractionText n.fraction) := by
  simp [Numeral.text, Numeral.exponentText, h]

theorem dropLeadingZero_of_ne {cs : List Char} {s : Sign} (hs : s ≠ .plus)
    (hhead : cs.head? ≠ some '-') (h : ∀ rest, cs ≠ '0' :: '.' :: rest) :
    dropLeadingZero (s.text ++ cs) = s.text ++ cs := by
  cases s with
  | absent =>
    unfold dropLeadingZero
    split
    · simp_all [Sign.text]
    · simp_all [Sign.text]
    · rfl
  | plus => exact absurd rfl hs
  | minus =>
    unfold dropLeadingZero
    split
    · simp_all [Sign.text]
    · simp_all [Sign.text]
    · rfl

/-- Without the zero before its point a numeral keeps its value. -/
theorem dropLeadingZero_numeral {n : Numeral} (hexponent : n.exponent = none)
    (hsign : n.sign ≠ .plus) :
    ∃ m : Numeral, dropLeadingZero n.text = m.text ∧ m.sign = n.sign ∧ m.value = n.value := by
  have htext := text_of_no_exponent hexponent
  by_cases hzero : ∃ rest, n.whole ++ fractionText n.fraction = '0' :: '.' :: rest
  · obtain ⟨rest, hrest⟩ := hzero
    obtain ⟨hwhole, hfraction⟩ := whole_of_leadingZero hrest
    have hne : n.fraction ≠ [] := by
      intro hnil
      simp [hnil, fractionText] at hfraction
    refine ⟨fractionOnly n hne, ?_, rfl, value_fractionOnly hne hwhole⟩
    have hshort : (fractionOnly n hne).text = n.sign.text ++ '.' :: rest := by
      have hnone : (fractionOnly n hne).exponent = none := hexponent
      rw [text_of_no_exponent hnone, ← hfraction]
      rfl
    rw [htext, hrest, hshort]
    cases hs : n.sign with
    | absent => rfl
    | plus => exact absurd hs hsign
    | minus => rfl
  · refine ⟨n, ?_, rfl, rfl⟩
    have hhead := (n.unsigned_head []).2
    simp only [Numeral.unsigned, Numeral.exponentText, hexponent, Option.elim_none, List.append_nil]
      at hhead
    rw [htext]
    exact dropLeadingZero_of_ne hsign hhead fun rest hrest => hzero ⟨rest, hrest⟩

/-- A plus sign does not change the value. -/
theorem value_withSign_plus {m : Numeral} (h : m.sign = .absent) :
    (m.withSign .plus).text = '+' :: m.text ∧ (m.withSign .plus).value = m.value := by
  constructor
  · rw [m.text_withSign, m.text_eq, h]
    rfl
  · simp [Numeral.value, Numeral.decimal, Numeral.withSign, Numeral.written, Sign.factor, h]

theorem coefficient_nonneg_of_plus {n : Numeral} (h : n.text.head? = some '+') :
    0 ≤ n.decimal.coefficient := by
  have hhead := (n.unsigned_head []).1
  have hfactor : n.sign.factor = 1 := by
    rw [n.text_eq] at h
    cases hs : n.sign with
    | absent => simp_all [Sign.text]
    | plus => rfl
    | minus => simp_all [Sign.text]
  simp [Numeral.decimal, hfactor]

/-- The plain form of a numeral, with its plus sign if it has one, is a numeral of its value. -/
theorem plain_numeral (n : Numeral) :
    ∃ m : Numeral, m.value = n.value ∧
      (if n.text.head? = some '+' ∧ ¬ n.decimal.isZero then
        '+' :: dropLeadingZero n.decimal.render.toList
      else dropLeadingZero n.decimal.render.toList) = m.text := by
  obtain ⟨r, hrender, hnone, hsign, hvalue⟩ := render_numeral n.decimal
  have hplus : r.sign ≠ .plus := by
    rw [hsign]
    split <;> simp
  obtain ⟨m, hplain, hmsign, hmvalue⟩ := dropLeadingZero_numeral hnone hplus
  rw [hrender, hplain]
  split
  · rename_i hhead
    have hnonneg := coefficient_nonneg_of_plus hhead.1
    have habsent : m.sign = .absent := by
      rw [hmsign, hsign, if_neg (by omega)]
    obtain ⟨htext, hsame⟩ := value_withSign_plus habsent
    exact ⟨m.withSign .plus, by rw [hsame, hmvalue, hvalue, Numeral.value], htext.symm⟩
  · exact ⟨m, by rw [hmvalue, hvalue, Numeral.value], rfl⟩

/-- The short form of a numeral is a numeral of its value. -/
theorem shortenNumber_numeral (n : Numeral) :
    ∃ m : Numeral, (shortenNumber (String.ofList n.text)).toList = m.text ∧ m.value = n.value := by
  obtain ⟨m, hvalue, hplain⟩ := plain_numeral n
  unfold shortenNumber
  rw [parse_text]
  split
  · exact ⟨n, by simp, rfl⟩
  · rename_i d hd
    obtain rfl : n.decimal = d := by
      split at hd
      · exact Except.ok.inj hd
      · simp at hd
    simp only [String.toList_ofList, hplain]
    split
    · exact ⟨n, by simp, rfl⟩
    · exact ⟨m, by simp, hvalue⟩

end Output
end Cascade
