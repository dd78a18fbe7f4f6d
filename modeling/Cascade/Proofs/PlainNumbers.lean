import Cascade.Proofs.NumberGrammar

/-!
# Short forms are sound

The short form of a numeric text is the text of a number, no longer than the text
and of the same value, and has itself for its short form.

**Method.**  What a decimal number is rendered as depends on its value only: two
numbers of one value differ by a power of ten that is moved from the coefficient to
the exponent, and one factor of ten makes no difference to the text
(`render_tenfold`).  The short form of a numeral has the value of the numeral, so
its plain form is the same.

**Results.**
* `render_congr`: numbers of one value are rendered alike.
* `shortenNumber_shortenNumber`: the short form is its own short form.
* `shortenNumber_sound`: the short forms of the numeric tokens of a source.
-/

namespace Cascade
open Lexer

namespace Decimal

/-! ## Rendering depends on the value only -/

theorem toDigits_tenfold {m : Nat} (h : m ≠ 0) :
    Nat.toDigits 10 (m * 10) = Nat.toDigits 10 m ++ ['0'] := by
  have hdigits := Nat.toDigits_append_toDigits (b := 10) (d := 0) (by decide)
    (Nat.pos_of_ne_zero h) (by decide)
  rw [Nat.toDigits_zero, Nat.add_zero, Nat.mul_comm] at hdigits
  exact hdigits.symm

theorem dropTrailingZeros_zero (cs : List Char) :
    dropTrailingZeros (cs ++ ['0']) = dropTrailingZeros cs := by
  simp [dropTrailingZeros]

theorem renderAbs_no_places (m : Nat) :
    renderAbs m 0 = Nat.toDigits 10 m := by
  have hlength : 1 - (Nat.toDigits 10 m).length = 0 :=
    Nat.sub_eq_zero_of_le (Nat.length_toDigits_pos)
  simp [renderAbs, hlength, dropTrailingZeros]

/-- One more zero in one more place makes no difference. -/
theorem renderAbs_tenfold {m : Nat} (h : m ≠ 0) (places : Nat) :
    renderAbs (m * 10) (places + 1) = renderAbs m places := by
  have hpad : places + 1 + 1 - (Nat.toDigits 10 m ++ ['0']).length =
      places + 1 - (Nat.toDigits 10 m).length := by
    rw [List.length_append, List.length_singleton]
    omega
  unfold renderAbs
  simp only [toDigits_tenfold h, hpad, ← List.append_assoc]
  set padded := List.replicate (places + 1 - (Nat.toDigits 10 m).length) '0' ++ Nat.toDigits 10 m
  have hcut : (padded ++ ['0']).length - (places + 1) = padded.length - places := by
    rw [List.length_append, List.length_singleton]
    omega
  have hle : padded.length - places ≤ padded.length := Nat.sub_le ..
  rw [hcut, List.take_append_of_le_length hle,
    List.drop_append_of_le_length hle, dropTrailingZeros_zero]

/-- A factor of ten in the coefficient instead of the exponent makes no difference. -/
theorem render_tenfold (c e : Int) :
    render ⟨c * 10, e⟩ = render ⟨c, e + 1⟩ := by
  have habs : (c * 10).natAbs = c.natAbs * 10 := Int.natAbs_mul c 10
  have hsign : (c * 10 < 0) = (c < 0) := by
    rw [eq_iff_iff]
    omega
  unfold render
  simp only [habs, hsign]
  by_cases hzero : c.natAbs = 0
  · simp [hzero]
  · have hten : c.natAbs * 10 ≠ 0 := by omega
    simp only [if_neg hzero, if_neg hten]
    rcases lt_trichotomy e (-1) with hlt | rfl | hge
    · have hplaces : (-e).toNat = (-(e + 1)).toNat + 1 := by omega
      rw [if_neg (show ¬ 0 ≤ e by omega), if_neg (show ¬ 0 ≤ e + 1 by omega), hplaces,
        renderAbs_tenfold hzero]
    · have hone := renderAbs_tenfold hzero 0
      rw [renderAbs_no_places] at hone
      simpa using by rw [hone]
    · have hreplicate : (e + 1).toNat = e.toNat + 1 := by omega
      rw [if_pos (show 0 ≤ e by omega), if_pos (show 0 ≤ e + 1 by omega), toDigits_tenfold hzero,
        hreplicate, List.append_assoc, List.replicate_succ, List.singleton_append]

theorem render_power (c e : Int) (k : Nat) :
    render ⟨c * 10 ^ k, e⟩ = render ⟨c, e + k⟩ := by
  induction k generalizing e with
  | zero => simp
  | succ k ih =>
      have hexponent : e + 1 + (k : Int) = e + ((k + 1 : Nat) : Int) := by
        push_cast
        ring
      rw [pow_succ, ← mul_assoc, render_tenfold, ih, hexponent]

/-- Of two numbers of one value, the one with the smaller exponent has the larger coefficient. -/
theorem coefficient_eq_of_value {d e : Decimal} (h : d.value = e.value)
    (hle : d.exponent ≤ e.exponent) :
    d.coefficient = e.coefficient * 10 ^ (e.exponent - d.exponent).toNat := by
  have hten : (10 : ℚ) ≠ 0 := by norm_num
  have hpower : (10 : ℚ) ^ e.exponent = 10 ^ (e.exponent - d.exponent).toNat * 10 ^ d.exponent := by
    rw [← zpow_natCast, ← zpow_add₀ hten, Int.toNat_of_nonneg (by omega), sub_add_cancel]
  have hvalue : (d.coefficient : ℚ) * 10 ^ d.exponent =
      e.coefficient * 10 ^ (e.exponent - d.exponent).toNat * 10 ^ d.exponent := by
    rw [mul_assoc, ← hpower]
    exact h
  exact_mod_cast mul_right_cancel₀ (zpow_ne_zero d.exponent hten) hvalue

/-- Numbers of one value are rendered alike. -/
theorem render_congr {d e : Decimal} (h : d.value = e.value) :
    d.render = e.render := by
  have hscaled : ∀ {d e : Decimal}, d.value = e.value → d.exponent ≤ e.exponent →
      d.render = e.render := by
    intro d e h hle
    have hexponent : d.exponent + ((e.exponent - d.exponent).toNat : Int) = e.exponent := by omega
    have hpower := render_power e.coefficient d.exponent (e.exponent - d.exponent).toNat
    rwa [← coefficient_eq_of_value h hle, hexponent] at hpower
  rcases le_total d.exponent e.exponent with hle | hle
  · exact hscaled h hle
  · exact (hscaled h.symm hle).symm

theorem isZero_congr {d e : Decimal} (h : d.value = e.value) :
    d.isZero = e.isZero := by
  have hzero : ∀ d : Decimal, d.isZero = true ↔ d.value = 0 := by
    intro d
    have hpower : (10 : ℚ) ^ d.exponent ≠ 0 := zpow_ne_zero _ (by norm_num)
    simp [isZero, value, hpower]
  rw [Bool.eq_iff_iff, hzero, hzero, h]

end Decimal

/-! ## The value of a text -/

namespace Lexer
open Decimal

theorem Numeral.integer?_digits (n : Numeral) :
    integer? (n.sign.text ++ (n.whole ++ n.fraction)) = some n.decimal.coefficient := by
  refine integer?_sign n.sign (fun c hc => ?_) (by simpa [or_iff_not_imp_left] using n.digits_ne_nil)
  exact (List.mem_append.mp hc).elim (n.isDigit_whole c) (n.isDigit_fraction c)

theorem Numeral.written_eq_of_text {n m : Numeral} (h : n.exponentText = m.exponentText) :
    n.written = m.written := by
  unfold exponentText at h
  unfold written
  cases hn : n.exponent with
  | none =>
      cases hm : m.exponent with
      | none => rfl
      | some y => simp [hn, hm, Exponent.text] at h
  | some x =>
      cases hm : m.exponent with
      | none => simp [hn, hm, Exponent.text] at h
      | some y =>
          have hx := integer?_sign x.sign x.isDigit_digits x.digits_ne_nil
          have hy := integer?_sign y.sign y.isDigit_digits y.digits_ne_nil
          have htext : x.sign.text ++ x.digits = y.sign.text ++ y.digits := by
            rw [hn, hm, Option.elim_some, Option.elim_some] at h
            exact (List.cons.inj h).2
          rw [htext, hy] at hx
          exact (Option.some_inj.mp hx).symm

/-- A text is that of one number only. -/
theorem Numeral.decimal_eq_of_text {n m : Numeral} (h : n.text = m.text) :
    n.decimal = m.decimal := by
  have hmantissa : mantissaText n = mantissaText m := by
    rw [← takeWhile_mantissa n, h, takeWhile_mantissa]
  have hwhole : n.sign.text ++ n.whole = m.sign.text ++ m.whole := by
    rw [← takeWhile_whole n, hmantissa, takeWhile_whole]
  have hfraction : n.fraction = m.fraction := by
    rw [← drop_whole n, hmantissa, hwhole, drop_whole]
  have hexponent : n.exponentText = m.exponentText := by
    rw [text_eq_mantissa, text_eq_mantissa, hmantissa] at h
    exact List.append_cancel_left h
  have hcoefficient : n.decimal.coefficient = m.decimal.coefficient := by
    have hn := n.integer?_digits
    rw [← List.append_assoc, hwhole, hfraction, List.append_assoc, m.integer?_digits] at hn
    exact (Option.some_inj.mp hn).symm
  have hplaces : n.decimal.exponent = m.decimal.exponent := by
    simp only [decimal, written_eq_of_text hexponent, hfraction]
  cases hn : n.decimal
  cases hm : m.decimal
  simp_all

/-- The text is a number, and this is its value. -/
def Denotes (text : String) (q : ℚ) : Prop :=
  ∃ n : Numeral, text.toList = n.text ∧ n.value = q

/-- The text of a numeral has one value. -/
theorem denotes_iff {text : String} {n : Numeral} (h : text.toList = n.text) (q : ℚ) :
    Denotes text q ↔ q = n.value := by
  constructor
  · rintro ⟨m, hm, rfl⟩
    exact congrArg Decimal.value (Numeral.decimal_eq_of_text (hm.symm.trans h))
  · rintro rfl
    exact ⟨n, h, rfl⟩

end Lexer

/-! ## Short forms -/

namespace Output
open Decimal

/-- The plain form of a decimal number, behind a plus sign if there was one before a number that is
not zero. -/
def plainForm (plus : Bool) (d : Decimal) : List Char :=
  if plus && !d.isZero then '+' :: dropLeadingZero d.render.toList
  else dropLeadingZero d.render.toList

theorem plainForm_congr (plus : Bool) {d e : Decimal} (h : d.value = e.value) :
    plainForm plus d = plainForm plus e := by
  rw [plainForm, plainForm, render_congr h, isZero_congr h]

/-- The numeral is read, and its plain form is no longer. -/
def isShortened (n : Numeral) : Bool :=
  exponentFits n.written && exponentFits n.decimal.exponent &&
    (plainForm (n.text.head? == some '+') n.decimal).length ≤ n.text.length

/-- The short form of a numeral is its plain form or the numeral itself. -/
theorem shortenNumber_text (n : Numeral) :
    shortenNumber (String.ofList n.text) = String.ofList
      (if isShortened n then plainForm (n.text.head? == some '+') n.decimal else n.text) := by
  unfold shortenNumber isShortened
  rw [parse_text]
  cases exponentFits n.written && exponentFits n.decimal.exponent with
  | false => simp
  | true =>
      have hplain : (if n.text.head? = some '+' ∧ ¬ n.decimal.isZero then
          '+' :: dropLeadingZero n.decimal.render.toList
        else dropLeadingZero n.decimal.render.toList) =
          plainForm (n.text.head? == some '+') n.decimal := by
        simp [plainForm]
      simp only [if_true, String.toList_ofList, hplain, String.length_ofList, Bool.true_and,
        decide_eq_true_eq, ← not_lt]
      split <;> simp_all

theorem head?_text_of_sign {n : Numeral} (h : n.sign ≠ .plus) :
    n.text.head? ≠ some '+' := by
  have hhead := (n.unsigned_head []).1
  rw [List.append_nil] at hhead
  rw [n.text_eq]
  cases hsign : n.sign with
  | absent => exact hhead
  | plus => exact absurd hsign h
  | minus => simp [Sign.text]

/-- The plain form of a number that is not zero starts with a plus sign if it is asked to. -/
theorem plainForm_head (plus : Bool) (d : Decimal) :
    plainForm ((plainForm plus d).head? == some '+') d = plainForm plus d := by
  obtain ⟨r, hrender, hnone, hsign, -⟩ := render_numeral d
  have hplus : r.sign ≠ .plus := by
    rw [hsign]
    split <;> simp
  obtain ⟨m, hdrop, hmsign, -⟩ := dropLeadingZero_numeral hnone hplus
  have hhead := head?_text_of_sign (hmsign ▸ hplus)
  rw [← hdrop, ← hrender] at hhead
  unfold plainForm
  by_cases hkept : (plus && !d.isZero) = true
  · obtain ⟨rfl, hnonzero⟩ := Bool.and_eq_true_iff.mp hkept
    simp [hnonzero]
  · simp [hkept, hhead]

/-- The plain form of a numeral is a numeral of its value. -/
theorem exists_plainForm (n : Numeral) :
    ∃ m : Numeral, m.value = n.value ∧ plainForm (n.text.head? == some '+') n.decimal = m.text := by
  obtain ⟨m, hvalue, htext⟩ := plain_numeral n
  refine ⟨m, hvalue, ?_⟩
  rw [← htext, plainForm]
  simp

/-- The short form of a numeral is its own short form: a plain form has itself for its plain form,
since it has the same value. -/
theorem shortenNumber_shortenNumber (n : Numeral) :
    shortenNumber (shortenNumber (String.ofList n.text)) = shortenNumber (String.ofList n.text) := by
  cases hshort : isShortened n with
  | false =>
      have hsame : shortenNumber (String.ofList n.text) = String.ofList n.text := by
        rw [shortenNumber_text, hshort, if_neg Bool.false_ne_true]
      rw [hsame, hsame]
  | true =>
      obtain ⟨m, hvalue, htext⟩ := exists_plainForm n
      have hplain : plainForm (m.text.head? == some '+') m.decimal = m.text := by
        rw [plainForm_congr _ hvalue, ← htext, plainForm_head]
      have hm : shortenNumber (String.ofList n.text) = String.ofList m.text := by
        rw [shortenNumber_text, hshort, if_pos rfl, htext]
      rw [hm, shortenNumber_text, hplain, ite_self]

theorem length_shortenNumber (n : Numeral) :
    (shortenNumber (String.ofList n.text)).length ≤ n.text.length := by
  rw [shortenNumber_text, String.length_ofList]
  split
  · next h =>
      simp only [isShortened, Bool.and_eq_true, decide_eq_true_eq] at h
      exact h.2
  · exact le_refl _

/-- The second text is a number of the same value as the first, no longer than it, and one token on
its own. -/
structure ShortFor (text short : String) : Prop where
  value : ∃ q : ℚ, (∀ r, Denotes text r ↔ r = q) ∧ ∀ r, Denotes short r ↔ r = q
  length : short.length ≤ text.length
  token : ∃ isInteger, IsToken short.toList ⟨.number, short, Position.start, .numeral isInteger⟩

/-- The short form of a numeral. -/
theorem shortFor_shortenNumber (n : Numeral) :
    ShortFor (String.ofList n.text) (shortenNumber (String.ofList n.text)) := by
  obtain ⟨m, htext, hvalue⟩ := shortenNumber_numeral n
  refine ⟨⟨n.value, fun r => denotes_iff String.toList_ofList r, fun r => ?_⟩, ?_, m.isInteger, ?_⟩
  · rw [← hvalue]
    exact denotes_iff htext r
  · rw [String.length_ofList]
    exact length_shortenNumber n
  · have hshort : shortenNumber (String.ofList n.text) = String.ofList m.text := by
      rw [← htext, String.ofList_toList]
    rw [htext, hshort]
    exact isToken_numeral m

/-- Shortening the numbers of a source is sound.  The short form of the text of a numeric token is a
number of the same value, no longer, and one token; and it is its own short form. -/
theorem shortenNumber_sound {source : String} {t : Token} (ht : t ∈ tokenize source)
    (htype : t.type.isNumeric = true) :
    ShortFor t.text (shortenNumber t.text) ∧
      shortenNumber (shortenNumber t.text) = shortenNumber t.text := by
  obtain ⟨-, -, n, -, -, -, hnamed⟩ := (covers_tokenize source).exists_numeral t ht htype
  rw [hnamed.text]
  exact ⟨shortFor_shortenNumber n, shortenNumber_shortenNumber n⟩

/-- A dimension with a sign, a zero before its point and one at its end. -/
theorem shortenNumber_sound_dimension :
    (⟨.dimension, "-0.50", Position.start, .measure false "px"⟩ : Token) ∈ tokenize "-0.50px" ∧
      shortenNumber "-0.50" = "-.5" ∧ ShortFor "-0.50" "-.5" ∧ shortenNumber "-.5" = "-.5" := by
  have hmem : (⟨.dimension, "-0.50", Position.start, .measure false "px"⟩ : Token) ∈
      tokenize "-0.50px" := by
    decide +kernel
  have hshort : shortenNumber "-0.50" = "-.5" := by decide +kernel
  have hsound := shortenNumber_sound hmem rfl
  rw [hshort] at hsound
  exact ⟨hmem, hshort, hsound⟩

end Output
end Cascade
