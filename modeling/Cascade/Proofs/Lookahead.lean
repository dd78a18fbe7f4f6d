import Cascade.Proofs.Joining

/-!
# What a token sees of the text behind it

Whether a token ends before a text depends on little of the text: on a few of its
first characters, and on these only by their classes.

**Method.**  `LooksLike cs ds` says that two texts look the same from in front: they
differ only behind a blank, a mark, a parenthesis or the name of an address.  Each
of the questions that `Token.stopsBefore` asks about a text has its lemma.

**Results.** `LooksLike.stopsBefore`: a token that stops before a text stops before an
alike one.
-/

namespace Cascade
open Lexer Output

/-! ## Texts that look alike -/

/-- The text holds no backslash. -/
def NoBackslash (cs : List Char) : Prop :=
  ∀ c ∈ cs, c ≠ '\\'

/-- Nothing behind the character is seen from in front of it. -/
def hides (c : Char) (rest : List Char) : Bool :=
  match c with
  | '.' => !rest.head?.any isDigit
  | '+' => !rest.head?.any isDigit
  | '-' => !startsName ('-' :: rest)
  | '!' => !(['-', '-'].isPrefixOf rest)
  | _ => !isBlank c && c != '\\'

/-- The texts look the same to a token in front of them. -/
inductive LooksLike : List Char → List Char → Prop
  | nil : LooksLike [] []
  | cons {c : Char} {cs ds : List Char} : c ≠ '\\' → LooksLike cs ds → LooksLike (c :: cs) (c :: ds)
  | hidden {c : Char} {cs ds : List Char} : hides c ds = true → LooksLike (c :: cs) (c :: ds)
  | hyphens {cs ds : List Char} : LooksLike ('-' :: '-' :: cs) ('-' :: '-' :: ds)
  | blanks {run cs ds : List Char} : run ≠ [] → (∀ c ∈ run, isBlank c = true) → LooksLike cs ds →
      LooksLike (run ++ cs) (' ' :: ds)
  | trailing {run : List Char} : (∀ c ∈ run, isBlank c = true) → LooksLike run []
  | address {c : Char} {cs ds : List Char} : c ≠ '\\' → startsName (c :: cs) = true →
      LooksLike (c :: cs) ('u' :: ds)

theorem hides_blank {c : Char} {rest : List Char} (h : isBlank c = true) :
    hides c rest = false := by
  simp only [isBlank, Bool.or_eq_true, beq_iff_eq] at h
  rcases h with (rfl | rfl) | rfl <;> rfl

theorem ne_backslash_of_hides {c : Char} {rest : List Char} (h : hides c rest = true) :
    c ≠ '\\' := by
  rintro rfl
  exact absurd h (by simp [hides])

namespace LooksLike

variable {cs ds : List Char}

/-- A text in front of both keeps them alike. -/
theorem append {u : List Char} (hu : NoBackslash u) (h : LooksLike cs ds) :
    LooksLike (u ++ cs) (u ++ ds) := by
  induction u with
  | nil => exact h
  | cons c u ih => exact .cons (hu c (by simp)) (ih fun d hd => hu d (by simp [hd]))

theorem startsEscape (h : LooksLike cs ds) :
    startsEscape ds = false := by
  cases h with
  | nil => rfl
  | cons hc _ => exact startsEscape_cons_of_ne _ hc
  | hidden hc => exact startsEscape_cons_of_ne _ (ne_backslash_of_hides hc)
  | hyphens => exact startsEscape_cons_of_ne _ (by decide)
  | blanks => exact startsEscape_cons_of_ne _ (by decide)
  | trailing => rfl
  | address => exact startsEscape_cons_of_ne _ (by decide)

/-! ## Classes of the first character -/

/-- A class that does not tell blanks apart, nor the starts of names, tells nothing new. -/
theorem head_any {p : Char → Bool} (hblank : p ' ' = true → ∀ b, isBlank b = true → p b = true)
    (hname : p 'u' = true → ∀ c, isNameStart c = true ∨ c = '-' → p c = true) (h : LooksLike cs ds)
    (hds : ds.head?.any p = true) :
    cs.head?.any p = true := by
  cases h with
  | nil => exact hds
  | cons _ _ => simpa using hds
  | hidden _ => simpa using hds
  | hyphens => simpa using hds
  | @blanks run _ _ hne hrun _ =>
    obtain ⟨b, bs, rfl⟩ := List.exists_cons_of_ne_nil hne
    simpa using hblank (by simpa using hds) b (hrun b (by simp))
  | trailing => simp at hds
  | @address c cs _ hc hstart =>
    have hfirst : isNameStart c = true ∨ c = '-' := by
      by_cases hhyphen : c = '-'
      · exact .inr hhyphen
      · exact .inl (by rwa [startsName_cons cs hhyphen hc] at hstart)
    simpa using hname (by simpa using hds) c hfirst

theorem digit (h : LooksLike cs ds) (hds : ds.head?.any isDigit = true) :
    cs.head?.any isDigit = true :=
  h.head_any (fun hp => absurd hp (by decide)) (fun hp => absurd hp (by decide)) hds

theorem char {c : Char} (hspace : c ≠ ' ') (hletter : c ≠ 'u') (h : LooksLike cs ds)
    (hds : ds.head? = some c) :
    cs.head? = some c := by
  have hany := h.head_any (p := (· == c)) (fun hp => absurd hp (by simp [Ne.symm hspace]))
    (fun hp => absurd hp (by simp [Ne.symm hletter])) (by simp [hds])
  cases cs with
  | nil => simp at hany
  | cons d cs => simpa using hany

theorem nameGoesOn (h : LooksLike cs ds) (hds : nameGoesOn ds = true) :
    nameGoesOn cs = true := by
  simp only [Lexer.nameGoesOn, h.startsEscape, Bool.or_false] at hds
  have hhead := h.head_any (p := isNameChar) (fun hp => absurd hp (by decide))
    (fun _ c hc => isNameChar_iff.mpr (hc.imp_right fun hc => .inr (by rw [hc]; rfl))) hds
  simp [Lexer.nameGoesOn, hhead]

theorem name_hyphen (h : LooksLike cs ds) (hds : startsName ('-' :: ds) = true) :
    startsName ('-' :: cs) = true := by
  rw [startsName_hyphen, h.startsEscape, Bool.or_false] at hds
  have hhead := h.head_any (p := fun c => isNameStart c || c == '-')
    (fun hp => absurd hp (by decide)) (fun _ c hc => by simpa using hc) hds
  rw [startsName_hyphen, hhead, Bool.true_or]

theorem quote (h : LooksLike cs ds) (hcs : cs.head?.any isQuote = true) :
    ds.head?.any isQuote = true := by
  cases h with
  | nil => exact hcs
  | cons _ _ => simpa using hcs
  | hidden _ => simpa using hcs
  | hyphens => simpa using hcs
  | @blanks run _ _ hne hrun _ =>
    obtain ⟨b, bs, rfl⟩ := List.exists_cons_of_ne_nil hne
    have hb := isBlank_of_isQuote (c := b) (by simpa using hcs)
    simp [hrun b (by simp)] at hb
  | trailing hrun =>
    cases cs with
    | nil => exact hcs
    | cons b bs =>
      have hb := isBlank_of_isQuote (c := b) (by simpa using hcs)
      simp [hrun b (by simp)] at hb
  | @address c cs _ hc hstart =>
    have hquote : isQuote c = true := by simpa using hcs
    simp only [isQuote, Bool.or_eq_true, beq_iff_eq] at hquote
    rcases hquote with rfl | rfl <;>
      (rw [startsName_cons _ (by decide) (by decide)] at hstart; exact absurd hstart (by decide))

/-! ## Longer starts -/

theorem fraction (h : LooksLike cs ds) (hds : startsFraction ds = true) :
    startsFraction cs = true := by
  obtain ⟨d, es, rfl, hd⟩ := startsFraction_cases hds
  cases h with
  | cons _ htail =>
    rw [startsFraction_point]
    exact htail.digit (by simpa using hd)
  | hidden hc => simp [hides, hd] at hc

theorem unsigned (h : LooksLike cs ds) (hds : startsUnsigned ds = true) :
    startsUnsigned cs = true := by
  have hsplit : ∀ es, startsUnsigned es = (es.head?.any isDigit || startsFraction es) := by
    intro es
    cases es <;> rfl
  rw [hsplit, Bool.or_eq_true] at hds ⊢
  exact hds.imp h.digit h.fraction

theorem name (h : LooksLike cs ds) (hds : startsName ds = true) :
    startsName cs = true := by
  have hsame : ∀ {c : Char} {es fs : List Char}, c ≠ '-' → c ≠ '\\' →
      startsName (c :: es) = true → startsName (c :: fs) = true := by
    intro c es fs hhyphen hback hes
    rw [startsName_cons _ hhyphen hback] at hes ⊢
    exact hes
  cases h with
  | nil => exact hds
  | @cons c cs ds hc htail =>
    by_cases hhyphen : c = '-'
    · subst hhyphen
      exact htail.name_hyphen hds
    · exact hsame hhyphen hc hds
  | @hidden c cs ds hc =>
    by_cases hhyphen : c = '-'
    · subst hhyphen
      simp [hides, hds] at hc
    · exact hsame hhyphen (ne_backslash_of_hides hc) hds
  | hyphens => rfl
  | blanks => exact absurd (hsame (by decide) (by decide) hds : startsName [' '] = true) (by decide)
  | trailing => exact absurd hds (by decide)
  | address _ hstart => exact hstart

theorem twoHyphens (h : LooksLike cs ds) (hds : ['-', '-'].isPrefixOf ds = true) :
    ['-', '-'].isPrefixOf cs = true := by
  obtain ⟨ds, rfl⟩ := List.isPrefixOf_iff_prefix.mp hds
  cases h with
  | @cons _ cs _ _ htail =>
    have hhead := htail.char (c := '-') (by decide) (by decide) rfl
    cases cs with
    | nil => simp at hhead
    | cons c cs =>
      rw [(Option.some.inj hhead : c = '-')]
      simp [List.isPrefixOf]
  | hidden hc => exact absurd hc (by simp [hides, startsName])
  | hyphens => simp [List.isPrefixOf]

theorem cdo (h : LooksLike cs ds) (hds : ['!', '-', '-'].isPrefixOf ds = true) :
    ['!', '-', '-'].isPrefixOf cs = true := by
  obtain ⟨ds, rfl⟩ := List.isPrefixOf_iff_prefix.mp hds
  cases h with
  | cons _ htail =>
    have hhyphens := htail.twoHyphens (by simp [List.isPrefixOf])
    simpa [List.isPrefixOf] using hhyphens
  | hidden hc => exact absurd hc (by simp [hides, List.isPrefixOf])

/-- Behind a unit only a sign and a digit could make an exponent of it. -/
theorem exponent {u : List Char} (h : LooksLike cs ds) (hname : Lexer.nameGoesOn ds = false)
    (hds : startsExponent (u ++ ds) = true) :
    startsExponent (u ++ cs) = true := by
  have hhead : ∀ c, ds.head? = some c → isNameChar c = false := by
    intro c hc
    simp only [Lexer.nameGoesOn, Bool.or_eq_false_iff, hc] at hname
    simpa using hname.1
  rcases u with _ | ⟨e, _ | ⟨s, _ | ⟨d, u⟩⟩⟩
  · rcases ds with _ | ⟨e, _ | ⟨s, rest⟩⟩
    · cases hds
    · cases hds
    · simp only [List.nil_append, startsExponent, Bool.and_eq_true, Bool.or_eq_true, beq_iff_eq]
        at hds
      have he := hhead e rfl
      rcases hds.1 with rfl | rfl <;> exact absurd he (by decide)
  · rcases ds with _ | ⟨s, rest⟩
    · cases hds
    · simp only [List.singleton_append, startsExponent, Bool.and_eq_true, Bool.or_eq_true,
        beq_iff_eq] at hds
      have hs := hhead s rfl
      obtain ⟨hletter, hdigit | ⟨rfl | rfl, hdigit⟩⟩ := hds
      · simp [isNameChar, hdigit] at hs
      · cases h with
        | cons _ htail => simp [startsExponent, hletter, htail.digit hdigit]
        | hidden hc => simp [hides, hdigit] at hc
      · exact absurd hs (by decide)
  · simp only [List.cons_append, List.nil_append, startsExponent, Bool.and_eq_true, Bool.or_eq_true]
      at hds ⊢
    refine ⟨hds.1, hds.2.imp_right fun hsign => ⟨hsign.1, ?_⟩⟩
    exact h.digit hsign.2
  · exact hds

theorem opensQuote (h : LooksLike cs ds) (hcs : opensQuote cs = true) :
    opensQuote ds = true := by
  have hsplit : ∀ c es, Output.opensQuote (c :: es) =
      (isQuote c || (isBlank c && es.head?.any isQuote)) := fun _ _ => rfl
  cases h with
  | nil => exact hcs
  | cons _ htail =>
    simp only [hsplit, Bool.or_eq_true, Bool.and_eq_true] at hcs ⊢
    exact hcs.imp_right fun hboth => ⟨hboth.1, htail.quote hboth.2⟩
  | @hidden c _ _ hc =>
    have hblank : isBlank c = false := by
      by_cases hblank : isBlank c = true
      · simp [hides_blank hblank] at hc
      · simpa using hblank
    simp only [hsplit, hblank, Bool.false_and, Bool.or_false] at hcs ⊢
    exact hcs
  | hyphens => exact absurd hcs (by simp [hsplit, isQuote, isBlank])
  | @blanks run cs ds hne hrun htail =>
    obtain ⟨b, bs, rfl⟩ := List.exists_cons_of_ne_nil hne
    have hb := hrun b (by simp)
    have hquote : isQuote b = false := by
      by_cases hquote : isQuote b = true
      · simp [isBlank_of_isQuote hquote] at hb
      · simpa using hquote
    simp only [List.cons_append, hsplit, hquote, hb, Bool.false_or, Bool.true_and] at hcs
    -- The run is a single blank: the next character is a mark.
    cases bs with
    | nil => simp [hsplit, isBlank, htail.quote hcs]
    | cons e es =>
      have he := isBlank_of_isQuote (c := e) (by simpa using hcs)
      simp [hrun e (by simp)] at he
  | trailing hrun =>
    cases cs with
    | nil => exact hcs
    | cons b bs =>
      have hb := hrun b (by simp)
      simp only [hsplit, Bool.or_eq_true, Bool.and_eq_true] at hcs
      rcases hcs with hquote | ⟨-, hquote⟩
      · simp [isBlank_of_isQuote hquote] at hb
      · cases bs with
        | nil => simp at hquote
        | cons e es =>
          have he := isBlank_of_isQuote (c := e) (by simpa using hquote)
          simp [hrun e (by simp)] at he
  | @address c cs _ hc hstart =>
    have hclass : isQuote c = false ∧ isBlank c = false := by
      by_cases hhyphen : c = '-'
      · subst hhyphen
        decide
      · rw [startsName_cons cs hhyphen hc] at hstart
        have hmarked := (isMarked_of_isNameStart hstart).1
        simp only [isMarked, Bool.or_eq_false_iff] at hmarked
        exact ⟨hmarked.1.2, hmarked.1.1⟩
    simp [hsplit, hclass] at hcs

/-! ## Tokens before alike texts -/

theorem not_of_imp {a b : Bool} (himp : b = true → a = true) (ha : (!a) = true) :
    (!b) = true := by
  cases a <;> cases b <;> simp_all

theorem char_ne {c : Char} (hspace : c ≠ ' ') (hletter : c ≠ 'u') (h : LooksLike cs ds)
    (hcs : (cs.head? != some c) = true) :
    (ds.head? != some c) = true := by
  rw [bne_iff_ne] at hcs ⊢
  exact mt (h.char hspace hletter) hcs

theorem delimStops {c : Char} (h : LooksLike cs ds) (hcs : delimStops c cs = true) :
    delimStops c ds = true := by
  unfold Output.delimStops at hcs ⊢
  split at hcs
  · exact not_of_imp h.nameGoesOn hcs
  · exact not_of_imp h.unsigned hcs
  · rw [Bool.and_eq_true] at hcs ⊢
    exact ⟨not_of_imp h.unsigned hcs.1, not_of_imp h.name_hyphen hcs.2⟩
  · exact not_of_imp h.digit hcs
  · exact not_of_imp h.cdo hcs
  · exact not_of_imp h.name hcs
  · exact h.char_ne (by decide) (by decide) hcs
  · simp_all

/-- A token that stops before a text stops before an alike one. -/
theorem stopsBefore {t : Token} (h : LooksLike cs ds) (hcs : t.stopsBefore cs = true) :
    t.stopsBefore ds = true := by
  unfold Token.stopsBefore at hcs ⊢
  split at hcs
  · refine not_of_imp (h.head_any (fun _ _ hb => hb) fun hp => absurd hp (by decide)) hcs
  · simp only [Bool.and_eq_true] at hcs ⊢
    refine ⟨⟨not_of_imp h.nameGoesOn hcs.1.1, h.char_ne (by decide) (by decide) hcs.1.2⟩,
      not_of_imp (fun hds => ?_) hcs.2⟩
    simp only [Bool.and_eq_true, beq_iff_eq] at hds ⊢
    exact ⟨hds.1, h.char (by decide) (by decide) hds.2⟩
  · rw [Bool.or_eq_true] at hcs ⊢
    exact hcs.imp_right h.opensQuote
  · exact not_of_imp h.nameGoesOn hcs
  · exact not_of_imp h.nameGoesOn hcs
  · simp only [Bool.and_eq_true] at hcs ⊢
    refine ⟨⟨⟨not_of_imp h.digit hcs.1.1.1, h.char_ne (by decide) (by decide) hcs.1.1.2⟩,
      not_of_imp h.name hcs.1.2⟩, not_of_imp (fun hds => ?_) hcs.2⟩
    rw [Bool.and_eq_true] at hds ⊢
    exact ⟨hds.1, h.fraction hds.2⟩
  · rw [Bool.and_eq_true, Bool.or_eq_true] at hcs ⊢
    have hname := not_of_imp h.nameGoesOn hcs.1
    exact ⟨hname, hcs.2.imp_right (not_of_imp (h.exponent (by simpa using hname)))⟩
  · simp only [List.all_eq_true] at hcs ⊢
    exact fun c hc => h.delimStops (hcs c hc)
  · rfl

end LooksLike

end Cascade
