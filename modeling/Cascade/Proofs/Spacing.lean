import Cascade.Proofs.ShortForms

/-!
# Which spaces are kept

A form of a token list keeps a space if a rule on the two tokens beside it says so, and
no space at either end.  The short form is one of them; another one leaves out the
spaces beside commas only.

**Method.**  Forms can be taken one after the other (`spacedBy_spacedBy`).  Two forms,
one of which keeps whatever the other one keeps, are the same if they agree on the pairs
of tokens that have a space between them (`spacedBy_eq_iff`).

**Results.**
* `writtenAfter_eq_spacedBy`: the written forms are such forms.
* `respelled_spacedBy_iff`: when a short form is the same but for spaces beside commas.
-/

namespace Cascade
open Output

/-- The first visible token. -/
def firstVisible (ts : List Token) : Option Token :=
  ts.find? fun t => !t.isWhitespace

/-- The tokens beside a space: the one before it and the first visible one behind it. -/
def neighbours (before : Option Token) (ts : List Token) : Option (Token × Token) :=
  before.bind fun a => (firstVisible ts).map (a, ·)

/-- The rule keeps a space between its neighbours. -/
def keptBy (keeps : Token → Token → Bool) (before : Option Token) (ts : List Token) : Bool :=
  (neighbours before ts).any fun p => keeps p.1 p.2

/-- The tokens with the spaces that the rule keeps. -/
def spacedBy (keeps : Token → Token → Bool) (before : Option Token) : List Token → List Token
  | [] => []
  | t :: ts =>
    if t.isWhitespace then
      if keptBy keeps before ts then
        t :: spacedBy keeps before ts
      else
        spacedBy keeps before ts
    else
      t :: spacedBy keeps (some t) ts

/-- The pairs of visible tokens with whitespace between them. -/
def spacedPairs (before : Option Token) : List Token → List (Token × Token)
  | [] => []
  | t :: ts =>
    if t.isWhitespace then
      (neighbours before ts).toList ++ spacedPairs before ts
    else
      spacedPairs (some t) ts

section Forms

variable (keeps keeps' : Token → Token → Bool) (before : Option Token) {t : Token} (ts : List Token)

theorem spacedBy_visible (ht : t.isWhitespace = false) :
    spacedBy keeps before (t :: ts) = t :: spacedBy keeps (some t) ts := by
  simp [spacedBy, ht]

theorem spacedBy_blank (ht : t.isWhitespace = true) :
    spacedBy keeps before (t :: ts) =
      if keptBy keeps before ts then t :: spacedBy keeps before ts else spacedBy keeps before ts := by
  simp [spacedBy, ht]

theorem firstVisible_visible (ht : t.isWhitespace = false) :
    firstVisible (t :: ts) = some t := by
  simp [firstVisible, ht]

theorem firstVisible_blank (ht : t.isWhitespace = true) :
    firstVisible (t :: ts) = firstVisible ts := by
  simp [firstVisible, ht]

theorem firstVisible_spacedBy :
    firstVisible (spacedBy keeps before ts) = firstVisible ts := by
  induction ts with
  | nil => rfl
  | cons t ts ih =>
      cases ht : t.isWhitespace with
      | false => rw [spacedBy_visible _ _ _ ht, firstVisible_visible _ ht, firstVisible_visible _ ht]
      | true =>
          rw [spacedBy_blank _ _ _ ht, firstVisible_blank _ ht]
          split
          · rw [firstVisible_blank _ ht, ih]
          · exact ih

theorem keptBy_and :
    keptBy (fun a b => keeps a b && keeps' a b) before ts =
      (keptBy keeps before ts && keptBy keeps' before ts) := by
  unfold keptBy
  cases neighbours before ts <;> rfl

/-- A form of a form keeps the spaces that both keep. -/
theorem spacedBy_spacedBy :
    spacedBy keeps' before (spacedBy keeps before ts) =
      spacedBy (fun a b => keeps a b && keeps' a b) before ts := by
  induction ts generalizing before with
  | nil => rfl
  | cons t ts ih =>
      cases ht : t.isWhitespace with
      | false => rw [spacedBy_visible _ _ _ ht, spacedBy_visible _ _ _ ht, spacedBy_visible _ _ _ ht, ih]
      | true =>
          have hbehind : keptBy keeps' before (spacedBy keeps before ts) = keptBy keeps' before ts := by
            rw [keptBy, neighbours, firstVisible_spacedBy]
            rfl
          rw [spacedBy_blank _ _ _ ht, spacedBy_blank _ _ _ ht, keptBy_and]
          cases keptBy keeps before ts with
          | false => exact ih before
          | true => rw [if_pos rfl, spacedBy_blank _ _ _ ht, hbehind, ih, Bool.true_and]

theorem spacedBy_sublist :
    (spacedBy keeps before ts).Sublist ts := by
  induction ts generalizing before with
  | nil => exact .slnil
  | cons t ts ih =>
      cases ht : t.isWhitespace with
      | false =>
          rw [spacedBy_visible _ _ _ ht]
          exact (ih (some t)).cons_cons t
      | true =>
          rw [spacedBy_blank _ _ _ ht]
          split
          · exact (ih before).cons_cons t
          · exact (ih before).cons t

variable {keeps keeps'}

/-- Who keeps less has fewer tokens. -/
theorem spacedBy_sublist_spacedBy (h : ∀ a b, keeps a b = true → keeps' a b = true) :
    (spacedBy keeps before ts).Sublist (spacedBy keeps' before ts) := by
  have hboth : (fun a b => keeps' a b && keeps a b) = keeps := by
    funext a b
    cases hkept : keeps a b with
    | false => exact Bool.and_false _
    | true => rw [h a b hkept, Bool.true_and]
  have hform := spacedBy_spacedBy keeps' keeps before ts
  rw [hboth] at hform
  rw [← hform]
  exact spacedBy_sublist _ _ _

/-- Two forms, the second of which keeps more, are the same where both keep the same spaces. -/
theorem spacedBy_eq_iff (h : ∀ a b, keeps a b = true → keeps' a b = true) :
    spacedBy keeps before ts = spacedBy keeps' before ts ↔
      ∀ p ∈ spacedPairs before ts, keeps' p.1 p.2 = true → keeps p.1 p.2 = true := by
  induction ts generalizing before with
  | nil => simp [spacedBy, spacedPairs]
  | cons t ts ih =>
      cases ht : t.isWhitespace with
      | false => simp [spacedBy_visible _ _ _ ht, spacedPairs, ht, ih]
      | true =>
          rw [spacedBy_blank _ _ _ ht, spacedBy_blank _ _ _ ht, spacedPairs, if_pos ht]
          unfold keptBy
          cases neighbours before ts with
          | none => exact ih before
          | some p =>
              rw [Option.toList_some, List.singleton_append, List.forall_mem_cons, ← ih, Option.any_some,
                Option.any_some]
              cases hkept : keeps p.1 p.2 with
              | true => simp [h _ _ hkept]
              | false =>
                  cases hkept' : keeps' p.1 p.2 with
                  | false => simp
                  | true =>
                      have hlength := (spacedBy_sublist_spacedBy before ts h).length_le
                      have hne : spacedBy keeps before ts ≠ t :: spacedBy keeps' before ts := by
                        intro heq
                        rw [heq, List.length_cons] at hlength
                        omega
                      simp [hne]

end Forms

/-! ## Written forms -/

/-- The short form needs a space between the tokens. -/
def needsBetween (a b : Token) : Bool :=
  needsSpace (.token a) (.token b)

/-- Neither token is a comma. -/
def apartFromCommas (a b : Token) : Bool :=
  a.type != .comma && b.type != .comma

theorem apartFromCommas_of_needsBetween {a b : Token} (h : needsBetween a b = true) :
    apartFromCommas a b = true := by
  simp only [needsBetween, needsSpace, Bool.and_eq_true, Bool.not_eq_true'] at h
  obtain ⟨⟨hopens, hends⟩, -⟩ := h
  rw [apartFromCommas, Bool.and_eq_true, bne_iff_ne, bne_iff_ne]
  constructor
  · intro hcomma
    simp [opensRun, Value.hasType, hcomma] at hopens
  · intro hcomma
    simp [endsRun, Value.hasType, hcomma] at hends

/-- What is written keeps the spaces that its form needs. -/
theorem writtenAfter_eq_spacedBy (minify : Bool) (before : Option Token) (ts : List Token) :
    writtenAfter minify before ts = spacedBy (fun a b => !minify || needsBetween a b) before ts := by
  induction ts generalizing before with
  | nil => rfl
  | cons t ts ih =>
      have hkept : keepsSpace minify (before.map .token) (ts.map .token) =
          keptBy (fun a b => !minify || needsBetween a b) before ts := by
        have hfind : (ts.map Value.token).find? (fun v => !v.isWhitespace) =
            (firstVisible ts).map Value.token := by
          rw [List.find?_map]
          rfl
        unfold keepsSpace keptBy neighbours
        rw [hfind]
        cases before <;> cases firstVisible ts <;> rfl
      rw [writtenAfter, spacedBy, hkept, ih, ih]

theorem writtenAfter_short (before : Option Token) (ts : List Token) :
    writtenAfter true before ts = spacedBy needsBetween before ts :=
  writtenAfter_eq_spacedBy true before ts

/-- The short form of what the pretty form shows is the short form of the source. -/
theorem writtenAfter_short_pretty (before : Option Token) (ts : List Token) :
    writtenAfter true before (writtenAfter false before ts) = writtenAfter true before ts := by
  rw [writtenAfter_short, writtenAfter_eq_spacedBy false, spacedBy_spacedBy, writtenAfter_short]
  rfl

/-! ## Spaces beside commas -/

section Respelled

variable {us vs : List Token}

theorem Token.Respelled.type_eq {t u : Token} (h : Token.Respelled t u) :
    t.type = u.type := by
  cases h <;> rfl

theorem Token.Respelled.isWhitespace_eq {t u : Token} (h : Token.Respelled t u) :
    t.isWhitespace = u.isWhitespace := by
  rw [Token.isWhitespace, h.type_eq, Token.isWhitespace]

theorem firstVisible_respelled (h : List.Forall₂ Token.Respelled us vs) :
    (firstVisible us).map Token.type = (firstVisible vs).map Token.type := by
  induction h with
  | nil => rfl
  | @cons t u us vs htu _ ih =>
      cases ht : t.isWhitespace with
      | false =>
          have hu : u.isWhitespace = false := htu.isWhitespace_eq ▸ ht
          rw [firstVisible_visible _ ht, firstVisible_visible _ hu, Option.map_some, Option.map_some,
            htu.type_eq]
      | true =>
          have hu : u.isWhitespace = true := htu.isWhitespace_eq ▸ ht
          rw [firstVisible_blank _ ht, firstVisible_blank _ hu, ih]

/-- Respelling numbers does not change which spaces stand beside commas. -/
theorem forall₂_spacedBy (h : List.Forall₂ Token.Respelled us vs) {before before' : Option Token}
    (hbefore : before.map Token.type = before'.map Token.type) :
    List.Forall₂ Token.Respelled (spacedBy apartFromCommas before us)
      (spacedBy apartFromCommas before' vs) := by
  induction h generalizing before before' with
  | nil => exact .nil
  | @cons t u us vs htu hrest ih =>
      cases ht : t.isWhitespace with
      | false =>
          have hu : u.isWhitespace = false := htu.isWhitespace_eq ▸ ht
          rw [spacedBy_visible _ _ _ ht, spacedBy_visible _ _ _ hu]
          exact .cons htu (ih (congrArg some htu.type_eq))
      | true =>
          have hu : u.isWhitespace = true := htu.isWhitespace_eq ▸ ht
          have hkept : keptBy apartFromCommas before us = keptBy apartFromCommas before' vs := by
            have hfirst := firstVisible_respelled hrest
            unfold keptBy neighbours
            revert hbefore hfirst
            cases before <;> cases before' <;> cases firstVisible us <;> cases firstVisible vs <;>
              simp +contextual [apartFromCommas]
          rw [spacedBy_blank _ _ _ ht, spacedBy_blank _ _ _ hu, hkept]
          split
          · exact .cons htu (ih hbefore)
          · exact ih hbefore

/-- Respelled short tokens are the same as all tokens but for spaces beside commas and at the ends, iff
the short form needs all other spaces. -/
theorem respelled_spacedBy_iff (h : List.Forall₂ Token.Respelled (writtenAfter true none us) vs) :
    List.Forall₂ Token.Respelled (spacedBy apartFromCommas none us) (spacedBy apartFromCommas none vs) ↔
      ∀ p ∈ spacedPairs none us, apartFromCommas p.1 p.2 = true → needsBetween p.1 p.2 = true := by
  have hle (a b : Token) : needsBetween a b = true → apartFromCommas a b = true :=
    apartFromCommas_of_needsBetween
  -- The short form has no space beside a comma.
  have hboth : (fun a b => needsBetween a b && apartFromCommas a b) = needsBetween := by
    funext a b
    cases hneeds : needsBetween a b with
    | false => rfl
    | true => rw [hle a b hneeds, Bool.true_and]
  have hshort := forall₂_spacedBy h (Eq.refl (Option.map Token.type none))
  rw [writtenAfter_short, spacedBy_spacedBy, hboth] at hshort
  rw [← spacedBy_eq_iff none us hle]
  constructor
  · intro hsame
    refine (spacedBy_sublist_spacedBy none us hle).eq_of_length ?_
    rw [hshort.length_eq, hsame.length_eq]
  · intro heq
    rwa [← heq]

end Respelled

end Cascade
