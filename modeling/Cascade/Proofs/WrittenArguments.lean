import Cascade.Proofs.WrittenSelectors

/-!
# Written arguments are read back

The argument of a pseudo-class is written value by value, between its function and its
parenthesis.  Where its tokens, with the spaces that the form keeps, each end before
the next, it is read back as these tokens; they are balanced if the argument was.

**Method.**  `shownTokens` are the tokens that an argument is meant to give.  Leaving
out spaces and rewriting tokens without changing their types keeps the balance
(`Thinned`).  For tokens that a text spells up to a parenthesis everything follows from
the text: the spaces beside the parentheses make no difference to the tokens between them.

**Results.**
* `Writes.legible`, `Writes.enclosed`: what an argument has to satisfy to be read back.
* `Lexed.writes_pretty`, `Lexed.writes_short`: the tokens of such a text satisfy it.
-/

namespace Cascade
open Lexer Output

/-! ## Tokens that are the same are joined the same -/

section Same

variable {us ts : List Token}

theorem SameTokens.textOf (h : SameTokens us ts) :
    textOf us = textOf ts := by
  have hunplaced (vs : List Token) : Cascade.textOf (vs.map Token.unplaced) = Cascade.textOf vs := by
    rw [Cascade.textOf, List.flatMap_map]
    rfl
  rw [← hunplaced us, h, hunplaced ts]

theorem SameTokens.joined (h : SameTokens us ts) (hts : Joined ts) :
    Joined us := by
  induction ts generalizing us with
  | nil =>
      obtain rfl := h.nil
      trivial
  | cons t ts ih =>
      obtain ⟨u, us, rfl, hu, hus⟩ := h.cons
      refine ⟨?_, ih hus hts.2⟩
      have hstop := congrArg (·.stopsBefore (Cascade.textOf ts)) hu
      rw [hus.textOf]
      exact hstop.trans hts.1

theorem Token.Readable.of_unplaced {t u : Token} (ht : t.Readable) (h : u.unplaced = t.unplaced) :
    u.Readable := by
  have hreadable := h ▸ ht.unplaced
  obtain ⟨type, text, p, detail⟩ := u
  unfold Token.unplaced at hreadable
  cases hreadable <;> constructor <;> assumption

theorem SameTokens.readable (h : SameTokens us ts) (hts : ∀ t ∈ ts, t.Readable) :
    ∀ u ∈ us, u.Readable := by
  induction ts generalizing us with
  | nil =>
      obtain rfl := h.nil
      exact List.forall_mem_nil _
  | cons t ts ih =>
      obtain ⟨ht, hts⟩ := List.forall_mem_cons.mp hts
      obtain ⟨u, us, rfl, hu, hus⟩ := h.cons
      exact List.forall_mem_cons.mpr ⟨ht.of_unplaced hu, ih hus hts⟩

/-- Tokens are joined up to a parenthesis, with it and without it. -/
theorem Joined.front {u : Token} {vs : List Token} (hu : u.Readable) (htype : u.type = .closeParen)
    (h : Joined (ts ++ u :: vs)) :
    Joined ts ∧ Joined (ts ++ [u]) := by
  have hparen : tokenText false u = [')'] := tokenText_of_type hu (by decide) htype
  induction ts with
  | nil => exact ⟨trivial, by simp [Token.stopsBefore, htype], trivial⟩
  | cons t ts ih =>
      obtain ⟨hfront, hclosed⟩ := ih h.2
      have hstop : t.stopsBefore (Cascade.textOf (ts ++ u :: vs)) = true := h.1
      rw [textOf_append, textOf_cons, hparen, List.singleton_append, stopsBefore_paren] at hstop
      have hstopClosed : t.stopsBefore (Cascade.textOf (ts ++ [u])) = true := by
        rw [textOf_append, textOf_cons, hparen, List.singleton_append, stopsBefore_paren, hstop]
      exact ⟨⟨hstop, hfront⟩, hstopClosed, hclosed⟩

end Same

/-! ## Leaving out spaces -/

/-- The first tokens are the second ones without some of the whitespace, rewritten. -/
inductive Thinned : List Token → List Token → Prop
  | nil : Thinned [] []
  | keep {u t : Token} {us ts : List Token} :
      u.type = t.type → Thinned us ts → Thinned (u :: us) (t :: ts)
  | drop {t : Token} {us ts : List Token} :
      t.isWhitespace = true → Thinned us ts → Thinned us (t :: ts)

namespace Thinned

variable {us ts ts' : List Token}

theorem append (h : Thinned us (ts ++ ts')) :
    ∃ us₁ us₂, us = us₁ ++ us₂ ∧ Thinned us₁ ts ∧ Thinned us₂ ts' := by
  induction ts generalizing us with
  | nil => exact ⟨[], us, rfl, .nil, h⟩
  | cons t ts ih =>
      cases h with
      | @keep u _ us _ htype h =>
          obtain ⟨us₁, us₂, rfl, h₁, h₂⟩ := ih h
          exact ⟨u :: us₁, us₂, rfl, .keep htype h₁, h₂⟩
      | drop hblank h =>
          obtain ⟨us₁, us₂, rfl, h₁, h₂⟩ := ih h
          exact ⟨us₁, us₂, rfl, .drop hblank h₁, h₂⟩

theorem cons_visible {t : Token} (ht : t.isWhitespace = false) (h : Thinned us (t :: ts)) :
    ∃ u us', us = u :: us' ∧ u.type = t.type ∧ Thinned us' ts := by
  cases h with
  | keep htype h => exact ⟨_, _, rfl, htype, h⟩
  | drop hblank _ => exact absurd hblank (by simp [ht])

theorem map_writtenAfter (minify : Bool) (before : Option Token) {f : Token → Token}
    (hf : ∀ t, (f t).type = t.type) (ts : List Token) :
    Thinned ((writtenAfter minify before ts).map f) ts := by
  induction ts generalizing before with
  | nil => exact .nil
  | cons t ts ih =>
      rw [writtenAfter]
      cases ht : t.isWhitespace with
      | false => exact .keep (hf t) (ih (some t))
      | true =>
          cases keepsSpace minify (before.map .token) (ts.map .token) with
          | false => exact .drop ht (ih before)
          | true => exact .keep (hf t) (ih before)

end Thinned

theorem isVisible_of_closes {opener closer : Token} (h : opener.type.closer? = some closer.type) :
    opener.isWhitespace = false ∧ closer.isWhitespace = false := by
  constructor
  · by_contra hblank
    have htype : opener.type = .whitespace := by simpa [Token.isWhitespace] using hblank
    rw [htype] at h
    cases h
  · by_contra hblank
    have htype : closer.type = .whitespace := by simpa [Token.isWhitespace] using hblank
    rw [htype] at h
    cases hopener : opener.type <;> rw [hopener] at h <;> cases h

/-- Balanced tokens stay balanced. -/
theorem BalancedRun.thinned {us ts : List Token} (h : BalancedRun (ts.map .token))
    (hus : Thinned us ts) :
    BalancedRun (us.map .token) := by
  generalize hvs : ts.map Value.token = vs at h
  induction h generalizing ts us with
  | nil =>
      obtain rfl := List.map_eq_nil_iff.mp hvs
      cases hus
      exact .nil
  | inner hinner _ ih =>
      obtain ⟨t, ts, rfl, rfl, hts⟩ := List.map_eq_cons_iff.mp hvs
      cases hus with
      | drop _ hus => exact ih hus hts
      | keep htype hus =>
          refine .inner ?_ (ih hus hts)
          rintro _ ⟨⟩
          rw [htype]
          exact hinner t rfl
  | group hpair _ _ ihInside ihBehind =>
      obtain ⟨hopener, hcloser⟩ := isVisible_of_closes hpair
      obtain ⟨t, ts, rfl, ht, hts⟩ := List.map_eq_cons_iff.mp hvs
      obtain ⟨ts₁, ts', rfl, h₁, h'⟩ := List.map_eq_append_iff.mp hts
      obtain ⟨t', ts₂, rfl, ht', h₂⟩ := List.map_eq_cons_iff.mp h'
      cases ht
      cases ht'
      obtain ⟨u, _, rfl, hu, hus⟩ := hus.cons_visible hopener
      obtain ⟨us₁, us', rfl, hus₁, hus'⟩ := hus.append
      obtain ⟨u', us₂, rfl, hu', hus₂⟩ := hus'.cons_visible hcloser
      rw [List.map_cons, List.map_append, List.map_cons]
      refine .group ?_ (ihInside hus₁ h₁) (ihBehind hus₂ h₂)
      rw [hu, hu']
      exact hpair

/-! ## The tokens of an argument -/

/-- The token as it is written: the short form rewrites numbers, too. -/
def Token.inForm (minify : Bool) (t : Token) : Token :=
  if minify then t.shortened else t.spaced

/-- The tokens that an argument is meant to be written as. -/
def shownTokens (minify : Bool) (ts : List Token) : List Token :=
  (writtenAfter minify none ts).map (Token.inForm minify)

/-- The tokens can be written as the argument of the function: each one can be read back, and in the
form it ends before the next one. -/
structure Writes (minify : Bool) (name : Token) (ts : List Token) : Prop where
  readable : ∀ t ∈ ts, t.spaced.Readable
  joined : Joined ({ name with type := .function } :: (shownTokens minify ts ++ [closeParenToken]))

section Argument

variable {minify : Bool} {name : Token} {ts : List Token}

theorem inForm_type (minify : Bool) (t : Token) :
    (t.inForm minify).type = t.type := by
  cases minify with
  | true => exact shortened_type t
  | false => rfl

theorem Token.readable_of_spaced {t : Token} (h : t.spaced.Readable) (ht : t.isWhitespace = false) :
    t.Readable :=
  h.of_unplaced (by rw [Token.spaced_of_visible ht]; rfl)

theorem Token.Readable.detail_of_blank {t : Token} (h : t.Readable) (ht : t.isWhitespace = true) :
    t.detail = .none := by
  have htype : t.type = .whitespace := by simpa [Token.isWhitespace] using ht
  cases h with
  | space => rfl
  | punctuation => rfl
  | _ => cases htype

theorem Token.inForm_of_blank {t : Token} (h : t.spaced.Readable) (ht : t.isWhitespace = true) :
    t.inForm minify = ⟨.whitespace, " ", Position.none, .none⟩ := by
  have htype : t.type = .whitespace := by simpa [Token.isWhitespace] using ht
  have hdetail : t.detail = .none := h.detail_of_blank ht
  cases minify <;> simp [Token.inForm, Token.shortened, Token.spaced, ht, htype, hdetail]

theorem readable_inForm {t : Token} (h : t.spaced.Readable) :
    (t.inForm minify).Readable ∧ tokenText false (t.inForm minify) = tokenText minify t := by
  cases ht : t.isWhitespace with
  | true =>
      rw [Token.inForm_of_blank h ht, tokenText_isWhitespace ht]
      exact ⟨.space, rfl⟩
  | false =>
      have hreadable := Token.readable_of_spaced h ht
      cases minify with
      | true => exact ⟨(hreadable.shortened ht).1, tokenText_shortened hreadable⟩
      | false => exact ⟨h, tokenText_spaced t⟩

theorem readable_shownTokens (h : ∀ t ∈ ts, t.spaced.Readable) :
    ∀ t ∈ shownTokens minify ts, t.Readable :=
  List.forall_mem_map.mpr fun t ht =>
    (readable_inForm (h t ((writtenAfter_sublist _ _ _).subset ht))).1

/-- An argument is written as the text of its tokens. -/
theorem textOf_shownTokens (h : ∀ t ∈ ts, t.spaced.Readable) :
    textOf (shownTokens minify ts) = valuesText minify (ts.map .token) := by
  have htext : valuesText minify (ts.map .token) =
      (writtenAfter minify none ts).flatMap (tokenText minify) := by
    rw [valuesText, ← valuesAfter_tokens]
    rfl
  rw [htext, textOf, shownTokens, List.flatMap_map]
  exact List.flatMap_congr fun t ht =>
    (readable_inForm (h t ((writtenAfter_sublist _ _ _).subset ht))).2

/-- A written argument is read back as its tokens. -/
theorem Writes.sameTokens (h : Writes minify name ts) :
    SameTokens (writtenArgument minify (ts.map .token)) (shownTokens minify ts) := by
  have hreadable : ∀ t ∈ shownTokens minify ts, t.Readable := readable_shownTokens h.readable
  have hjoined : Joined (shownTokens minify ts) :=
    (Joined.front readable_closeParenToken rfl h.joined.2).1
  rw [writtenArgument, formatValues, ← textOf_shownTokens h.readable]
  exact contents_unplaced (fun t ht => (hreadable t ht).type_ne_eof) (tokenize_textOf hreadable hjoined)

variable {p : PseudoClass}

theorem Writes.legible (h : Writes minify p.name ts) (hargument : p.argument = some (ts.map .token))
    (htype : p.name.type = .function) :
    p.Legible minify := by
  intro vs hvs
  obtain rfl : ts.map .token = vs := Option.some.inj (hargument.symm.trans hvs)
  have hsame := h.sameTokens
  refine ⟨htype, hsame.textOf.trans (textOf_shownTokens h.readable),
    hsame.readable (readable_shownTokens h.readable), SameTokens.joined ?_ h.joined⟩
  unfold SameTokens at hsame ⊢
  rw [callTokens, List.map_cons, List.map_cons, List.map_append, List.map_append, hsame]

theorem Writes.enclosed (h : Writes minify p.name ts) (hargument : p.argument = some (ts.map .token))
    (htype : p.name.type = .function) (hbalanced : BalancedRun (ts.map .token)) :
    p.Enclosed minify := by
  intro vs hvs
  obtain rfl : ts.map .token = vs := Option.some.inj (hargument.symm.trans hvs)
  have hthinned : Thinned (shownTokens minify ts) ts :=
    .map_writtenAfter minify none (inForm_type minify) ts
  exact ⟨htype, (hbalanced.thinned hthinned).of_sameTokens h.sameTokens⟩

end Argument

/-! ## Spaces inside of parentheses -/

section Parentheses

variable {a w u : Token} {ts : List Token}

/-- A space behind a function can be left out. -/
theorem Joined.dropWhile_behind (ha : opensRun (.token a) = true) (h : Joined (a :: ts)) :
    Joined (a :: ts.dropWhile Token.isWhitespace) := by
  induction ts with
  | nil => exact h
  | cons t ts ih =>
      cases ht : t.isWhitespace with
      | false => rwa [List.dropWhile_cons_of_neg (by simp [ht])]
      | true =>
          rw [List.dropWhile_cons_of_pos ht]
          have hstop : a.stopsBefore ([' '] ++ textOf ts) = true := by
            have hstop : a.stopsBefore (textOf (t :: ts)) = true := h.1
            rwa [textOf_cons, tokenText_isWhitespace ht] at hstop
          have hblank : ∀ c ∈ [' '], isBlank c = true := List.forall_mem_singleton.mpr rfl
          exact ih ⟨stopsBefore_of_blanks (List.cons_ne_nil _ _) hblank ha hstop, h.2.2⟩

/-- A space before a parenthesis can be left out. -/
theorem Joined.drop_before (hw : w.isWhitespace = true) (hu : tokenText false u = [')'])
    (h : Joined (ts ++ [w, u])) :
    Joined (ts ++ [u]) := by
  induction ts with
  | nil => exact h.2
  | cons t ts ih =>
      have hstop : t.stopsBefore (textOf (ts ++ [w, u])) = true := h.1
      have htext : textOf (ts ++ [w, u]) = textOf ts ++ ' ' :: [')'] := by
        simp [tokenText_isWhitespace hw, hu]
      have hfront : t.stopsBefore (textOf ts) = true := by
        rw [htext] at hstop
        cases ht : t.isWhitespace with
        | false => rwa [stopsBefore_append_gap (by decide) _ _ (fun _ => ht) (by decide)] at hstop
        | true =>
            have htype : t.type = .whitespace := by simpa [Token.isWhitespace] using ht
            cases hcs : textOf ts with
            | nil => simp [Token.stopsBefore, htype]
            | cons c cs => simpa [hcs, Token.stopsBefore, htype] using hstop
      refine ⟨?_, ih h.2⟩
      change t.stopsBefore (textOf (ts ++ [u])) = true
      rw [textOf_append, textOf_cons, hu, List.singleton_append, stopsBefore_paren, hfront]

theorem Joined.rdropWhile_before (hu : tokenText false u = [')']) (h : Joined (ts ++ [u])) :
    Joined (ts.rdropWhile Token.isWhitespace ++ [u]) := by
  induction ts using List.reverseRecOn with
  | nil => exact h
  | append_singleton ts w ih =>
      rw [List.rdropWhile_concat]
      split
      · next hw =>
          rw [List.append_assoc, List.singleton_append] at h
          exact ih (h.drop_before hw hu)
      · exact h

/-- The spaces beside the parentheses of a call can be left out. -/
theorem Joined.trim (ha : opensRun (.token a) = true) (hu : tokenText false u = [')'])
    (hvisible : u.isWhitespace = false) (h : Joined (a :: (ts ++ [u]))) :
    Joined (a :: (trimTokens ts ++ [u])) := by
  have hblank : a.isWhitespace = false := by
    cases ha' : a.isWhitespace with
    | false => rfl
    | true =>
        have htype : a.type = .whitespace := by simpa [Token.isWhitespace] using ha'
        simp [opensRun, Value.hasType, htype] at ha
  have hfront := h.dropWhile_behind ha
  have hdrop : (ts ++ [u]).dropWhile Token.isWhitespace = ts.dropWhile Token.isWhitespace ++ [u] := by
    rw [List.dropWhile_append]
    split
    · next hall => rw [List.isEmpty_iff.mp hall, List.dropWhile_cons_of_neg (by simp [hvisible])]; rfl
    · rfl
  rw [hdrop, ← List.cons_append] at hfront
  have hboth := hfront.rdropWhile_before hu
  rwa [rdropWhile_cons, hblank, Bool.false_and, if_neg (by simp), List.cons_append] at hboth

end Parentheses

/-! ## Arguments that a text spells -/

theorem Lexed.readable_spaced {cs : List Char} {ts : List Token} (h : Lexed cs ts) :
    ∀ t ∈ ts, t.spaced.Readable := by
  induction h with
  | nil => exact List.forall_mem_nil _
  | blanks _ _ _ _ ih => exact List.forall_mem_cons.mpr ⟨.space, ih⟩
  | token hspells _ ih =>
      refine List.forall_mem_cons.mpr ⟨?_, ih⟩
      rw [Token.spaced_of_visible hspells.isWhitespace]
      exact hspells.readable.unplaced

section Calls

variable {cs : List Char} {name : Token} {argument : List Token}

/-- What is joined between the tokens of a call is joined between those that are written for them. -/
theorem joined_call {shown : List Token} {front : Token} (hfront : front.unplaced = name.unplaced)
    (hname : name.type = .function) (h : Joined (front :: (shown ++ [closeParenToken]))) :
    Joined ({ name with type := .function } :: (shown ++ [closeParenToken])) := by
  refine SameTokens.joined ?_ h
  have hfunction : ({ name with type := .function } : Token) = name := by rw [← hname]
  simp [SameTokens, hfunction, hfront]

/-- The tokens up to a parenthesis can be written with single spaces, behind a function that ends
before them. -/
theorem Lexed.writes_pretty (h : Lexed cs (argument ++ [closeParenToken]))
    (hname : name.type = .function) (hstop : name.stopsBefore cs = true) :
    Writes false name argument := by
  have hopens : opensRun (.token name) = true := by simp [opensRun, Value.hasType, hname]
  obtain ⟨⟨-, hjoined⟩, halike⟩ := h.tidy
  rw [List.rdropWhile_concat_neg _ _ _ (by decide)] at hjoined halike
  have hfront : name.stopsBefore (textOf ((argument ++ [closeParenToken]).map Token.spaced)) = true := by
    rw [textOf_map_spaced]
    exact halike.stopsBefore hstop
  have hcall : Joined (name :: (argument.map Token.spaced ++ [closeParenToken])) := by
    rw [List.map_append] at hfront hjoined
    exact ⟨hfront, hjoined⟩
  have htrimmed := hcall.trim hopens rfl rfl
  rw [trimTokens_map (f := Token.spaced) (fun _ => rfl), ← writtenAfter_none] at htrimmed
  exact ⟨fun t ht => h.readable_spaced t (List.mem_append_left _ ht), joined_call rfl hname htrimmed⟩

theorem keepsSpace_append_ends {t : Token} (ht : t.isWhitespace = false)
    (hends : endsRun (.token t) = true) (before : Option Token) (us ts : List Token) :
    keepsSpace true (before.map .token) ((us ++ t :: ts).map .token) =
      keepsSpace true (before.map .token) (us.map .token) := by
  have hvalue : (Value.token t).isWhitespace = false := ht
  have hfind : ((us ++ t :: ts).map Value.token).find? (fun v => !v.isWhitespace) =
      ((us.map Value.token).find? fun v => !v.isWhitespace).or (some (.token t)) := by
    rw [List.map_append, List.find?_append, List.map_cons, List.find?_cons, hvalue]
    rfl
  unfold keepsSpace
  rw [hfind]
  cases before <;> cases (us.map Value.token).find? fun v => !v.isWhitespace <;>
    simp [needsSpace, hends]

/-- In the short form no space is kept before a token that ends a run. -/
theorem writtenAfter_append_ends {t : Token} (ht : t.isWhitespace = false)
    (hends : endsRun (.token t) = true) (before : Option Token) (us ts : List Token) :
    writtenAfter true before (us ++ t :: ts) =
      writtenAfter true before us ++ t :: writtenAfter true (some t) ts := by
  induction us generalizing before with
  | nil => simp [writtenAfter, ht]
  | cons u us ih =>
      rw [List.cons_append, writtenAfter, writtenAfter, keepsSpace_append_ends ht hends, ih, ih]
      split
      · split <;> rfl
      · rfl

/-- In the short form no space is kept behind a token that opens a run. -/
theorem writtenAfter_opens {t : Token} (hopens : opensRun (.token t) = true) (ts : List Token) :
    writtenAfter true (some t) ts = writtenAfter true none ts := by
  induction ts with
  | nil => rfl
  | cons u us ih =>
      have hdropped : keepsSpace true (some (.token t)) (us.map .token) = false := by
        unfold keepsSpace
        cases (us.map Value.token).find? fun v => !v.isWhitespace <;> simp [needsSpace, hopens]
      rw [writtenAfter, writtenAfter, ih, Option.map_some, hdropped]
      rfl

/-- They can be written in the short form, too, if the numbers in it are apart. -/
theorem Lexed.writes_short (h : Lexed cs (argument ++ [closeParenToken]))
    (hname : name.type = .function) (hread : name.Readable) (hstop : name.stopsBefore cs = true)
    (hapart : numbersApart (shortTokens (name :: (argument ++ [closeParenToken]))) = true) :
    Writes true name argument := by
  have hblank : name.isWhitespace = false := by simp [Token.isWhitespace, hname]
  have hopens : opensRun (.token name) = true := by simp [opensRun, Value.hasType, hname]
  have hshort : shortAfter name (argument ++ [closeParenToken]) =
      shownTokens true argument ++ [closeParenToken] := by
    rw [shortAfter, writtenAfter_append_ends rfl rfl, writtenAfter_opens hopens, List.map_append]
    rfl
  rw [shortTokens_visible hblank] at hapart
  obtain ⟨hjoined, hmeets⟩ := h.short name (numbersApart_tail hapart)
  have hmeet := hmeets hread hblank hstop hapart
  have hcall : Joined (name.shortened :: (shownTokens true argument ++ [closeParenToken])) := by
    rw [← hshort]
    exact ⟨hmeet.stops, hjoined⟩
  have hfront : name.shortened.unplaced = name.unplaced := by
    rw [shortened_of_not_numeric hread (by rw [hname]; rfl), Token.spaced_of_visible hblank]
    rfl
  exact ⟨fun t ht => h.readable_spaced t (List.mem_append_left _ ht), joined_call hfront hname hcall⟩

end Calls

/-! ## Arguments that differ in their places only -/

section Places

theorem inForm_unplaced (minify : Bool) :
    Token.inForm minify ∘ Token.unplaced = Token.inForm minify := by
  funext t
  cases minify with
  | true => exact shortened_unplaced t
  | false => rfl

theorem shownTokens_congr {us ts : List Token} (h : SameTokens us ts) (minify : Bool) :
    shownTokens minify us = shownTokens minify ts := by
  have hunplaced (vs : List Token) : shownTokens minify (vs.map Token.unplaced) = shownTokens minify vs := by
    have hwritten := writtenAfter_map unplaced_type minify none vs
    rw [Option.map_none] at hwritten
    rw [shownTokens, hwritten, List.map_map, inForm_unplaced]
    rfl
  rw [← hunplaced us, h, hunplaced ts]

theorem Writes.of_sameTokens {minify : Bool} {name : Token} {us ts : List Token}
    (h : Writes minify name ts) (hus : SameTokens us ts) :
    Writes minify name us := by
  constructor
  · have hspaced : us.map Token.spaced = ts.map Token.spaced := by
      rw [← spaced_unplaced, ← List.map_map, hus, List.map_map]
    exact List.forall_mem_map.mp (hspaced ▸ List.forall_mem_map.mpr h.readable)
  · rw [shownTokens_congr hus]
    exact h.joined

end Places

end Cascade
