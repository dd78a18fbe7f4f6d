import Cascade.Proofs.Adjacency
import Cascade.Proofs.RoundTrip
import Cascade.Proofs.WrittenSelectors

/-!
# Texts with blanks between tokens

A text in which tokens are written one behind the other, with any blanks for the
whitespace between them, is read as these tokens, each at its place.

**Method.**  A token that ends before a text ends before it also where a gap follows, such
as a blank, a semicolon or a brace (`stopsBefore_append_gap`), so that joined tokens may
stand in front of one, whatever is behind it.

**Results.**
* `Spaced.tokenize`: the tokens of a text with blanks.
* `Joined.spaced`: joined tokens in front of a gap.
-/

namespace Cascade
open Lexer Output

/-- From the place on, the text is spelled by the tokens, each at its place: a visible token as it
is written, and whitespace by blanks. -/
inductive Spaced : Position → List Char → List Token → Prop
  | nil {p : Position} : Spaced p [] []
  | blanks {p : Position} {run rest : List Char} {ts : List Token} :
      run ≠ [] → (∀ c ∈ run, isBlank c = true) → rest.head?.any isBlank = false →
      Spaced (p.afterAll run) rest ts →
      Spaced p (run ++ rest) (⟨.whitespace, String.ofList run, p, .none⟩ :: ts)
  | token {p : Position} {t : Token} {rest : List Char} {ts : List Token} :
      t.Readable → t.isWhitespace = false → t.stopsBefore rest = true →
      Spaced (p.afterAll (tokenText false t)) rest ts →
      Spaced p (tokenText false t ++ rest) ({ t with position := p } :: ts)

section Spaced

variable {p : Position} {cs : List Char} {ts us : List Token} {P : List Token → Prop}

theorem Spaced.tokensFrom (h : Spaced p cs ts) {n : Nat} (hn : cs.length ≤ n) :
    ∃ q, tokensFrom n ⟨cs, p⟩ = ts ++ [⟨.eof, "", q, .none⟩] := by
  induction h generalizing n with
  | @nil p => exact ⟨p, tokensFrom_end n p⟩
  | @blanks p run rest ts hne hrun hrest _ ih =>
      have hpos := List.length_pos_iff.mpr hne
      rw [List.length_append] at hn
      obtain ⟨n, rfl⟩ : ∃ k, n = k + 1 := ⟨n - 1, by omega⟩
      obtain ⟨q, hq⟩ := ih (n := n) (by omega)
      refine ⟨q, ?_⟩
      rw [(lexes_blanks hne hrun hrest p).tokensFrom n p, hq]
      rfl
  | @token p t rest ts ht _ hstop _ ih =>
      have hpos := List.length_pos_iff.mpr (tokenText_ne_nil ht)
      rw [List.length_append] at hn
      obtain ⟨n, rfl⟩ : ∃ k, n = k + 1 := ⟨n - 1, by omega⟩
      obtain ⟨q, hq⟩ := ih (n := n) (by omega)
      refine ⟨q, ?_⟩
      rw [(lexes_tokenText ht hstop).tokensFrom n p, hq]
      rfl

theorem isNormal_of_isBlank {c : Char} (h : isBlank c = true) :
    isNormal c = true := by
  have hcode := isBlank_iff.mp h
  simp only [isNormal, Bool.and_eq_true, bne_iff_ne]
  refine ⟨⟨?_, ?_⟩, ?_⟩ <;> (rintro rfl; exact absurd hcode (by decide))

theorem Spaced.isNormal (h : Spaced p cs ts) :
    ∀ c ∈ cs, isNormal c = true := by
  induction h with
  | nil => exact List.forall_mem_nil _
  | blanks _ hrun _ _ ih =>
      exact List.forall_mem_append.mpr ⟨fun c hc => isNormal_of_isBlank (hrun c hc), ih⟩
  | token ht _ _ _ ih =>
      exact List.forall_mem_append.mpr ⟨fun c hc => isNormal_tokenText ht hc, ih⟩

/-- Such a text is read as its tokens. -/
theorem Spaced.tokenize (h : Spaced .start cs ts) :
    ∃ q, tokenize (String.ofList cs) = ts ++ [⟨.eof, "", q, .none⟩] := by
  rw [Cascade.tokenize, String.toList_ofList, normalize_of_isNormal h.isNormal]
  exact h.tokensFrom (Nat.le_refl _)

theorem Spaced.not_startsComment (h : Spaced p cs ts) :
    startsComment cs = false := by
  have hlexes {run rest : List Char} {t : Token} (h : Lexes run t rest) :
      startsComment (run ++ rest) = false := by
    obtain ⟨c, cs, hcs, hcomment, -⟩ := h
    rwa [hcs]
  cases h with
  | nil => rfl
  | blanks hne hrun hrest _ => exact hlexes (lexes_blanks hne hrun hrest .none)
  | token ht _ hstop _ => exact hlexes (lexes_tokenText ht hstop)

/-- A character that is a token of its own. -/
theorem Spaced.punctuation {c : Char} {type : TokenType} (hc : (c, type) ∈ Output.punctuation)
    (h : Spaced (p.after c) cs ts) :
    Spaced p (c :: cs) (⟨type, String.ofList [c], p, .none⟩ :: ts) := by
  have htext : tokenText false ⟨type, String.ofList [c], p, .none⟩ = [c] := tokenText_punctuation hc
  have htype : Token.isWhitespace ⟨type, String.ofList [c], p, .none⟩ = false ∧
      Token.stopsBefore ⟨type, String.ofList [c], p, .none⟩ cs = true := by
    simp only [Output.punctuation, List.mem_cons, Prod.mk.injEq, List.not_mem_nil, or_false] at hc
    rcases hc with ⟨-, rfl⟩ | ⟨-, rfl⟩ | ⟨-, rfl⟩ | ⟨-, rfl⟩ | ⟨-, rfl⟩ | ⟨-, rfl⟩ | ⟨-, rfl⟩ |
      ⟨-, rfl⟩ | ⟨-, rfl⟩ <;> exact ⟨rfl, rfl⟩
  have hfirst := Spaced.token (p := p) (.punctuation hc) htype.1 htype.2 (by rwa [htext])
  rwa [htext] at hfirst

/-- The text starts with a gap, and no quotation mark is seen through it. -/
def StartsGap (rest : List Char) : Prop :=
  ∃ x cs, rest = x :: cs ∧ x ∈ '\x7b' :: gaps ∧ (x = ' ' → cs.head?.any isQuote = false)

/-- Joined tokens are read in front of a gap, whatever is behind it. -/
theorem Joined.spaced {rest : List Char} (hgap : StartsGap rest) (hts : ∀ t ∈ ts, t.Readable)
    (hjoined : Joined ts) (hlast : ts.getLast?.any Token.isWhitespace = false)
    (h : ∀ q, ∃ us, Spaced q rest us ∧ P us) :
    ∃ ts' us, SameTokens ts' ts ∧ Spaced p (textOf ts ++ rest) (ts' ++ us) ∧ P us := by
  obtain ⟨x, rest, rfl, hx, hrest⟩ := hgap
  induction ts generalizing p with
  | nil =>
      obtain ⟨us, hus, hbehind⟩ := h p
      exact ⟨[], us, rfl, hus, hbehind⟩
  | cons t ts ih =>
      obtain ⟨ht, hts⟩ := List.forall_mem_cons.mp hts
      obtain ⟨hstop, hjoined⟩ := hjoined
      have hlast' : ts.getLast?.any Token.isWhitespace = false := by
        cases ts with
        | nil => rfl
        | cons u ts => rwa [List.getLast?_cons_cons] at hlast
      obtain ⟨ts', us, hsame, hspaced, hbehind⟩ := ih (p := p.afterAll (tokenText false t)) hts hjoined hlast'
      rw [textOf_cons, List.append_assoc]
      cases hblank : t.isWhitespace with
      | false =>
          have hstop' : t.stopsBefore (textOf ts ++ x :: rest) = true := by
            rwa [stopsBefore_append_gap hx _ _ (fun _ => hblank) hrest]
          refine ⟨{ t with position := p } :: ts', us, ?_, .token ht hblank hstop' hspaced, hbehind⟩
          exact congrArg (t.unplaced :: ·) hsame
      | true =>
          have hspace : t = ⟨.whitespace, " ", t.position, .none⟩ := by
            have htype : t.type = .whitespace := eq_of_beq hblank
            cases ht with
            | space => rfl
            | punctuation hc =>
                subst htype
                simp [Output.punctuation] at hc
            | _ => cases htype
          have hhead : (textOf ts ++ x :: rest).head?.any isBlank = false := by
            obtain ⟨c, cs, htext⟩ : ∃ c cs, textOf ts = c :: cs := by
              cases ts with
              | nil => simp [hblank] at hlast
              | cons u ts =>
                  have hne := tokenText_ne_nil (hts u List.mem_cons_self)
                  exact List.exists_cons_of_ne_nil fun h => hne (List.append_eq_nil_iff.mp h).1
            rw [hspace, htext] at hstop
            rw [htext]
            simpa [Token.stopsBefore] using hstop
          have hrun : ∀ c ∈ [' '], isBlank c = true := by simp [isBlank]
          rw [hspace] at hspaced ⊢
          refine ⟨⟨.whitespace, " ", p, .none⟩ :: ts', us, ?_, ?_, hbehind⟩
          · exact congrArg (Token.unplaced ⟨.whitespace, " ", p, .none⟩ :: ·) hsame
          · exact .blanks (List.cons_ne_nil ' ' []) hrun hhead hspaced

end Spaced
end Cascade
