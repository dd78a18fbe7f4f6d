import Cascade.Proofs.Relocation
import Cascade.Proofs.RoundTrip
import Cascade.Proofs.SingleTokens
import Cascade.Output.Rules

/-!
# Headers

The header of an output is one comment, whatever its text is: an end of a comment in the
text is taken apart, and nothing else can close the comment.  Behind it the lexer reads
what it would have read without a header.

**Method.**  The text of the header holds no end of a comment, neither as it is written
(`not_infix_splitCommentEnds`) nor as it is read (`not_infix_normalize`), so that the end
behind it is the first one.  The comment leaves a place and, in the long form, a line end
in front of the rules; the lexer does not look at the place (`Proofs.Relocation`).

**Results.**
* `skipComments_comment`: a comment without an end in its text is skipped as a whole.
* `contentTokens_lineFeed`: a line feed in front of a text changes no other token of it.
* `formatRules_header`: a header changes no token, and is one comment.
-/

namespace Cascade
open Lexer

/-! ## Ends of comments -/

/-- The two characters that end a comment. -/
def commentEnd : List Char :=
  ['*', '/']

theorem commentEnd_infix_cons {c : Char} {s : List Char} (hstar : c = '*' → s.head? ≠ some '/')
    (h : ¬ commentEnd <:+: s) :
    ¬ commentEnd <:+: c :: s := by
  rw [List.infix_cons_iff]
  rintro (hfront | hinside)
  · obtain ⟨hc, t, ht⟩ := List.cons_prefix_cons.mp hfront
    exact hstar hc.symm (by rw [← ht]; rfl)
  · exact h hinside

theorem Output.head?_splitCommentEnds (s : List Char) :
    (splitCommentEnds s).head? = s.head? := by
  unfold splitCommentEnds
  split <;> rfl

/-- No comment ends in the text of a header as it is written. -/
theorem Output.not_infix_splitCommentEnds (s : List Char) :
    ¬ commentEnd <:+: splitCommentEnds s := by
  fun_induction splitCommentEnds s with
  | case1 => simp [commentEnd]
  | case2 rest ih =>
      have hslash : ¬ commentEnd <:+: '/' :: splitCommentEnds rest :=
        commentEnd_infix_cons (fun hc => absurd hc (by decide)) ih
      have hspace : ¬ commentEnd <:+: ' ' :: '/' :: splitCommentEnds rest :=
        commentEnd_infix_cons (fun hc => absurd hc (by decide)) hslash
      exact commentEnd_infix_cons (by simp) hspace
  | case3 c rest hopen ih =>
      refine commentEnd_infix_cons (fun hc hhead => ?_) ih
      rw [head?_splitCommentEnds] at hhead
      obtain ⟨ds, rfl⟩ := List.head?_eq_some_iff.mp hhead
      exact hopen ds hc rfl

/-- Normalizing makes no character of an end of a comment. -/
theorem Lexer.head?_of_normalize_slash {s : List Char} (h : (normalize s).head? = some '/') :
    s.head? = some '/' := by
  cases s with
  | nil => exact h
  | cons c cs =>
      rw [head?_normalize] at h
      split at h
      · simp at h
      · split at h
        · simp at h
        · exact h

/-- No comment ends in a text as it is read if none ends in it as it is written. -/
theorem Lexer.not_infix_normalize {s : List Char} (h : ¬ commentEnd <:+: s) :
    ¬ commentEnd <:+: normalize s := by
  fun_induction normalize s with
  | case1 => exact h
  | case2 rest ih =>
      have hrest : ¬ commentEnd <:+: rest := fun hin =>
        h (hin.trans (List.suffix_append ['\r', '\n'] rest).isInfix)
      exact commentEnd_infix_cons (fun hc => absurd hc (by decide)) (ih hrest)
  | case3 c rest hopen ih =>
      have hrest : ¬ commentEnd <:+: rest := fun hin => h (hin.trans (List.suffix_cons c rest).isInfix)
      refine commentEnd_infix_cons (fun hstar hslash => h ?_) (ih hrest)
      obtain ⟨ds, rfl⟩ := List.head?_eq_some_iff.mp (head?_of_normalize_slash hslash)
      have hc : c = '*' := by
        split at hstar
        · simp at hstar
        · split at hstar
          · simp at hstar
          · exact hstar
      rw [hc]
      exact (List.prefix_append ['*', '/'] ds).isInfix

/-- A text is normalized in parts where the second one does not start with a line feed. -/
theorem Lexer.normalize_append_of_ne {c : Char} (hc : c ≠ '\n') (u v : List Char) :
    normalize (u ++ c :: v) = normalize u ++ normalize (c :: v) := by
  fun_induction normalize u with
  | case1 => rfl
  | case2 rest ih => rw [List.cons_append, List.cons_append, normalize.eq_2, ih, List.cons_append]
  | case3 d rest hopen ih =>
      rw [List.cons_append, normalize.eq_3, ih, List.cons_append]
      intro ds hreturn hrest
      cases rest with
      | nil => exact hc (List.cons.inj hrest).1
      | cons e es =>
          obtain ⟨rfl, -⟩ := List.cons.inj hrest
          exact hopen es hreturn rfl

/-! ## Skipping a comment -/

theorem Lexer.closeComment_of_free {body : List Char} (h : ¬ commentEnd <:+: body)
    (rest : List Char) (p : Position) :
    (closeComment (body ++ '*' :: '/' :: rest) p).chars = rest := by
  induction body generalizing p with
  | nil => rfl
  | cons c body ih =>
      have hbody : ¬ commentEnd <:+: body := fun hin => h (hin.trans (List.suffix_cons c body).isInfix)
      rw [List.cons_append, closeComment]
      · exact ih hbody _
      · intro ds hc hds
        cases body with
        | nil => exact absurd (List.cons.inj hds).1 (by decide)
        | cons d body =>
            obtain ⟨rfl, -⟩ := List.cons.inj hds
            rw [hc] at h
            exact h (List.prefix_append ['*', '/'] body).isInfix

/-- A comment without an end in its text is skipped as a whole. -/
theorem Lexer.skipComments_comment {body : List Char} (h : ¬ commentEnd <:+: body)
    (rest : List Char) (p : Position) :
    (skipComments ⟨'/' :: '*' :: (body ++ '*' :: '/' :: rest), p⟩).chars =
      (skipComments ⟨rest, p⟩).chars := by
  rw [skipComments]
  exact skipComments_alike (closeComment_of_free h rest _)

theorem Lexer.tokensFrom_skipComments {i : Input} {n : Nat} (hn : i.chars.length ≤ n) :
    (tokensFrom n i).map Token.unplaced = (tokensFrom n (skipComments i)).map Token.unplaced := by
  cases n with
  | zero =>
      have hle := length_skipComments_le i
      rw [tokensFrom_of_nil 0 (List.length_eq_zero_iff.mp (by omega)),
        tokensFrom_of_nil 0 (List.length_eq_zero_iff.mp (by omega))]
  | succ n =>
      obtain ⟨-, -, -, hstop⟩ := skipComments_behind i
      rw [tokensFrom, tokensFrom, skipComments_of_not_startsComment hstop]

/-- Inputs with the same text behind their comments have the same tokens. -/
theorem Lexer.tokensFrom_of_skipComments {i j : Input} {n m : Nat}
    (h : (skipComments i).chars = (skipComments j).chars) (hn : i.chars.length ≤ n)
    (hm : j.chars.length ≤ m) :
    (tokensFrom n i).map Token.unplaced = (tokensFrom m j).map Token.unplaced := by
  have hi := length_skipComments_le i
  have hj := length_skipComments_le j
  rw [tokensFrom_skipComments hn, tokensFrom_skipComments hm]
  exact tokensFrom_alike h (by omega) (by rw [h]; omega)

/-! ## Tokens behind leading whitespace -/

/-- The tokens of a text without their places and without the whitespace in front of them. -/
def contentTokens (text : String) : List Token :=
  ((tokenize text).map Token.unplaced).dropWhile Token.isWhitespace

namespace Lexer

/-- The same of a text that has been normalized. -/
def contentOf (cs : List Char) : List Token :=
  ((tokens cs).map Token.unplaced).dropWhile Token.isWhitespace

theorem contentTokens_eq (cs : List Char) :
    contentTokens (String.ofList cs) = contentOf (normalize cs) := by
  rw [contentTokens, tokenize, String.toList_ofList]
  rfl

/-- A comment in front of a text is no token. -/
theorem contentOf_comment {body : List Char} (h : ¬ commentEnd <:+: body) (rest : List Char) :
    contentOf ('/' :: '*' :: (body ++ '*' :: '/' :: rest)) = contentOf rest := by
  have hskip := skipComments_comment h rest Position.start
  have htokens : (tokens ('/' :: '*' :: (body ++ '*' :: '/' :: rest))).map Token.unplaced =
      (tokens rest).map Token.unplaced :=
    tokensFrom_of_skipComments hskip (Nat.le_refl _) (Nat.le_refl _)
  rw [contentOf, htokens, contentOf]

/-- Blanks in front of a text are whitespace. -/
theorem contentOf_dropWhile (cs : List Char) :
    contentOf cs = contentOf (cs.dropWhile isBlank) := by
  obtain ⟨run, hrun⟩ : ∃ run, cs.takeWhile isBlank = run := ⟨_, rfl⟩
  have hcs : cs = run ++ cs.dropWhile isBlank := by rw [← hrun, List.takeWhile_append_dropWhile]
  by_cases hempty : run = []
  · rw [hempty, List.nil_append] at hcs
    rw [← hcs]
  · have hblanks : ∀ c ∈ run, isBlank c = true := by
      rw [← hrun]
      exact List.all_eq_true.mp List.all_takeWhile
    have hlexes := Output.lexes_blanks hempty hblanks (head?_dropWhile_any isBlank cs) Position.start
    have hpos := List.length_pos_iff.mpr hempty
    have hlength := congrArg List.length hcs
    rw [List.length_append] at hlength
    obtain ⟨n, hn⟩ : ∃ n, cs.length = n + 1 := ⟨cs.length - 1, by omega⟩
    have hread := hlexes.tokensFrom n Position.start
    rw [← hcs, ← hn] at hread
    have hrest : (tokensFrom n ⟨cs.dropWhile isBlank, Position.start.afterAll run⟩).map Token.unplaced =
        (tokens (cs.dropWhile isBlank)).map Token.unplaced :=
      tokensFrom_alike rfl (by dsimp only; omega) (Nat.le_refl _)
    have htokens : (tokens cs).map Token.unplaced =
        ⟨.whitespace, String.ofList run, Position.none, .none⟩ ::
          (tokens (cs.dropWhile isBlank)).map Token.unplaced := by
      rw [← hrest]
      exact congrArg (List.map Token.unplaced) hread
    rw [contentOf, htokens, contentOf]
    exact List.dropWhile_cons_of_pos rfl

theorem contentOf_lineFeed (cs : List Char) :
    contentOf ('\n' :: cs) = contentOf cs := by
  rw [contentOf_dropWhile, contentOf_dropWhile cs, List.dropWhile_cons_of_pos (by decide)]

end Lexer

/-! ## Outputs with and without a header -/

namespace Output

variable (style : Style) (header : String)

theorem declarationsText_header (level : Nat) (last : Bool) (ds : List Declaration) :
    declarationsText { style with header := header } level last ds =
      declarationsText style level last ds := by
  induction ds with
  | nil => rfl
  | cons d ds ih =>
      rw [declarationsText, declarationsText, ih]
      rfl

mutual

theorem flatText_header (level : Nat) :
    ∀ flat, flatText { style with header := header } level flat = flatText style level flat
  | .rule head decls => by
      rw [flatText, flatText, declarationsText_header]
      rfl
  | .statement head => by
      rw [flatText, flatText]
      rfl
  | .group head body => by
      rw [flatText, flatText, flatsText_header]
      rfl
  | .declarations decls last => by rw [flatText, flatText, declarationsText_header]

theorem flatsText_header (level : Nat) :
    ∀ flats, flatsText { style with header := header } level flats = flatsText style level flats
  | [] => rfl
  | flat :: rest => by rw [flatsText, flatsText, flatText_header, flatsText_header]

end

/-- The rules are written behind the header as they are without one. -/
theorem sheetText_header (flats : List Flat) :
    sheetText style flats = headerText style ++ sheetText { style with header := "" } flats := by
  have htexts : flats.map (flatText { style with header := "" } 0) = flats.map (flatText style 0) :=
    List.map_congr_left fun flat _ => flatText_header style "" 0 flat
  rw [sheetText, sheetText, htexts]
  rfl

/-- The text of the comment that a header is. -/
def headerBody (header : String) : List Char :=
  ' ' :: splitCommentEnds header.toList ++ [' ']

theorem not_infix_headerBody (header : String) :
    ¬ commentEnd <:+: headerBody header := by
  have hspace : ¬ commentEnd <:+: splitCommentEnds header.toList ++ [' '] := by
    rw [List.infix_concat_iff, List.suffix_concat_iff]
    rintro ((hnil | ⟨front, hfront, -⟩) | hinside)
    · cases hnil
    · have hlast := congrArg List.getLast? hfront
      rw [List.getLast?_concat] at hlast
      exact absurd hlast (by decide)
    · exact not_infix_splitCommentEnds _ hinside
  exact commentEnd_infix_cons (fun hc => absurd hc (by decide)) hspace

/-- Unless it is empty, a header is a comment, with a line end behind it in the long form. -/
theorem headerText_eq (h : style.header ≠ "") :
    headerText style = '/' :: '*' :: (headerBody style.header ++ '*' :: '/' :: lineEnd style) := by
  rw [headerText, if_neg h, headerBody]
  simp

/-- The header of a text and the line end behind it are no tokens but whitespace. -/
theorem contentTokens_header (text : List Char) :
    contentTokens (String.ofList (headerText style ++ text)) =
      contentTokens (String.ofList text) := by
  by_cases hheader : style.header = ""
  · rw [headerText, if_pos hheader, List.nil_append]
  · have hline : contentOf (normalize (lineEnd style ++ text)) = contentOf (normalize text) := by
      cases hminify : style.minify with
      | true => simp [lineEnd, hminify]
      | false =>
          rw [lineEnd, hminify, if_neg Bool.false_ne_true, List.singleton_append,
            normalize_cons (by decide), contentOf_lineFeed]
    have hnormal : normalize (headerText style ++ text) =
        '/' :: '*' :: (normalize (headerBody style.header) ++
          '*' :: '/' :: normalize (lineEnd style ++ text)) := by
      rw [headerText_eq style hheader, List.cons_append, List.cons_append, List.append_assoc,
        List.cons_append, List.cons_append, normalize_cons (by decide), normalize_cons (by decide),
        normalize_append_of_ne (by decide), normalize_cons (by decide), normalize_cons (by decide)]
    rw [contentTokens_eq, contentTokens_eq, hnormal,
      contentOf_comment (not_infix_normalize (not_infix_headerBody style.header)), hline]

end Output

open Output

/-- Whatever the header is, rules can be written with it exactly if they can without it, and then
their text stands behind the header and has the same tokens, but for places and the whitespace in
front.  The header is a comment that nothing in it closes. -/
theorem formatRules_header (style : Style) (rules : List Entry) :
    (formatRules style rules).map contentTokens =
        (formatRules { style with header := "" } rules).map contentTokens ∧
      (formatRules style rules).map String.toList =
        (formatRules { style with header := "" } rules).map (headerText style ++ ·.toList) ∧
      (style.header = "" ∨ ∃ body,
        headerText style = '/' :: '*' :: (body ++ '*' :: '/' :: lineEnd style) ∧
          ¬ commentEnd <:+: normalize body) := by
  refine ⟨?_, ?_, ?_⟩
  · unfold formatRules
    cases rules.mapM (flatten style.minify []) with
    | error entry => rfl
    | ok flats =>
        refine congrArg Except.ok ?_
        dsimp only
        rw [sheetText_header, contentTokens_header]
  · unfold formatRules
    cases rules.mapM (flatten style.minify []) with
    | error entry => rfl
    | ok flats =>
        refine congrArg Except.ok ?_
        dsimp only
        rw [String.toList_ofList, String.toList_ofList, sheetText_header]
  · refine or_iff_not_imp_left.mpr fun hheader => ⟨_, headerText_eq style hheader, ?_⟩
    exact not_infix_normalize (not_infix_headerBody style.header)

end Cascade
