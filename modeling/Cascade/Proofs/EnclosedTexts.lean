import Cascade.Proofs.WrittenArguments

/-!
# Texts between parentheses

The tokens between a function and its parenthesis, where the text between the two has no
comments and no backslashes, are spelled by this text: what stands behind the parenthesis
makes no difference to them.  So they can be written in both forms.

**Method.**  Only a string or an address could take the parenthesis, and then the lexer
would not find it where it stands.  So the induction over the tokens is that over the
tokens of a whole source, with the parenthesis in place of the end.

**Results.**
* `EnclosedRun.lexed`: the tokens up to a parenthesis are spelled by the text.
* `EnclosedRun.writes`: they can be written as the argument of the function before them.
-/

namespace Cascade
open Lexer Output

/-! ## The first token of an enclosed text -/

theorem StartsWritten.within {cs : List Char} (h : StartsWritten cs) (hclean : Clean cs) :
    StartsWithin cs := by
  obtain ⟨t, rest, rfl, ht, hvisible, hstop⟩ := h
  refine ⟨_, t, rest, rfl, fun tail htail => ?_⟩
  have hclosed : t.stopsBefore (rest ++ tail) = true := by
    rcases htail with rfl | ⟨more, rfl⟩
    · rwa [List.append_nil]
    · rwa [stopsBefore_paren]
  exact spells_tokenText ht hvisible hclosed hclean.append_left.noBackslash

/-- Before a parenthesis, a text that starts with no blank and no comment starts with a token that
ends inside of it, or with a bad one, or with one that takes the parenthesis. -/
theorem startsWithin_cases {c : Char} {cs : List Char} (hclean : Clean (c :: cs))
    (hcomment : startsComment (c :: cs) = false) (hblank : isBlank c = false) :
    StartsWithin (c :: cs) ∨ StartsBadly (c :: cs) ∨ Overruns (c :: cs) := by
  rcases startsClean_cases hclean hcomment hblank with hwritten | ⟨q, ds, hcs⟩ | ⟨s, behind, hcs, h⟩
  · exact .inl (hwritten.within hclean)
  · rw [hcs] at hclean ⊢
    exact startsWithin_string q hclean
  · rw [hcs]
    exact h.startsWithin

theorem startsComment_paren (cs more : List Char) :
    startsComment (cs ++ ')' :: more) = startsComment cs := by
  match cs with
  | [] => rfl
  | [c] => by_cases hc : c = '/' <;> simp [startsComment, hc]
  | c :: d :: cs =>
      rw [List.cons_append, List.cons_append]
      unfold startsComment
      grind

/-! ## Places -/

section Places

variable {before u v : List Char}

/-- Places tell the texts in front of them apart by their bytes. -/
theorem behind_ne (hu : u ≠ []) :
    Position.behind (before ++ u) ≠ Position.behind before := by
  intro hplace
  have hoffset := congrArg Position.offset hplace
  have hpos := utf8ByteSize_pos hu
  simp only [Position.behind, String.ofList_append, String.utf8ByteSize_append] at hoffset
  omega

/-- What takes a parenthesis behind a text ends behind its place. -/
theorem offset_lt_of_overrun {rest more : List Char} (h : u ++ rest = v ++ ')' :: more)
    (hrest : rest.length ≤ more.length) :
    (Position.behind (before ++ v)).offset < (Position.behind (before ++ u)).offset := by
  obtain ⟨w, rfl⟩ : v ++ [')'] <+: u := by
    refine List.prefix_of_prefix_length_le ⟨more, ?_⟩ (List.prefix_append u rest) ?_
    · rw [h, List.append_assoc]
      rfl
    · have hlength := congrArg List.length h
      simp only [List.length_append, List.length_cons, List.length_nil] at hlength ⊢
      omega
  have hparen : 0 < (String.ofList [')']).utf8ByteSize := utf8ByteSize_pos (List.cons_ne_nil _ _)
  simp only [Position.behind, String.ofList_append, String.utf8ByteSize_append]
  omega

end Places

/-! ## The tokens of an enclosed text -/

/-- Where no comment stands in front of it, the first token is read at once. -/
theorem tokensFrom_cons {c : Char} {cs : List Char} (hcomment : startsComment (c :: cs) = false)
    (n : Nat) (p : Position) :
    tokensFrom (n + 1) ⟨c :: cs, p⟩ =
      (token ⟨c :: cs, p⟩ c).1 :: tokensFrom n (token ⟨c :: cs, p⟩ c).2 := by
  rw [tokensFrom, skipComments_of_not_startsComment hcomment]

/-- The run of the lexer over a clean text, up to the parenthesis behind it: there are no comments
between the tokens, and none of them is a bad one. -/
structure EnclosedRun (n : Nat) (before v more : List Char) (argument : List Token) (closer : Token)
    (behind : List Token) : Prop where
  enough : (v ++ ')' :: more).length ≤ n
  tokens : tokensFrom n ⟨v ++ ')' :: more, Position.behind before⟩ = argument ++ closer :: behind
  place : closer.position = Position.behind (before ++ v)
  comments : commentFreeFrom (argument.length + 1) ⟨v ++ ')' :: more, Position.behind before⟩ = true
  sound : ∀ t ∈ argument, t.isBad = false
  clean : Clean v

namespace EnclosedRun

variable {n : Nat} {before v raw rest more : List Char} {c : Char} {cs : List Char} {a t : Token}
variable {argument behind : List Token} {closer : Token}

theorem exists_bound (h : EnclosedRun n before v more argument closer behind) :
    ∃ m, n = m + 1 ∧ v.length + more.length ≤ m := by
  have hn := h.enough
  rw [List.length_append, List.length_cons] at hn
  exact ⟨n - 1, by omega, by omega⟩

theorem startsComment_eq (h : EnclosedRun n before (c :: cs) more argument closer behind) :
    startsComment (c :: (cs ++ ')' :: more)) = false := by
  have hcomment := h.comments
  simp only [List.cons_append, commentFreeFrom, Bool.and_eq_true, Bool.not_eq_true'] at hcomment
  exact hcomment.1

/-- The first token of the run is that at the start of the text. -/
theorem first (h : EnclosedRun n before (c :: cs) more argument closer behind) :
    ∃ m, cs.length + 1 + more.length ≤ m ∧
      (token ⟨c :: (cs ++ ')' :: more), Position.behind before⟩ c).1 ::
        tokensFrom m (token ⟨c :: (cs ++ ')' :: more), Position.behind before⟩ c).2 =
          argument ++ closer :: behind := by
  obtain ⟨m, rfl, hm⟩ := h.exists_bound
  refine ⟨m, hm, ?_⟩
  rw [← h.tokens, List.cons_append, tokensFrom_cons h.startsComment_eq]

/-- The parenthesis is not reached before the text is used up. -/
theorem eq_nil (h : EnclosedRun n before v more [] closer behind) :
    v = [] := by
  cases v with
  | nil => rfl
  | cons c cs =>
      obtain ⟨m, -, htokens⟩ := h.first
      obtain ⟨-, -, -, hplace⟩ :=
        token_takes (i := ⟨c :: (cs ++ ')' :: more), Position.behind before⟩) rfl
      rw [(List.cons.inj htokens).1, h.place] at hplace
      exact absurd hplace (behind_ne (List.cons_ne_nil c cs))

/-- It is not passed over when the text is used up. -/
theorem ne_nil (h : EnclosedRun n before v more (a :: argument) closer behind) :
    v ≠ [] := by
  rintro rfl
  have hcovers := covers_tokensFrom (i := ⟨[] ++ ')' :: more, Position.behind before⟩) h.enough rfl
  rw [h.tokens] at hcovers
  have hgrow := (List.pairwise_cons.mp hcovers.pairwise_offset).1 closer (by simp)
  have hfirst := hcovers.offset_le a (by simp)
  rw [h.place, List.append_nil] at hgrow
  exact absurd hgrow (Nat.not_lt.mpr hfirst)

/-- Behind its first token the run goes on with the rest of the text. -/
theorem tail (h : EnclosedRun n before (raw ++ rest) more (a :: argument) closer behind)
    (hlexes : Lexes raw t (rest ++ ')' :: more)) (hraw : raw ≠ []) :
    a.unplaced = t.unplaced ∧
      ∃ m, EnclosedRun m (before ++ raw) rest more argument closer behind := by
  obtain ⟨m, rfl, hm⟩ := h.exists_bound
  have htokens := h.tokens
  have hcomments := h.comments
  rw [List.append_assoc] at htokens hcomments
  rw [hlexes.tokensFrom, Position.behind_afterAll] at htokens
  obtain ⟨ha, htokens⟩ := List.cons.inj htokens
  have hsame := congrArg Token.unplaced ha
  have hbehind := commentFreeFrom_of_reads hlexes hcomments
  rw [Position.behind_afterAll] at hbehind
  refine ⟨hsame.symm, m, ?_, htokens, ?_, hbehind,
    fun u hu => h.sound u (List.mem_cons_of_mem a hu), h.clean.append_right⟩
  · have hpos := List.length_pos_iff.mpr hraw
    simp only [List.length_append, List.length_cons] at hm ⊢
    omega
  · rw [h.place, List.append_assoc]

/-- The first token is no bad one. -/
theorem not_startsBadly (h : EnclosedRun n before (c :: cs) more (a :: argument) closer behind) :
    ¬ StartsBadly (c :: cs) := by
  intro hbadly
  obtain ⟨d, tail, hcs, hbad⟩ := hbadly _ (.inr ⟨more, rfl⟩)
  rw [List.cons_append] at hcs
  obtain ⟨rfl, rfl⟩ := List.cons.inj hcs
  obtain ⟨m, -, htokens⟩ := h.first
  have hsound := h.sound a List.mem_cons_self
  rw [← (List.cons.inj htokens).1, hbad] at hsound
  cases hsound

/-- The first token does not take the parenthesis, which is found behind it. -/
theorem not_overruns (h : EnclosedRun n before (c :: cs) more (a :: argument) closer behind) :
    ¬ Overruns (c :: cs) := by
  rintro ⟨-, d, ds, hcs, hover⟩
  obtain ⟨rfl, rfl⟩ := List.cons.inj hcs
  obtain ⟨m, hm, htokens⟩ := h.first
  obtain ⟨u, hu, -, -⟩ := token_takes (i := ⟨c :: (cs ++ ')' :: more), Position.behind before⟩) rfl
  have hrest := hover more (Position.behind before)
  rw [List.cons_append] at hrest
  generalize token ⟨c :: (cs ++ ')' :: more), Position.behind before⟩ c = r at htokens hu hrest
  have hplace : r.2.position = Position.behind (before ++ u) := by
    rw [hu.position, Position.behind_afterAll]
  have hcovers := covers_tokensFrom (hrest.trans (Nat.le_of_add_left_le hm)) hplace
  rw [(List.cons.inj htokens).2] at hcovers
  have hle := hcovers.offset_le closer (by simp)
  have hsplit : u ++ r.2.chars = c :: cs ++ ')' :: more := hu.chars.symm
  have hlt : (Position.behind (before ++ (c :: cs))).offset < (Position.behind (before ++ u)).offset :=
    offset_lt_of_overrun hsplit hrest
  rw [h.place] at hle
  exact absurd hlt (Nat.not_lt.mpr hle)

/-- The tokens up to the parenthesis are spelled by the text, which only a parenthesis is behind. -/
theorem lexed (h : EnclosedRun n before v more argument closer behind) :
    ∃ ts, Lexed (v ++ [')']) (ts ++ [closeParenToken]) ∧ SameTokens ts argument := by
  have hshut : Shut [')'] := .inr ⟨[], rfl⟩
  induction argument generalizing n before v with
  | nil =>
      obtain rfl := h.eq_nil
      have hparen : Spells [')'] closeParenToken [] :=
        spells_tokenText readable_closeParenToken (by decide) rfl
          (List.forall_mem_singleton.mpr (by decide))
      have hlexed : Lexed ([')'] ++ []) [closeParenToken] := .token hparen .nil
      exact ⟨[], hlexed, rfl⟩
  | cons a argument ih =>
      obtain ⟨c, cs, rfl⟩ := List.exists_cons_of_ne_nil h.ne_nil
      cases hblank : isBlank c with
      | true =>
          have hsplit := List.takeWhile_append_dropWhile (p := isBlank) (l := c :: cs)
          have hrun : ∀ d ∈ (c :: cs).takeWhile isBlank, isBlank d = true :=
            fun _ => List.mem_takeWhile_imp
          have hne : (c :: cs).takeWhile isBlank ≠ [] := by simp [hblank]
          have hrest := head?_dropWhile_any isBlank (c :: cs)
          generalize (c :: cs).takeWhile isBlank = run at hsplit hrun hne
          generalize (c :: cs).dropWhile isBlank = rest at hsplit hrest
          rw [← hsplit] at h ⊢
          have hbehind : (rest ++ ')' :: more).head?.any isBlank = false :=
            (Shut.head?_any (.inr ⟨more, rfl⟩) (by decide) rest).trans hrest
          obtain ⟨ha, m, htail⟩ := h.tail (lexes_blanks hne hrun hbehind Position.none) hne
          obtain ⟨ts, hlexed, hsame⟩ := ih htail
          have hclosed := (hshut.head?_any (by decide) rest).trans hrest
          rw [List.append_assoc]
          exact ⟨_ :: ts, .blanks hne hrun hclosed hlexed, List.cons_eq_cons.mpr ⟨ha.symm, hsame⟩⟩
      | false =>
          have hcomment := (startsComment_paren (c :: cs) more).symm.trans h.startsComment_eq
          obtain ⟨raw, t, rest, hcs, hspells⟩ :=
            (startsWithin_cases h.clean hcomment hblank).resolve_right
              (not_or.mpr ⟨h.not_startsBadly, h.not_overruns⟩)
          rw [hcs] at h ⊢
          have hhere := hspells _ (.inr ⟨more, rfl⟩)
          obtain ⟨ha, m, htail⟩ := h.tail hhere.lexes hhere.ne_nil
          obtain ⟨ts, hlexed, hsame⟩ := ih htail
          rw [List.append_assoc]
          exact ⟨t :: ts, .token (hspells _ hshut) hlexed, List.cons_eq_cons.mpr ⟨ha.symm, hsame⟩⟩

end EnclosedRun

/-! ## The function in front of the text -/

theorem numeric_type_ne_function (i : Input) :
    (numeric i).1.type ≠ .function := by
  unfold numeric
  dsimp only
  split
  · exact nofun
  · split <;> exact nofun

/-- A function starts with a character of its name, or with an escape. -/
theorem Lexer.Lexeme.head_of_function {rest u : List Char} {t : Token} (h : Lexeme rest u t)
    (ht : t.type = .function) :
    ∃ c cs, u = c :: cs ∧ (isNameChar c = true ∨ c = '\\') := by
  cases h with
  | function hname _ _ =>
      obtain ⟨hspells, hne, -⟩ := hname
      cases hspells with
      | nil => exact absurd rfl hne
      | char hc _ => exact ⟨_, _, rfl, .inl hc⟩
      | escape _ _ => exact ⟨_, _, rfl, .inr rfl⟩
  | address => split at ht <;> cases ht
  | string => split at ht <;> cases ht
  | @punctuation c type p hmem =>
      have hall : ∀ e ∈ Output.punctuation, e.2 ≠ .function := by decide
      exact absurd ht (hall _ hmem)
  | _ => cases ht

/-- A function is read as an identifier is. -/
theorem token_of_function {i : Input} {c : Char} {cs : List Char} (hchars : i.chars = c :: cs)
    (h : (token i c).1.type = .function) :
    token i c = identLike i := by
  by_cases hhyphen : c = '-'
  · subst hhyphen
    rw [token_hyphen] at h ⊢
    split at h
    · exact absurd h (numeric_type_ne_function i)
    · next hnumber =>
        split at h
        · cases h
        · next hcdc =>
            split at h
            · next hname => rw [if_neg hnumber, if_neg hcdc, if_pos hname]
            · cases h
  · have hmarked : isMarked c = false := by
      obtain ⟨u, hu, hlexeme, -⟩ := token_takes hchars
      obtain ⟨d, ds, rfl, hd⟩ := hlexeme.head_of_function h
      obtain rfl : c = d := (List.cons.inj (hchars.symm.trans hu.chars)).1
      rcases hd with hd | rfl
      · rcases isNameChar_iff.mp hd with hstart | hdigit | hcode
        · exact (isMarked_of_isNameStart hstart).1
        · exact (isMarked_of_isDigit hdigit).1
        · exact absurd (Char.toNat_inj.mp hcode) hhyphen
      · decide
    rw [token_unmarked i hmarked] at h ⊢
    split at h
    · exact absurd h (numeric_type_ne_function i)
    · next hnumber =>
        split at h
        · next hname => rw [if_neg hnumber, if_pos hname]
        · cases h

/-- A function ends before what is left of the text. -/
theorem function_stopsBefore {i : Input} {c : Char} {cs : List Char} (hchars : i.chars = c :: cs)
    (h : (token i c).1.type = .function) :
    (token i c).1.stopsBefore (token i c).2.chars = true := by
  have htoken := token_of_function hchars h
  rw [htoken] at h ⊢
  unfold identLike at h ⊢
  dsimp only at h ⊢
  split at h
  · next hparen =>
      rw [if_pos hparen]
      generalize (name i).1 = s at h ⊢
      generalize (name i).2.advance = behind at h ⊢
      unfold urlOrFunction at h ⊢
      split at h
      · next hurl =>
          dsimp only at h
          rw [if_pos hurl]
          dsimp only
          split at h
          · next hquote =>
              rw [if_pos hquote]
              have hrun : ∀ c ∈ behind.chars.takeWhile isBlank, isBlank c = true :=
                fun _ => List.mem_takeWhile_imp
              have hopens := opensQuote_drop hrun hquote
              rw [Input.span, List.takeWhile_append_dropWhile] at hopens
              simp [Token.stopsBefore, tokenAt, Input.drop, hopens]
          · generalize urlFrom [] _ = url at h
            obtain ⟨address, ends, rest⟩ := url
            cases ends <;> cases h
      · next hurl =>
          rw [if_neg hurl]
          simp [Token.stopsBefore, tokenAt, hurl]
  · cases h

section Argument

variable {n : Nat} {before v more : List Char} {name closer : Token} {argument behind : List Token}

/-- The tokens of the text can be written as the argument of a function that ends before it; in the
short form its numbers have to be apart. -/
theorem EnclosedRun.writes (h : EnclosedRun n before v more argument closer behind)
    (hname : name.type = .function) (hread : name.Readable)
    (hstop : name.stopsBefore (v ++ ')' :: more) = true) (minify : Bool)
    (hapart : minify = true →
      numbersApart (shortTokens (name :: (argument ++ [closeParenToken]))) = true) :
    Writes minify name argument := by
  obtain ⟨ts, hlexed, hsame⟩ := h.lexed
  have hclosed : name.stopsBefore (v ++ [')']) = true := by
    rw [stopsBefore_paren] at hstop ⊢
    exact hstop
  have hwrites : Writes minify name ts := by
    cases minify with
    | false => exact hlexed.writes_pretty hname hclosed
    | true =>
        have hcall : SameTokens (name :: (ts ++ [closeParenToken]))
            (name :: (argument ++ [closeParenToken])) := by
          rw [SameTokens, List.map_cons, List.map_append, hsame, ← List.map_append, ← List.map_cons]
        have hnumbers := hapart rfl
        rw [← (shortTokens_congr hcall).1] at hnumbers
        exact hlexed.writes_short hname hread hclosed hnumbers
  exact hwrites.of_sameTokens hsame.symm

end Argument

end Cascade
