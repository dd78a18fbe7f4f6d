import Cascade.Proofs.LexicalGrammar

/-!
# The tokens cover the source

Between them, the tokens of a source account for all of its text: each token has
a lexeme, the lexemes follow each other in the text, and what stands between two
of them is a sequence of comments.  The place of a token is a count over the text
before it.

**Method.**  `Position.behind before` counts the lines, the columns and the bytes
of a text apart from the lexer, which moves a place along one character at a time;
`behind_afterAll` says that the two agree.  `Covers before rest tokens` is the
account of a whole text, and `covers_tokensFrom` is the induction over the tokens.

**Results.**
* `covers_tokenize`: the tokens of a source cover its text.
* `tokenize_covers_source`: one end token, offsets that grow, exact places, and
  nothing but comments between the lexemes.
-/

namespace Cascade

/-! ## Counting over the text before a place -/

/-- The place behind a text: its lines, the characters since its last line feed and its bytes. -/
def Position.behind (before : List Char) : Position :=
  ⟨1 + before.count '\n', 1 + (before.reverse.takeWhile (· != '\n')).length,
    (String.ofList before).utf8ByteSize⟩

theorem Position.behind_nil :
    Position.behind [] = Position.start := by
  rfl

theorem utf8ByteSize_pos {u : List Char} (h : u ≠ []) :
    0 < (String.ofList u).utf8ByteSize := by
  refine Nat.pos_of_ne_zero fun hzero => h ?_
  simpa using String.utf8ByteSize_eq_zero_iff.mp hzero

/-- One character further, the count is the place that the lexer moves on to. -/
theorem Position.behind_after (before : List Char) (c : Char) :
    (Position.behind before).after c = Position.behind (before ++ [c]) := by
  unfold Position.after Position.behind
  by_cases hc : c = '\n'
  · subst hc
    have hsize : '\n'.utf8Size = "\n".utf8ByteSize := rfl
    simp [hsize, Nat.add_assoc]
  · simp [hc, Nat.add_comm]

theorem Position.behind_afterAll (before u : List Char) :
    (Position.behind before).afterAll u = Position.behind (before ++ u) := by
  induction u generalizing before with
  | nil => rw [List.append_nil, Position.afterAll_nil]
  | cons c cs ih =>
      rw [Position.afterAll_cons, Position.behind_after, ih, List.append_assoc, List.singleton_append]

/-! ## The text that is read -/

/-- The second text is the first with its line ends and null characters normalized: a carriage
return with the line feed behind it, a carriage return alone and a form feed are line feeds, and a
null character is the replacement character. -/
inductive Normalizes : List Char → List Char → Prop
  | nil : Normalizes [] []
  | returnAndFeed {u v : List Char} :
      Normalizes u v → Normalizes ('\r' :: '\n' :: u) ('\n' :: v)
  | carriageReturn {u v : List Char} :
      u.head? ≠ some '\n' → Normalizes u v → Normalizes ('\r' :: u) ('\n' :: v)
  | formFeed {u v : List Char} : Normalizes u v → Normalizes ('\x0c' :: u) ('\n' :: v)
  | null {u v : List Char} : Normalizes u v → Normalizes ('\x00' :: u) ('\ufffd' :: v)
  | char {c : Char} {u v : List Char} :
      c ≠ '\r' → c ≠ '\x0c' → c ≠ '\x00' → Normalizes u v → Normalizes (c :: u) (c :: v)

theorem normalizes_normalize (cs : List Char) :
    Normalizes cs (normalize cs) := by
  fun_induction normalize cs with
  | case1 => exact .nil
  | case2 rest ih => exact .returnAndFeed ih
  | case3 c rest hopen ih =>
      by_cases hreturn : c = '\r'
      · subst hreturn
        refine .carriageReturn (fun hhead => ?_) ih
        obtain ⟨ds, rfl⟩ := List.head?_eq_some_iff.mp hhead
        exact hopen ds rfl rfl
      · by_cases hfeed : c = '\x0c'
        · subst hfeed
          exact .formFeed ih
        · by_cases hnull : c = '\x00'
          · subst hnull
            exact .null ih
          · simp only [hreturn, hfeed, hnull, or_false, if_false]
            exact .char hreturn hfeed hnull ih

namespace Lexer

/-! ## The account of a text -/

/-- The tokens cover the text `rest` behind the text `before`.  Before each token stands a sequence
of comments, each token but the last takes its lexeme, and the last marks the end of the text. -/
inductive Covers : List Char → List Char → List Token → Prop
  | eof {before gap : List Char} :
      Comments [] gap → Covers before gap [⟨.eof, "", Position.behind (before ++ gap), .none⟩]
  | token {before gap u rest : List Char} {t : Token} {ts : List Token} :
      Comments (u ++ rest) gap → t.position = Position.behind (before ++ gap) →
      Lexeme rest u t → Covers (before ++ gap ++ u) rest ts →
      Covers before (gap ++ (u ++ rest)) (t :: ts)

/-- Whatever the bound on their number, if it suffices, the tokens of an input cover it. -/
theorem covers_tokensFrom {n : Nat} {before : List Char} {i : Input} (hn : i.chars.length ≤ n)
    (hposition : i.position = Position.behind before) :
    Covers before i.chars (tokensFrom n i) := by
  induction n generalizing before i with
  | zero =>
      have hchars : i.chars = [] := List.length_eq_zero_iff.mp (Nat.le_zero.mp hn)
      have hcovers : Covers before [] [⟨.eof, "", Position.behind (before ++ []), .none⟩] :=
        .eof .nil
      rw [List.append_nil, ← hposition] at hcovers
      rw [hchars]
      exact hcovers
  | succ n ih =>
      obtain ⟨gap, hbehind, hcomments, -⟩ := skipComments_behind i
      have hgap : (skipComments i).position = Position.behind (before ++ gap) := by
        rw [hbehind.position, hposition, Position.behind_afterAll]
      rw [tokensFrom, hbehind.chars]
      dsimp only
      split
      · next hend =>
          rw [hend] at hcomments ⊢
          rw [List.append_nil]
          rw [tokenAt, hgap]
          exact .eof hcomments
      · next c cs hchars =>
          obtain ⟨u, hu, hlexeme, htoken⟩ := token_takes hchars
          rw [hu.chars] at hcomments ⊢
          refine .token hcomments (htoken.trans hgap) hlexeme (ih ?_ ?_)
          · have hlength := congrArg List.length (hbehind.chars.trans (congrArg (gap ++ ·) hu.chars))
            have hu := List.length_pos_iff.mpr hlexeme.ne_nil
            simp only [List.length_append] at hlength
            omega
          · rw [hu.position, hgap, Position.behind_afterAll]

/-- The tokens of a source cover its text. -/
theorem covers_tokenize (source : String) :
    Covers [] (normalize source.toList) (tokenize source) :=
  covers_tokensFrom (i := Input.ofChars (normalize source.toList)) (Nat.le_refl _)
    Position.behind_nil.symm

namespace Covers

variable {before rest : List Char} {tokens : List Token}

/-- No token of the account stands before its text. -/
theorem offset_le (h : Covers before rest tokens) :
    ∀ t ∈ tokens, (String.ofList before).utf8ByteSize ≤ t.position.offset := by
  induction h with
  | eof hcomments =>
      simp [Position.behind]
  | @token before gap u rest t ts hcomments hposition hlexeme _ ih =>
      simp only [String.ofList_append, String.utf8ByteSize_append] at ih
      refine List.forall_mem_cons.mpr ⟨?_, fun s hs => ?_⟩
      · rw [hposition]
        simp [Position.behind]
      · have hs := ih s hs
        omega

/-- The offsets of the tokens grow. -/
theorem pairwise_offset (h : Covers before rest tokens) :
    tokens.Pairwise fun s t => s.position.offset < t.position.offset := by
  induction h with
  | eof => exact List.pairwise_singleton _ _
  | @token before gap u rest t ts hcomments hposition hlexeme hrest ih =>
      refine .cons (fun s hs => ?_) ih
      have hs := hrest.offset_le s hs
      have hu := utf8ByteSize_pos hlexeme.ne_nil
      rw [String.ofList_append, String.utf8ByteSize_append] at hs
      rw [hposition]
      exact Nat.lt_of_lt_of_le (Nat.lt_add_of_pos_right hu) hs

/-- The account is closed by one end token, behind all of the text. -/
theorem exists_last (h : Covers before rest tokens) :
    ∃ ts last, tokens = ts ++ [last] ∧ (∀ t ∈ ts, t.type ≠ .eof) ∧ last.type = .eof ∧
      last.position = Position.behind (before ++ rest) := by
  induction h with
  | eof => exact ⟨[], _, rfl, by simp, rfl, rfl⟩
  | @token before gap u rest t ts hcomments hposition hlexeme hrest ih =>
      obtain ⟨init, last, rfl, hinit, hlast, hend⟩ := ih
      refine ⟨t :: init, last, rfl, List.forall_mem_cons.mpr ⟨hlexeme.type_ne_eof, hinit⟩, hlast, ?_⟩
      rw [hend]
      simp

end Covers

/-- The list of tokens of a source has exactly one end token, in last place and behind the last byte
of the normalized text; offsets grow; and the tokens cover the text, each at the place that counting
over the text before its lexeme gives, with nothing but comments between two lexemes. -/
theorem tokenize_covers_source (source : String) :
    ∃ text tokens last, Normalizes source.toList text ∧
      tokenize source = tokens ++ [last] ∧ (∀ t ∈ tokens, t.type ≠ .eof) ∧ last.type = .eof ∧
      last.position.offset = (String.ofList text).utf8ByteSize ∧
      (tokenize source).Pairwise (fun s t => s.position.offset < t.position.offset) ∧
      Covers [] text (tokenize source) := by
  have hcovers := covers_tokenize source
  obtain ⟨tokens, last, htokens, hinit, hlast, hend⟩ := hcovers.exists_last
  refine ⟨normalize source.toList, tokens, last, normalizes_normalize _, htokens, hinit, hlast, ?_,
    hcovers.pairwise_offset, hcovers⟩
  rw [hend]
  rfl

end Lexer
end Cascade
