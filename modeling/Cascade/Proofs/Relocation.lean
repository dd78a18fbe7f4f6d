import Cascade.Proofs.Joining
import Cascade.Proofs.LexicalGrammar

/-!
# Reading does not depend on places

The lexer carries places along and never looks at them: read from another place, a text
has the same tokens, but for their places.

**Method.**  Every scanner reads the same from two inputs with the same characters and
leaves the same characters (`Alike`), by induction along its own recursion.

**Results.**
* `token_alike`: the token at the start of an input.
* `tokensFrom_alike`: all tokens of an input, whatever bounds on their number suffice.
-/

namespace Cascade
namespace Lexer

/-- What has been read is the same, and so are the characters that are left. -/
structure Alike {α : Type} (x y : α × Input) : Prop where
  read : x.1 = y.1
  left : x.2.chars = y.2.chars

variable {i j : Input}

/-! ## Parts of an input -/

theorem Input.advance_alike (h : i.chars = j.chars) :
    i.advance.chars = j.advance.chars := by
  obtain ⟨cs, p⟩ := i
  obtain ⟨ds, q⟩ := j
  obtain rfl : cs = ds := h
  cases cs <;> rfl

theorem Input.drop_alike (h : i.chars = j.chars) (n : Nat) :
    (i.drop n).chars = (j.drop n).chars :=
  congrArg (List.drop n) h

theorem Input.span_alike (h : i.chars = j.chars) (p : Char → Bool) :
    Alike (i.span p) (j.span p) :=
  ⟨congrArg (List.takeWhile p) h, congrArg (List.dropWhile p) h⟩

/-- An input with given characters is told by its place. -/
theorem Input.exists_of_chars {cs : List Char} (h : i.chars = j.chars) (hchars : i.chars = cs) :
    ∃ q, j = ⟨cs, q⟩ :=
  ⟨j.position, by rw [← hchars, h]⟩

theorem Input.peek?_alike (h : i.chars = j.chars) :
    i.peek? = j.peek? :=
  congrArg List.head? h

/-! ## Comments -/

theorem closeComment_alike (cs : List Char) (p q : Position) :
    (closeComment cs p).chars = (closeComment cs q).chars := by
  fun_induction closeComment cs p generalizing q with
  | case1 => rfl
  | case2 => rfl
  | case3 c rest p hopen ih =>
      rw [closeComment]
      · exact ih _
      · exact hopen

theorem skipComments_alike (h : i.chars = j.chars) :
    (skipComments i).chars = (skipComments j).chars := by
  fun_induction skipComments i generalizing j with
  | case1 i rest hchars ih =>
      rw [skipComments.eq_def j]
      split
      · next rest' hchars' =>
          obtain rfl : rest = rest' := by
            have := (hchars.symm.trans h).trans hchars'
            simpa using this
          exact ih (closeComment_alike rest _ _)
      · next hopen => exact absurd (h.symm.trans hchars) (hopen rest)
  | case2 i hopen =>
      rw [skipComments.eq_def j]
      split
      · next rest hchars => exact absurd (h.trans hchars) (hopen rest)
      · exact h

/-! ## Names, strings and addresses -/

theorem escape_alike (h : i.chars = j.chars) :
    Alike (escape i) (escape j) := by
  unfold escape
  rw [← h]
  split
  · exact ⟨rfl, h⟩
  · split
    · have hbehind := Input.drop_alike h ((i.chars.take 6).takeWhile isHexDigit).length
      dsimp only
      rw [← Input.peek?_alike hbehind]
      split
      · exact ⟨rfl, Input.advance_alike hbehind⟩
      · exact ⟨rfl, hbehind⟩
    · exact ⟨rfl, Input.advance_alike h⟩

theorem nameFrom_alike (read : List Char) (h : i.chars = j.chars) :
    Alike (nameFrom read i) (nameFrom read j) := by
  fun_induction nameFrom read i generalizing j with
  | case1 read i hchars =>
      obtain ⟨q, rfl⟩ := Input.exists_of_chars h hchars
      rw [nameFrom.eq_def read ⟨[], q⟩]
      exact ⟨rfl, h⟩
  | case2 read i c cs hchars hname ih =>
      obtain ⟨q, rfl⟩ := Input.exists_of_chars h hchars
      rw [nameFrom.eq_def read ⟨c :: cs, q⟩]
      dsimp only
      rw [if_pos hname]
      exact ih rfl
  | case3 read i c cs hchars hname hescape e =>
      rename_i ih
      obtain ⟨q, rfl⟩ := Input.exists_of_chars h hchars
      obtain ⟨hread, hleft⟩ := escape_alike (i := ⟨cs, i.position.after c⟩) (j := ⟨cs, q.after c⟩) rfl
      rw [nameFrom.eq_def read ⟨c :: cs, q⟩]
      dsimp only
      rw [if_neg hname, if_pos hescape, ← hread]
      exact ih hleft
  | case4 read i c cs hchars hname hescape =>
      obtain ⟨q, rfl⟩ := Input.exists_of_chars h hchars
      rw [nameFrom.eq_def read ⟨c :: cs, q⟩]
      dsimp only
      rw [if_neg hname, if_neg hescape]
      exact ⟨rfl, h⟩

theorem stringFrom_alike (mark : Char) (read : List Char) (h : i.chars = j.chars) :
    (stringFrom mark read i).1 = (stringFrom mark read j).1 ∧
      Alike (stringFrom mark read i).2 (stringFrom mark read j).2 := by
  fun_induction stringFrom mark read i generalizing j with
  | case1 read i hchars =>
      obtain ⟨q, rfl⟩ := Input.exists_of_chars h hchars
      rw [stringFrom.eq_def mark read ⟨_, q⟩]
      exact ⟨rfl, rfl, h⟩
  | case2 read i cs hchars =>
      obtain ⟨q, rfl⟩ := Input.exists_of_chars h hchars
      rw [stringFrom.eq_def mark read ⟨_, q⟩]
      dsimp only
      rw [if_pos rfl]
      exact ⟨rfl, rfl, rfl⟩
  | case3 read i cs hchars hmark =>
      obtain ⟨q, rfl⟩ := Input.exists_of_chars h hchars
      rw [stringFrom.eq_def mark read ⟨_, q⟩]
      dsimp only
      rw [if_neg hmark, if_pos rfl]
      exact ⟨rfl, rfl, h⟩
  | case4 read i hmark hline hchars =>
      obtain ⟨q, rfl⟩ := Input.exists_of_chars h hchars
      rw [stringFrom.eq_def mark read ⟨_, q⟩]
      dsimp only
      rw [if_neg hmark, if_neg hline, if_pos rfl]
      exact ⟨rfl, rfl, rfl⟩
  | case5 read i ds hmark hline hchars _ ih =>
      obtain ⟨q, rfl⟩ := Input.exists_of_chars h hchars
      rw [stringFrom.eq_def mark read ⟨_, q⟩]
      dsimp only
      rw [if_neg hmark, if_neg hline, if_pos rfl, if_pos rfl]
      exact ih rfl
  | case6 read i d ds hd hmark hline hchars e =>
      rename_i ih
      obtain ⟨q, rfl⟩ := Input.exists_of_chars h hchars
      obtain ⟨hread, hleft⟩ := escape_alike (i := ⟨d :: ds, i.position.after '\\'⟩)
        (j := ⟨d :: ds, q.after '\\'⟩) rfl
      rw [stringFrom.eq_def mark read ⟨_, q⟩]
      dsimp only
      rw [if_neg hmark, if_neg hline, if_pos rfl, if_neg hd, ← hread]
      exact ih hleft
  | case7 read i c cs hchars hmark hline hslash ih =>
      obtain ⟨q, rfl⟩ := Input.exists_of_chars h hchars
      rw [stringFrom.eq_def mark read ⟨_, q⟩]
      dsimp only
      rw [if_neg hmark, if_neg hline, if_neg hslash]
      exact ih rfl

theorem badUrlRest_alike (h : i.chars = j.chars) :
    (badUrlRest i).chars = (badUrlRest j).chars := by
  fun_induction badUrlRest i generalizing j with
  | case1 i hchars =>
      obtain ⟨q, rfl⟩ := Input.exists_of_chars h hchars
      rw [badUrlRest.eq_def ⟨_, q⟩]
      exact h
  | case2 i cs hchars =>
      obtain ⟨q, rfl⟩ := Input.exists_of_chars h hchars
      rw [badUrlRest.eq_def ⟨_, q⟩]
      rfl
  | case3 i c cs hchars hparen hescape ih =>
      obtain ⟨q, rfl⟩ := Input.exists_of_chars h hchars
      rw [badUrlRest.eq_def ⟨_, q⟩]
      dsimp only
      rw [if_neg hparen, if_pos hescape]
      exact ih (escape_alike (i := ⟨cs, i.position.after c⟩) (j := ⟨cs, q.after c⟩) rfl).left
  | case4 i c cs hchars hparen hescape ih =>
      obtain ⟨q, rfl⟩ := Input.exists_of_chars h hchars
      rw [badUrlRest.eq_def ⟨_, q⟩]
      dsimp only
      rw [if_neg hparen, if_neg hescape]
      exact ih rfl

theorem urlFrom_alike (read : List Char) (h : i.chars = j.chars) :
    (urlFrom read i).1 = (urlFrom read j).1 ∧ Alike (urlFrom read i).2 (urlFrom read j).2 := by
  fun_induction urlFrom read i generalizing j with
  | case1 read i hchars =>
      obtain ⟨q, rfl⟩ := Input.exists_of_chars h hchars
      rw [urlFrom.eq_def read ⟨_, q⟩]
      exact ⟨rfl, rfl, h⟩
  | case2 read i cs hchars =>
      obtain ⟨q, rfl⟩ := Input.exists_of_chars h hchars
      rw [urlFrom.eq_def read ⟨_, q⟩]
      exact ⟨rfl, rfl, rfl⟩
  | case3 read i c cs hchars behind hparen hblank rest =>
      rename_i hpeek
      obtain ⟨q, rfl⟩ := Input.exists_of_chars h hchars
      rw [urlFrom.eq_def read ⟨_, q⟩]
      dsimp only
      rw [if_neg hparen, if_pos hblank,
        show ((⟨cs, q.after c⟩ : Input).span isBlank).2.peek? = none from hpeek]
      exact ⟨rfl, rfl, rfl⟩
  | case4 read i c cs hchars behind hparen hblank rest =>
      rename_i hpeek
      obtain ⟨q, rfl⟩ := Input.exists_of_chars h hchars
      rw [urlFrom.eq_def read ⟨_, q⟩]
      dsimp only
      rw [if_neg hparen, if_pos hblank,
        show ((⟨cs, q.after c⟩ : Input).span isBlank).2.peek? = some ')' from hpeek]
      exact ⟨rfl, rfl, Input.advance_alike (i := rest) rfl⟩
  | case5 read i c cs hchars behind hparen hblank rest d hd =>
      rename_i hpeek
      obtain ⟨q, rfl⟩ := Input.exists_of_chars h hchars
      rw [urlFrom.eq_def read ⟨_, q⟩]
      dsimp only
      rw [if_neg hparen, if_pos hblank,
        show ((⟨cs, q.after c⟩ : Input).span isBlank).2.peek? = some d from hpeek]
      split
      · next hnone => cases hnone
      · next hsome => exact absurd (Option.some.inj hsome) hd
      · exact ⟨rfl, rfl, badUrlRest_alike (i := rest) rfl⟩
  | case6 read i c cs hchars behind hparen hblank =>
      rename_i hbad
      obtain ⟨q, rfl⟩ := Input.exists_of_chars h hchars
      rw [urlFrom.eq_def read ⟨_, q⟩]
      dsimp only
      rw [if_neg hparen, if_neg hblank, if_pos hbad]
      exact ⟨rfl, rfl, badUrlRest_alike (i := behind) rfl⟩
  | case7 read i cs hchars behind hparen hblank hbad hescape e =>
      rename_i ih
      obtain ⟨q, rfl⟩ := Input.exists_of_chars h hchars
      obtain ⟨hread, hleft⟩ := escape_alike (i := behind) (j := ⟨cs, q.after '\\'⟩) rfl
      rw [urlFrom.eq_def read ⟨_, q⟩]
      dsimp only
      rw [if_neg hparen, if_neg hblank, if_neg hbad, if_pos rfl, if_pos hescape, ← hread]
      exact ih hleft
  | case8 read i cs hchars behind hparen hblank hbad =>
      rename_i hescape
      obtain ⟨q, rfl⟩ := Input.exists_of_chars h hchars
      rw [urlFrom.eq_def read ⟨_, q⟩]
      dsimp only
      rw [if_neg hparen, if_neg hblank, if_neg hbad, if_pos rfl, if_neg hescape]
      exact ⟨rfl, rfl, badUrlRest_alike (i := behind) rfl⟩
  | case9 read i c cs hchars behind hparen hblank hbad hslash =>
      rename_i ih
      obtain ⟨q, rfl⟩ := Input.exists_of_chars h hchars
      rw [urlFrom.eq_def read ⟨_, q⟩]
      dsimp only
      rw [if_neg hparen, if_neg hblank, if_neg hbad, if_neg hslash]
      exact ih rfl

/-! ## Numbers -/

theorem exponentPart_alike (h : i.chars = j.chars) :
    Alike (numeral.exponentPart i) (numeral.exponentPart j) := by
  unfold numeral.exponentPart
  rw [← h]
  split
  · split
    · split
      · obtain ⟨hread, hleft⟩ := Input.span_alike (Input.advance_alike h) isDigit
        exact ⟨congrArg (List.cons _) hread, hleft⟩
      · split
        · obtain ⟨hread, hleft⟩ := Input.span_alike (Input.advance_alike (Input.advance_alike h)) isDigit
          exact ⟨congrArg (fun run => _ :: _ :: run) hread, hleft⟩
        · exact ⟨rfl, h⟩
    · exact ⟨rfl, h⟩
  · exact ⟨rfl, h⟩

theorem signPart_alike (h : i.chars = j.chars) :
    Alike (signPart i) (signPart j) := by
  unfold signPart
  rw [← h]
  split
  · split
    · exact ⟨rfl, Input.advance_alike h⟩
    · exact ⟨rfl, h⟩
  · exact ⟨rfl, h⟩

theorem fractionPart_alike (h : i.chars = j.chars) :
    Alike (fractionPart i) (fractionPart j) := by
  unfold fractionPart
  rw [← h]
  split
  · obtain ⟨hread, hleft⟩ := Input.span_alike (Input.advance_alike h) isDigit
    exact ⟨congrArg (List.cons '.') hread, hleft⟩
  · exact ⟨rfl, h⟩

theorem numeral_alike (h : i.chars = j.chars) :
    (numeral i).1 = (numeral j).1 ∧ Alike (numeral i).2 (numeral j).2 := by
  have hsign := signPart_alike h
  have hwhole := Input.span_alike hsign.left isDigit
  have hfraction := fractionPart_alike hwhole.left
  have hexponent := exponentPart_alike hfraction.left
  rw [numeral_eq, numeral_eq]
  dsimp only
  rw [hsign.read, hwhole.read, hfraction.read, hexponent.read]
  exact ⟨rfl, rfl, hexponent.left⟩

/-! ## Tokens -/

/-- The tokens that are read are the same but for their places, and so are the characters left. -/
structure SameToken (x y : Token × Input) : Prop where
  token : x.1.unplaced = y.1.unplaced
  left : x.2.chars = y.2.chars

theorem single_alike (h : i.chars = j.chars) (c : Char) (type : TokenType) :
    SameToken (single i c type) (single j c type) :=
  ⟨rfl, Input.advance_alike h⟩

theorem numeric_alike (h : i.chars = j.chars) :
    SameToken (numeric i) (numeric j) := by
  obtain ⟨htext, hinteger, hleft⟩ := numeral_alike h
  obtain ⟨hunit, hbehind⟩ := nameFrom_alike [] hleft
  unfold numeric
  dsimp only
  rw [hleft, Input.peek?_alike hleft, htext, hinteger]
  split
  · refine ⟨?_, hbehind⟩
    rw [name, hunit]
    rfl
  · split
    · exact ⟨rfl, Input.advance_alike hleft⟩
    · exact ⟨rfl, hleft⟩

theorem urlOrFunction_alike (text : List Char) {behind behind' : Input}
    (h : behind.chars = behind'.chars) :
    SameToken (urlOrFunction i text behind) (urlOrFunction j text behind') := by
  have hbody := (Input.span_alike h isBlank).left
  obtain ⟨hread, hclosed, hleft⟩ := urlFrom_alike [] hbody
  unfold urlOrFunction
  dsimp only
  split
  · rw [h, Input.peek?_alike hbody]
    split
    · exact ⟨rfl, Input.drop_alike h _⟩
    · revert hread hclosed hleft
      rcases urlFrom [] (behind.span isBlank).2 with ⟨address, closed, rest⟩
      rcases urlFrom [] (behind'.span isBlank).2 with ⟨address', closed', rest'⟩
      rintro rfl rfl hleft
      cases closed <;> exact ⟨rfl, hleft⟩
  · exact ⟨rfl, h⟩

theorem identLike_alike (h : i.chars = j.chars) :
    SameToken (identLike i) (identLike j) := by
  obtain ⟨hread, hleft⟩ := nameFrom_alike [] h
  unfold identLike name
  dsimp only
  rw [Input.peek?_alike hleft, hread]
  split
  · exact urlOrFunction_alike _ (Input.advance_alike hleft)
  · exact ⟨rfl, hleft⟩

theorem string_alike (h : i.chars = j.chars) (q : Quote) :
    SameToken (string i q) (string j q) := by
  obtain ⟨hread, hclosed, hleft⟩ :=
    stringFrom_alike q.char [] (Input.advance_alike h)
  unfold string
  revert hread hclosed hleft
  rcases stringFrom q.char [] i.advance with ⟨text, closed, rest⟩
  rcases stringFrom q.char [] j.advance with ⟨text', closed', rest'⟩
  rintro rfl rfl hleft
  cases closed <;> exact ⟨rfl, hleft⟩

theorem hash_alike (h : i.chars = j.chars) (c : Char) :
    SameToken (hash i c) (hash j c) := by
  have hbehind := Input.advance_alike h
  obtain ⟨hread, hleft⟩ := nameFrom_alike [] hbehind
  unfold hash name
  dsimp only
  rw [Input.peek?_alike hbehind, hbehind, hread]
  split
  · exact ⟨rfl, hleft⟩
  · exact single_alike h c .delim

/-- The token at the start of an input does not depend on the place. -/
theorem token_alike (h : i.chars = j.chars) (c : Char) :
    SameToken (token i c) (token j c) := by
  have hdelim := single_alike h c .delim
  unfold token
  rw [Input.advance_alike h, ← h]
  split
  · obtain ⟨hread, hleft⟩ := Input.span_alike h isBlank
    dsimp only
    rw [hread]
    exact ⟨rfl, hleft⟩
  · split
    any_goals exact single_alike h _ _
    · exact string_alike h .double
    · exact string_alike h .single
    · exact hash_alike h _
    · split
      · exact numeric_alike h
      · split
        · exact ⟨rfl, Input.drop_alike h 3⟩
        · split
          · exact identLike_alike h
          · exact hdelim
    · split
      · exact ⟨rfl, Input.drop_alike h 4⟩
      · exact hdelim
    · split
      · obtain ⟨hread, hleft⟩ := nameFrom_alike [] (Input.advance_alike h)
        unfold name
        dsimp only
        rw [hread]
        exact ⟨rfl, hleft⟩
      · exact hdelim
    · split
      · exact numeric_alike h
      · split
        · exact identLike_alike h
        · exact hdelim

theorem length_skipComments_le (i : Input) :
    (skipComments i).chars.length ≤ i.chars.length := by
  obtain ⟨u, hbehind, -⟩ := skipComments_behind i
  rw [hbehind.chars, List.length_append]
  omega

theorem length_token_lt {c : Char} {cs : List Char} (h : i.chars = c :: cs) :
    (token i c).2.chars.length < i.chars.length := by
  obtain ⟨u, hu, hlexeme, -⟩ := token_takes h
  have hpos := List.length_pos_iff.mpr hlexeme.ne_nil
  rw [hu.chars, List.length_append]
  omega

theorem tokensFrom_of_nil (n : Nat) (h : i.chars = []) :
    (tokensFrom n i).map Token.unplaced = [endToken] := by
  obtain ⟨p, rfl⟩ := Input.exists_of_chars rfl h
  exact tokensFrom_nil n p

/-- Whatever the bounds on their number, if they suffice, the tokens of an input do not depend on
the place. -/
theorem tokensFrom_alike {n m : Nat} (h : i.chars = j.chars) (hn : i.chars.length ≤ n)
    (hm : i.chars.length ≤ m) :
    (tokensFrom n i).map Token.unplaced = (tokensFrom m j).map Token.unplaced := by
  induction n generalizing i j m with
  | zero =>
      have hempty := List.length_eq_zero_iff.mp (Nat.le_zero.mp hn)
      rw [tokensFrom_of_nil 0 hempty, tokensFrom_of_nil m (h ▸ hempty)]
  | succ n ih =>
      by_cases hempty : i.chars = []
      · rw [tokensFrom_of_nil _ hempty, tokensFrom_of_nil m (h ▸ hempty)]
      · have hpos := List.length_pos_iff.mpr hempty
        obtain ⟨m, rfl⟩ : ∃ k, m = k + 1 := ⟨m - 1, by omega⟩
        have hskip := skipComments_alike h
        have hle := length_skipComments_le i
        rw [tokensFrom, tokensFrom]
        dsimp only
        rw [← hskip]
        split
        · rfl
        · next c cs hchars =>
            obtain ⟨htoken, hleft⟩ := token_alike hskip c
            have hlt := length_token_lt hchars
            rw [List.map_cons, List.map_cons, htoken, ih (m := m) hleft (by omega) (by omega)]

end Lexer
end Cascade
