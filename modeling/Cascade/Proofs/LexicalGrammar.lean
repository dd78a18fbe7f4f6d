import Cascade.Proofs.Lexemes

/-!
# The texts of tokens

Which texts spell a token: the lexical grammar, given apart from the scanners.
The scanners are then shown to take such a text from the front of the input, no
more and no less, and to count places over it.

**Method.**  `Input.Behind i u j` says that `j` is what is left of `i` behind the
text `u`.  `SpellsEscape`, `SpellsName`, `SpellsString` and `SpellsAddress` relate
a text to what is read from it; they know the text that follows, since only the
end of the source cuts an escape off.  There is one lemma for each scanner.

**Results.**
* `Lexeme rest u t`: the text `u` before `rest` spells the token `t`.
* `token_takes`: the lexer takes a lexeme of the token that it gives.
* `skipComments_behind`: what it passes before a token is a sequence of comments.
-/

namespace Cascade
namespace Lexer

open Output (punctuation opensQuote)

/-! ## What is left behind a text -/

/-- The input `j` is what is left of `i` behind the text `u`. -/
structure Input.Behind (i : Input) (u : List Char) (j : Input) : Prop where
  chars : i.chars = u ++ j.chars
  position : j.position = i.position.afterAll u

namespace Input.Behind

theorem refl (i : Input) :
    i.Behind [] i :=
  ⟨rfl, rfl⟩

theorem trans {i j k : Input} {u v : List Char} (h : i.Behind u j) (g : j.Behind v k) :
    i.Behind (u ++ v) k where
  chars := by rw [h.chars, g.chars, List.append_assoc]
  position := by rw [g.position, h.position, Position.afterAll_append]

/-- One more character in front. -/
theorem cons {i j : Input} {c : Char} {cs u : List Char} (hchars : i.chars = c :: cs)
    (h : Input.Behind ⟨cs, i.position.after c⟩ u j) :
    i.Behind (c :: u) j where
  chars := hchars.trans (congrArg (c :: ·) h.chars)
  position := h.position

theorem single {i : Input} {c : Char} {cs : List Char} (h : i.chars = c :: cs) :
    i.Behind [c] i.advance := by
  obtain ⟨chars, p⟩ := i
  cases h
  exact ⟨rfl, rfl⟩

theorem drop (i : Input) (n : Nat) :
    i.Behind (i.chars.take n) (i.drop n) :=
  ⟨(List.take_append_drop n i.chars).symm, rfl⟩

theorem span (i : Input) (p : Char → Bool) :
    i.Behind (i.chars.takeWhile p) (i.span p).2 :=
  ⟨List.takeWhile_append_dropWhile.symm, rfl⟩

end Input.Behind

theorem exists_cons_of_peek? {i : Input} {c : Char} (h : i.peek? = some c) :
    ∃ cs, i.chars = c :: cs :=
  List.head?_eq_some_iff.mp h

/-! ## Escapes and names -/

/-- Behind a backslash the text stands for a character: the code of a character in at most six
digits, which one blank may end, any character but a digit or a line feed, or nothing where the
source ends. -/
inductive SpellsEscape (rest : List Char) : List Char → Char → Prop
  | code {digits blank : List Char} :
      digits ≠ [] → digits.length ≤ 6 → (∀ c ∈ digits, isHexDigit c = true) →
      blank.length ≤ 1 → (∀ c ∈ blank, isBlank c = true) →
      SpellsEscape rest (digits ++ blank) (charOfHex digits)
  | self {c : Char} : isHexDigit c = false → c ≠ '\n' → SpellsEscape rest [c] c
  | atEnd : rest = [] → SpellsEscape rest [] '\ufffd'

/-- The text stands for a name, whose escapes it spells out. -/
inductive SpellsName (rest : List Char) : List Char → List Char → Prop
  | nil : SpellsName rest [] []
  | char {c : Char} {u s : List Char} :
      isNameChar c = true → SpellsName rest u s → SpellsName rest (c :: u) (c :: s)
  | escape {c : Char} {v u s : List Char} :
      SpellsEscape (u ++ rest) v c → SpellsName rest u s →
      SpellsName rest ('\\' :: (v ++ u)) (c :: s)

/-- The text is a whole name: it is not empty, and the name does not go on behind it. -/
structure IsName (rest u s : List Char) : Prop where
  spells : SpellsName rest u s
  ne_nil : s ≠ []
  stops : nameGoesOn rest = false

/-- The digits of a code are at the front of the input. -/
theorem take_hexDigits (cs : List Char) :
    cs.take ((cs.take 6).takeWhile isHexDigit).length = (cs.take 6).takeWhile isHexDigit := by
  have hdigits : (cs.take 6).takeWhile isHexDigit <+: cs :=
    (List.takeWhile_prefix _).trans (List.take_prefix _ _)
  exact (List.prefix_iff_eq_take.mp hdigits).symm

/-- An escape takes a text that spells its character. -/
theorem escape_behind (i : Input) (hline : i.peek? ≠ some '\n') :
    ∃ v, i.Behind v (escape i).2 ∧ SpellsEscape (escape i).2.chars v (escape i).1 := by
  unfold escape
  split
  · next hend => exact ⟨[], .refl i, .atEnd hend⟩
  · next c cs hchars =>
      split
      · next hhex =>
          dsimp only
          generalize hdigits : (i.chars.take 6).takeWhile isHexDigit = digits
          have hne : digits ≠ [] := by
            rw [← hdigits, hchars]
            simp [hhex]
          have hlength : digits.length ≤ 6 := by
            rw [← hdigits]
            exact (List.takeWhile_prefix _).length_le.trans (List.length_take_le _ _)
          have hall : ∀ d ∈ digits, isHexDigit d = true := by
            rw [← hdigits]
            exact fun _ => List.mem_takeWhile_imp
          have hdrop : i.Behind digits (i.drop digits.length) := by
            have hbehind := Input.Behind.drop i digits.length
            rwa [← hdigits, take_hexDigits, hdigits] at hbehind
          split
          · next hblank =>
              obtain ⟨b, hpeek, hb⟩ := (Option.any_eq_true _ _).mp hblank
              obtain ⟨bs, hbs⟩ := exists_cons_of_peek? hpeek
              refine ⟨digits ++ [b], hdrop.trans (.single hbs), .code hne hlength hall ?_ ?_⟩
              · exact Nat.le_refl 1
              · simpa using hb
          · refine ⟨digits ++ [], hdrop.trans (.refl _), .code hne hlength hall ?_ ?_⟩
            · exact Nat.zero_le 1
            · exact fun _ h => (List.not_mem_nil h).elim
      · next hhex =>
          refine ⟨[c], .single hchars, .self (by simpa using hhex) ?_⟩
          rintro rfl
          exact hline (by simp [Input.peek?, hchars])

/-- What follows the backslash of an escape is no line feed. -/
theorem head?_of_startsEscape {c : Char} {cs : List Char} (h : startsEscape (c :: cs) = true) :
    c = '\\' ∧ cs.head? ≠ some '\n' := by
  unfold startsEscape at h
  split at h
  · cases h
  · next rest hne heq =>
      obtain ⟨rfl, rfl⟩ := List.cons.inj heq
      refine ⟨rfl, fun hhead => ?_⟩
      obtain ⟨ds, rfl⟩ := List.head?_eq_some_iff.mp hhead
      exact hne ds rfl
  · cases h

/-- The scanner of names takes a text that spells the name, behind what was read before. -/
theorem nameFrom_behind (read : List Char) (i : Input) :
    ∃ u s, i.Behind u (nameFrom read i).2 ∧ (nameFrom read i).1 = read.reverse ++ s ∧
      SpellsName (nameFrom read i).2.chars u s ∧ nameGoesOn (nameFrom read i).2.chars = false := by
  fun_induction nameFrom read i with
  | case1 read i hend =>
      refine ⟨[], [], .refl i, by simp, .nil, ?_⟩
      rw [hend]
      rfl
  | case2 read i c cs hchars hc ih =>
      obtain ⟨u, s, hbehind, hread, hspells, hstops⟩ := ih
      exact ⟨c :: u, c :: s, .cons hchars hbehind, by simp [hread], .char hc hspells, hstops⟩
  | case3 read i c cs hchars hc hescape e ih =>
      obtain ⟨rfl, hline⟩ := head?_of_startsEscape hescape
      obtain ⟨v, hv, hchar⟩ := escape_behind ⟨cs, i.position.after '\\'⟩ hline
      obtain ⟨u, s, hbehind, hread, hspells, hstops⟩ := ih
      refine ⟨'\\' :: (v ++ u), e.1 :: s, .cons hchars (hv.trans hbehind), by simp [hread], ?_,
        hstops⟩
      exact .escape (hbehind.chars ▸ hchar) hspells
  | case4 read i c cs hchars hc hescape =>
      refine ⟨[], [], .refl i, by simp, .nil, ?_⟩
      simp [nameGoesOn, hchars, hc, hescape]

/-- Where a name goes on, the scanner takes a whole one. -/
theorem name_behind {i : Input} (h : nameGoesOn i.chars = true) :
    ∃ u, i.Behind u (name i).2 ∧ IsName (name i).2.chars u (name i).1 := by
  obtain ⟨u, s, hbehind, hread, hspells, hstops⟩ := nameFrom_behind [] i
  have hs : (name i).1 = s := hread
  refine ⟨u, hbehind, hs ▸ hspells, ?_, hstops⟩
  intro hnil
  have hu : u = [] := by
    rw [← hs, hnil] at hspells
    cases hspells
    rfl
  have hchars : i.chars = (nameFrom [] i).2.chars := by
    rw [hbehind.chars, hu, List.nil_append]
  rw [hchars, hstops] at h
  cases h

/-! ## Strings -/

/-- The text stands for a part of a string between the given marks. -/
inductive SpellsString (mark : Char) (rest : List Char) : List Char → List Char → Prop
  | nil : SpellsString mark rest [] []
  | char {c : Char} {u s : List Char} :
      c ≠ mark → c ≠ '\n' → c ≠ '\\' → SpellsString mark rest u s →
      SpellsString mark rest (c :: u) (c :: s)
  | escape {c : Char} {v u s : List Char} :
      v ≠ [] → SpellsEscape (u ++ rest) v c → SpellsString mark rest u s →
      SpellsString mark rest ('\\' :: (v ++ u)) (c :: s)
  | continuation {u s : List Char} :
      SpellsString mark rest u s → SpellsString mark rest ('\\' :: '\n' :: u) s

/-- How a string ends, and whether it is well formed: with its mark, with the source, perhaps behind
a last backslash, or cut off before a line feed. -/
inductive EndsString (mark : Char) (rest : List Char) : List Char → Bool → Prop
  | closed : EndsString mark rest [mark] true
  | atEnd : rest = [] → EndsString mark rest [] true
  | backslash : rest = [] → EndsString mark rest ['\\'] true
  | cutOff : rest.head? = some '\n' → EndsString mark rest [] false

/-- Before the end of the source, an escape has a text. -/
theorem SpellsEscape.ne_nil {i j : Input} {v : List Char} {c : Char}
    (h : SpellsEscape j.chars v c) (hbehind : i.Behind v j) (hne : i.chars ≠ []) :
    v ≠ [] := by
  intro hnil
  have hchars : i.chars = j.chars := by
    rw [hbehind.chars, hnil, List.nil_append]
  cases h with
  | code hdigits => exact hdigits (List.append_eq_nil_iff.mp hnil).1
  | self => cases hnil
  | atEnd hend => exact hne (hchars.trans hend)

/-- The scanner of strings takes a text that spells the string and its end. -/
theorem stringFrom_behind (mark : Char) (read : List Char) (i : Input) :
    ∃ u s close, i.Behind (u ++ close) (stringFrom mark read i).2.2 ∧
      (stringFrom mark read i).1 = read.reverse ++ s ∧
      SpellsString mark (close ++ (stringFrom mark read i).2.2.chars) u s ∧
      EndsString mark (stringFrom mark read i).2.2.chars close (stringFrom mark read i).2.1 := by
  fun_induction stringFrom mark read i with
  | case1 read i hend => exact ⟨[], [], [], .refl i, by simp, .nil, .atEnd hend⟩
  | case2 read i cs hchars =>
      exact ⟨[], [], [mark], .cons hchars (.refl _), by simp, .nil, .closed⟩
  | case3 read i cs hchars hmark =>
      exact ⟨[], [], [], .refl i, by simp, .nil, .cutOff (by simp [hchars])⟩
  | case4 read i hmark hline hchars =>
      exact ⟨[], [], ['\\'], .cons hchars (.refl _), by simp, .nil, .backslash rfl⟩
  | case5 read i ds hmark hline hchars _ ih =>
      obtain ⟨u, s, close, hbehind, hread, hspells, hends⟩ := ih
      refine ⟨'\\' :: '\n' :: u, s, close, .cons hchars ?_, hread, .continuation hspells, hends⟩
      exact .cons rfl hbehind
  | case6 read i d ds hd hmark hline hchars e _ ih =>
      obtain ⟨v, hv, hchar⟩ := escape_behind ⟨d :: ds, i.position.after '\\'⟩
        (by simpa [Input.peek?] using hd)
      obtain ⟨u, s, close, hbehind, hread, hspells, hends⟩ := ih
      have hne := hchar.ne_nil hv (List.cons_ne_nil d ds)
      have hwhole := List.append_assoc v u close ▸ hv.trans hbehind
      refine ⟨'\\' :: (v ++ u), e.1 :: s, close, .cons hchars hwhole, by simp [hread],
        .escape hne ?_ hspells, hends⟩
      rw [hbehind.chars, List.append_assoc] at hchar
      exact hchar
  | case7 read i c cs hchars hmark hline hbackslash ih =>
      obtain ⟨u, s, close, hbehind, hread, hspells, hends⟩ := ih
      exact ⟨c :: u, c :: s, close, .cons hchars hbehind, by simp [hread],
        .char hmark hline hbackslash hspells, hends⟩

/-! ## Addresses -/

/-- The characters that stand for themselves in an address without marks. -/
def isAddressChar (c : Char) : Bool :=
  !isBlank c && !isQuote c && !isNonPrintable c && c != '(' && c != ')' && c != '\\'

/-- The text stands for a part of an address. -/
inductive SpellsAddress (rest : List Char) : List Char → List Char → Prop
  | nil : SpellsAddress rest [] []
  | char {c : Char} {u s : List Char} :
      isAddressChar c = true → SpellsAddress rest u s → SpellsAddress rest (c :: u) (c :: s)
  | escape {c : Char} {v u s : List Char} :
      SpellsEscape (u ++ rest) v c → SpellsAddress rest u s →
      SpellsAddress rest ('\\' :: (v ++ u)) (c :: s)

/-- What is thrown away of a malformed address: all up to the next closing parenthesis that is not
escaped, or to the end of the source. -/
inductive Remnants (rest : List Char) : List Char → Prop
  | closed : Remnants rest [')']
  | atEnd : rest = [] → Remnants rest []
  | char {c : Char} {u : List Char} :
      c ≠ ')' → (c = '\\' → (u ++ rest).head? = some '\n') → Remnants rest u →
      Remnants rest (c :: u)
  | escape {c : Char} {v u : List Char} :
      SpellsEscape (u ++ rest) v c → Remnants rest u → Remnants rest ('\\' :: (v ++ u))

/-- How an address ends, and whether it is well formed: with its parenthesis or with the source, or
else at a blank inside it, at a character that it cannot hold, or at a line that ends in a
backslash. -/
inductive EndsAddress (rest : List Char) : List Char → Bool → Prop
  | closed {run : List Char} :
      (∀ c ∈ run, isBlank c = true) → EndsAddress rest (run ++ [')']) true
  | atEnd {run : List Char} :
      (∀ c ∈ run, isBlank c = true) → rest = [] → EndsAddress rest run true
  | blank {run u : List Char} :
      run ≠ [] → (∀ c ∈ run, isBlank c = true) →
      (∃ c, (u ++ rest).head? = some c ∧ c ≠ ')' ∧ isBlank c = false) → Remnants rest u →
      EndsAddress rest (run ++ u) false
  | excluded {c : Char} {u : List Char} :
      (isQuote c = true ∨ c = '(' ∨ isNonPrintable c = true) → Remnants rest u →
      EndsAddress rest (c :: u) false
  | lineEnd {u : List Char} :
      (u ++ rest).head? = some '\n' → Remnants rest u → EndsAddress rest ('\\' :: u) false

/-- A backslash that escapes nothing stands before a line feed. -/
theorem head?_of_not_startsEscape {cs : List Char} (h : ¬ startsEscape ('\\' :: cs) = true) :
    cs.head? = some '\n' := by
  unfold startsEscape at h
  split at h
  · next heq =>
      cases heq
      rfl
  · exact absurd rfl h
  · next hne => exact absurd rfl (hne cs)

/-- The scanner throws away the remnants of a malformed address. -/
theorem badUrlRest_behind (i : Input) :
    ∃ u, i.Behind u (badUrlRest i) ∧ Remnants (badUrlRest i).chars u := by
  fun_induction badUrlRest i with
  | case1 i hend => exact ⟨[], .refl i, .atEnd hend⟩
  | case2 i cs hchars => exact ⟨[')'], .cons hchars (.refl _), .closed⟩
  | case3 i c cs hchars hclose hescape ih =>
      obtain ⟨rfl, hline⟩ := head?_of_startsEscape hescape
      obtain ⟨v, hv, hchar⟩ := escape_behind ⟨cs, i.position.after '\\'⟩ hline
      obtain ⟨u, hbehind, hremnants⟩ := ih
      refine ⟨'\\' :: (v ++ u), .cons hchars (hv.trans hbehind), ?_⟩
      exact .escape (hbehind.chars ▸ hchar) hremnants
  | case4 i c cs hchars hclose hescape ih =>
      obtain ⟨u, hbehind, hremnants⟩ := ih
      refine ⟨c :: u, .cons hchars hbehind, .char hclose ?_ hremnants⟩
      rintro rfl
      rw [← hbehind.chars]
      exact head?_of_not_startsEscape hescape

/-- Behind a run of blanks stands no blank. -/
theorem isBlank_of_peek?_span {i : Input} {c : Char} (h : (i.span isBlank).2.peek? = some c) :
    isBlank c = false := by
  have hhead := head?_dropWhile_any isBlank i.chars
  rw [show (i.chars.dropWhile isBlank).head? = some c from h] at hhead
  exact hhead

theorem isBlank_of_mem_run {c : Char} {cs : List Char} (hc : isBlank c = true) :
    ∀ d ∈ c :: cs.takeWhile isBlank, isBlank d = true := by
  intro d hd
  rcases List.mem_cons.mp hd with rfl | hd
  · exact hc
  · exact List.mem_takeWhile_imp hd

/-- The scanner of addresses takes a text that spells the address and its end. -/
theorem urlFrom_behind (read : List Char) (i : Input) :
    ∃ u s close, i.Behind (u ++ close) (urlFrom read i).2.2 ∧
      (urlFrom read i).1 = read.reverse ++ s ∧
      SpellsAddress (close ++ (urlFrom read i).2.2.chars) u s ∧
      EndsAddress (urlFrom read i).2.2.chars close (urlFrom read i).2.1 := by
  fun_induction urlFrom read i with
  | case1 read i hend =>
      exact ⟨[], [], [], .refl i, by simp, .nil, .atEnd (by simp) hend⟩
  | case2 read i cs hchars =>
      refine ⟨[], [], [] ++ [')'], .cons hchars (.refl _), by simp, .nil, .closed ?_⟩
      exact fun _ h => (List.not_mem_nil h).elim
  | case3 read i c cs hchars behind hclose hblank rest hend =>
      refine ⟨[], [], c :: cs.takeWhile isBlank, .cons hchars (.span _ _), by simp, .nil, ?_⟩
      exact .atEnd (isBlank_of_mem_run hblank) (List.head?_eq_none_iff.mp hend)
  | case4 read i c cs hchars behind hclose hblank rest hparen =>
      obtain ⟨ds, hds⟩ := exists_cons_of_peek? hparen
      refine ⟨[], [], (c :: cs.takeWhile isBlank) ++ [')'], ?_, by simp, .nil,
        .closed (isBlank_of_mem_run hblank)⟩
      exact .cons hchars ((Input.Behind.span _ _).trans (.single hds))
  | case5 read i c cs hchars behind hclose hblank rest d hparen hpeek =>
      obtain ⟨u, hbehind, hremnants⟩ := badUrlRest_behind rest
      refine ⟨[], [], (c :: cs.takeWhile isBlank) ++ u, ?_, by simp, .nil,
        .blank (List.cons_ne_nil _ _) (isBlank_of_mem_run hblank) ⟨d, ?_, hparen, ?_⟩ hremnants⟩
      · exact .cons hchars ((Input.Behind.span _ _).trans hbehind)
      · rw [← hbehind.chars]
        exact hpeek
      · exact isBlank_of_peek?_span hpeek
  | case6 read i c cs hchars behind hclose hblank hexcluded =>
      obtain ⟨u, hbehind, hremnants⟩ := badUrlRest_behind behind
      exact ⟨[], [], c :: u, .cons hchars hbehind, by simp, .nil, .excluded hexcluded hremnants⟩
  | case7 read i cs hchars behind hclose hblank hexcluded hescape e ih =>
      obtain ⟨v, hv, hchar⟩ := escape_behind behind (head?_of_startsEscape hescape).2
      obtain ⟨u, s, close, hbehind, hread, hspells, hends⟩ := ih
      have hwhole := List.append_assoc v u close ▸ hv.trans hbehind
      refine ⟨'\\' :: (v ++ u), e.1 :: s, close, .cons hchars hwhole, by simp [hread],
        .escape ?_ hspells, hends⟩
      rw [hbehind.chars, List.append_assoc] at hchar
      exact hchar
  | case8 read i cs hchars behind hclose hblank hexcluded hescape =>
      obtain ⟨u, hbehind, hremnants⟩ := badUrlRest_behind behind
      refine ⟨[], [], '\\' :: u, .cons hchars hbehind, by simp, .nil, .lineEnd ?_ hremnants⟩
      rw [← hbehind.chars]
      exact head?_of_not_startsEscape hescape
  | case9 read i c cs hchars behind hclose hblank hexcluded hbackslash ih =>
      obtain ⟨u, s, close, hbehind, hread, hspells, hends⟩ := ih
      have hc : isAddressChar c = true := by
        simp only [not_or, Bool.not_eq_true] at hexcluded hblank
        simp [isAddressChar, hblank, hexcluded, hclose, hbackslash]
      exact ⟨c :: u, c :: s, close, .cons hchars hbehind, by simp [hread], .char hc hspells, hends⟩

/-! ## Tokens -/

/-- The text before `rest` spells the token, wherever that stands.  The text of a function takes in
the blanks between the parenthesis of an address and its marks, all but the last. -/
inductive Lexeme (rest : List Char) : List Char → Token → Prop
  | whitespace {u : List Char} {p : Position} :
      u ≠ [] → (∀ c ∈ u, isBlank c = true) → rest.head?.any isBlank = false →
      Lexeme rest u ⟨.whitespace, String.ofList u, p, .none⟩
  | ident {u s : List Char} {p : Position} :
      IsName rest u s → Lexeme rest u ⟨.ident, String.ofList s, p, .none⟩
  | function {u s extra : List Char} {p : Position} :
      IsName ('(' :: (extra ++ rest)) u s → (∀ c ∈ extra, isBlank c = true) →
      (extra ≠ [] → Text.foldCase (String.ofList s) = "url" ∧ rest.head?.any isBlank = true ∧
        opensQuote rest = true) →
      Lexeme rest (u ++ '(' :: extra) ⟨.function, String.ofList s, p, .none⟩
  | address {u s run v address close : List Char} {wellFormed : Bool} {p : Position} :
      IsName ('(' :: (run ++ (v ++ close)) ++ rest) u s →
      Text.foldCase (String.ofList s) = "url" → (∀ c ∈ run, isBlank c = true) →
      (v ++ close ++ rest).head?.any isQuote = false →
      SpellsAddress (close ++ rest) v address → EndsAddress rest close wellFormed →
      Lexeme rest (u ++ '(' :: (run ++ (v ++ close)))
        ⟨if wellFormed then .url else .badUrl, String.ofList address, p, .none⟩
  | atKeyword {u s : List Char} {p : Position} :
      IsName rest u s → Lexeme rest ('@' :: u) ⟨.atKeyword, String.ofList s, p, .none⟩
  | hash {u s : List Char} {p : Position} :
      IsName rest u s →
      Lexeme rest ('#' :: u) ⟨.hash, String.ofList s, p, .name (startsName (u ++ rest))⟩
  | string {q : Quote} {v s close : List Char} {wellFormed : Bool} {p : Position} :
      SpellsString q.char (close ++ rest) v s → EndsString q.char rest close wellFormed →
      Lexeme rest (q.char :: (v ++ close))
        ⟨if wellFormed then .string else .badString, String.ofList s, p, .quoted q⟩
  | number {n : Numeral} {p : Position} :
      n.EndsBefore rest →
      Lexeme rest n.text ⟨.number, String.ofList n.text, p, .numeral n.isInteger⟩
  | percentage {n : Numeral} {p : Position} :
      Lexeme rest (n.text ++ ['%']) ⟨.percentage, String.ofList n.text, p, .numeral n.isInteger⟩
  | dimension {n : Numeral} {u s : List Char} {p : Position} :
      n.EndsBefore (u ++ rest) → IsName rest u s →
      Lexeme rest (n.text ++ u)
        ⟨.dimension, String.ofList n.text, p, .measure n.isInteger (String.ofList s)⟩
  | cdo {p : Position} :
      Lexeme rest ['<', '!', '-', '-'] ⟨.cdo, String.ofList ['<', '!', '-', '-'], p, .none⟩
  | cdc {p : Position} :
      Lexeme rest ['-', '-', '>'] ⟨.cdc, String.ofList ['-', '-', '>'], p, .none⟩
  | punctuation {c : Char} {type : TokenType} {p : Position} :
      (c, type) ∈ punctuation → Lexeme rest [c] ⟨type, String.ofList [c], p, .none⟩
  | delim {c : Char} {p : Position} :
      isMarked c = false ∨ c ∈ ['#', '-', '<', '@'] →
      startsNumber (c :: rest) = false → startsName (c :: rest) = false →
      Lexeme rest [c] ⟨.delim, String.ofList [c], p, .none⟩

/-- A token takes its lexeme from the front of the input and stands at the place of its first
character. -/
def Takes (i : Input) (r : Token × Input) : Prop :=
  ∃ u, i.Behind u r.2 ∧ Lexeme r.2.chars u r.1 ∧ r.1.position = i.position

theorem single_takes {i : Input} {c : Char} {cs : List Char} {type : TokenType}
    (hchars : i.chars = c :: cs)
    (h : Lexeme cs [c] ⟨type, String.ofList [c], i.position, .none⟩) :
    Takes i (single i c type) := by
  obtain ⟨chars, p⟩ := i
  cases hchars
  exact ⟨[c], .single rfl, h, rfl⟩

theorem numeric_takes {i : Input} (h : startsNumber i.chars = true) :
    Takes i (numeric i) := by
  obtain ⟨n, rest, hchars, hends⟩ := exists_numeral h
  obtain ⟨chars, p⟩ := i
  obtain rfl : chars = n.text ++ rest := hchars
  have hbehind : Input.Behind ⟨n.text ++ rest, p⟩ n.text ⟨rest, p.afterAll n.text⟩ := ⟨rfl, rfl⟩
  unfold numeric
  rw [numeral_text n p hends]
  dsimp only
  split
  · next hname =>
      obtain ⟨u, hu, hisName⟩ := name_behind (i := ⟨rest, p.afterAll n.text⟩)
        (nameGoesOn_of_startsName hname)
      refine ⟨n.text ++ u, hbehind.trans hu, .dimension ?_ hisName, rfl⟩
      rw [← hu.chars]
      exact hends
  · split
    · next hpeek =>
        obtain ⟨cs, hcs⟩ := exists_cons_of_peek? hpeek
        exact ⟨n.text ++ ['%'], hbehind.trans (.single hcs), .percentage, rfl⟩
    · exact ⟨n.text, hbehind, .number hends, rfl⟩

/-- Of the blanks before a mark, all but the last are taken. -/
theorem blanks_behind {k body : Input} {run : List Char} (hspan : k.Behind run body)
    (hrun : ∀ c ∈ run, isBlank c = true) (hquote : body.peek?.any isQuote = true) :
    ∃ extra, k.Behind extra (k.drop (run.length - 1)) ∧ (∀ c ∈ extra, isBlank c = true) ∧
      (extra ≠ [] → (k.drop (run.length - 1)).chars.head?.any isBlank = true ∧
        opensQuote (k.drop (run.length - 1)).chars = true) := by
  rcases eq_or_ne run [] with rfl | hne
  · exact ⟨[], .drop k 0, by simp, fun h => absurd rfl h⟩
  · obtain ⟨extra, b, rfl⟩ : ∃ extra b, run = extra ++ [b] :=
      ⟨_, _, (List.dropLast_concat_getLast hne).symm⟩
    have hb : isBlank b = true := hrun b (by simp)
    have hchars : k.chars = extra ++ b :: body.chars := by
      simpa using hspan.chars
    have htake : k.chars.take ((extra ++ [b]).length - 1) = extra := by
      simp [hchars]
    have hdrop : (k.drop ((extra ++ [b]).length - 1)).chars = b :: body.chars := by
      simp [Input.drop, hchars]
    refine ⟨extra, ?_, fun c hc => hrun c (by simp [hc]), fun _ => ?_⟩
    · have hbehind := Input.Behind.drop k ((extra ++ [b]).length - 1)
      rwa [htake] at hbehind
    · rw [hdrop]
      exact ⟨by simpa using hb, by simpa [opensQuote, hb] using .inr hquote⟩

/-- The address or the function is taken with the name in front of it. -/
theorem urlOrFunction_takes {i j : Input} {u s cs : List Char} (hu : i.Behind u j)
    (hname : IsName j.chars u s) (hparen : j.chars = '(' :: cs) :
    Takes i (urlOrFunction i s j.advance) := by
  have hadvance : i.Behind (u ++ ['(']) j.advance := hu.trans (.single hparen)
  have hrest : j.chars = '(' :: j.advance.chars := (Input.Behind.single hparen).chars
  rw [hrest] at hname
  generalize j.advance = k at hadvance hname ⊢
  unfold urlOrFunction
  split
  · next hurl =>
      dsimp only
      have hspan := Input.Behind.span k isBlank
      have hrun : ∀ c ∈ k.chars.takeWhile isBlank, isBlank c = true :=
        fun _ => List.mem_takeWhile_imp
      generalize k.chars.takeWhile isBlank = run at hspan hrun ⊢
      generalize (k.span isBlank).2 = body at hspan ⊢
      split
      · next hquote =>
          obtain ⟨extra, hextra, hblank, hkept⟩ := blanks_behind hspan hrun hquote
          refine ⟨u ++ '(' :: extra, ?_, .function (hextra.chars ▸ hname) hblank ?_, rfl⟩
          · simpa using hadvance.trans hextra
          · exact fun hne => ⟨hurl, hkept hne⟩
      · next hquote =>
          obtain ⟨v, address, close, hbehind, hread, hspells, hends⟩ := urlFrom_behind [] body
          have hwhole := hspan.trans hbehind
          have hbody : (v ++ close ++ (urlFrom [] body).2.2.chars).head?.any isQuote = false := by
            rw [← hbehind.chars]
            simpa [Input.peek?] using hquote
          have hlexeme : Lexeme (urlFrom [] body).2.2.chars (u ++ '(' :: (run ++ (v ++ close)))
              ⟨if (urlFrom [] body).2.1 then .url else .badUrl, String.ofList (urlFrom [] body).1,
                i.position, .none⟩ := by
            rw [show (urlFrom [] body).1 = address from hread]
            refine .address ?_ hurl hrun hbody hspells hends
            rw [List.cons_append, ← hwhole.chars]
            exact hname
          have htaken : i.Behind (u ++ '(' :: (run ++ (v ++ close))) (urlFrom [] body).2.2 := by
            simpa using hadvance.trans hwhole
          generalize urlFrom [] body = r at hlexeme htaken ⊢
          obtain ⟨text, wellFormed, rest⟩ := r
          cases wellFormed <;> exact ⟨_, htaken, hlexeme, rfl⟩
  · exact ⟨u ++ ['('], hadvance, .function hname (by simp) (fun h => absurd rfl h), rfl⟩

theorem identLike_takes {i : Input} (h : startsName i.chars = true) :
    Takes i (identLike i) := by
  obtain ⟨u, hu, hname⟩ := name_behind (nameGoesOn_of_startsName h)
  unfold identLike
  dsimp only
  split
  · next hpeek =>
      obtain ⟨cs, hparen⟩ := exists_cons_of_peek? hpeek
      exact urlOrFunction_takes hu hname hparen
  · exact ⟨u, hu, .ident hname, rfl⟩

theorem string_takes {i : Input} {q : Quote} {cs : List Char} (hchars : i.chars = q.char :: cs) :
    Takes i (string i q) := by
  obtain ⟨v, s, close, hbehind, hread, hspells, hends⟩ := stringFrom_behind q.char [] i.advance
  have hlexeme : Lexeme (stringFrom q.char [] i.advance).2.2.chars (q.char :: (v ++ close))
      ⟨if (stringFrom q.char [] i.advance).2.1 then .string else .badString,
        String.ofList (stringFrom q.char [] i.advance).1, i.position, .quoted q⟩ := by
    rw [show (stringFrom q.char [] i.advance).1 = s from hread]
    exact .string hspells hends
  have htaken := (Input.Behind.single hchars).trans hbehind
  unfold string
  generalize stringFrom q.char [] i.advance = r at hlexeme htaken ⊢
  obtain ⟨text, wellFormed, rest⟩ := r
  cases wellFormed <;> exact ⟨_, htaken, hlexeme, rfl⟩

/-- The marks that are delimiters where they start nothing else start neither a number nor a
name. -/
theorem delim_of_mem {c : Char} {rest : List Char} {p : Position} (h : c = '#' ∨ c = '<' ∨ c = '@') :
    Lexeme rest [c] ⟨.delim, String.ofList [c], p, .none⟩ := by
  have hnumber : startsNumber (c :: rest) = false := by
    rcases h with rfl | rfl | rfl <;>
      exact startsNumber_cons rest (by decide) (by decide) (by decide) (by decide)
  rcases h with rfl | rfl | rfl <;> exact .delim (.inr (by simp)) hnumber rfl

theorem behind_of_isPrefixOf {i : Input} {u : List Char} (h : u.isPrefixOf i.chars = true) :
    i.Behind u (i.drop u.length) := by
  have htake : i.chars.take u.length = u :=
    (List.prefix_iff_eq_take.mp (List.isPrefixOf_iff_prefix.mp h)).symm
  have hbehind := Input.Behind.drop i u.length
  rwa [htake] at hbehind

theorem hash_takes {i : Input} {cs : List Char} (hchars : i.chars = '#' :: cs) :
    Takes i (hash i '#') := by
  have hsingle := Input.Behind.single hchars
  unfold hash
  dsimp only
  split
  · next hname =>
      obtain ⟨u, hu, hisName⟩ := name_behind (i := i.advance) hname
      refine ⟨['#'] ++ u, hsingle.trans hu, ?_, rfl⟩
      rw [hu.chars]
      exact .hash hisName
  · exact single_takes hchars (delim_of_mem (by simp))

theorem angle_takes {i : Input} {cs : List Char} (hchars : i.chars = '<' :: cs) :
    Takes i (token i '<') := by
  rw [token_angle]
  split
  · next hopens => exact ⟨_, behind_of_isPrefixOf hopens, .cdo, rfl⟩
  · exact single_takes hchars (delim_of_mem (by simp))

theorem at_takes {i : Input} {cs : List Char} (hchars : i.chars = '@' :: cs) :
    Takes i (token i '@') := by
  rw [token_at]
  split
  · next hname =>
      obtain ⟨u, hu, hisName⟩ := name_behind (nameGoesOn_of_startsName hname)
      exact ⟨['@'] ++ u, (Input.Behind.single hchars).trans hu, .atKeyword hisName, rfl⟩
  · exact single_takes hchars (delim_of_mem (by simp))

theorem hyphen_takes {i : Input} {cs : List Char} (hchars : i.chars = '-' :: cs) :
    Takes i (token i '-') := by
  rw [token_hyphen]
  split
  · next hnumber => exact numeric_takes hnumber
  · next hnumber =>
      split
      · next hcloses => exact ⟨_, behind_of_isPrefixOf hcloses, .cdc, rfl⟩
      · split
        · next hname => exact identLike_takes hname
        · next hname =>
            rw [hchars, Bool.not_eq_true] at hnumber hname
            exact single_takes hchars (.delim (.inr (by simp)) hnumber hname)

theorem unmarked_takes {i : Input} {c : Char} {cs : List Char} (hchars : i.chars = c :: cs)
    (hc : isMarked c = false) :
    Takes i (token i c) := by
  rw [token_unmarked i hc]
  split
  · next hnumber => exact numeric_takes hnumber
  · next hnumber =>
      split
      · next hname => exact identLike_takes hname
      · next hname =>
          rw [hchars, Bool.not_eq_true] at hnumber hname
          exact single_takes hchars (.delim (.inl hc) hnumber hname)

theorem blank_takes {i : Input} {c : Char} {cs : List Char} (hchars : i.chars = c :: cs)
    (hc : isBlank c = true) :
    Takes i (token i c) := by
  unfold token
  rw [if_pos hc]
  refine ⟨i.chars.takeWhile isBlank, .span i isBlank, .whitespace ?_ ?_ ?_, rfl⟩
  · simp [hchars, hc]
  · exact fun _ => List.mem_takeWhile_imp
  · exact head?_dropWhile_any isBlank i.chars

theorem punctuation_takes {i : Input} {c : Char} {type : TokenType} {cs : List Char}
    (hchars : i.chars = c :: cs) (hc : (c, type) ∈ punctuation) :
    Takes i (token i c) := by
  have htoken : token i c = single i c type := by
    simp only [punctuation, List.mem_cons, Prod.mk.injEq, List.not_mem_nil, or_false] at hc
    rcases hc with ⟨rfl, rfl⟩ | ⟨rfl, rfl⟩ | ⟨rfl, rfl⟩ | ⟨rfl, rfl⟩ | ⟨rfl, rfl⟩ | ⟨rfl, rfl⟩ |
      ⟨rfl, rfl⟩ | ⟨rfl, rfl⟩ | ⟨rfl, rfl⟩ <;> rfl
  rw [htoken]
  exact single_takes hchars (.punctuation hc)

/-- A character that starts a token of a kind of its own. -/
theorem isMarked_cases {c : Char} (h : isMarked c = true) :
    isBlank c = true ∨ (∃ q : Quote, c = q.char) ∨ (∃ type, (c, type) ∈ punctuation) ∨
      c ∈ ['#', '-', '<', '@'] := by
  simp only [isMarked, isQuote, Bool.or_eq_true, beq_iff_eq, List.contains_eq_mem,
    decide_eq_true_eq] at h
  rcases h with (hblank | rfl | rfl) | hmem
  · exact .inl hblank
  · exact .inr (.inl ⟨.double, rfl⟩)
  · exact .inr (.inl ⟨.single, rfl⟩)
  · have hall : ['#', '(', ')', '[', ']', '\x7b', '\x7d', ',', ':', ';', '-', '<', '@'].all
        (punctuation.map Prod.fst ++ ['#', '-', '<', '@']).contains = true := by decide
    have hc := List.contains_iff_mem.mp (List.all_eq_true.mp hall c hmem)
    rcases List.mem_append.mp hc with hpunctuation | hspecial
    · obtain ⟨⟨d, type⟩, hd, rfl⟩ := List.mem_map.mp hpunctuation
      exact .inr (.inr (.inl ⟨type, hd⟩))
    · exact .inr (.inr (.inr hspecial))

/-- The lexer takes a lexeme of the token that it gives. -/
theorem token_takes {i : Input} {c : Char} {cs : List Char} (hchars : i.chars = c :: cs) :
    Takes i (token i c) := by
  cases hmarked : isMarked c with
  | false => exact unmarked_takes hchars hmarked
  | true =>
    rcases isMarked_cases hmarked with hblank | ⟨q, rfl⟩ | ⟨type, hpunctuation⟩ | hspecial
    · exact blank_takes hchars hblank
    · have htoken : token i q.char = string i q := by
        cases q <;> rfl
      rw [htoken]
      exact string_takes hchars
    · exact punctuation_takes hchars hpunctuation
    · simp only [List.mem_cons, List.not_mem_nil, or_false] at hspecial
      rcases hspecial with rfl | rfl | rfl | rfl
      · exact hash_takes hchars
      · exact hyphen_takes hchars
      · exact angle_takes hchars
      · exact at_takes hchars

theorem SpellsName.ne_nil {rest u s : List Char} (h : SpellsName rest u s) (hs : s ≠ []) :
    u ≠ [] := by
  cases h with
  | nil => exact absurd rfl hs
  | char => exact List.cons_ne_nil _ _
  | escape => exact List.cons_ne_nil _ _

/-- A token takes at least one character. -/
theorem Lexeme.ne_nil {rest u : List Char} {t : Token} (h : Lexeme rest u t) :
    u ≠ [] := by
  cases h with
  | whitespace hne => exact hne
  | ident hname => exact hname.spells.ne_nil hname.ne_nil
  | number => exact Numeral.text_ne_nil _
  | dimension => exact fun hnil => Numeral.text_ne_nil _ (List.append_eq_nil_iff.mp hnil).1
  | _ => simp

/-- The end token has no lexeme. -/
theorem Lexeme.type_ne_eof {rest u : List Char} {t : Token} (h : Lexeme rest u t) :
    t.type ≠ .eof := by
  cases h with
  | address =>
    dsimp only
    split <;> decide
  | string =>
    dsimp only
    split <;> decide
  | punctuation hmem =>
    have hall : ∀ d ∈ Output.punctuation, d.2 ≠ .eof := by decide
    exact hall _ hmem
  | _ => simp

/-! ## Comments -/

/-- The text before `rest` is a sequence of comments.  No end of a comment stands inside its body,
and the last comment may lack its end where the source ends. -/
inductive Comments (rest : List Char) : List Char → Prop
  | nil : Comments rest []
  | closed {body u : List Char} :
      ¬ ['*', '/'] <:+: body → Comments rest u →
      Comments rest ('/' :: '*' :: (body ++ '*' :: '/' :: u))
  | unclosed {body : List Char} :
      ¬ ['*', '/'] <:+: body → rest = [] → Comments rest ('/' :: '*' :: body)

/-- The scanner of comments takes the body and the first end behind it. -/
theorem closeComment_behind (cs : List Char) (p : Position) :
    ∃ body, ¬ ['*', '/'] <:+: body ∧
      (Input.Behind ⟨cs, p⟩ (body ++ ['*', '/']) (closeComment cs p) ∨
        Input.Behind ⟨cs, p⟩ body (closeComment cs p) ∧ (closeComment cs p).chars = []) := by
  fun_induction closeComment cs p with
  | case1 p => exact ⟨[], by simp, .inr ⟨.refl _, rfl⟩⟩
  | case2 rest p => exact ⟨[], by simp, .inl (.cons rfl (.cons rfl (.refl _)))⟩
  | case3 c rest p hopen ih =>
      obtain ⟨body, hbody, hbehind⟩ := ih
      refine ⟨c :: body, ?_, ?_⟩
      · rw [List.infix_cons_iff]
        rintro (hfront | hinside)
        · obtain ⟨rfl, htail⟩ := List.cons_prefix_cons.mp hfront
          obtain ⟨ds, rfl⟩ := htail
          rcases hbehind with hclosed | ⟨hunclosed, -⟩
          · exact hopen _ rfl hclosed.chars
          · exact hopen _ rfl hunclosed.chars
        · exact hbody hinside
      · rcases hbehind with hclosed | ⟨hunclosed, hend⟩
        · exact .inl (.cons rfl hclosed)
        · exact .inr ⟨.cons rfl hunclosed, hend⟩

/-- What is passed before a token is a sequence of comments, and no comment stands behind it. -/
theorem skipComments_behind (i : Input) :
    ∃ u, i.Behind u (skipComments i) ∧ Comments (skipComments i).chars u ∧
      startsComment (skipComments i).chars = false := by
  fun_induction skipComments i with
  | case1 i rest hchars ih =>
      obtain ⟨u, hbehind, hcomments, hstops⟩ := ih
      obtain ⟨body, hbody, hclosed | ⟨hunclosed, hend⟩⟩ :=
        closeComment_behind rest ((i.position.after '/').after '*')
      · refine ⟨'/' :: '*' :: (body ++ '*' :: '/' :: u), .cons hchars (.cons rfl ?_),
          .closed hbody hcomments, hstops⟩
        simpa using hclosed.trans hbehind
      · obtain ⟨rfl, hrest⟩ := List.append_eq_nil_iff.mp (hbehind.chars.symm.trans hend)
        refine ⟨'/' :: '*' :: body, .cons hchars (.cons rfl ?_), .unclosed hbody hrest, hstops⟩
        simpa using hunclosed.trans hbehind
  | case2 i hopen =>
      refine ⟨[], .refl i, .nil, ?_⟩
      unfold startsComment
      split
      · next heq => exact absurd heq (hopen _)
      · rfl

end Lexer
end Cascade
