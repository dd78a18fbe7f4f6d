import Cascade.Output.Values

/-!
# Sums in the short form

A plus or minus sign between two operands, with blanks on both sides, adds or subtracts
them.  The short form of a value list keeps the blanks on both sides, at any depth of calls
and blocks, unless a parenthesis stands behind the sign: then the ones behind it are lost.

**Method.**  `fill nestings vs` puts a value list `vs` into nested blocks and arguments.
Whether a space is written between two values depends on these two only, and a block or a
call is the same neighbour whatever it holds.  So the text around `vs` does not depend on
`vs`, and in a list a run of blanks is written or left out as a whole.

**Results.**
* `valuesText_fill`: the text of a value list stands as it is in the text of what is around.
* `addition_written`: how a sum is written, and when it keeps its blanks.
-/

namespace Cascade
open Output

/-! ## Places inside values -/

/-- A place for a value list: in brackets, or as one of the arguments of a call. -/
inductive Slot where
  | block (opener : Token) (closer : Option Token)
  | argument (name : Token) (earlier later : List (List Value)) (commas : List Token)
      (closer : Option Token)

/-- The value that has the list at the place. -/
def Slot.wrap : Slot → List Value → Value
  | .block opener closer, vs => .block opener vs closer
  | .argument name earlier later commas closer, vs =>
    .call name (earlier ++ vs :: later) commas closer

/-- A value with a place for a value list, among other values. -/
structure Nesting where
  front : List Value
  slot : Slot
  back : List Value

/-- The values with the list at the innermost of the places; the outermost one comes first. -/
def fill : List Nesting → List Value → List Value
  | [], vs => vs
  | s :: nestings, vs => s.front ++ s.slot.wrap (fill nestings vs) :: s.back

/-! ## Text before and behind a value -/

/-- What is written before a visible value that stands behind the given ones. -/
def textBefore (minify : Bool) (w : Value) (before : Option Value) : List Value → List Char
  | [] => []
  | v :: vs =>
    if v.isWhitespace then
      if keepsSpace minify before (vs ++ [w]) then
        ' ' :: textBefore minify w before vs
      else
        textBefore minify w before vs
    else
      valueText minify v ++ textBefore minify w (some v) vs

variable (minify : Bool)

theorem keepsSpace_append {w : Value} (hw : w.isWhitespace = false) (before : Option Value)
    (front back : List Value) :
    keepsSpace minify before (front ++ w :: back) = keepsSpace minify before (front ++ [w]) := by
  simp [keepsSpace, List.find?_append, hw]

/-- A visible value parts the text of a list. -/
theorem valuesAfter_append {w : Value} (hw : w.isWhitespace = false) (before : Option Value)
    (front back : List Value) :
    valuesAfter minify before (front ++ w :: back) =
      textBefore minify w before front ++
        (valueText minify w ++ valuesAfter minify (some w) back) := by
  induction front generalizing before with
  | nil => simp [valuesAfter, textBefore, hw]
  | cons v front ih =>
    simp only [List.cons_append, valuesAfter, textBefore,
      keepsSpace_append minify hw before front back]
    split
    · split
      · rw [ih, List.cons_append]
      · exact ih before
    · rw [ih, List.append_assoc]

/-- A run of blanks between two values is written as a whole, or not at all. -/
theorem valuesAfter_blanks {gap : List Value} (hgap : ∀ v ∈ gap, v.isWhitespace = true) {w : Value}
    (hw : w.isWhitespace = false) (a : Value) (back : List Value) :
    valuesAfter minify (some a) (gap ++ w :: back) =
      (if !minify || needsSpace a w then List.replicate gap.length ' ' else []) ++
        (valueText minify w ++ valuesAfter minify (some w) back) := by
  induction gap with
  | nil => simp [valuesAfter, hw]
  | cons v gap ih =>
    obtain ⟨hv, hgap⟩ := List.forall_mem_cons.mp hgap
    have hfind : (gap ++ w :: back).find? (fun v => !v.isWhitespace) = some w := by
      rw [List.find?_append, List.find?_eq_none.mpr (by simpa using hgap)]
      simp [hw]
    have hkeeps : keepsSpace minify (some a) (gap ++ w :: back) = (!minify || needsSpace a w) := by
      simp [keepsSpace, hfind]
    rw [List.cons_append, valuesAfter, if_pos hv, hkeeps, ih hgap]
    split <;> rfl

/-- Values that are the same neighbours have the same text behind them. -/
theorem valuesAfter_congr {a a' : Value} (h : ∀ b, needsSpace a b = needsSpace a' b)
    (vs : List Value) :
    valuesAfter minify (some a) vs = valuesAfter minify (some a') vs := by
  induction vs with
  | nil => rfl
  | cons v vs ih =>
    have hkeeps : keepsSpace minify (some a) vs = keepsSpace minify (some a') vs := by
      unfold keepsSpace
      split <;> simp_all
    simp only [valuesAfter, hkeeps, ih]

/-- Values that are the same neighbours have the same text before them. -/
theorem textBefore_congr {w w' : Value} (hw : w.isWhitespace = false)
    (hw' : w'.isWhitespace = false) (h : ∀ a, needsSpace a w = needsSpace a w') (before : Option Value) (front : List Value) :
    textBefore minify w before front = textBefore minify w' before front := by
  induction front generalizing before with
  | nil => rfl
  | cons v front ih =>
    have hkeeps : keepsSpace minify before (front ++ [w]) =
        keepsSpace minify before (front ++ [w']) := by
      unfold keepsSpace
      rw [List.find?_append, List.find?_append]
      cases before with
      | none => rfl
      | some a => cases front.find? (fun v => !v.isWhitespace) <;> simp [hw, hw', h]
    simp only [textBefore, hkeeps, ih]

/-! ## Text around a place -/

theorem needsSpace_wrap_left (p : Slot) (vs : List Value) (b : Value) :
    needsSpace (p.wrap vs) b = needsSpace (p.wrap []) b := by
  cases p <;> rfl

theorem needsSpace_wrap_right (p : Slot) (vs : List Value) (a : Value) :
    needsSpace a (p.wrap vs) = needsSpace a (p.wrap []) := by
  cases p <;> rfl

theorem isWhitespace_wrap (p : Slot) (vs : List Value) :
    (p.wrap vs).isWhitespace = false := by
  cases p <;> rfl

theorem argumentsText_cons (arg : List Value) {args : List (List Value)} (hargs : args ≠ []) :
    argumentsText minify (arg :: args) =
      valuesText minify arg ++ (if minify then [','] else [',', ' ']) ++
        argumentsText minify args := by
  obtain ⟨next, args, rfl⟩ := List.exists_cons_of_ne_nil hargs
  rfl

theorem argumentsText_append (earlier later : List (List Value)) :
    ∃ before behind, ∀ vs, argumentsText minify (earlier ++ vs :: later) =
      before ++ valuesText minify vs ++ behind := by
  induction earlier with
  | nil =>
    cases later with
    | nil => exact ⟨[], [], fun vs => by simp [argumentsText, valuesText]⟩
    | cons next later =>
      refine ⟨[], (if minify then [','] else [',', ' ']) ++ argumentsText minify (next :: later),
        fun vs => ?_⟩
      rw [List.nil_append, argumentsText_cons minify vs (List.cons_ne_nil _ _), List.nil_append,
        List.append_assoc]
  | cons arg earlier ih =>
    obtain ⟨before, behind, htext⟩ := ih
    refine ⟨valuesText minify arg ++ (if minify then [','] else [',', ' ']) ++ before, behind,
      fun vs => ?_⟩
    rw [List.cons_append, argumentsText_cons minify arg (by simp), htext]
    simp only [List.append_assoc]

theorem valueText_wrap (p : Slot) :
    ∃ before behind, ∀ vs, valueText minify (p.wrap vs) =
      before ++ valuesText minify vs ++ behind := by
  cases p with
  | block opener closer => exact ⟨opener.text.toList, closerText opener.type, fun vs => rfl⟩
  | argument name earlier later commas closer =>
    obtain ⟨before, behind, htext⟩ := argumentsText_append minify earlier later
    refine ⟨escapeIdent name.text.toList ++ '(' :: before, behind ++ [')'], fun vs => ?_⟩
    rw [Slot.wrap, valueText, htext]
    simp

/-- The text around a value list does not depend on the list, at any depth. -/
theorem valuesText_fill (nestings : List Nesting) :
    ∃ before behind, ∀ vs, valuesText minify (fill nestings vs) =
      before ++ valuesText minify vs ++ behind := by
  induction nestings with
  | nil => exact ⟨[], [], fun vs => by simp [fill]⟩
  | cons s nestings ih =>
    obtain ⟨inner, innerBehind, hinner⟩ := ih
    obtain ⟨opening, closing, hwrap⟩ := valueText_wrap minify s.slot
    refine ⟨textBefore minify (s.slot.wrap []) none s.front ++ opening ++ inner,
      innerBehind ++ closing ++ valuesAfter minify (some (s.slot.wrap [])) s.back, fun vs => ?_⟩
    have hvisible := isWhitespace_wrap s.slot
    rw [fill, valuesText, valuesAfter_append minify (hvisible _), hwrap, hinner,
      textBefore_congr minify (hvisible _) (hvisible []) (needsSpace_wrap_right s.slot _),
      valuesAfter_congr minify (needsSpace_wrap_left s.slot _)]
    simp only [List.append_assoc]

/-! ## Sums -/

/-- The value ends an operand: it is a number, a name, a call or in parentheses, or it closes a
call or parentheses. -/
def Value.endsOperand : Value → Bool
  | .token t => [TokenType.number, .percentage, .dimension, .ident, .closeParen].contains t.type
  | .block opener _ _ => opener.type == .openParen
  | .call _ _ _ _ => true
  | .reference _ _ => false

/-- The value starts an operand: it is a number, a name, a call or in parentheses, or it opens a
call or parentheses. -/
def Value.startsOperand : Value → Bool
  | .token t =>
    [TokenType.number, .percentage, .dimension, .ident, .function, .openParen].contains t.type
  | .block opener _ _ => opener.type == .openParen
  | .call _ _ _ _ => true
  | .reference _ _ => false

theorem Value.neighbour_of_endsOperand {v : Value} (h : v.endsOperand = true) :
    v.isWhitespace = false ∧ opensRun v = false := by
  cases v with
  | token t =>
    simp only [endsOperand, List.contains_iff_mem, List.mem_cons, List.not_mem_nil, or_false] at h
    rcases h with h | h | h | h | h <;> simp [isWhitespace, opensRun, hasType, h]
  | block => exact ⟨rfl, rfl⟩
  | call => exact ⟨rfl, rfl⟩
  | reference => cases h

theorem Value.neighbour_of_startsOperand {v : Value} (h : v.startsOperand = true) :
    v.isWhitespace = false ∧ endsRun v = false := by
  cases v with
  | token t =>
    simp only [startsOperand, List.contains_iff_mem, List.mem_cons, List.not_mem_nil, or_false] at h
    rcases h with h | h | h | h | h | h <;> simp [isWhitespace, endsRun, hasType, h]
  | block => exact ⟨rfl, rfl⟩
  | call => exact ⟨rfl, rfl⟩
  | reference => cases h

/-- A sign between two operands, with blanks on both sides. -/
structure Addition (left right : Value) where
  before : List Value
  sign : Token
  behind : List Value
  endsOperand : left.endsOperand = true
  startsOperand : right.startsOperand = true
  isSign : (sign.isDelim "+" || sign.isDelim "-") = true
  before_ne_nil : before ≠ []
  behind_ne_nil : behind ≠ []
  isWhitespace_before : ∀ v ∈ before, v.isWhitespace = true
  isWhitespace_behind : ∀ v ∈ behind, v.isWhitespace = true

namespace Addition

variable {left right : Value}

/-- The sum with a space on both sides of its sign. -/
def spaced (sign : Token) (hleft : left.endsOperand = true) (hright : right.startsOperand = true)
    (hsign : (sign.isDelim "+" || sign.isDelim "-") = true) : Addition left right where
  before := [.token ⟨.whitespace, " ", Position.none, .none⟩]
  sign := sign
  behind := [.token ⟨.whitespace, " ", Position.none, .none⟩]
  endsOperand := hleft
  startsOperand := hright
  isSign := hsign
  before_ne_nil := List.cons_ne_nil _ _
  behind_ne_nil := List.cons_ne_nil _ _
  isWhitespace_before := List.forall_mem_singleton.mpr rfl
  isWhitespace_behind := List.forall_mem_singleton.mpr rfl

/-- The values of the sum. -/
def values (s : Addition left right) : List Value :=
  left :: s.before ++ .token s.sign :: s.behind ++ [right]

/-- The text of the sum with spaces for the blanks on both sides of the sign. -/
def spacedText (s : Addition left right) : List Char :=
  valueText true left ++ List.replicate s.before.length ' ' ++ s.sign.text.toList ++
    List.replicate s.behind.length ' ' ++ valueText true right

/-- The text of the sum as the short form has it. -/
def shortText (s : Addition left right) : List Char :=
  valueText true left ++ List.replicate s.before.length ' ' ++ s.sign.text.toList ++
    (if startsParen right then [] else List.replicate s.behind.length ' ') ++ valueText true right

theorem shortText_eq_iff (s : Addition left right) :
    s.shortText = s.spacedText ↔ startsParen right = false := by
  cases hparen : startsParen right with
  | false => simp [shortText, spacedText, hparen]
  | true => simp [shortText, spacedText, hparen, s.behind_ne_nil]

theorem sign_type (s : Addition left right) :
    s.sign.type = .delim := by
  have hsign := s.isSign
  simp only [Bool.or_eq_true, Token.isDelim_iff] at hsign
  rcases hsign with h | h <;> exact h.1

/-- The blanks before the sign are kept. -/
theorem needsSpace_left (s : Addition left right) :
    needsSpace left (.token s.sign) = true := by
  have hleft := (Value.neighbour_of_endsOperand s.endsOperand).2
  simp [needsSpace, hleft, endsRun, startsParen, Value.hasType, s.sign_type]

/-- The blanks behind the sign are kept, unless a parenthesis follows. -/
theorem needsSpace_right (s : Addition left right) :
    needsSpace (.token s.sign) right = !startsParen right := by
  have hright := (Value.neighbour_of_startsOperand s.startsOperand).2
  simp [needsSpace, hright, opensRun, endsWord, Value.hasType, s.sign_type]

theorem valueText_sign (s : Addition left right) :
    valueText true (.token s.sign) = s.sign.text.toList := by
  simp [valueText, tokenText, s.sign_type]

/-- The text of a list stands around the text of a sum in it. -/
theorem valuesText_append (s : Addition left right) (front back : List Value) :
    valuesText true (front ++ s.values ++ back) =
      textBefore true left none front ++ s.shortText ++ valuesAfter true (some right) back := by
  have hleft := (Value.neighbour_of_endsOperand s.endsOperand).1
  have hright := (Value.neighbour_of_startsOperand s.startsOperand).1
  have hsign : (Value.token s.sign).isWhitespace = false := by
    simp [Value.isWhitespace, Value.hasType, s.sign_type]
  have hvalues : front ++ s.values ++ back =
      front ++ left :: (s.before ++ .token s.sign :: (s.behind ++ right :: back)) := by
    simp [values]
  rw [hvalues, valuesText, valuesAfter_append true hleft,
    valuesAfter_blanks true s.isWhitespace_before hsign,
    valuesAfter_blanks true s.isWhitespace_behind hright, s.needsSpace_left, s.needsSpace_right,
    s.valueText_sign, shortText]
  cases startsParen right <;> simp

end Addition

/-- Wherever a sum stands, at any depth, the short form has it with its blanks on both sides, unless
a parenthesis follows the sign: then the blanks behind the sign are left out. -/
theorem addition_written (nestings : List Nesting) (front back : List Value) (left right : Value) :
    ∃ before behind : List Char, ∀ s : Addition left right,
      formatValues true (fill nestings (front ++ s.values ++ back)) =
          String.ofList (before ++ s.shortText ++ behind) ∧
        (s.shortText = s.spacedText ↔ startsParen right = false) := by
  obtain ⟨before, behind, htext⟩ := valuesText_fill true nestings
  refine ⟨before ++ textBefore true left none front, valuesAfter true (some right) back ++ behind,
    fun s => ⟨?_, s.shortText_eq_iff⟩⟩
  rw [formatValues, htext, s.valuesText_append]
  simp only [List.append_assoc]

/-- The values of `(…) * 2` as the argument of `calc`, with a place in the parentheses. -/
def calcNestings : List Nesting :=
  [⟨[], .argument ⟨.function, "calc", Position.none, .none⟩ [] [] [] none, []⟩,
    ⟨[], .block ⟨.openParen, "(", Position.none, .none⟩ none,
      [.token ⟨.whitespace, " ", Position.none, .none⟩, .token ⟨.delim, "*", Position.none, .none⟩,
        .token ⟨.whitespace, " ", Position.none, .none⟩,
        .token ⟨.number, "2", Position.none, .numeral true⟩]⟩]

/-- The dimension as a value. -/
def dimensionOf (number unit : String) : Value :=
  .token ⟨.dimension, number, Position.none, .measure true unit⟩

/-- The difference `1px - 2em`. -/
def pixelsWithoutEms : Addition (dimensionOf "1" "px") (dimensionOf "2" "em") :=
  .spaced ⟨.delim, "-", Position.none, .none⟩ rfl rfl (by decide)

/-- A difference in parentheses in the argument of a call keeps its blanks. -/
theorem addition_written_calc :
    formatValues true (fill calcNestings ([] ++ pixelsWithoutEms.values ++ [])) =
        "calc((1px - 2em) * 2)" ∧
      (∃ before behind : List Char,
        "calc((1px - 2em) * 2)".toList = before ++ pixelsWithoutEms.shortText ++ behind) ∧
      pixelsWithoutEms.shortText = pixelsWithoutEms.spacedText := by
  have hwritten : formatValues true (fill calcNestings ([] ++ pixelsWithoutEms.values ++ [])) =
      "calc((1px - 2em) * 2)" := by
    decide +kernel
  obtain ⟨before, behind, htext⟩ :=
    addition_written calcNestings [] [] (dimensionOf "1" "px") (dimensionOf "2" "em")
  obtain ⟨hshort, hspaced⟩ := htext pixelsWithoutEms
  refine ⟨hwritten, ⟨before, behind, ?_⟩, hspaced.mpr rfl⟩
  rw [← hwritten, hshort, String.toList_ofList]

/-- The sum `1px + (2px)`. -/
def pixelsWithParentheses : Addition (dimensionOf "1" "px")
    (.block ⟨.openParen, "(", Position.none, .none⟩ [dimensionOf "2" "px"] none) :=
  .spaced ⟨.delim, "+", Position.none, .none⟩ rfl rfl (by decide)

/-- The blanks behind the sign are lost before a parenthesis. -/
theorem space_lost_before_parenthesis :
    ¬ ∀ (nestings : List Nesting) (front back : List Value) (left right : Value)
      (s : Addition left right),
      s.spacedText <:+: (formatValues true (fill nestings (front ++ s.values ++ back))).toList := by
  intro hspaced
  have hwritten : formatValues true
      (fill (calcNestings.take 1) ([] ++ pixelsWithParentheses.values ++ [])) =
        "calc(1px +(2px))" := by
    decide +kernel
  have hinfix := hspaced (calcNestings.take 1) [] [] _ _ pixelsWithParentheses
  rw [hwritten] at hinfix
  exact absurd hinfix (by decide +kernel)

end Cascade
