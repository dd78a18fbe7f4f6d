import Cascade.Compile
import Cascade.Proofs.BracketDepth

/-!
# Which parents are written in place

A reference to the parent that does not start its compound is replaced by the parent
itself, if this is a single compound, and by `:is(…)` otherwise.  Whether it is one is
told from its text: a blank, a comma or the sign of a combinator is looked for outside of
brackets.  The tree of the parent is not looked at.

**Method.**  `Exposes` says that a text has one of these characters at depth zero.  The
text of a selector is put together from its combinators and compounds, each of which is
met at the depth of the compounds before it.

**Results.**
* `isPlainFrom_iff`, `isPlainCompound_complexText_iff`: what the search tells about a text
  and about a selector.
* `Selector.single_of_plain_iff`: when a selector that passes is a single compound.
* `pairs_in_place`: there are others that pass.
-/

namespace Cascade
namespace Output

/-! ## What is looked for -/

/-- A blank, a comma or the sign of a combinator. -/
def isSeparator (c : Char) : Bool :=
  [' ', '>', '+', '~', ','].contains c

/-- One of these characters stands at depth zero, if the text starts at the given depth. -/
def Exposes (depth : Int) (s : List Char) : Prop :=
  ∃ before c after, s = before ++ c :: after ∧ isSeparator c = true ∧ depth + depthChange before = 0

/-- An element of a list with those before it is the first one or one of the others. -/
theorem exists_split_cons {α : Type} {P : List α → α → Prop} {a : α} {as : List α} :
    (∃ before b after, a :: as = before ++ b :: after ∧ P before b) ↔
      P [] a ∨ ∃ before b after, as = before ++ b :: after ∧ P (a :: before) b := by
  constructor
  · rintro ⟨before, b, after, heq, h⟩
    cases before with
    | nil =>
        obtain ⟨rfl, rfl⟩ := List.cons.inj heq
        exact .inl h
    | cons _ before =>
        obtain ⟨rfl, rfl⟩ := List.cons.inj heq
        exact .inr ⟨before, b, after, rfl, h⟩
  · rintro (h | ⟨before, b, after, rfl, h⟩)
    · exact ⟨[], a, as, rfl, h⟩
    · exact ⟨a :: before, b, after, rfl, h⟩

theorem not_exposes_nil (depth : Int) :
    ¬ Exposes depth [] := by
  rintro ⟨before, c, after, heq, -⟩
  cases before <;> cases heq

theorem exposes_cons {depth : Int} {c : Char} {s : List Char} :
    Exposes depth (c :: s) ↔
      isSeparator c = true ∧ depth = 0 ∨ Exposes (depth + bracketStep c) s := by
  unfold Exposes
  rw [exists_split_cons]
  simp [add_assoc]

theorem exposes_append {depth : Int} {s t : List Char} :
    Exposes depth (s ++ t) ↔ Exposes depth s ∨ Exposes (depth + depthChange s) t := by
  induction s generalizing depth with
  | nil => simp [not_exposes_nil]
  | cons c s ih =>
      rw [List.cons_append, exposes_cons, exposes_cons, ih, depthChange_cons, add_assoc, or_assoc]

/-- The search passes a text unless it exposes one of the characters. -/
theorem isPlainFrom_iff {depth : Int} {s : List Char} :
    isPlainFrom depth s = true ↔ ¬ Exposes depth s := by
  induction s generalizing depth with
  | nil => simp [isPlainFrom, not_exposes_nil]
  | cons c s ih =>
      rw [isPlainFrom, exposes_cons]
      split
      · next hopens =>
          have hstep : bracketStep c = 1 := if_pos hopens
          have hseparator : isSeparator c = false := by rcases hopens with rfl | rfl <;> decide
          simp [ih, hstep, hseparator]
      · next hopens =>
          split
          · next hcloses =>
              have hstep : bracketStep c = -1 := by rw [bracketStep, if_neg hopens, if_pos hcloses]
              have hseparator : isSeparator c = false := by rcases hcloses with rfl | rfl <;> decide
              simp [ih, hstep, hseparator, sub_eq_add_neg]
          · next hcloses =>
              have hstep : bracketStep c = 0 := by rw [bracketStep, if_neg hopens, if_neg hcloses]
              have hseparator :
                  isSeparator c = true ↔ c = ' ' ∨ c = '>' ∨ c = '+' ∨ c = '~' ∨ c = ',' := by
                simp [isSeparator]
              rw [hstep, add_zero, hseparator, and_comm (b := depth = 0)]
              split
              · next hfound => simp [hfound]
              · next hfound => simp [ih, hfound]

end Output

open Output

/-! ## What the search finds in a selector -/

/-- The combinator is written with a blank or with a sign that the search looks for. -/
def Combinator.IsSeen (minify : Bool) (c : Combinator) : Prop :=
  minify = true → c ≠ .column

/-- A combinator that is seen, or a character inside of a compound, stands where the brackets inside of
what is before it cancel out. -/
def ComplexSelector.IsExposed (minify : Bool) (parent : List Char) (s : ComplexSelector) : Prop :=
  ∃ before part after, s = before ++ part :: after ∧
    (before ≠ [] ∧ part.combinator.IsSeen minify ∧
        ComplexSelector.strayDepth minify parent before = 0 ∨
      Exposes (ComplexSelector.strayDepth minify parent before)
        (compoundText minify parent part.compound))

namespace Output

section Search

variable {minify : Bool} {parent : List Char}

theorem exposes_combinatorText {depth : Int} {c : Combinator} :
    Exposes depth (combinatorText minify c) ↔ c.IsSeen minify ∧ depth = 0 := by
  cases c <;> cases minify <;>
    simp [combinatorText, Combinator.sign, Combinator.IsSeen, exposes_cons, not_exposes_nil, isSeparator,
      bracketStep]

/-- In the compounds behind the first one, each combinator and each compound is met at the depth of
those before it. -/
theorem exposes_parts {depth : Int} {parts : List SelectorPart} :
    Exposes depth (parts.flatMap fun p =>
        combinatorText minify p.combinator ++ compoundText minify parent p.compound) ↔
      ∃ before part after, parts = before ++ part :: after ∧
        (part.combinator.IsSeen minify ∧
            depth + ComplexSelector.strayDepth minify parent before = 0 ∨
          Exposes (depth + ComplexSelector.strayDepth minify parent before)
            (compoundText minify parent part.compound)) := by
  induction parts generalizing depth with
  | nil => simp [not_exposes_nil]
  | cons part parts ih =>
      rw [List.flatMap_cons, exposes_append, exposes_append, exposes_combinatorText, depthChange_append,
        depthChange_combinatorText, depthChange_compoundText, ih, exists_split_cons]
      simp [ComplexSelector.strayDepth, add_assoc]

/-- A selector passes the search unless a combinator or a character is exposed. -/
theorem isPlainCompound_complexText_iff {s : ComplexSelector} :
    isPlainCompound (complexText minify parent s) = true ↔ ¬ s.IsExposed minify parent := by
  rw [isPlainCompound, isPlainFrom_iff, not_iff_not, ComplexSelector.IsExposed]
  cases s with
  | nil => simp [complexText, not_exposes_nil]
  | cons first others =>
      rw [complexText, exposes_append, exposes_parts, exists_split_cons, depthChange_compoundText]
      simp [ComplexSelector.strayDepth]

/-! ## What is written for a reference -/

/-- The text starts as a condition does. -/
def StartsCondition (s : List Char) : Prop :=
  ∃ c ∈ s.head?, c = '.' ∨ c = '#' ∨ c = '[' ∨ c = ':'

/-- Behind another condition the parent is written as it is if it is a reference again, or if it passes
the search and starts as a condition does. -/
theorem nestingText_eq_self_iff :
    nestingText false parent = parent ↔
      parent = ['&'] ∨ isPlainCompound parent = true ∧ StartsCondition parent := by
  have hstarts : (parent.head?.any fun c => c == '.' || c == '#' || c == '[' || c == ':') = true ↔
      StartsCondition parent := by
    simp [StartsCondition, Option.any_eq_true, or_assoc]
  have hlonger : ":is(".toList ++ parent ++ [')'] ≠ parent := by
    intro h
    have hlength := congrArg List.length h
    simp only [List.length_append, String.length_toList, List.length_singleton] at hlength
    omega
  unfold nestingText
  dsimp only
  split
  · next h =>
      simp only [Bool.false_or, Bool.or_eq_true, Bool.and_eq_true, beq_iff_eq, hstarts] at h
      exact iff_of_true rfl h
  · next h =>
      simp only [Bool.false_or, Bool.or_eq_true, Bool.and_eq_true, beq_iff_eq, hstarts] at h
      exact iff_of_false hlonger h

theorem exists_ne_of_combinatorText (minify : Bool) (c : Combinator) :
    ∃ d ∈ combinatorText minify c, d ≠ '&' := by
  cases c <;> cases minify <;> simp [combinatorText, Combinator.sign]

/-- Only a single compound is written as a reference. -/
theorem length_eq_one_of_complexText {s : ComplexSelector} (h : complexText minify parent s = ['&']) :
    s.length = 1 := by
  match s with
  | [] => cases h
  | [_] => rfl
  | first :: second :: others =>
      obtain ⟨d, hd, hne⟩ := exists_ne_of_combinatorText minify second.combinator
      have hmem : d ∈ complexText minify parent (first :: second :: others) := by
        simp [complexText, hd]
      rw [h, List.mem_singleton] at hmem
      exact absurd hmem hne

end Search

end Output

/-- Where the compounds add nothing, all that is seen is met at depth zero. -/
theorem ComplexSelector.isExposed_iff_of_level {minify : Bool} {parent : List Char} {s : ComplexSelector}
    (h : ∀ part ∈ s, part.compound.strayDepth minify parent = 0) :
    s.IsExposed minify parent ↔
      (∃ part ∈ s.tail, part.combinator.IsSeen minify) ∨
        ∃ part ∈ s, Exposes 0 (compoundText minify parent part.compound) := by
  have hbefore {before after : List SelectorPart} (heq : s = before ++ after) :
      ComplexSelector.strayDepth minify parent before = 0 :=
    List.sum_eq_zero (List.forall_mem_map.mpr fun part hpart => h part (by simp [heq, hpart]))
  constructor
  · rintro ⟨before, part, after, heq, ⟨hne, hseen, -⟩ | hfound⟩
    · obtain ⟨first, others, rfl⟩ := List.exists_cons_of_ne_nil hne
      exact .inl ⟨part, by simp [heq], hseen⟩
    · rw [hbefore heq] at hfound
      exact .inr ⟨part, by simp [heq], hfound⟩
  · rintro (⟨part, hpart, hseen⟩ | ⟨part, hpart, hfound⟩)
    · cases s with
      | nil => cases hpart
      | cons first others =>
          obtain ⟨before, after, rfl⟩ := List.append_of_mem hpart
          exact ⟨first :: before, part, after, rfl, .inl ⟨List.cons_ne_nil _ _, hseen, hbefore rfl⟩⟩
    · obtain ⟨before, after, rfl⟩ := List.append_of_mem hpart
      exact ⟨before, part, after, rfl, .inr (by rwa [hbefore rfl])⟩

namespace Selector

/-- That a selector passes the search only if it is a single compound is true of single compounds and
of selectors in which something is exposed, but of no others.  That it is written in place only then is
also true of selectors that do not start as a condition.  Where the prelude and the text for references
are level, all combinators are exposed but the column in the short form, and so is what the compounds
show outside of brackets. -/
theorem single_of_plain_iff {prelude : List Value} {list : SelectorList} (h : parse prelude = .ok list)
    {s : ComplexSelector} (hs : s ∈ list) (minify : Bool) (parent : List Char) :
    ((isPlainCompound (complexText minify parent s) = true → s.length = 1) ↔
        s.length = 1 ∨ s.IsExposed minify parent) ∧
      ((nestingText false (complexText minify parent s) = complexText minify parent s → s.length = 1) ↔
        s.length = 1 ∨ s.IsExposed minify parent ∨ ¬ StartsCondition (complexText minify parent s)) ∧
      (AllLevel minify prelude → depthChange parent = 0 →
        (s.IsExposed minify parent ↔
          (∃ part ∈ s.tail, part.combinator.IsSeen minify) ∨
            ∃ part ∈ s, Exposes 0 (compoundText minify parent part.compound))) := by
  refine ⟨?_, ?_, fun hlevel hparent => ?_⟩
  · rw [isPlainCompound_complexText_iff]
    tauto
  · have hreference : complexText minify parent s = ['&'] → s.length = 1 :=
      length_eq_one_of_complexText
    rw [nestingText_eq_self_iff, isPlainCompound_complexText_iff]
    tauto
  · have hzero := (parse_eq_ok_iff.mp h).forall_of_forall hlevel fun s us hs hus =>
      hs.strayDepth hus hparent
    exact ComplexSelector.isExposed_iff_of_level (hzero s hs)

/-- The tokens of `.a:not([b]) > .c`. -/
def negatedTokens : List Token :=
  [.bare .delim ".", .bare .ident "a", .bare .colon ":", .bare .function "not",
    .bare .openBracket "[", .bare .ident "b", .bare .closeBracket "]",
    .bare .closeParen ")", .bare .whitespace " ", .bare .delim ">", .bare .whitespace " ",
    .bare .delim ".", .bare .ident "c"]

/-- The same in groups. -/
def negatedPrelude : List Value :=
  [.token (.bare .delim "."), .token (.bare .ident "a"), .token (.bare .colon ":"),
    callOf (.bare .function "not")
      [.block (.bare .openBracket "[") [.token (.bare .ident "b")]
        (some (.bare .closeBracket "]"))]
      (.bare .closeParen ")"),
    .token (.bare .whitespace " "), .token (.bare .delim ">"),
    .token (.bare .whitespace " "), .token (.bare .delim "."), .token (.bare .ident "c")]

theorem makeUp_negatedPrelude :
    MakeUp negatedTokens negatedPrelude := by
  have hbehind : MakeUp (negatedTokens.drop 8) (negatedPrelude.drop 4) :=
    .single rfl rfl (.single rfl rfl (.single rfl rfl (.single rfl rfl (.single rfl rfl .nil))))
  have hattribute := @MakeUp.block (.bare .openBracket "[") (.bare .closeBracket "]") _ _ _ _ rfl
    (.single (t := .bare .ident "b") rfl rfl .nil) .nil
  have hcall := @MakeUp.call (.bare .function "not") (.bare .closeParen ")") _ _ _ _ rfl rfl
    hattribute hbehind
  exact .single rfl rfl (.single rfl rfl (.single rfl rfl hcall))

/-- In the pretty form a combinator behind an argument is exposed. -/
theorem single_of_plain_iff_negated :
    ∃ list, parse negatedPrelude = .ok list ∧ ∃ s ∈ list, s.length = 2 ∧
      ((isPlainCompound (complexText false ['&'] s) = true → s.length = 1) ↔
        s.length = 1 ∨ s.IsExposed false ['&']) ∧
      ((nestingText false (complexText false ['&'] s) = complexText false ['&'] s → s.length = 1) ↔
        s.length = 1 ∨ s.IsExposed false ['&'] ∨ ¬ StartsCondition (complexText false ['&'] s)) ∧
      AllLevel false negatedPrelude ∧ s.IsExposed false ['&'] := by
  have hok : (parse negatedPrelude).toOption.any (fun list => list.map List.length == [2]) = true := by
    decide +kernel
  obtain ⟨list, h, hlength⟩ := exists_ok_of_any hok
  obtain ⟨s, rfl, hs⟩ := List.map_eq_singleton_iff.mp (beq_iff_eq.mp hlength)
  obtain ⟨hplain, hinPlace, hexposed⟩ := single_of_plain_iff h (List.mem_singleton.mpr rfl) false ['&']
  have hlevel : AllLevel false negatedPrelude := (makeUp_negatedPrelude.level (by decide +kernel)).2
  refine ⟨[s], h, s, List.mem_singleton.mpr rfl, hs, hplain, hinPlace, hlevel, ?_⟩
  obtain ⟨first, second, rfl⟩ := List.length_eq_two.mp hs
  exact (hexposed hlevel rfl).mpr (.inl ⟨second, List.mem_singleton.mpr rfl, nofun⟩)

end Selector

/-- A rule for cells of a column, with a reference to it behind a class. -/
def columnParent : String :=
  ".a||.b\x7b& .p&\x7bc:d\x7d\x7d"

/-- Two compounds pass the search, and are written in place of a reference, if the short form has a
column between them, or in both forms if there is a bracket in the name of the first one. -/
theorem pairs_in_place :
    (∃ list, Selector.parseText ".a||.b" = .ok list ∧ ∃ s ∈ list, s.length = 2 ∧
      isPlainCompound (complexText true ['&'] s) = true ∧
      nestingText false (complexText true ['&'] s) = complexText true ['&'] s) ∧
    (∀ minify, ∃ list, Selector.parseText ".a\\) .b" = .ok list ∧ ∃ s ∈ list, s.length = 2 ∧
      isPlainCompound (complexText minify ['&'] s) = true ∧
      nestingText false (complexText minify ['&'] s) = complexText minify ['&'] s) ∧
    compile { style := { minify := true } } "" columnParent = .ok ".a||.b .p.a||.b\x7bc:d\x7d" := by
  have hpair {source : String} {minify : Bool}
      (hok : (Selector.parseText source).toOption.any (fun list => list.any fun s =>
        s.length == 2 && isPlainCompound (complexText minify ['&'] s) &&
          nestingText false (complexText minify ['&'] s) == complexText minify ['&'] s) = true) :
      ∃ list, Selector.parseText source = .ok list ∧ ∃ s ∈ list, s.length = 2 ∧
        isPlainCompound (complexText minify ['&'] s) = true ∧
        nestingText false (complexText minify ['&'] s) = complexText minify ['&'] s := by
    obtain ⟨list, h, hlist⟩ := exists_ok_of_any hok
    obtain ⟨s, hs, hshown⟩ := List.any_eq_true.mp hlist
    simp only [Bool.and_eq_true, beq_iff_eq] at hshown
    exact ⟨list, h, s, hs, hshown.1.1, hshown.1.2, hshown.2⟩
  have hcompiled : (compile { style := { minify := true } } "" columnParent).toOption =
      some ".a||.b .p.a||.b\x7bc:d\x7d" := by
    decide +kernel
  refine ⟨hpair (by decide +kernel), fun minify => hpair ?_, ?_⟩
  · cases minify <;> decide +kernel
  · cases hrun : compile { style := { minify := true } } "" columnParent with
    | error e => simp [hrun, Except.toOption] at hcompiled
    | ok text => simpa [hrun, Except.toOption] using hcompiled

end Cascade
