import Cascade.Proofs.SelectorRoundTrip

/-!
# The pretty form of a selector list

The pretty form of a selector list that has been read is parsed to the same list, up to
places and to the whitespace in the arguments of pseudo-classes.  Escapes and comments may
stand anywhere in the source but in these arguments.

**Results.**
* `PseudoClass.Spelled.rereadArgument`: an argument is read back with single spaces.
* `Selector.parseText_pretty`: the pretty form is parsed back.
-/

namespace Cascade
open Lexer Output

/-! ## Arguments without needless whitespace -/

/-- The value without its place, where whitespace is a single space. -/
def Value.spaced : Value → Value
  | .token t => .token t.spaced
  | v => v

/-- The argument without places, trimmed, and with a single space for each whitespace in it. -/
def spacedArgument (vs : List Value) : List Value :=
  (trimWhitespace vs).map Value.spaced

theorem trimWhitespace_tokens (ts : List Token) :
    trimWhitespace (ts.map .token) = (trimTokens ts).map .token := by
  have hclass : Value.isWhitespace ∘ Value.token = Token.isWhitespace := rfl
  simp only [trimWhitespace, trimTokens, List.rdropWhile, List.dropWhile_map, ← List.map_reverse, hclass]

/-- A plain argument is read back without needless whitespace. -/
theorem PseudoClass.Spelled.rereadArgument {p : PseudoClass} (h : p.Spelled false) :
    ∀ vs ∈ p.argument, Cascade.rereadArgument false vs = spacedArgument vs := by
  intro vs hvs
  obtain ⟨ts, rfl, -, -, hwrites⟩ := h vs hvs
  have hshown : shownTokens false ts = (trimTokens ts).map Token.spaced := by
    rw [shownTokens, writtenAfter_none]
    rfl
  rw [hwrites.rereadArgument, hshown, spacedArgument, trimWhitespace_tokens, List.map_map, List.map_map]
  rfl

section Arguments

variable {f g : List Value → List Value}

theorem PseudoClass.unplaced_congr {p : PseudoClass} (h : ∀ vs ∈ p.argument, f vs = g vs) :
    p.unplaced f = p.unplaced g := by
  have hargument : p.argument.map f = p.argument.map g := Option.map_congr h
  rw [PseudoClass.unplaced, hargument]
  rfl

theorem Compound.unplaced_congr {c : Compound}
    (h : ∀ p ∈ c.pseudoClasses, ∀ vs ∈ p.argument, f vs = g vs) :
    c.unplaced f = c.unplaced g := by
  obtain ⟨hconditions, hpseudos⟩ := List.forall_mem_append.mp h
  rw [List.forall_mem_flatMap] at hconditions hpseudos
  have hsubclasses : c.subclasses.map (Subclass.unplaced f) = c.subclasses.map (Subclass.unplaced g) := by
    refine List.map_congr_left fun s hs => ?_
    cases s with
    | pseudo p =>
        have hargument := List.forall_mem_singleton.mp (hconditions _ hs)
        exact congrArg Subclass.pseudo (PseudoClass.unplaced_congr hargument)
    | _ => rfl
  have helements : c.pseudos.map (PseudoElement.unplaced f) = c.pseudos.map (PseudoElement.unplaced g) := by
    refine List.map_congr_left fun e he => ?_
    obtain ⟨helement, hclasses⟩ := List.forall_mem_cons.mp (hpseudos e he)
    have hbehind : e.classes.map (PseudoClass.unplaced f) = e.classes.map (PseudoClass.unplaced g) :=
      List.map_congr_left fun p hp => PseudoClass.unplaced_congr (hclasses p hp)
    rw [PseudoElement.unplaced, PseudoClass.unplaced_congr helement, hbehind]
    rfl
  rw [Compound.unplaced, hsubclasses, helements]
  rfl

/-- Only what is made of the arguments counts. -/
theorem SelectorList.unplaced_congr {list : SelectorList}
    (h : ∀ s ∈ list, ∀ p ∈ s.pseudoClasses, ∀ vs ∈ p.argument, f vs = g vs) :
    list.unplaced f = list.unplaced g := by
  refine List.map_congr_left fun s hs => List.map_congr_left fun part hpart => ?_
  have hcompound := Compound.unplaced_congr (List.forall_mem_flatMap.mp (h s hs) part hpart)
  rw [SelectorPart.unplaced, hcompound]
  rfl

end Arguments

/-! ## The pretty form is parsed back -/

namespace Selector

/-- The pretty form of a selector list that has been read, its selectors joined by a comma and a space,
is parsed to the same list up to places and the whitespace in arguments, if the source has no
comments, no backslashes and no malformed strings and addresses in the arguments of pseudo-classes. -/
theorem parseText_pretty {source : String} {list : SelectorList} (h : parseText source = .ok list)
    (hplain : list.PlainArguments source) :
    ∃ pretty, parseText (", ".intercalate (formatSelectors false list)) = .ok pretty ∧
      pretty.unplaced (List.map Value.unplaced) = list.unplaced spacedArgument := by
  have hwritten := parse_eq_ok_iff.mp h
  have hspelled : ∀ s ∈ list, ∀ p ∈ s.pseudoClasses, p.Spelled false := by
    intro s hs p hp
    obtain ⟨us, hselector, hus⟩ := hwritten.within s hs
    obtain ⟨vs, hpseudo, hvs⟩ := (hselector.within p hp).mono hus
    exact hpseudo.spelled hvs (hplain s hs p hp) false Bool.noConfusion
  have htext : selectorsText false list = ", ".intercalate (formatSelectors false list) := by
    rw [← String.toList_inj, String.toList_intercalate, selectorsText, String.toList_ofList]
    rfl
  obtain ⟨pretty, hpretty, hsame⟩ := parseText_selectorsText (ne_nil_of_parse h)
    (fun s hs => ⟨readFrom_of_parseText h s hs, fun p hp => (hspelled s hs p hp).legible⟩)
    (fun s hs p hp => (hspelled s hs p hp).enclosed) Bool.noConfusion
  rw [htext] at hpretty
  exact ⟨pretty, hpretty, hsame.trans (SelectorList.unplaced_congr fun s hs p hp =>
    (hspelled s hs p hp).rereadArgument)⟩

/-- Escapes and a comment outside of the arguments, a namespace, a string with an escaped line feed, and
whitespace in an argument. -/
def escapedSelectors : String :=
  "ns|d\\69v > .\\31 a[ href ^= \"x\\a y\" i ]:n\\6ft( .a   , b ), /* c */ #\\31  ~ *|*::part( \n c )"

/-- They are parsed back from their pretty form. -/
theorem parseText_pretty_escaped :
    ∃ list, parseText escapedSelectors = .ok list ∧ list.PlainArguments escapedSelectors ∧
      ", ".intercalate (formatSelectors false list) =
        "ns|div > .\\31 a[href^=\"x\\a y\" i]:not(.a , b), #\\31  ~ *|*::part(c)" ∧
      ∃ pretty, parseText (", ".intercalate (formatSelectors false list)) = .ok pretty ∧
        pretty.unplaced (List.map Value.unplaced) = list.unplaced spacedArgument := by
  have hok : (parseText escapedSelectors).toOption.any (fun list =>
      decide (list.PlainArguments escapedSelectors) &&
        ", ".intercalate (formatSelectors false list) ==
          "ns|div > .\\31 a[href^=\"x\\a y\" i]:not(.a , b), #\\31  ~ *|*::part(c)") = true := by
    decide +kernel
  obtain ⟨list, h, hshown⟩ := exists_ok_of_any hok
  rw [Bool.and_eq_true, decide_eq_true_eq, beq_iff_eq] at hshown
  exact ⟨list, h, hshown.1, hshown.2, parseText_pretty h hshown.1⟩

end Selector

end Cascade
