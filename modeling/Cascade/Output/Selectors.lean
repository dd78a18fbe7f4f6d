import Cascade.Output.Values
import Cascade.Selector

/-!
# Writing selectors

A nested rule is written beside the rule around it, so its selectors are resolved
against that rule's: a reference to the parent takes the parent's place, and a
selector without one becomes a descendant of each parent.
-/

namespace Cascade
namespace Output

/-- The text of a namespace part. -/
def qualifierText : Option Qualifier → List Char
  | none => []
  | some q =>
    match q.name with
    | none => ['|']
    | some t => if t.isDelim "*" then ['*', '|'] else escapeIdent t.text.toList ++ ['|']

/-- The text of a type selector. -/
def typeText : TypeSelector → List Char
  | .named q ident => qualifierText q ++ escapeIdent ident.text.toList
  | .universal q _ => qualifierText q ++ ['*']

/-- The text of an attribute's value. -/
def attributeValueText (t : Token) : List Char :=
  if t.type = .string then quoteString t.quote t.text.toList else escapeIdent t.text.toList

/-- The text of an attribute selector. -/
def attributeText (a : Attribute) : List Char :=
  let condition :=
    match a.matcher with
    | none => []
    | some m =>
      (m.sign.map (·.text.toList)).getD [] ++ '=' :: (a.value.map attributeValueText).getD []
  let modifier := (a.modifier.map fun t => ' ' :: t.text.toList).getD []
  '[' :: qualifierText a.qualifier ++ escapeIdent a.name.text.toList ++ condition ++ modifier ++ [']']

/-- The text of a pseudo-class. -/
def pseudoText (minify : Bool) (p : PseudoClass) : List Char :=
  let name := ':' :: escapeIdent p.name.text.toList
  match p.argument with
  | none => name
  | some vs => name ++ '(' :: valuesText minify vs ++ [')']

/-- No combinator and no comma stands outside of the brackets of a selector text. -/
def isPlainFrom : Int → List Char → Bool
  | _, [] => true
  | depth, c :: cs =>
    if c = '(' ∨ c = '[' then isPlainFrom (depth + 1) cs
    else if c = ')' ∨ c = ']' then isPlainFrom (depth - 1) cs
    else if depth = 0 ∧ (c = ' ' ∨ c = '>' ∨ c = '+' ∨ c = '~' ∨ c = ',') then false
    else isPlainFrom depth cs

/-- The selector text has neither a combinator nor a comma at its top level. -/
def isPlainCompound (s : List Char) : Bool :=
  isPlainFrom 0 s

/-- What stands for a reference to the parent.  At the start of a compound, or where the parent is a
compound that starts with a sign, it is the parent itself. -/
def nestingText (atStart : Bool) (parent : List Char) : List Char :=
  let startsWithSign := parent.head?.any fun c => c == '.' || c == '#' || c == '[' || c == ':'
  if atStart || parent == ['&'] || (isPlainCompound parent && startsWithSign) then
    parent
  else
    ":is(".toList ++ parent ++ [')']

/-- The text of a condition. -/
def subclassText (minify : Bool) (parent : List Char) (atStart : Bool) : Subclass → List Char
  | .id hash => '#' :: escapeIdent hash.text.toList
  | .className _ ident => '.' :: escapeIdent ident.text.toList
  | .attr a => attributeText a
  | .pseudo p => pseudoText minify p
  | .nesting _ => nestingText atStart parent

/-- The text of a pseudo-element and the pseudo-classes behind it. -/
def pseudoElementText (minify : Bool) (p : PseudoElement) : List Char :=
  ':' :: pseudoText minify p.element ++ p.classes.flatMap (pseudoText minify)

/-- The text of a compound, with a text for references to the parent. -/
def compoundText (minify : Bool) (parent : List Char) (c : Compound) : List Char :=
  let type := (c.type.map typeText).getD []
  let conditions :=
    match c.subclasses with
    | [] => []
    | s :: rest =>
      subclassText minify parent c.type.isNone s ++
        rest.flatMap (subclassText minify parent false)
  type ++ conditions ++ c.pseudos.flatMap (pseudoElementText minify)

/-- The text of a combinator between two compounds. -/
def combinatorText (minify : Bool) (c : Combinator) : List Char :=
  match c with
  | .descendant => [' ']
  | c => if minify then c.sign.toList else ' ' :: c.sign.toList ++ [' ']

/-- The text of a complex selector, with a text for references to the parent. -/
def complexText (minify : Bool) (parent : List Char) : ComplexSelector → List Char
  | [] => []
  | first :: rest =>
    compoundText minify parent first.compound ++
      rest.flatMap fun p => combinatorText minify p.combinator ++ compoundText minify parent p.compound

/-- Selector texts with commas between them. -/
def joinSelectors (minify : Bool) (selectors : List (List Char)) : List Char :=
  (if minify then [','] else [',', ' ']).intercalate selectors

/-- The text for references to the parent: the parent itself, or the list of several. -/
def parentText (minify : Bool) : List (List Char) → List Char
  | [parent] => parent
  | parents => ":is(".toList ++ joinSelectors minify parents ++ [')']

/-- The selectors of a rule inside a rule with the given selectors; at the top level there are none. -/
def resolveSelectors (minify : Bool) (parents : List (List Char)) (list : SelectorList) :
    List (List Char) :=
  list.flatMap fun s =>
    if parents.isEmpty then [complexText minify ":scope".toList s]
    else if s.hasNesting then [complexText minify (parentText minify parents) s]
    else parents.map fun parent => parent ++ ' ' :: complexText minify [] s

end Output

/-- A selector list as texts, in which references to the parent stay. -/
def formatSelectors (minify : Bool) (list : SelectorList) : List String :=
  list.map fun s => String.ofList (Output.complexText minify ['&'] s)

end Cascade
