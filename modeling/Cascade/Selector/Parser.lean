import Cascade.Reader.Raw
import Cascade.Selector
import Cascade.Token.Lexer

/-!
# Reading selectors

A prelude is cut at its top-level commas, and each piece is read as compounds
joined by combinators.  The prelude may hold plain tokens or values that are
already grouped: an attribute in a block and a pseudo-class in a call are read to
the same tree as their tokens.
-/

namespace Cascade
namespace Scan

/-- The value at an offset is a name or a star. -/
def isNameOrStar (c : Cursor) (n : Nat) : Bool :=
  c.check n .ident || c.checkDelim n "*"

/-- A bar with a name or a star behind it stands at an offset.  Two bars are a combinator. -/
def isQualifier (c : Cursor) (n : Nat) : Bool :=
  c.checkDelim n "|" && isNameOrStar c (n + 1)

/-- A pseudo-element starts with two colons. -/
def isPseudoElement (c : Cursor) : Bool :=
  c.check 0 .colon && c.check 1 .colon

/-- The namespace part of a name, if there is one. -/
def qualifier : Scan (Option Qualifier) := do
  let front ← look (·.peekToken 0)
  let second ← look (·.peekToken 1)
  if ← look fun c => isNameOrStar c 0 && isQualifier c 1 then
    let _ ← next
    let _ ← next
    return second.map fun bar => ⟨front, bar⟩
  else if ← look (isQualifier · 0) then
    let _ ← next
    return front.map fun bar => ⟨none, bar⟩
  else
    return none

/-- A type selector, if there is one. -/
def typeSelector : Scan (Option TypeSelector) := do
  let q ← qualifier
  match ← look (·.peekToken 0) with
  | some t =>
    if t.type = .ident then
      let _ ← next
      return some (.named q t)
    else if t.isDelim "*" then
      let _ ← next
      return some (.universal q t)
    else if q.isSome then
      failAt 0 .nameAfterNamespace
    else
      return none
  | none => if q.isSome then failAt 0 .nameAfterNamespace else return none

/-- The matcher of an attribute, if there is one. -/
def matcher : Scan (Option Matcher) := do
  match ← look (·.peekToken 0) with
  | some t =>
    if t.type = .delim then
      if ["~", "|", "^", "$", "*"].contains t.text then
        let _ ← next
        let equals ← consumeDelim "=" s!"Expected '=' after '{t.text}'"
        return some ⟨some t, equals⟩
      else if t.text = "=" then
        let _ ← next
        return some ⟨none, t⟩
      else
        return none
    else
      return none
  | none => return none

/-- The value of an attribute with its modifier, read behind a matcher. -/
def attributeValue : Scan (Token × Option Token) := do
  skipWhitespace
  match ← look (·.peekToken 0) with
  | none => failAt 0 .attributeValue
  | some value =>
    if value.type = .string ∨ value.type = .ident then
      let _ ← next
      skipWhitespace
      let modifier ←
        match ← look (·.peekToken 0) with
        | none => pure none
        | some t =>
          if t.type = .ident then
            if ["i", "I", "s", "S"].contains t.text then
              let _ ← next
              pure (some t)
            else
              failAt 0 (.attributeModifier t.text)
          else
            pure none
      skipWhitespace
      return (value, modifier)
    else
      failAt 0 .attributeValue

/-- An attribute selector, read behind its bracket. -/
def attributeSelector (opener : Token) : Scan Attribute := do
  skipWhitespace
  let q ← qualifier
  let name ← consume .ident "Expected attribute name"
  skipWhitespace
  let m ← matcher
  let (value, modifier) ←
    if m.isSome then
      let (v, modifier) ← attributeValue
      pure (some v, modifier)
    else
      pure (none, none)
  let closer ← consume .closeBracket "Expected ']'"
  return ⟨opener, q, name, m, value, modifier, closer⟩

/-- A pseudo-class with its colon. -/
def pseudoClass : Scan PseudoClass := do
  let colon ← consume .colon "Expected ':'"
  match ← look (·.peek 0) with
  | some (.token t) =>
    if t.type = .ident then
      let _ ← next
      return ⟨colon, t, none, none⟩
    else if t.type = .function then
      let _ ← next
      let argument ← balanced true
      let closer ← consume .closeParen s!"Expected ')' to close :{t.text}("
      return ⟨colon, t, some argument, some closer⟩
    else
      failAt 0 .pseudoName
  | some (.call name args commas closer) =>
    if closer.isSome then
      let _ ← next
      return ⟨colon, name, some (flattenArguments args commas), closer⟩
    else
      throw (.atToken (.unclosedPseudo name.text) name)
  | _ => failAt 0 .pseudoName

/-- Scans other values from their start and comes back. -/
def inside {α : Type} (vs : List Value) (x : Scan α) : Scan α :=
  fun c =>
    match x (.ofValues vs 0) with
    | .ok a _ => .ok a c
    | .error d _ => .error d c

/-- A subclass selector, if there is one. -/
def subclass : Scan (Option Subclass) := do
  match ← look (·.peek 0) with
  | some (.token t) =>
    if t.type = .hash then
      if t.isIdHash then
        let _ ← next
        return some (.id t)
      else
        failAt 0 (.hashNotIdentifier t.text)
    else if t.isDelim "." then
      let _ ← next
      let ident ← consume .ident "Expected class name after '.'"
      return some (.className t ident)
    else if t.isDelim "&" then
      let _ ← next
      return some (.nesting t)
    else if t.type = .openBracket then
      let _ ← next
      return some (.attr (← attributeSelector t))
    else if t.type = .colon ∧ ¬ (← look (·.check 1 .colon)) then
      return some (.pseudo (← pseudoClass))
    else
      return none
  | some (.block opener contents closer) =>
    if opener.type = .openBracket then
      match closer with
      | none => throw (.atEnd .unclosedAttribute opener.position)
      | some closer =>
        let _ ← next
        return some (.attr (← inside (contents ++ [.token closer]) (attributeSelector opener)))
    else
      return none
  | _ => return none

/-- The subclass selectors of a compound, by a bound on their number. -/
def subclasses : Nat → Scan (List Subclass)
  | 0 => return []
  | n + 1 => do
    match ← subclass with
    | none => return []
    | some s => return s :: (← subclasses n)

/-- The pseudo-classes that follow a pseudo-element, by a bound on their number. -/
def pseudoClasses : Nat → Scan (List PseudoClass)
  | 0 => return []
  | n + 1 => do
    if ← look fun c => c.check 0 .colon && !isPseudoElement c then
      let p ← pseudoClass
      return p :: (← pseudoClasses n)
    else
      return []

/-- The pseudo-elements of a compound, by a bound on their number. -/
def pseudoElements : Nat → Scan (List PseudoElement)
  | 0 => return []
  | n + 1 => do
    if ← look isPseudoElement then
      let colon ← consume .colon "Expected ':'"
      let element ← pseudoClass
      let classes ← pseudoClasses (← look (·.items.length))
      let group : PseudoElement := ⟨colon, element, classes⟩
      return group :: (← pseudoElements n)
    else
      return []

/-- A compound selector, which selects something. -/
def compound : Scan Compound := do
  let type ← typeSelector
  let conditions ← subclasses (← look (·.items.length))
  let pseudos ← pseudoElements (← look (·.items.length))
  let c : Compound := ⟨type, conditions, pseudos⟩
  if c.isEmpty then
    failAt 0 (.noSelector (describeOption (← look (·.peek 0))))
  else
    return c

/-- The combinator at the front with its tokens; none where only blanks separate two compounds.
Behind blanks a bar may start a name instead. -/
def combinator (afterBlank : Bool) : Scan (Option (Combinator × List Token)) := do
  match ← look (·.peekToken 0) with
  | some t =>
    if t.type = .delim then
      match t.text with
      | ">" => sign t .child
      | "+" => sign t .nextSibling
      | "~" => sign t .laterSibling
      | "|" =>
        if afterBlank && (← look (isQualifier · 0)) then
          return none
        else
          let _ ← next
          let second ← consumeDelim "|" "Expected second |"
          return some (.column, [t, second])
      | _ => return none
    else
      return none
  | none => return none
where
  sign (t : Token) (kind : Combinator) : Scan (Option (Combinator × List Token)) := do
    let _ ← next
    return some (kind, [t])

/-- The compounds behind the first one, by a bound on their number. -/
def parts : Nat → Scan (List SelectorPart)
  | 0 => return []
  | n + 1 => do
    if ← look (·.atEnd) then
      return []
    else
      let afterBlank ← look (·.check 0 .whitespace)
      skipWhitespace
      let found ← combinator afterBlank
      if found.isNone ∧ ¬ afterBlank then
        failAt 0 (.unexpectedInSelector (describeOption (← look (·.peek 0))))
      else
        let (kind, tokens) := found.getD (.descendant, [])
        skipWhitespace
        if ← look (·.atEnd) then
          failAt 0 (.danglingCombinator kind.sign)
        else
          let c ← compound
          return ⟨kind, tokens, c⟩ :: (← parts n)

/-- A complex selector up to the end of the values. -/
def complexSelector : Scan ComplexSelector := do
  let first ← compound
  let others ← parts (← look (·.items.length))
  return ⟨.descendant, [], first⟩ :: others

end Scan

namespace Selector

/-- One piece of a prelude, and the place that reports it when it is empty. -/
structure Segment where
  values : List Value
  place : Position
deriving Repr, Inhabited

/-- The change of the bracket depth at a value.  Braces do not count, and neither does a closer that
closes nothing. -/
def depthAfter (depth : Nat) (v : Value) : Nat :=
  if v.hasType .closeParen || v.hasType .closeBracket then depth - 1
  else if v.hasType .openParen || v.hasType .openBracket || v.hasType .function then depth + 1
  else depth

/-- The pieces of a prelude between its top-level commas; the current piece is in reverse. -/
def splitFrom : List Value → Nat → List Value → Position → List Segment
  | [], _, current, place => [⟨current.reverse, place⟩]
  | v :: vs, depth, current, place =>
    if v.hasType .comma && depth == 0 then
      ⟨current.reverse, v.start⟩ :: splitFrom vs depth [] v.start
    else
      splitFrom vs (depthAfter depth v) (v :: current) place

/-- The pieces of a prelude between its top-level commas. -/
def split (vs : List Value) : List Segment :=
  splitFrom vs 0 [] ((vs.head?.map Value.start).getD Position.none)

/-- The complex selector of one piece. -/
def parseSegment (s : Segment) : Except Diagnostic ComplexSelector :=
  match trimWhitespace s.values with
  | [] => .error (.atEnd .emptySelector s.place)
  | vs =>
    match Scan.complexSelector (.ofValues vs 0) with
    | .ok tree _ => .ok tree
    | .error d _ => .error d

/-- The selector list of a prelude. -/
def parse (prelude : List Value) : Except Diagnostic SelectorList :=
  (split prelude).mapM parseSegment

/-- The selector list of a text. -/
def parseText (source : String) : Except Diagnostic SelectorList :=
  parse (valuesOf (tokenize source))

end Selector
end Cascade
