import Cascade.Value

/-!
# Selectors

The tree of a selector list: complex selectors made of compounds that combinators
join.  Every part keeps the tokens it was read from.
-/

namespace Cascade

/-- The namespace part of a name: `ns|`, `*|`, or `|` for no namespace. -/
structure Qualifier where
  name : Option Token
  bar : Token
deriving Repr, DecidableEq, Inhabited

/-- The element that a compound selects. -/
inductive TypeSelector where
  | named (qualifier : Option Qualifier) (ident : Token)
  | universal (qualifier : Option Qualifier) (star : Token)
deriving Repr, DecidableEq, Inhabited

/-- The sign between an attribute and its value: an equals sign, which another sign may precede. -/
structure Matcher where
  sign : Option Token
  equals : Token
deriving Repr, DecidableEq, Inhabited

/-- A condition on an attribute. -/
structure Attribute where
  opener : Token
  qualifier : Option Qualifier
  name : Token
  matcher : Option Matcher
  value : Option Token
  modifier : Option Token
  closer : Token
deriving Repr, DecidableEq, Inhabited

/-- A pseudo-class; the functional form has an argument, which may be empty. -/
structure PseudoClass where
  colon : Token
  name : Token
  argument : Option (List Value)
  closer : Option Token
deriving Repr, Inhabited

/-- A condition on the element that a compound selects. -/
inductive Subclass where
  | id (hash : Token)
  | className (dot ident : Token)
  | attr (condition : Attribute)
  | pseudo (condition : PseudoClass)
  | nesting (ampersand : Token)
deriving Repr, Inhabited

/-- A pseudo-element with the pseudo-classes that follow it; its first colon stands apart. -/
structure PseudoElement where
  colon : Token
  element : PseudoClass
  classes : List PseudoClass
deriving Repr, Inhabited

/-- A compound selector. -/
structure Compound where
  type : Option TypeSelector
  subclasses : List Subclass
  pseudos : List PseudoElement
deriving Repr, Inhabited

/-- How an element stands to the one before it. -/
inductive Combinator where
  | descendant
  | child
  | nextSibling
  | laterSibling
  | column
deriving Repr, DecidableEq, Inhabited

/-- The sign of a combinator. -/
def Combinator.sign : Combinator → String
  | .descendant => " "
  | .child => ">"
  | .nextSibling => "+"
  | .laterSibling => "~"
  | .column => "||"

/-- A compound with the combinator before it and that combinator's tokens. -/
structure SelectorPart where
  combinator : Combinator
  tokens : List Token
  compound : Compound
deriving Repr, Inhabited

/-- A complex selector; the combinator of its first part is that of descendants. -/
abbrev ComplexSelector :=
  List SelectorPart

/-- A selector list. -/
abbrev SelectorList :=
  List ComplexSelector

/-- The place of a condition. -/
def Subclass.start : Subclass → Position
  | .id hash => hash.position
  | .className dot _ => dot.position
  | .attr a => a.opener.position
  | .pseudo p => p.colon.position
  | .nesting ampersand => ampersand.position

/-- The condition is a reference to the parent selector. -/
def Subclass.isNesting : Subclass → Bool
  | .nesting _ => true
  | _ => false

/-- The compound selects nothing at all. -/
def Compound.isEmpty (c : Compound) : Bool :=
  c.type.isNone && c.subclasses.isEmpty && c.pseudos.isEmpty

/-- A compound of the selector refers to the parent selector. -/
def ComplexSelector.hasNesting (s : ComplexSelector) : Bool :=
  s.any fun part => part.compound.subclasses.any Subclass.isNesting

end Cascade
