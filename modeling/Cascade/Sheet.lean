import Cascade.Rule
import Cascade.Selector

/-!
# Stylesheets

The resolved tree of a stylesheet: style rules with their selectors, at-rules
with and without a body, keyframes, and the declarations inside them.
-/

namespace Cascade

/-- A property with its value. -/
structure Declaration where
  name : Token
  colon : Token
  value : List Value
  important : Bool
deriving Repr, Inhabited

/-- An entry of a stylesheet or of a body in it. -/
inductive Entry where
  | declaration (declaration : Declaration)
  /-- A style rule. -/
  | style (prelude : List Value) (selectors : SelectorList) (body : List Entry)
  /-- An at-rule without a body. -/
  | statement (name : Token) (prelude : List Value)
  /-- An at-rule with a body. -/
  | group (name : Token) (prelude : List Value) (opener : Token) (body : List Entry)
      (closer : Option Token)
  /-- A rule whose prelude is no selector, such as a keyframe. -/
  | keyframe (prelude : List Value) (opener : Token) (body : List Entry) (closer : Option Token)
  /-- A value in a body that has not been read. -/
  | loose (value : Value)
deriving Repr, Inhabited

namespace Entry

/-- The place of a style rule: that of its prelude, if it has any. -/
def styleStart (prelude : List Value) : Position :=
  (prelude.head?.map Value.start).getD Position.none

/-- The word for an entry in diagnostics. -/
def typeName : Entry → String
  | .declaration _ => "*parsercommon.Declaration"
  | .style _ _ _ => "*parsercommon.StyleRule"
  | .statement _ _ => "*parsercommon.AtRule"
  | .group _ _ _ _ _ => "*parsercommon.AtRule"
  | .keyframe _ _ _ _ => "*parsercommon.QualifiedRule"
  | .loose v => v.shape.name

end Entry

/-- An at-rule whose body, if it has one, has been read. -/
def AtRule.resolved (r : AtRule) (body : List Entry) : Entry :=
  match r.block with
  | some b => .group r.name r.prelude b.opener body b.closer
  | none => .statement r.name r.prelude

/-- A rule with its body left unread. -/
def Rule.unread : Rule → Entry
  | .atRule r => r.resolved ((r.block.map Block.contents).getD [] |>.map .loose)
  | .qualified r =>
    .keyframe r.prelude r.block.opener (r.block.contents.map .loose) r.block.closer

/-- A resolved stylesheet. -/
structure Sheet where
  file : String
  rules : List Entry
deriving Repr, Inhabited

end Cascade
