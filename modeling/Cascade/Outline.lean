import Cascade.Output.Selectors
import Cascade.Output.Values
import Cascade.Sheet
import Cascade.Text.Blank
import Cascade.Yaml

/-!
# Outlines

The tree of a resolved stylesheet, shown either as an indented list of its entries
or as a document.  Values and selectors are written in their short form; white
space and stray semicolons are left out.
-/

namespace Cascade
namespace Outline

/-- A value list in its short form, without white space at its ends. -/
def shortValues (vs : List Value) : String :=
  Text.trim (formatValues true vs)

/-- White space and stray semicolons. -/
def isSkipped : Entry → Bool
  | .loose (.token t) => t.type == .whitespace || t.type == .semicolon
  | _ => false

/-- The line of a keyframe. -/
def keyframeLine (prelude : List Value) (opener : Token) : Nat :=
  ((prelude.head?.map Value.start).getD opener.position).line

/-- A number of a document. -/
def number (n : Nat) : Yaml.Node :=
  .plain (toString n)

mutual

/-- The part of a document that shows an entry. -/
def node : Entry → Yaml.Node
  | .style prelude selectors body =>
    .map [("style", .list ((formatSelectors true selectors).map .quoted)),
      ("line", number (Entry.styleStart prelude).line), ("block", .list (nodes body))]
  | .statement name prelude =>
    .map [("at", .quoted name.text), ("line", number name.position.line),
      ("prelude", .quoted (shortValues prelude))]
  | .group name prelude _ body _ =>
    .map [("at", .quoted name.text), ("line", number name.position.line),
      ("prelude", .quoted (shortValues prelude)), ("block", .list (nodes body))]
  | .keyframe prelude opener body _ =>
    .map [("qualified", .quoted (shortValues prelude)),
      ("line", number (keyframeLine prelude opener)), ("block", .list (nodes body))]
  | .declaration d =>
    .map ([("property", .quoted d.name.text), ("value", .quoted (shortValues d.value))] ++
      if d.important then [("important", .plain "true")] else [])
  | .loose v => .map [("value", .quoted (formatValues true [v]))]

/-- The parts for the entries of a body that count. -/
def nodes : List Entry → List Yaml.Node
  | [] => []
  | e :: rest => if isSkipped e then nodes rest else node e :: nodes rest

end

/-- The document that shows a stylesheet. -/
def document (rules : List Entry) : Yaml.Node :=
  .map [("rules", .list (rules.map node))]

/-- One line of the list, at a level. -/
def textLine (level : Nat) (text : String) : String :=
  String.ofList (List.replicate (2 * level) ' ') ++ text ++ "\n"

mutual

/-- The lines for an entry at a level. -/
def lines (level : Nat) : Entry → String
  | .style _ selectors body =>
    textLine level ("StyleRule " ++ String.intercalate ", " (formatSelectors true selectors)) ++
      linesOf (level + 1) body
  | .statement name prelude => textLine level s!"AtRule @{name.text} {shortValues prelude}"
  | .group name prelude _ body _ =>
    textLine level s!"AtRule @{name.text} {shortValues prelude}" ++ linesOf (level + 1) body
  | .keyframe prelude _ body _ =>
    textLine level s!"QualifiedRule {shortValues prelude}" ++ linesOf (level + 1) body
  | .declaration d =>
    let important := if d.important then " !important" else ""
    textLine level s!"Declaration {d.name.text}: {shortValues d.value}{important}"
  | .loose v => textLine level (v.shape.name ++ " " ++ formatValues true [v])

/-- The lines for the entries that count. -/
def linesOf (level : Nat) : List Entry → String
  | [] => ""
  | e :: rest => if isSkipped e then linesOf level rest else lines level e ++ linesOf level rest

end

/-- The indented list that shows a stylesheet. -/
def text (rules : List Entry) : String :=
  linesOf 0 rules

end Outline
end Cascade
