import Cascade.Text.Quoted
import Cascade.Yaml

/-!
# Writing documents

A document as text: entries on lines of their own, deeper ones indented by two.
Words are written without quotes and any other text between double quotes.
-/

namespace Cascade
namespace Yaml

/-- The form of a character between double quotes. -/
def escapedChar (c : Char) : List Char :=
  if c = '"' ∨ c = '\\' then ['\\', c]
  else if c = '\n' then ['\\', 'n']
  else if c = '\t' then ['\\', 't']
  else if c = '\r' then ['\\', 'r']
  else if c.toNat < 0x20 ∨ c.toNat = 0x7F then '\\' :: 'x' :: Text.hexDigits 2 c.toNat
  else [c]

/-- A word that needs no quotes. -/
def isWord (text : String) : Bool :=
  text.toList.head?.any Char.isAlpha &&
    text.toList.all (fun c => c.isAlphanum || c == '-' || c == '_') &&
    Scalar.ofPlain text == .text text

/-- A text as a scalar. -/
def scalarText (text : String) : String :=
  if isWord text then text
  else String.ofList ('"' :: text.toList.flatMap escapedChar ++ ['"'])

/-- Lines indented by two, the first behind a lead. -/
def indentLines (lead : String) : List String → List String
  | [] => [lead]
  | first :: rest => (lead ++ first) :: rest.map ("  " ++ ·)

mutual

/-- The lines of a node. -/
def Node.lines : Node → List String
  | .null => ["null"]
  | .plain text => [text]
  | .quoted text => [scalarText text]
  | .list [] => ["[]"]
  | .list (item :: rest) => itemLines (item :: rest)
  | .map [] => ["\x7b\x7d"]
  | .map (field :: rest) => fieldLines (field :: rest)

/-- The lines of the items of a list. -/
def itemLines : List Node → List String
  | [] => []
  | item :: rest => indentLines "- " item.lines ++ itemLines rest

/-- The lines of the fields of a map. -/
def fieldLines : List (String × Node) → List String
  | [] => []
  | (key, node) :: rest =>
    let shown :=
      match node with
      | .list (_ :: _) => (scalarText key ++ ":") :: node.lines
      | .map (_ :: _) => (scalarText key ++ ":") :: node.lines.map ("  " ++ ·)
      | _ => node.lines.map ((scalarText key ++ ": ") ++ ·)
    shown ++ fieldLines rest

end

/-- The text of a document. -/
def Node.render (node : Node) : String :=
  String.join (node.lines.map (· ++ "\n"))

end Yaml
end Cascade
