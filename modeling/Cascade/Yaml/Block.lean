import Cascade.Text.Lines
import Cascade.Yaml.Flow

/-!
# Documents by lines

A document is read line by line: deeper lines belong to the entry above them.
Blank lines and comments lie in the gaps between the lines that count.  Block maps
and lists, scalars on one or several lines and flow collections are read; anything
else is refused.
-/

namespace Cascade
namespace Yaml

/-- A line that counts. -/
structure Line where
  /-- What lies between it and the line in front that counts. -/
  gap : Gap
  /-- The spaces in front of its text. -/
  indent : Nat
  /-- A tab stands in front of its text too. -/
  tabbed : Bool
  /-- The text without the blanks at its ends. -/
  text : List Char
  /-- The text with all that follows it in the document. -/
  tail : List Char
deriving Repr, DecidableEq

/-- The places behind the line ends of a text, each with what follows it. -/
def behindBreaks : List Char → List (List Char)
  | [] => []
  | '\r' :: '\n' :: rest => rest :: behindBreaks rest
  | c :: rest => if isBreak c then rest :: behindBreaks rest else behindBreaks rest

/-- The lines that count among lines given by what follows their starts. -/
def linesFrom (gap : Gap) : List (List Char) → List Line
  | [] => []
  | start :: starts =>
    let indented := start.dropWhile (· == ' ')
    let tail := indented.dropWhile isSpace
    let indent := start.length - indented.length
    let tabbed := indented.head? == some '\t'
    let gap := { gap with tab := gap.tab || (tabbed && indent == 0) }
    match tail with
    | [] => linesFrom (gap.addBlank !start.isEmpty) starts
    | '#' :: _ => linesFrom { gap with comment := true } starts
    | c :: _ =>
      if isBreak c then linesFrom (gap.addBlank (start.length != tail.length)) starts
      else
        let text := Text.dropRightWhile isSpace (tail.takeWhile fun c => !isBreak c)
        ⟨gap, indent, tabbed, text, tail⟩ :: linesFrom {} starts

/-- A line that separates documents, given without the blanks at its end. -/
def isMarker (line : List Char) : Bool :=
  line == ['-', '-', '-'] || line == ['.', '.', '.']

/-- The text of the first document. -/
def documentText (s : List Char) : List Char :=
  let bare := Text.dropRightWhile fun c => isSpace c || isBreak c
  let isVoid := fun (l : List Char) => (l.dropWhile isSpace).head?.all fun c => c == '#' || isBreak c
  let lines := Text.splitAt '\n' s
  let lines :=
    match lines.dropWhile isVoid with
    | first :: rest => if bare first == ['-', '-', '-'] then rest else lines
    | [] => lines
  Text.joinWith '\n' (lines.takeWhile fun l => !isMarker (bare l))

/-- The lines of a document that count. -/
def linesOf (s : List Char) : List Line :=
  let text := documentText s
  linesFrom {} (text :: behindBreaks text)

/-- The line from a part of its text on. -/
def Line.fromText (l : Line) (text : List Char) : Line :=
  { l with text := text, tail := l.tail.drop (l.text.length - text.length) }

/-- A tab stands where the structure of the document is given by indentation. -/
def Line.isTabbed (l : Line) : Bool :=
  l.tabbed || l.gap.tab

/-- The text of a list item behind its dash. -/
def item? : List Char → Option (List Char)
  | ['-'] => some []
  | '-' :: c :: rest => if isSpace c then some (c :: rest) else none
  | _ => none

/-- A plain key with what stands behind its colon.  Tabs inside a key do not count. -/
def plainKey? : List Char → Option (List Char × List Char)
  | [] => none
  | c :: rest =>
    if c == ':' && endsKey rest then some ([], rest)
    else if isSpace c && rest.head? == some '#' then none
    else (plainKey? rest).map fun r => (if c == '\t' then r.1 else c :: r.1, r.2)

/-- A key with what stands behind its colon. -/
def keyed? (text : List Char) : Option (String × List Char) :=
  let quoted := fun (r : Except Fault (String × List Char)) =>
    match r with
    | .ok (key, rest) => (plainKey? (skipSpaces rest)).bind fun r =>
        if r.1.isEmpty then some (key, skipSpaces r.2) else none
    | .error _ => none
  match text with
  | '"' :: rest => quoted (doubleQuoted 0 rest)
  | '\'' :: rest => quoted (singleQuoted 0 rest)
  | '[' :: _ => none
  | '\x7b' :: _ => none
  | _ => (plainKey? text).map fun r =>
      (String.ofList (Text.dropRightWhile (· == ' ') r.1), skipSpaces r.2)

/-- Nothing up to the end of the line, or a comment. -/
def isVoid (text : List Char) : Bool :=
  (skipSpaces text).head?.all fun c => c == '#' || isBreak c

/-- The text in front of a comment, without tabs, and whether there is a comment. -/
def beforeComment : List Char → List Char × Bool
  | [] => ([], false)
  | c :: rest =>
    if isSpace c && rest.head? == some '#' then ([], true)
    else
      let (part, comment) := beforeComment rest
      (if c == '\t' then part else c :: part, comment)

/-- A quoted scalar or a flow collection, which may go on in the lines that follow. -/
def closedNode (margin : Nat) (line : Line) (lines : List Line) : Except Fault (Node × List Line) := do
  let (node, rest) ← flowNode margin (2 * line.tail.length + 2) .item line.tail
  if isVoid rest then return (node, lines.dropWhile fun l => rest.length < l.tail.length)
  else throw (.unexpected (rest.head?.getD ' '))

/-- The lines that go on with a plain scalar: they are indented by at least so much, and no comment
ends it in front of them. -/
def plainLines (least : Nat) : List Line → List Line
  | [] => []
  | line :: lines =>
    if line.indent < least || line.gap.comment then []
    else if (beforeComment line.text).2 then [line]
    else line :: plainLines least lines

/-- A plain scalar with the lines that go on with it. -/
def plainNode (least : Nat) (line : Line) (lines : List Line) : Except Fault (Node × List Line) :=
  let (first, comment) := beforeComment line.text
  let more := if comment then [] else plainLines least lines
  let parts := first :: more.map fun l => (beforeComment l.text).1
  match parts.find? fun part => (plainKey? part).isSome with
  | some part => .error (.inlineEntry (String.ofList part))
  | none =>
    if more.any (·.gap.tab) then .error .tabIndent
    else
      let trimmed := fun (part : List Char) => Text.dropRightWhile (· == ' ') part
      let text := more.foldl
        (fun acc l => acc ++ l.gap.text ++ trimmed (beforeComment l.text).1) (trimmed first)
      .ok (.plain (String.ofList text), lines.drop more.length)

/-- A scalar or a flow collection that starts on a line; what goes on with it is indented by at
least so much. -/
def inlineNode (least : Nat) (line : Line) (lines : List Line) : Except Fault (Node × List Line) :=
  match line.text with
  | [] => .ok (.null, lines)
  | '"' :: _ => closedNode least line lines
  | '\'' :: _ => closedNode least line lines
  | '[' :: _ => closedNode least line lines
  | '\x7b' :: _ => closedNode least line lines
  | c :: rest =>
    if isReserved c || (c == '%' && line.indent == 0) || (item? (c :: rest)).isSome then
      .error (.unexpected c)
    else plainNode least line lines

mutual

/-- The node that starts with the first line, below an entry at the margin. -/
def blockNode (margin : Nat) : Nat → List Line → Except Fault (Node × List Line)
  | 0, _ => .error .tooDeep
  | _ + 1, [] => .ok (.null, [])
  | fuel + 1, line :: lines =>
    if (item? line.text).isSome then blockItems fuel line.indent [] (line :: lines)
    else if (keyed? line.text).isSome then blockFields fuel line.indent [] (line :: lines)
    else if line.gap.tab then .error .tabIndent
    else inlineNode margin line lines

/-- The items of a list at an indentation. -/
def blockItems : Nat → Nat → List Node → List Line → Except Fault (Node × List Line)
  | 0, _, _, _ => .error .tooDeep
  | _ + 1, _, acc, [] => .ok (.list acc.reverse, [])
  | fuel + 1, indent, acc, line :: lines =>
    if indent < line.indent then .error .badIndent
    else
      match (if line.indent = indent then item? line.text else none) with
      | none => .ok (.list acc.reverse, line :: lines)
      | some behind => do
        if line.isTabbed then throw .tabIndent
        let text := skipSpaces behind
        let inner := { line.fromText text with indent := indent + 1 + (behind.length - text.length) }
        let (node, rest) ←
          if isVoid text then
            if (lines.head?.any (indent < ·.indent)) then blockNode (indent + 1) fuel lines
            else pure (.null, lines)
          else if (item? text).isSome || (keyed? text).isSome then
            blockNode (indent + 1) fuel (inner :: lines)
          else inlineNode (indent + 1) (line.fromText text) lines
        blockItems fuel indent (node :: acc) rest

/-- The fields of a map at an indentation. -/
def blockFields : Nat → Nat → List (String × Node) → List Line → Except Fault (Node × List Line)
  | 0, _, _, _ => .error .tooDeep
  | _ + 1, _, acc, [] => .ok (.map acc.reverse, [])
  | fuel + 1, indent, acc, line :: lines =>
    if line.indent < indent then .ok (.map acc.reverse, line :: lines)
    else if indent < line.indent then .error .badIndent
    else
      match (if (item? line.text).isSome then none else keyed? line.text) with
      | none => .error (.notEntry (String.ofList line.text))
      | some (key, text) => do
        if line.isTabbed then throw .tabIndent
        if (acc.lookup key).isSome then throw (.duplicateKey key)
        let (node, rest) ←
          if isVoid text then
            match lines with
            | [] => pure (.null, [])
            | next :: _ =>
              if indent < next.indent then blockNode (indent + 1) fuel lines
              else if next.indent = indent && (item? next.text).isSome then
                blockItems fuel indent [] lines
              else pure (.null, lines)
          else inlineNode (indent + 1) (line.fromText text) lines
        blockFields fuel indent ((key, node) :: acc) rest

end

/-- The root node of a document. -/
def parse (source : String) : Except Fault Node := do
  let lines := linesOf source.toList
  match ← blockNode 0 (3 * lines.length + source.length + 3) lines with
  | (node, []) => return node
  | (_, line :: _) => throw (.notEntry (String.ofList line.text))

end Yaml
end Cascade
