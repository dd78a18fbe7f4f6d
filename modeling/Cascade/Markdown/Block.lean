import Cascade.Text.Lines

/-!
# Blocks of documents

The headings, paragraphs and fenced blocks of a document, with the lines they
start on.  A heading starts with up to six number signs or is underlined.  A
fenced block stands between lines of three or more backticks or tildes; the
closing line has at least as many of them as the opening one.  Lines indented by
four and more are no headings and no fences, and outside a paragraph they do not
count.
-/

namespace Cascade
namespace Markdown

/-- A block of a document. -/
inductive Block where
  /-- A heading; one without text has no line. -/
  | heading (level : Nat) (line : Option Nat) (text : List Char)
  | paragraph (text : List Char)
  /-- A fenced block with the line behind its fence. -/
  | fenced (info : List Char) (line : Nat) (body : List (List Char))
deriving Repr, Inhabited

/-- A character that indents a line. -/
def isIndent (c : Char) : Bool :=
  c == ' ' || c == '\t'

/-- The width of the indentation of a line; a tab goes to the next multiple of four. -/
def indentWidth (width : Nat) : List Char → Nat
  | ' ' :: rest => indentWidth (width + 1) rest
  | '\t' :: rest => indentWidth (width + 4 - width % 4) rest
  | _ => width

/-- A line without its indentation, if that is narrow enough for a mark. -/
def marked? (line : List Char) : Option (List Char) :=
  if indentWidth 0 line < 4 then some (line.dropWhile isIndent) else none

/-- The text of a heading behind its signs, without the signs that close it. -/
def headingText (behind : List Char) : List Char :=
  let text := Text.dropRightWhile Text.isLayout (behind.dropWhile Text.isLayout)
  let unclosed := Text.dropRightWhile (· == '#') text
  match unclosed.getLast? with
  | none => []
  | some c => if Text.isLayout c then Text.dropRightWhile Text.isLayout unclosed else text

/-- The level and the text of a heading line. -/
def heading? (line : List Char) : Option (Nat × List Char) := do
  let line ← marked? line
  let level := (line.takeWhile (· == '#')).length
  let behind := line.drop level
  if level = 0 || 6 < level then none
  match behind with
  | [] => return (level, [])
  | c :: _ => if Text.isLayout c then return (level, headingText behind) else none

/-- The level of the heading that a line underlines. -/
def underline? (line : List Char) : Option Nat := do
  if 3 < (line.takeWhile (· == ' ')).length then none
  match Text.dropRightWhile Text.isLayout (line.dropWhile (· == ' ')) with
  | '=' :: rest => if rest.all (· == '=') then some 1 else none
  | '-' :: rest => if rest.all (· == '-') then some 2 else none
  | _ => none

/-- A line that separates: three or more equal signs with white space between them. -/
def isRule (line : List Char) : Bool :=
  match marked? line with
  | some (c :: rest) =>
    let signs := rest.filter fun d => !Text.isLayout d
    (c == '*' || c == '-' || c == '_') && 2 ≤ signs.length && signs.all (· == c)
  | _ => false

/-- A fence: its sign, its size and its indentation. -/
structure Fence where
  sign : Char
  size : Nat
  indent : Nat
deriving Repr, DecidableEq

/-- The fence that a line opens, with the text behind it. -/
def fence? (line : List Char) : Option (Fence × List Char) := do
  let rest ← marked? line
  let sign ← rest.head?
  let size := (rest.takeWhile (· == sign)).length
  let info := Text.trimWhile Text.isLayout (rest.drop size)
  if !(sign == '\x60' || sign == '~') || size < 3 then none
  if sign == '\x60' && info.contains sign then none
  return (⟨sign, size, line.length - rest.length⟩, info)

/-- The fence is closed by a line. -/
def Fence.isClosedBy (f : Fence) (line : List Char) : Bool :=
  match marked? line with
  | none => false
  | some rest =>
    let size := (rest.takeWhile (· == f.sign)).length
    f.size ≤ size && (rest.drop size).all Text.isLayout

/-- The text from a column on, where `column` is the column it starts at; `none` if the indentation
ends before it.  A tab that reaches over the column goes as a whole. -/
def fromColumn? (target column : Nat) : List Char → Option (List Char)
  | [] => if target ≤ column then some [] else none
  | c :: rest =>
    if target ≤ column then some (c :: rest)
    else if c = ' ' then fromColumn? target (column + 1) rest
    else if c = '\t' then fromColumn? target (column + 4 - column % 4) rest
    else none

/-- A line inside a fence starts at the column of the fence; one with less indentation loses what it
has, unless it has nothing else. -/
def Fence.bodyLine (f : Fence) (line : List Char) : List Char :=
  match fromColumn? f.indent 0 line with
  | some text => text
  | none => if line.all isIndent then line else line.dropWhile isIndent

/-- What the line before has left open. -/
inductive Mode where
  | between
  | paragraph (line : Nat) (text : List Char)
  | fenced (fence : Fence) (info : List Char) (line : Nat) (body : List (List Char))
deriving Repr, Inhabited

/-- The block that ends where another one starts. -/
def Mode.close : Mode → List Block
  | .between => []
  | .paragraph _ text => [.paragraph (Text.dropRightWhile Text.isLayout text)]
  | .fenced _ info line body => [.fenced info line body]

/-- A line outside a fence: the blocks it closes, and what it leaves open. -/
def lineOutside (mode : Mode) (number : Nat) (line : List Char) : List Block × Mode :=
  let text := line.dropWhile Text.isLayout
  if text.isEmpty then (mode.close, .between)
  else
    match mode, underline? line with
    | .paragraph start text, some level =>
      ([.heading level (some start) (Text.dropRightWhile Text.isLayout text)], .between)
    | _, _ =>
      match heading? line, fence? line with
      | some (level, text), _ =>
        let start := if text.isEmpty then none else some number
        (mode.close ++ [.heading level start text], .between)
      | none, some (fence, info) => (mode.close, .fenced fence info (number + 1) [])
      | none, none =>
        if isRule line then (mode.close, .between)
        else
          match mode with
          | .paragraph start before => ([], .paragraph start (before ++ '\n' :: text))
          | _ => if (marked? line).isSome then ([], .paragraph number text) else ([], .between)

/-- The blocks of numbered lines. -/
def blocksFrom (mode : Mode) (number : Nat) : List (List Char) → List Block
  | [] => mode.close
  | line :: rest =>
    match mode with
    | .fenced fence info start body =>
      if fence.isClosedBy line then
        .fenced info start body :: blocksFrom .between (number + 1) rest
      else
        blocksFrom (.fenced fence info start (body ++ [fence.bodyLine line])) (number + 1) rest
    | mode =>
      let (blocks, mode) := lineOutside mode number line
      blocks ++ blocksFrom mode (number + 1) rest

/-- The blocks of a document. -/
def blocks (s : List Char) : List Block :=
  let lines := Text.splitAt '\n' s
  blocksFrom .between 1 (if lines.getLast? = some [] then lines.dropLast else lines)

end Markdown
end Cascade
