import Cascade.Text.Lines
import Cascade.Text.Punctuation

/-!
# Text of paragraphs and headings

The words of a paragraph or a heading without their markup: code spans lose
their backticks, and emphasis, strong emphasis and deletion lose their signs where
an opening run of signs meets a closing one.  A line end is a space, or nothing
where the line ends with two spaces or with a backslash that no other one
precedes.

**Algorithm.** A first pass cuts the text into words and runs of signs; each run
knows from its neighbours whether it can open or close.  A second pass goes through
the runs from left to right and matches each closing run with the nearest run of
the same sign that can open.
-/

namespace Cascade
namespace Markdown

/-- A piece of text: words, or a run of signs of which some are left. -/
inductive Piece where
  | words (text : List Char)
  | run (sign : Char) (size left : Nat) (canOpen canClose : Bool)
deriving Repr, Inhabited

/-- A run of signs between two characters. -/
def runBetween (before sign after : Char) (size : Nat) : Piece :=
  let left := !Text.isBlank after && (!Text.isSign after || Text.isBlank before || Text.isSign before)
  let right := !Text.isBlank before && (!Text.isSign before || Text.isBlank after || Text.isSign after)
  if sign = '_' then
    .run sign size size (left && (!right || Text.isSign before)) (right && (!left || Text.isSign after))
  else
    .run sign size size left right

/-- The text up to a run of so many backticks, and the text behind it. -/
def codeEnd? (size : Nat) (seen : Nat) (acc : List Char) :
    List Char → Option (List Char × List Char)
  | [] => if seen = size then some ((acc.drop size).reverse, []) else none
  | c :: rest =>
    if c = '\x60' then codeEnd? size (seen + 1) (c :: acc) rest
    else if seen = size then some ((acc.drop size).reverse, c :: rest)
    else codeEnd? size 0 (c :: acc) rest

/-- The words of a code span: one space at both ends does not count. -/
def codeWords (body : List Char) : List Char :=
  let isEdge (c : Option Char) := c == some ' ' || c == some '\n'
  if !body.all Text.isLayout && isEdge body.head? && isEdge body.getLast? then
    (body.drop 1).dropLast
  else
    body

/-- White space in front of a line end, the other way round: its last character does not count, nor
do the carriage returns behind that one. -/
def keptSpaces (reversed : List Char) : List Char :=
  ((reversed.dropWhile (· == '\r')).drop 1).reverse

/-- A line end with the white space in front of it: two spaces break the line and leave nothing
there, and any other line end leaves a space. -/
def lineBreak (spaces : List Char) : List Char :=
  match spaces.reverse with
  | ' ' :: ' ' :: rest => keptSpaces rest
  | '\r' :: ' ' :: ' ' :: rest => keptSpaces rest
  | reversed => keptSpaces reversed ++ [' ']

/-- The pieces of a text behind a character.  Every step takes a character, so the fuel is the
length of the text. -/
def pieces : Nat → Char → List Char → List Piece
  | 0, _, _ => []
  | _ + 1, _, [] => []
  | fuel + 1, before, c :: rest =>
    let run := (c :: rest).takeWhile (· == c)
    let behind := (c :: rest).drop run.length
    if c = '\\' then
      match before == c, rest with
      | false, '\n' :: rest => pieces fuel '\n' rest
      | false, '\r' :: '\n' :: rest => pieces fuel '\n' rest
      | _, d :: rest =>
        if Text.isAsciiSign d then .words [c, d] :: pieces fuel d rest
        else .words [c] :: pieces fuel c (d :: rest)
      | _, [] => [.words [c]]
    else if c = '\x60' then
      match codeEnd? run.length 0 [] behind with
      | some (body, rest) => .words (codeWords body) :: pieces fuel c rest
      | none => .words run :: pieces fuel c behind
    else if c = '*' ∨ c = '_' ∨ (c = '~' ∧ before ≠ c ∧ run.length ≤ 2) then
      runBetween before c (behind.head?.getD ' ') run.length :: pieces fuel c behind
    else if Text.isLayout c then
      let spaces := (c :: rest).takeWhile fun d => Text.isLayout d && d != '\n'
      match (c :: rest).drop spaces.length with
      | '\n' :: rest => .words (lineBreak spaces) :: pieces fuel '\n' rest
      | _ => .words [c] :: pieces fuel c rest
    else
      .words [c] :: pieces fuel c rest

/-- Two runs cannot meet when one of them goes both ways and their sizes add up to a multiple of
three, unless both sizes are one. -/
def sizesClash (openSize closeSize : Nat) (bothWays : Bool) : Bool :=
  bothWays && (openSize + closeSize) % 3 == 0 && closeSize % 3 != 0

/-- Takes signs from the nearest run that a closing run meets, looking back. -/
def takeOpener (sign : Char) (size left : Nat) (canOpen : Bool) :
    List Piece → Option (Nat × List Piece)
  | [] => none
  | .words text :: rest =>
    (takeOpener sign size left canOpen rest).map fun r => (r.1, .words text :: r.2)
  | .run s z l o c :: rest =>
    if o && s == sign && !sizesClash z size (c || canOpen) then
      let n := if 2 ≤ l && 2 ≤ left then 2 else 1
      some (n, .run s z (l - n) (n < l) c :: rest)
    else
      (takeOpener sign size left canOpen rest).map fun r => (r.1, .run s z l false c :: r.2)

/-- Matches a closing run as often as it can; a run without signs is gone.  Every match takes a
sign, so the fuel is the size of the run. -/
def closeRun (sign : Char) (size : Nat) (canOpen : Bool) : Nat → Nat → List Piece → List Piece
  | _, 0, done => done
  | 0, left, done => .run sign size left canOpen true :: done
  | fuel + 1, left, done =>
    match takeOpener sign size left canOpen done with
    | some (n, done) => closeRun sign size canOpen fuel (left - n) done
    | none => .run sign size left canOpen true :: done

/-- Adds a piece behind those that have been matched. -/
def addPiece (done : List Piece) : Piece → List Piece
  | .run sign size left canOpen true => closeRun sign size canOpen size left done
  | p => p :: done

/-- What is left of a piece. -/
def Piece.text : Piece → List Char
  | .words text => text
  | .run sign _ left _ _ => List.replicate left sign

/-- The words of a text without its markup. -/
def plainText (s : List Char) : List Char :=
  let done := (pieces s.length '\n' s).foldl addPiece []
  Text.trimBlanks (done.reverse.flatMap Piece.text)

end Markdown
end Cascade
