import Cascade.Compile
import Cascade.Files.Path
import Cascade.Text.LowerCase

/-!
# Stylesheets inside documents

A document may show stylesheets between fences of three backticks.  `reformat`
writes each plain stylesheet of a document in its usual form and keeps all other
lines.  The lines of a stylesheet are read without the indentation of its fence
and written behind it.  One that cannot be read is kept; one whose fence is never
closed is left out.
-/

namespace Cascade
namespace Markdown

/-- A line of a document, without its end. -/
abbrev Line := List Char

/-- A line without the carriage return at its end. -/
def dropReturn (line : Line) : Line :=
  if line.getLast? = some '\r' then line.dropLast else line

/-- The lines of a document; what ends with a line end has no line behind it. -/
def linesOf (s : List Char) : List Line :=
  let parts := Text.splitAt '\n' s
  let parts := if parts.getLast? = some [] then parts.dropLast else parts
  parts.map dropReturn

/-- The bytes of a line. -/
def lineSize (line : Line) : Nat :=
  line.foldl (fun n c => n + c.utf8Size) 0

/-- The size that a line cannot have. -/
def lineLimit : Nat := 65536

/-- A document with a line that is too long. -/
inductive Fault where
  | lineTooLong
deriving Repr, DecidableEq, Inhabited

/-- The wording of a fault. -/
def Fault.message : Fault → String
  | .lineTooLong => "error reading markdown: bufio.Scanner: token too long"

/-- Three backticks. -/
def fence : List Char := ['\x60', '\x60', '\x60']

/-- The indentation of a line that consists of a mark and white space around it. -/
def indentOf? (mark : List Char) (line : Line) : Option (List Char) :=
  let indent := line.takeWhile Text.isAsciiBlank
  match Text.afterLead? mark (line.drop indent.length) with
  | some rest => if rest.all Text.isAsciiBlank then some indent else none
  | none => none

/-- The indentation of a line that opens a stylesheet. -/
def opens? (line : Line) : Option (List Char) :=
  indentOf? (fence ++ ['c', 's', 's']) line

/-- A line that closes a stylesheet. -/
def closes (line : Line) : Bool :=
  (indentOf? fence line).isSome

/-- The lines of a text, without line ends at its end. -/
def textLines (s : List Char) : List Line :=
  Text.splitAt '\n' (Text.dropLineEnds s)

/-- The text of lines, each with its end. -/
def linesText (lines : List Line) : List Char :=
  lines.flatMap (· ++ ['\n'])

/-- A line of a stylesheet behind the indentation of its fence; a blank one is emptied. -/
def indented (indent : List Char) (line : Line) : Line :=
  if Text.isAllBlank line then [] else indent ++ line

/-- The lines of a stylesheet that has been closed. -/
def blockLines (tidy : String → Option String) (indent : List Char) (body : List Line) :
    List Line :=
  let source := linesText body
  if Text.isAllBlank source then []
  else
    let text := (tidy (String.ofList source)).getD (String.ofList source)
    (textLines text.toList).map (indented indent)

/-- The lines of a document with its stylesheets tidied.  The state is the open stylesheet, if
there is one: the indentation of its fence and its lines so far. -/
def tidyLines (tidy : String → Option String) :
    Option (List Char × List Line) → List Line → List Line
  | _, [] => []
  | none, line :: rest =>
    match opens? line with
    | some indent => line :: tidyLines tidy (some (indent, [])) rest
    | none => line :: tidyLines tidy none rest
  | some (indent, body), line :: rest =>
    if closes line then
      blockLines tidy indent body ++ line :: tidyLines tidy none rest
    else
      tidyLines tidy (some (indent, body ++ [Text.dropLead indent line])) rest

/-- A plain stylesheet in its usual form, if it can be read. -/
def tidySheet (source : String) : Option String :=
  match (Sheet.parse {} "" source).1 with
  | .ok sheet => (formatRules {} sheet.rules).toOption
  | .error _ => none

/-- The document with its stylesheets in their usual form. -/
def reformat (document : String) : Except Fault String :=
  let parts := Text.splitAt '\n' document.toList
  if parts.any (lineLimit ≤ lineSize ·) then .error .lineTooLong
  else
    let lines := tidyLines tidySheet none (linesOf document.toList)
    .ok (String.ofList (Text.dropLineEnds (linesText lines)))

/-- The path names a document. -/
def isDocument (path : List Char) : Bool :=
  Text.lowerCase (String.ofList (Path.extension path)) == ".md"

end Markdown
end Cascade
