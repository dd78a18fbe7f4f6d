import Cascade.Command

/-!
# Formatting

Writes plain stylesheets, and those that documents show, in their usual form: to
the output, back to their files, or not at all when the command only checks.
-/

namespace Cascade
namespace Command

/-- What to format, and what to do with the result. -/
structure FormatRequest where
  /-- A file or a directory; the empty text and a dash stand for the input. -/
  path : String := ""
  write : Bool := false
  check : Bool := false
deriving Repr, DecidableEq, Inhabited

/-- A text in its usual form; its name says whether it is a document. -/
def formatText (name source : String) : Except CommandError String :=
  if Markdown.isDocument name.toList then
    (Markdown.reformat source).mapError (.markdown name)
  else
    match (Sheet.parse {} name source).1 with
    | .error stop => .error (.stopped stop)
    | .ok sheet => (formatRules {} sheet.rules).mapError .misplaced

/-- Formats one file. -/
def formatFile (options : CommandOptions) (request : FormatRequest) (path : String) :
    Command Unit := do
  let source ← ofExcept (.unreadable path) ((← get).files.read path)
  let text ← ofExcept id (formatText path source)
  if request.check then
    if Text.trim source != Text.trim text then
      throw (.notFormatted path)
  else if request.write then
    if text != source then
      writeFile path text
      if !options.quiet then
        print s!"Formatted: {path}\n"
  else
    print text

/-- The file is a stylesheet or a document. -/
def isFormattable (path : String) : Bool :=
  Text.lowerCase (String.ofList (Path.extension path.toList)) == ".css" ||
    Markdown.isDocument path.toList

/-- Formats the files of a directory. -/
def formatDirectory (options : CommandOptions) (request : FormatRequest) (place : Place) :
    Command Unit := do
  let found := (← get).files.filesBelow place
  let paths := found.map fun (names, _) => Tree.walkPath request.path names
  let failed ← countFailures (formatFile options request) (paths.filter isFormattable)
  if 0 < failed then
    throw (if request.check then .filesNotFormatted failed else .formattingErrors failed)

/-- Formats what is asked for. -/
def format (options : CommandOptions) (request : FormatRequest) : Command Unit := do
  if request.path == "" || request.path == "-" then
    let source ← readInput "stdin"
    print (← ofExcept id (formatText "<stdin>" source))
  else
    match ← ofExcept .unreachable ((← get).files.stat request.path) with
    | (_, .file _) => formatFile options request request.path
    | (place, .directory) => formatDirectory options request place

end Command
end Cascade
