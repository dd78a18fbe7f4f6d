import Cascade.Text.Lines

/-!
# Indented literals

A literal that starts on the line behind its opening mark is indented like the
code around it.  `trimIndent` takes that indentation off: the line of the mark
goes, and every other line loses the indentation of the first one.
-/

namespace Cascade
namespace Text

/-- Leading tabs as two spaces each. -/
def expandLeadingTabs (line : List Char) : List Char :=
  List.replicate (2 * (line.takeWhile (· == '\t')).length) ' ' ++ line.dropWhile (· == '\t')

/-- One line without the indentation; a blank one is emptied. -/
def trimIndentLine (indent line : List Char) : List Char :=
  if isAllBlank line then [] else expandLeadingTabs (dropLead indent line)

/-- The literal without its first line and without the indentation of its second. -/
def trimIndent (s : String) : String :=
  match splitAt '\n' s.toList with
  | _ :: first :: rest =>
    let indent := first.takeWhile isAsciiBlank
    String.ofList (joinWith '\n' ((first :: rest).map (trimIndentLine indent)))
  | _ => ""

end Text
end Cascade
