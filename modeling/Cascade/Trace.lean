import Cascade.Reader
import Cascade.Text.Blank
import Cascade.Text.Quoted

/-!
# Traces

The lines that show what reading a stylesheet did.  Every fact is a name, an
equals sign and a value; a value that could be misread is quoted.
-/

namespace Cascade

/-- A character that makes a value be quoted. -/
def isUnclear (c : Char) : Bool :=
  if c.toNat < 0x80 then c == ' ' || c == '=' || c == '"' || c.toNat < 0x20
  else c.toNat == 0xFFFD || Text.isBlank c || !Text.isPrintable c

/-- The value of a fact. -/
def factValue (s : String) : String :=
  if s == "" || s.toList.any isUnclear then Text.quote s else s

/-- The line for an event. -/
def Event.line (e : Event) : String :=
  let facts := e.facts.map fun f => " " ++ factValue f.1 ++ "=" ++ factValue f.2
  s!"level=DEBUG-4 msg={factValue e.title}" ++ String.join facts ++ "\n"

end Cascade
