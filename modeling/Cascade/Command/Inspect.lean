import Cascade.Command
import Cascade.Outline
import Cascade.Yaml.Printer

/-!
# Inspecting

Shows the tokens of a file, or the resolved tree of a stylesheet.
-/

namespace Cascade
namespace Command

/-- Shows the tokens of a file, one a line. -/
def tokens (path : String) (skipWhitespace : Bool) : Command Unit := do
  let ts := tokenize (← readSource path)
  let ts := if skipWhitespace then dropWhitespace ts else ts
  print (String.join (ts.map fun t => t.listing ++ "\n"))

/-- The resolved stylesheet of a file. -/
def readSheet (options : CommandOptions) (path : String) : Command Sheet := do
  let source ← readSource path
  let config ← loadConfig options
  let (result, events) := Sheet.parse config.limits path source
  traceEvents options events
  ofExcept .stopped result

/-- Shows the tree of a stylesheet, as a document or as an indented list. -/
def dump (options : CommandOptions) (path format : String) : Command Unit := do
  let sheet ← readSheet options path
  match format with
  | "yaml" => print (Outline.document sheet.rules).render
  | "text" => print (Outline.text sheet.rules)
  | other => throw (.unknownFormat other)

/-- Shows the version. -/
def version : Command Unit :=
  print "hcss v0.1.0\n"

end Command
end Cascade
