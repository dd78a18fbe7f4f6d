import Cascade.Command

/-!
# Starting a project

Writes a configuration, a stylesheet and a fixture to start from.  Files that are
there already stay as they are.
-/

namespace Cascade
namespace Command

/-- The text of lines. -/
def sample (lines : List String) : String :=
  String.join (lines.map (· ++ "\n"))

/-- A configuration with the usual values. -/
def sampleConfig : String :=
  sample [
    "# hcss configuration",
    "input_dir: \"./styles\"",
    "output_dir: \"./dist\"",
    "extensions: [\".hcss\"]",
    "",
    "output:",
    "  minify: false",
    "  indent: 2",
    "  header: \"\"",
    "",
    "parser:",
    "  max_include_depth: 64",
    "  max_nesting_depth: 256",
    "",
    "test:",
    "  dir: \"./testdata/fixtures\"",
    "  ignore_whitespace: true",
    "  max_duration: 100ms"]

/-- A stylesheet with a variable, a mixin and a nested rule. -/
def sampleStyle : String :=
  sample [
    "$brand: #0b7285;",
    "",
    "@mixin rounded($r = 4px) \x7b",
    "  border-radius: $r;",
    "\x7d",
    "",
    ".button \x7b",
    "  color: $brand;",
    "  @include rounded;",
    "",
    "  &:hover \x7b",
    "    color: white;",
    "    background: $brand;",
    "  \x7d",
    "\x7d"]

/-- A document with one fixture. -/
def sampleFixture : String :=
  sample [
    "# Button",
    "",
    "## Brand color",
    "",
    "```hcss",
    "$brand: red;",
    ".button \x7b color: $brand; \x7d",
    "```",
    "",
    "```css",
    ".button \x7b",
    "  color: red;",
    "\x7d",
    "```"]

/-- The files of a new project. -/
def sampleFiles : List (String × String) :=
  [("hcss.yaml", sampleConfig), ("styles/main.hcss", sampleStyle),
    ("testdata/fixtures/button.md", sampleFixture)]

/-- Writes one file of a project, unless there is something at its path. -/
def initFile (options : CommandOptions) (path content : String) : Command Unit := do
  match (← get).files.stat path with
  | .ok _ =>
    if !options.quiet then
      print s!"Skipped existing: {path}\n"
  | .error _ =>
    makeParents path
    writeFile path content
    if !options.quiet then
      print s!"Created: {path}\n"

/-- Writes the files of a project below a directory. -/
def init (options : CommandOptions) (dir : String) : Command Unit := do
  for (name, content) in sampleFiles do
    initFile options (String.ofList (Path.join [dir.toList, name.toList])) content
  if !options.quiet then
    print "Run 'hcss build' to compile styles/ into dist/.\n"

end Command
end Cascade
