import Cascade.Fixture.Document
import Cascade.Source
import Cascade.Text.Caseless

/-!
# Fixtures

A fixture is a source with an expectation, taken from a document or from a pair of
files.  Compiling the source decides whether it passes: the output has to be the
expected one, up to white space or up to white space at its ends, or the error has
to contain the expected words.
-/

namespace Cascade

/-- How fixtures are run. -/
structure RunOptions where
  ignoreWhitespace : Bool := false
  /-- A case that takes longer is reported; zero asks for no report. -/
  maxDuration : Duration := .zero
  minify : Bool := false
  config : Option Config := none
deriving Repr, Inhabited

/-- A case that is ready to run. -/
structure Fixture where
  name : String
  file : String
  line : Nat
  source : String
  expected : String
  /-- Words that the error has to contain; if there are none, compiling has to succeed. -/
  wantedError : String := ""
  options : RunOptions
deriving Repr, Inhabited

/-- Why a fixture failed. -/
inductive FixtureError where
  | mismatch
  | unexpectedSuccess
  | wrongError (wanted found : String)
  | compile (error : CompileError)
  | unreadable (error : FileError)
  | document (error : DocumentError)
deriving Repr, DecidableEq, Inhabited

/-- The wording of an error. -/
def FixtureError.message : FixtureError → String
  | .mismatch => "output mismatch"
  | .unexpectedSuccess => "expected an error but compilation succeeded"
  | .wrongError wanted found =>
    s!"error message mismatch: want {Text.quote wanted} in {Text.quote found}"
  | .compile error => error.message
  | .unreadable error => "failed to open file: " ++ error.message
  | .document error => "failed to parse markdown: " ++ error.message

/-- Two outputs are the same, without any white space or without that at their ends. -/
def sameOutput (ignoreWhitespace : Bool) (expected actual : String) : Bool :=
  if ignoreWhitespace then Text.withoutBlanks expected == Text.withoutBlanks actual
  else Text.trim expected == Text.trim actual

namespace Fixture

/-- The options that the source of a fixture is compiled with. -/
def compileOptions (f : Fixture) : CompileOptions :=
  let options := (f.options.config.map Config.compileOptions).getD {}
  { options with style := { options.style with minify := f.options.minify } }

/-- Why the outcome of compiling is not what was expected. -/
def judge (f : Fixture) : Except CompileError String → Option FixtureError
  | .ok text =>
    if f.wantedError != "" then some .unexpectedSuccess
    else if sameOutput f.options.ignoreWhitespace f.expected text then none
    else some .mismatch
  | .error e =>
    if f.wantedError == "" then some (.compile e)
    else if Text.hasPart f.wantedError.toList e.message.toList then none
    else some (.wrongError f.wantedError e.message)

end Fixture

/-! ## Collecting -/

/-- Why no fixtures could be collected. -/
inductive CollectError where
  | unreachable (root : String) (error : FileError)
  | unreadable (path : String) (error : FileError)
deriving Repr, DecidableEq, Inhabited

/-- The wording of an error. -/
def CollectError.message : CollectError → String
  | .unreachable root error => s!"failed to find fixtures in {root}: {error.message}"
  | .unreadable path error => s!"failed to read {path}: {error.message}"

/-- A document that could not be read. -/
structure LoadFailure where
  name : String
  file : String
  error : FixtureError
deriving Repr, Inhabited

namespace Fixture

/-- Directories that are not searched. -/
def isSkipped (name : String) : Bool :=
  name == "vendor" || name == "node_modules" || name.toList.head? == some '.'

/-- The files that a path stands for. -/
def filesOf (tree : Tree) (root : String) : Except CollectError (List String) :=
  match tree.stat root with
  | .error e => .error (.unreachable root e)
  | .ok (_, .file _) => .ok [root]
  | .ok (place, .directory) =>
    let found := (tree.filesBelow place).filter fun (names, _) => !names.dropLast.any isSkipped
    .ok (found.map fun (names, _) => Tree.walkPath root names)

/-- Two texts are the same up to case, character by character. -/
def sameCase (a b : List Char) : Bool :=
  a.map Text.caseKey == b.map Text.caseKey

/-- The file is a source. -/
def isSource (options : RunOptions) (file : String) : Bool :=
  match options.config with
  | some config => config.hasExtension file
  | none => sameCase (Path.extension file.toList) ".hcss".toList

/-- The name of a file without its directory and its extension. -/
def baseName (file : String) : List Char :=
  Text.dropEnding (Path.extension file.toList) (Path.base file.toList)

/-- The options with the settings of a document. -/
def withFrontMatter (options : RunOptions) (m : FrontMatter) : RunOptions where
  ignoreWhitespace := m.ignoreWhitespace.getD options.ignoreWhitespace
  maxDuration := if 0 < m.maxDuration.nanoseconds then m.maxDuration else options.maxDuration
  minify := m.minify || options.minify
  config := options.config

/-- The fixtures of a document. -/
def ofDocument (options : RunOptions) (file : String) (d : Document) : List Fixture :=
  d.cases.map fun c =>
    { name := String.ofList (baseName file) ++ "/" ++ c.name
      file := file
      line := c.line
      source := c.source
      expected := c.expected
      wantedError := c.expectedError
      options := withFrontMatter options d.frontMatter }

/-- The fixtures of a document file. -/
def loadDocument (options : RunOptions) (tree : Tree) (file : String) :
    Except FixtureError (List Fixture) := do
  let source ← (tree.read file).mapError .unreadable
  let document ← (Document.parse source).mapError .document
  return ofDocument options file document

/-- The fixture of a source file with its expected output beside it, if there is any. -/
def loadPair (options : RunOptions) (tree : Tree) (file : String) :
    Except CollectError (Option Fixture) :=
  let path := String.ofList (Path.withoutExtension file.toList) ++ ".css"
  match tree.read path with
  | .error e => if e.reason == .missing then .ok none else .error (.unreadable path e)
  | .ok expected => do
    let source ← (tree.read file).mapError (.unreadable file)
    return some
      { name := String.ofList (baseName file)
        file := file
        line := 1
        source := source
        expected := expected
        options := options }

/-- What collecting has found: fixtures, and documents that could not be read. -/
structure Collected where
  fixtures : List Fixture := []
  failures : List LoadFailure := []
deriving Repr, Inhabited

/-- Adds what one file holds. -/
def addFile (options : RunOptions) (tree : Tree) (acc : Collected) (file : String) :
    Except CollectError Collected :=
  if sameCase (Path.extension file.toList) ".md".toList then
    match loadDocument options tree file with
    | .ok fixtures => .ok { acc with fixtures := acc.fixtures ++ fixtures }
    | .error e =>
      let name := String.ofList (Path.base file.toList)
      .ok { acc with failures := acc.failures ++ [⟨name, file, e⟩] }
  else if isSource options file then do
    match ← loadPair options tree file with
    | some fixture => return { acc with fixtures := acc.fixtures ++ [fixture] }
    | none => return acc
  else
    .ok acc

/-- The fixtures that a list of paths stands for, ordered by file. -/
def collect (options : RunOptions) (tree : Tree) (paths : List String) :
    Except CollectError Collected := do
  let files := (← paths.mapM (filesOf tree)).flatten
  (files.mergeSort fun a b => !decide (b < a)).foldlM (addFile options tree) {}

end Fixture
end Cascade
