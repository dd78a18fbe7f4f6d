import Cascade.Fixture.Report
import Cascade.Markdown.Reformat
import Cascade.Source
import Cascade.Trace

/-!
# Commands

A command acts on a world: files, an environment, an input, and the texts it has
written.  It is a computation on worlds that may fail; what it has written and the
files it has changed before stay.

**Results.** `loadConfig` leaves the world alone, whether there is a configuration
or not (`loadConfig_world`).
-/

namespace Cascade

/-- The standard input of a command: a text, or a reason why it cannot be read. -/
abbrev Input := Except String String

/-- What a command sees and changes. -/
structure World where
  files : Tree := {}
  environment : Environment := []
  input : Input := .ok ""
  output : String := ""
  errors : String := ""
  clock : Duration := .zero
deriving Inhabited

/-- What all commands have in common. -/
structure CommandOptions where
  configPath : String := "hcss.yaml"
  verbose : Bool := false
  quiet : Bool := false
deriving Repr, DecidableEq, Inhabited

/-- Why a command failed. -/
inductive CommandError where
  | config (error : ConfigError)
  /-- The input, under the name that the command gives it, could not be read. -/
  | input (name reason : String)
  | sources (error : SourceError)
  | compile (error : CompileError)
  | compileFile (error : CompileFileError)
  | unreadable (path : String) (error : FileError)
  | noDirectory (path : String) (error : FileError)
  | unwritable (path : String) (error : FileError)
  | unreachable (error : FileError)
  | stopped (stop : Stop)
  | misplaced (entry : Misplaced)
  | markdown (path : String) (fault : Markdown.Fault)
  | run (error : RunError)
  | unknownFormat (format : String)
  | buildFailed (failed total : Nat)
  | testsFailed (failed total : Nat)
  | notFormatted (path : String)
  | filesNotFormatted (count : Nat)
  | formattingErrors (count : Nat)
deriving Repr, DecidableEq, Inhabited

/-- The wording of an error. -/
def CommandError.message : CommandError → String
  | .config error => "failed to load configuration: " ++ error.message
  | .input name reason => s!"failed to read {name}: {reason}"
  | .sources error => error.message
  | .compile error => error.message
  | .compileFile error => error.message
  | .unreadable path error => s!"failed to read {path}: {error.message}"
  | .noDirectory path error => s!"failed to create directory for {path}: {error.message}"
  | .unwritable path error => s!"failed to write {path}: {error.message}"
  | .unreachable error => "failed to stat input: " ++ error.message
  | .stopped stop => stop.message
  | .misplaced entry => entry.message
  | .markdown path fault => s!"failed to format Markdown in {path}: {fault.message}"
  | .run error => error.message
  | .unknownFormat format => s!"unknown output format: {format}"
  | .buildFailed failed total => s!"build failed: {failed} of {total} files"
  | .testsFailed failed total => s!"fixture tests failed: {failed} of {total}"
  | .notFormatted path => s!"file is not formatted: {path}"
  | .filesNotFormatted count => s!"file is not formatted: {count} files"
  | .formattingErrors count => s!"some files had formatting errors: {count} files"

/-- A computation of a command. -/
abbrev Command := EStateM CommandError World

namespace Command

/-- Writes to the output. -/
def print (text : String) : Command Unit :=
  modify fun w => { w with output := w.output ++ text }

/-- Writes to the error output. -/
def printError (text : String) : Command Unit :=
  modify fun w => { w with errors := w.errors ++ text }

/-- A result, or a failure in the words of the command. -/
def ofExcept {ε α : Type} (wrap : ε → CommandError) : Except ε α → Command α
  | .ok a => pure a
  | .error e => throw (wrap e)

/-- The configuration of a command. -/
def loadConfig (options : CommandOptions) : Command Config := do
  let w ← get
  ofExcept .config (Config.load w.files w.environment options.configPath)

theorem loadConfig_world (options : CommandOptions) (w : World) :
    (∃ c, loadConfig options w = .ok c w) ∨ ∃ e, loadConfig options w = .error e w := by
  have h : loadConfig options w =
      ofExcept .config (Config.load w.files w.environment options.configPath) w := rfl
  rw [h]
  cases Config.load w.files w.environment options.configPath with
  | ok c => exact .inl ⟨c, rfl⟩
  | error e => exact .inr ⟨.config e, rfl⟩

/-- The input, under a name. -/
def readInput (name : String) : Command String := do
  ofExcept (.input name) (← get).input

/-- The content of a file; a dash stands for the input. -/
def readSource (path : String) : Command String := do
  if path == "-" then
    readInput "stdin"
  else
    ofExcept (.unreadable path) ((← get).files.read path)

/-- Writes a file. -/
def writeFile (path content : String) : Command Unit := do
  let files ← ofExcept (.unwritable path) ((← get).files.write path content)
  modify fun w => { w with files := files }

/-- Makes the directories around a file. -/
def makeParents (path : String) : Command Unit := do
  let parent := String.ofList (Path.parent path.toList)
  let files ← ofExcept (.noDirectory path) ((← get).files.makeDirectories parent)
  modify fun w => { w with files := files }

/-- Shows what reading a stylesheet did. -/
def traceEvents (options : CommandOptions) (events : List Event) : Command Unit :=
  if options.verbose then printError (String.join (events.map Event.line)) else pure ()

/-- The failure of a computation as a value. -/
def attempt {α : Type} (x : Command α) : Command (Except CommandError α) := do
  try
    return .ok (← x)
  catch e =>
    return .error e

/-- Runs a computation for every item and counts those that fail; each failure is shown. -/
def countFailures {α : Type} (act : α → Command Unit) : List α → Command Nat
  | [] => pure 0
  | a :: rest => do
    match ← attempt (act a) with
    | .ok () => countFailures act rest
    | .error e =>
      printError (e.message ++ "\n")
      return (← countFailures act rest) + 1

end Command
end Cascade
