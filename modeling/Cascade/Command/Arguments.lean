import Cascade.Command.Build
import Cascade.Command.Format
import Cascade.Command.Init
import Cascade.Command.Inspect
import Cascade.Command.Test

/-!
# Arguments

A command line is a list of words among which flags stand.  A flag is written with
its name behind two dashes or with its letter behind one; a flag with a value takes
it from behind an equals sign or from the next argument.  The first word names the
command.

**Results.** Without a dash in front every argument is a word, in the order given
(`read_words`).
-/

namespace Cascade

/-- A flag, with a letter if it has a short form. -/
structure Flag where
  name : String
  letter : Option Char := none
  takesValue : Bool := false
  /-- The commands that know the flag; without any, all do. -/
  commands : List String := []
deriving Repr, DecidableEq, Inhabited

/-- The flags of the command line. -/
def Flag.all : List Flag :=
  [{ name := "config", takesValue := true },
    { name := "verbose", letter := some 'v' },
    { name := "quiet", letter := some 'q' },
    { name := "output", letter := some 'o', takesValue := true, commands := ["build"] },
    { name := "minify", letter := some 'm', commands := ["build", "test"] },
    { name := "skip-whitespace", commands := ["tokens"] },
    { name := "format", letter := some 'f', takesValue := true, commands := ["dump"] },
    { name := "run", letter := some 'r', takesValue := true, commands := ["test"] },
    { name := "exact", commands := ["test"] },
    { name := "timeout", takesValue := true, commands := ["test"] },
    { name := "write", letter := some 'w', commands := ["format"] },
    { name := "check", letter := some 'c', commands := ["format"] }]

/-- Why a command line is not understood. -/
inductive UsageError where
  | unknownFlag (text : String)
  | missingValue (name : String)
  | badValue (name value : String)
  | noCommand
  | unknownCommand (name : String)
  | missingFile
  | unexpected (word : String)
deriving Repr, DecidableEq, Inhabited

/-- The wording of an error. -/
def UsageError.message : UsageError → String
  | .unknownFlag text => s!"unknown flag {text}"
  | .missingValue name => s!"--{name}: missing value"
  | .badValue name value => s!"--{name}: invalid value {Text.quote value}"
  | .noCommand => "expected one of \"build\", \"tokens\", \"dump\", \"test\", \"format\", ..."
  | .unknownCommand name => s!"unexpected argument {name}"
  | .missingFile => "expected \"<file>\""
  | .unexpected word => s!"unexpected argument {word}"

/-- A command line taken apart.  A flag without a value has the empty text. -/
structure Arguments where
  flags : List (String × String) := []
  words : List String := []
deriving Repr, DecidableEq, Inhabited

namespace Arguments

/-- The flag that an argument starts with, and the value that is written into the argument. -/
def flag? (argument : String) : Option (Flag × Option String) :=
  match argument.toList with
  | '-' :: '-' :: cs =>
    let name := String.ofList (cs.takeWhile (· != '='))
    let value := (cs.dropWhile (· != '=')).tail
    (Flag.all.find? fun f => f.name == name).map fun f =>
      (f, if cs.contains '=' then some (String.ofList value) else none)
  | '-' :: c :: cs =>
    (Flag.all.find? fun f => f.letter == some c).map fun f =>
      (f, if cs.isEmpty then none else some (String.ofList cs))
  | _ => none

/-- The argument is a word: it has no dash in front, or is a dash on its own. -/
def isWord (argument : String) : Bool :=
  argument.toList.head? != some '-' || argument == "-"

/-- Adds a flag. -/
def addFlag (a : Arguments) (name value : String) : Arguments :=
  { a with flags := (name, value) :: a.flags }

/-- Adds a word in front. -/
def addWord (a : Arguments) (word : String) : Arguments :=
  { a with words := word :: a.words }

/-- Takes a command line apart.  Behind two dashes on their own there are only words. -/
def read : List String → Except UsageError Arguments
  | [] => .ok {}
  | argument :: rest =>
    if isWord argument then
      (read rest).map (·.addWord argument)
    else if argument == "--" then
      .ok { words := rest }
    else
      match flag? argument with
      | none => .error (.unknownFlag argument)
      | some (f, value?) =>
        if f.takesValue then
          match value?, rest with
          | some value, rest => (read rest).map (·.addFlag f.name value)
          | none, [] => .error (.missingValue f.name)
          | none, value :: rest => (read rest).map (·.addFlag f.name value)
        else if value?.isSome then
          .error (.unknownFlag argument)
        else
          (read rest).map (·.addFlag f.name "")

/-- A command line of words only has them all, in their order, and no flags. -/
theorem read_words {words : List String} (h : ∀ w ∈ words, isWord w = true) :
    read words = .ok { words := words } := by
  induction words with
  | nil => rfl
  | cons w ws ih =>
    have hw : isWord w = true := h w (by simp)
    have hs := ih fun x hx => h x (List.mem_cons_of_mem _ hx)
    rw [read, if_pos hw, hs]
    rfl

/-- The flag is given. -/
def has (a : Arguments) (name : String) : Bool :=
  (a.flags.lookup name).isSome

/-- The value of a flag, or a usual one. -/
def value (a : Arguments) (name usual : String) : String :=
  (a.flags.lookup name).getD usual

/-- What all commands have in common. -/
def options (a : Arguments) : CommandOptions :=
  { configPath := a.value "config" "hcss.yaml"
    verbose := a.has "verbose"
    quiet := a.has "quiet" }

end Arguments

/-- What a command line asks for. -/
inductive Task where
  | build (request : Command.BuildRequest)
  | tokens (path : String) (skipWhitespace : Bool)
  | dump (path shape : String)
  | test (request : Command.TestRequest)
  | format (request : Command.FormatRequest)
  | init (dir : String)
  | version
deriving Repr, DecidableEq, Inhabited

namespace Task

/-- The only word behind a command, or a usual one. -/
def oneWord (usual : Option String) : List String → Except UsageError String
  | [] => match usual with
    | some word => .ok word
    | none => .error .missingFile
  | [word] => .ok word
  | _ :: word :: _ => .error (.unexpected word)

/-- The request for a run of fixtures. -/
def testRequest (a : Arguments) (paths : List String) : Except UsageError Command.TestRequest :=
  let text := a.value "timeout" "0s"
  match Duration.parse? text with
  | none => .error (.badValue "timeout" text)
  | some timeout =>
    .ok {
      paths := paths
      pattern := a.value "run" ""
      strict := a.has "exact"
      minify := a.has "minify"
      timeout := timeout }

/-- The request for the tree of a file. -/
def dumpRequest (a : Arguments) (words : List String) : Except UsageError Task := do
  let path ← oneWord none words
  let shape := a.value "format" "yaml"
  if shape == "yaml" || shape == "text" then
    return .dump path shape
  else
    throw (.badValue "format" shape)

/-- What a command asks for, given the words behind its name. -/
def ofCommand (a : Arguments) (name : String) (words : List String) : Except UsageError Task :=
  match name with
  | "build" => .ok (.build ⟨words, a.value "output" "", a.has "minify"⟩)
  | "tokens" => (oneWord none words).map (.tokens · (a.has "skip-whitespace"))
  | "dump" => dumpRequest a words
  | "test" => (testRequest a words).map .test
  | "format" => (oneWord (some "") words).map (.format ⟨·, a.has "write", a.has "check"⟩)
  | "init" => (oneWord (some ".") words).map .init
  | "version" => match words with
    | [] => .ok .version
    | word :: _ => .error (.unexpected word)
  | other => .error (.unknownCommand other)

/-- The first flag that a command does not know. -/
def strayFlag? (a : Arguments) (name : String) : Option Flag :=
  Flag.all.find? fun f => a.has f.name && !f.commands.isEmpty && !f.commands.contains name

/-- What a command line asks for. -/
def ofArguments (a : Arguments) : Except UsageError Task :=
  match a.words with
  | [] => .error .noCommand
  | name :: words =>
    match strayFlag? a name with
    | some f => .error (.unknownFlag ("--" ++ f.name))
    | none => ofCommand a name words

/-- The task reads the input. -/
def readsInput : Task → Bool
  | .build request => request.paths == ["-"]
  | .tokens path _ => path == "-"
  | .dump path _ => path == "-"
  | .format request => request.path == "" || request.path == "-"
  | .test _ | .init _ | .version => false

/-- The paths that a task looks at, given the configuration. -/
def paths (config : Config) : Task → List String
  | .build request =>
    let sources := if request.paths.isEmpty then [config.inputDir] else request.paths
    (if request.output == "" then config.outputDir else request.output) :: sources
  | .tokens path _ => [path]
  | .dump path _ => [path]
  | .test request => Command.testPaths config request
  | .format request => [request.path]
  | .init dir => Command.sampleFiles.map fun (name, _) =>
      String.ofList (Path.join [dir.toList, name.toList])
  | .version => []

/-- Does what is asked for. -/
def run (options : CommandOptions) : Task → Command Unit
  | .build request => Command.build options request
  | .tokens path skipWhitespace => Command.tokens path skipWhitespace
  | .dump path shape => Command.dump options path shape
  | .test request => Command.test options request
  | .format request => Command.format options request
  | .init dir => Command.init options dir
  | .version => Command.version

end Task
end Cascade
