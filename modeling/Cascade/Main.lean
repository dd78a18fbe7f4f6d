import Cascade.Command.Arguments

/-!
# The command line

Brings the files that a task looks at into a tree, does the task, and writes back
what it has changed.  Everything that decides is elsewhere; what is here reads,
writes and prints.
-/

namespace Cascade
namespace Console

/-- The path of a place. -/
def pathOf : Place → String
  | [] => "."
  | "/" :: names => "/" ++ String.intercalate "/" names
  | names => String.intercalate "/" names

/-- The text of a file, if it is a file that can be read and is text. -/
def readText (path : String) : IO (Option String) := do
  try
    return String.fromUTF8? (← IO.FS.readBinFile path)
  catch _ =>
    return none

/-- The tree with what stands at a place, without what lies below it. -/
def loadPlace (t : Tree) (place : Place) : IO Tree := do
  let path := (← IO.currentDir) / pathOf place
  if Tree.isFixed place then
    return t
  else if ← path.isDir then
    return t.set place .directory
  else
    match ← readText (pathOf place) with
    | some content => return t.set place (.file content)
    | none => return t

/-- The tree with all that lies below a place and is wanted. -/
partial def loadBelow (wanted : String → Bool) (t : Tree) (place : Place) : IO Tree := do
  let mut t := t
  for found in ← ((← IO.currentDir) / pathOf place).readDir do
    let inner := place ++ [found.fileName]
    match (← found.path.symlinkMetadata).type with
    | .dir => t ← loadBelow wanted (t.set inner .directory) inner
    | _ =>
      if wanted found.fileName then
        t ← loadPlace t inner
  return t

/-- The tree with what a path names, the directories that lead to it, and what lies below it. -/
def loadPath (wanted : String → Bool) (t : Tree) (path : String) : IO Tree := do
  let mut t := t
  let mut place : Place := if Path.isRooted path.toList then ["/"] else []
  for e in Path.elements path.toList do
    if Path.isPlain e then
      place := if e = Path.up then Tree.above place else place ++ [String.ofList e]
      t ← loadPlace t place
  if t.find? place == some .directory && path != "" then
    t ← loadBelow wanted t place
  return t

/-- The names that a text could refer to. -/
def mentioned (text : String) : List String :=
  ((text.toList.splitBy fun a b => Environment.isNameChar a == Environment.isNameChar b).filter
    (·.any Environment.isNameChar)).map String.ofList

/-- The variables that a text could refer to, and those that their values could refer to. -/
def loadVariables (text : String) : IO Environment := do
  let look (names : List String) : IO Environment :=
    names.filterMapM fun name => return (← IO.getEnv name).map fun value => (name, value)
  let first ← look (mentioned text)
  return first ++ (← look (first.flatMap fun (_, value) => mentioned value))

/-- The world of a task. -/
def loadWorld (options : CommandOptions) (task : Task) : IO World := do
  let settings ← [".env", options.configPath].foldlM (loadPath fun _ => false) {}
  let texts := settings.entries.map fun
    | (_, .file content) => content
    | (_, .directory) => ""
  let environment ← loadVariables (String.intercalate "\n" texts)
  let config := (Config.load settings environment options.configPath).toOption.getD {}
  let wanted (name : String) := config.hasExtension name || Command.isFormattable name
  let files ← (task.paths config).foldlM (loadPath wanted) settings
  let input ← if task.readsInput then readInput else pure (.ok "")
  return { files := files, environment := environment, input := input }
where
  readInput : IO Input := do
    match String.fromUTF8? (← (← IO.getStdin).readBinToEnd) with
    | some text => return .ok text
    | none => return .error "invalid UTF-8"

/-- Writes what differs between two trees: directories first, from the outermost on. -/
def writeChanges (old new : Tree) : IO Unit := do
  let changed := new.entries.filter fun (place, node) => old.find? place != some node
  for (place, node) in changed.mergeSort fun a b => a.1.length ≤ b.1.length do
    if node == .directory then
      IO.FS.createDirAll (pathOf place)
  for (place, node) in changed do
    if let .file content := node then
      IO.FS.writeFile (pathOf place) content

/-- The time that has passed since some fixed moment. -/
def now : IO Duration := do
  return ⟨(← IO.monoNanosNow : Nat)⟩

/-- Does a computation of a command, shows what it writes, and keeps the changes to files. -/
def perform {α : Type} (world : World) (x : Command α) : IO (Except CommandError α) := do
  let (result, after) : Except CommandError α × World :=
    match x world with
    | .ok a after => (.ok a, after)
    | .error e after => (.error e, after)
  IO.print after.output
  IO.eprint after.errors
  writeChanges world.files after.files
  return result

/-- Runs fixtures by the clock. -/
def test (options : CommandOptions) (request : Command.TestRequest) (world : World) :
    IO (Except CommandError Unit) := do
  let start ← now
  let host : RunHost IO :=
    { now := now, log := fun line => IO.print line
      interrupted := Command.deadline request.timeout start }
  match ← perform world (Command.testPlan options request) with
  | .error e => return .error e
  | .ok (config, pattern) =>
    let outcome ← (runAll host options.verbose pattern (Command.runOptions config request)
      world.files (Command.testPaths config request)).run
    match outcome with
    | .error e => return .error (.run e)
    | .ok summary => perform world (Command.reportRun options summary)

/-- Does a task. -/
def run (options : CommandOptions) (task : Task) : IO (Except CommandError Unit) := do
  let world ← loadWorld options task
  match task with
  | .test request => test options request world
  | task => perform world (task.run options)

/-- Does what the arguments ask for, and gives the exit code. -/
def runArguments (args : List String) : IO UInt32 := do
  let parsed := do
    let arguments ← Arguments.read args
    return (arguments.options, ← Task.ofArguments arguments)
  match parsed with
  | .error e =>
    IO.eprintln s!"hcss: error: {e.message}"
    return 80
  | .ok (options, task) =>
    try
      match ← run options task with
      | .ok () => return 0
      | .error e =>
        IO.eprintln s!"Error: {e.message}"
        return 1
    catch e =>
      IO.eprintln s!"Error: {e}"
      return 1

end Console
end Cascade

/-- The command line. -/
def main (args : List String) : IO UInt32 :=
  Cascade.Console.runArguments args
