import Cascade.Compile
import Cascade.Config
import Cascade.Sorting

/-!
# Sources

The source files that a list of files and directories stands for.  A directory
stands for the files below it that have a source extension; a file named on its
own has to have one as well.  Each source knows its path below the directory it
was found in, which gives its place below the output directory.
-/

namespace Cascade

/-- A source file: its path, and its path below the directory it was found in. -/
structure Source where
  path : String
  relative : String
deriving Repr, DecidableEq, Inhabited

/-- Why there are no sources. -/
inductive SourceError where
  | unreachable (path : String) (error : FileError)
  | unsupported (path : String)
  | noSources
deriving Repr, DecidableEq, Inhabited

/-- The wording of an error. -/
def SourceError.message : SourceError → String
  | .unreachable path error => s!"failed to stat {path}: {error.message}"
  | .unsupported path => s!"unsupported file extension: {path}"
  | .noSources => "no source files found"

namespace Source

/-- The place of the compiled stylesheet below an output directory. -/
def outputPath (s : Source) (dir : String) : String :=
  let name := Path.withoutExtension s.relative.toList ++ ['.', 'c', 's', 's']
  String.ofList (Path.join [dir.toList, name])

/-- The sources that one path stands for. -/
def ofPath (config : Config) (tree : Tree) (path : String) : Except SourceError (List Source) :=
  match tree.stat path with
  | .error e => .error (.unreachable path e)
  | .ok (_, .file _) =>
    if config.hasExtension path then .ok [⟨path, String.ofList (Path.base path.toList)⟩]
    else .error (.unsupported path)
  | .ok (place, .directory) =>
    .ok ((tree.filesBelow place).filterMap fun (names, _) =>
      let found := Tree.walkPath path names
      if config.hasExtension found then some ⟨found, String.intercalate "/" names⟩ else none)

/-- The sources that a list of paths stands for, ordered by path. -/
def collect (config : Config) (tree : Tree) (paths : List String) :
    Except SourceError (List Source) := do
  match (← paths.mapM (ofPath config tree)).flatten with
  | [] => throw .noSources
  | found => return (Sorting.sort (fun a b => a.path < b.path) found.toArray).toList

end Source

/-- The options that a configuration asks for. -/
def Config.compileOptions (c : Config) : CompileOptions :=
  { limits := c.limits, style := c.style }

/-- Why a source file could not be compiled. -/
inductive CompileFileError where
  | unreadable (path : String) (error : FileError)
  | compile (error : CompileError)
deriving Repr, DecidableEq, Inhabited

/-- The wording of an error. -/
def CompileFileError.message : CompileFileError → String
  | .unreadable path error => s!"failed to read {path}: {error.message}"
  | .compile error => error.message

/-- Compiles a source file, and says what reading it did. -/
def compileFileTraced (options : CompileOptions) (tree : Tree) (path : String) :
    Except CompileFileError String × List Event :=
  match tree.read path with
  | .error e => (.error (.unreadable path e), [])
  | .ok source =>
    match compileTraced options path source with
    | (.ok compiled, events) => (.ok compiled.text, events)
    | (.error e, events) => (.error (.compile e), events)

/-- Compiles a source file. -/
def compileFile (options : CompileOptions) (tree : Tree) (path : String) :
    Except CompileFileError String :=
  (compileFileTraced options tree path).1

end Cascade
