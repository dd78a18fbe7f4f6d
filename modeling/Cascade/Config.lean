import Cascade.Duration
import Cascade.Environment.File
import Cascade.Files.Tree
import Cascade.Output.Rules
import Cascade.Reader
import Cascade.Text.LowerCase
import Cascade.Yaml.Block

/-!
# Configuration

Where sources are found and outputs go, how stylesheets are read and written, and
how fixtures are compared.  A configuration is read from a settings document in
four steps: the document is decoded, its values are checked, what is missing gets
its usual value, and references to the environment are replaced.

**Results.** `extensions_ne_nil_of_parse`: a configuration that was read names at
least one extension.
-/

namespace Cascade

/-- The settings of a project. -/
structure Config where
  inputDir : String := "styles"
  outputDir : String := "dist"
  extensions : List String := [".hcss"]
  style : Style := {}
  limits : Limits := {}
  testDir : String := "testdata/fixtures"
  /-- Whether white space counts when outputs are compared; nothing if that is left open. -/
  ignoreWhitespace : Option Bool := none
  maxDuration : Duration := .zero
deriving Repr, Inhabited

/-- Why there is no configuration. -/
inductive ConfigError where
  | environmentFile (fault : EnvironmentFile.Fault)
  | environmentUnreadable (error : FileError)
  | unreadable (error : FileError)
  | document (fault : Yaml.Fault)
  | extension (text : String)
  | indent (value : Int)
  | includeDepth (value : Int)
  | nestingDepth (value : Int)
  | maxDuration (value : Duration)
deriving Repr, DecidableEq, Inhabited

namespace ConfigError

/-- The document could be decoded, but a value is out of range. -/
def isInvalidValue : ConfigError → Bool
  | .extension _ => true
  | .indent _ => true
  | .includeDepth _ => true
  | .nestingDepth _ => true
  | .maxDuration _ => true
  | _ => false

/-- The wording of an error. -/
def message : ConfigError → String
  | .environmentFile fault =>
    "failed to load environment files: failed to load .env file: " ++ fault.message
  | .environmentUnreadable error =>
    "failed to load environment files: failed to load .env file: " ++ error.message
  | .unreadable error => "failed to read config file: " ++ error.message
  | .document fault => "failed to parse config file: " ++ fault.message
  | .extension text => invalid s!"extension '{text}' must start with '.'"
  | .indent value => invalid s!"output.indent must be non-negative, got {value}"
  | .includeDepth value => invalid s!"parser.max_include_depth must be positive, got {value}"
  | .nestingDepth value => invalid s!"parser.max_nesting_depth must be positive, got {value}"
  | .maxDuration value => invalid s!"test.max_duration must be >= 0, got {value.render}"
where
  /-- A value out of range. -/
  invalid (text : String) : String :=
    "configuration validation failed: configuration validation failed: " ++ text

end ConfigError

/-- A span of time in a settings document; it is always written with a unit. -/
def Yaml.Node.toDuration (node : Yaml.Node) : Except Yaml.Fault Duration :=
  match node.scalar? with
  | some .null => .ok .zero
  | some (.text s) =>
    match Duration.parse? s with
    | some d => .ok d
    | none => .error (.wrongType "a duration")
  | _ => .error (.wrongType "a duration")

/-- The values of a settings document before they are checked. -/
structure Settings where
  inputDir : String
  outputDir : String
  extensions : List String
  minify : Bool
  indent : Int
  header : String
  includeDepth : Int
  nestingDepth : Int
  testDir : String
  ignoreWhitespace : Option Bool
  maxDuration : Duration
deriving Repr, Inhabited

namespace Settings

/-- The settings that a document holds. -/
def decode (node : Yaml.Node) : Except Yaml.Fault Settings := do
  let root ← node.toFields ["input_dir", "output_dir", "extensions", "output", "parser", "test"]
  let output ← (Yaml.Node.get root "output").toFields ["minify", "indent", "header"]
  let parser ← (Yaml.Node.get root "parser").toFields ["max_include_depth", "max_nesting_depth"]
  let test ← (Yaml.Node.get root "test").toFields ["dir", "ignore_whitespace", "max_duration"]
  let extensions ← (Yaml.Node.get root "extensions").toList
  return {
    inputDir := ← (Yaml.Node.get root "input_dir").toText
    outputDir := ← (Yaml.Node.get root "output_dir").toText
    extensions := ← extensions.mapM Yaml.Node.toText
    minify := ← (Yaml.Node.get output "minify").toBool
    indent := ← (Yaml.Node.get output "indent").toInt
    header := ← (Yaml.Node.get output "header").toText
    includeDepth := ← (Yaml.Node.get parser "max_include_depth").toInt
    nestingDepth := ← (Yaml.Node.get parser "max_nesting_depth").toInt
    testDir := ← (Yaml.Node.get test "dir").toText
    ignoreWhitespace := ← (Yaml.Node.get test "ignore_whitespace").toBool?
    maxDuration := ← (Yaml.Node.get test "max_duration").toDuration }

/-- An extension starts with a point and has more than that. -/
def isExtension (text : String) : Bool :=
  text.toList.head? == some '.' && 1 < text.length

/-- The first value that is out of range. -/
def fault? (s : Settings) : Option ConfigError :=
  match s.extensions.find? fun e => !isExtension e with
  | some e => some (.extension e)
  | none =>
    if s.indent < 0 then some (.indent s.indent)
    else if s.includeDepth < 0 then some (.includeDepth s.includeDepth)
    else if s.nestingDepth < 0 then some (.nestingDepth s.nestingDepth)
    else if s.maxDuration.nanoseconds < 0 then some (.maxDuration s.maxDuration)
    else none

/-- The text, or a usual one if it is empty. -/
def orUsual (text usual : String) : String :=
  if text.isEmpty then usual else text

/-- The configuration with its usual values for what is missing, and with references to the
environment replaced. -/
def toConfig (s : Settings) (env : Environment) : Config where
  inputDir := env.expand (orUsual s.inputDir "styles")
  outputDir := env.expand (orUsual s.outputDir "dist")
  extensions := if s.extensions.isEmpty then [".hcss"] else s.extensions
  style := .ofRequest s.minify s.indent (env.expand s.header)
  limits := .ofRequest s.includeDepth s.nestingDepth
  testDir := env.expand (orUsual s.testDir "testdata/fixtures")
  ignoreWhitespace := s.ignoreWhitespace
  maxDuration := s.maxDuration

end Settings

namespace Config

/-- White space does not count unless the configuration says so. -/
def ignoresWhitespace (c : Config) : Bool :=
  c.ignoreWhitespace.getD true

/-- The configuration of a settings document. -/
def parse (env : Environment) (source : String) : Except ConfigError Config := do
  let node ← (Yaml.parse source).mapError .document
  let settings ← (Settings.decode node).mapError .document
  match settings.fault? with
  | some error => throw error
  | none => return settings.toConfig env

/-- A configuration that was read names at least one extension. -/
theorem extensions_ne_nil_of_parse {env : Environment} {source : String} {c : Config}
    (h : parse env source = .ok c) : c.extensions ≠ [] := by
  unfold parse at h
  cases hn : (Yaml.parse source).mapError ConfigError.document with
  | error e => simp [hn, bind, Except.bind] at h
  | ok node =>
    cases hs : (Settings.decode node).mapError ConfigError.document with
    | error e => simp [hn, hs, bind, Except.bind] at h
    | ok s =>
      cases hf : s.fault? with
      | some e => simp [hn, hs, hf, bind, Except.bind, throw, throwThe, MonadExceptOf.throw] at h
      | none =>
        simp only [hn, hs, hf, bind, Except.bind, pure, Except.pure, Except.ok.injEq] at h
        subst h
        by_cases he : s.extensions = [] <;> simp [Settings.toConfig, he]

/-- The environment with the variables of the environment file, if there is one. -/
def loadEnvironment (tree : Tree) (env : Environment) : Except ConfigError Environment :=
  match tree.stat ".env" with
  | .error e => if e.reason == .missing then .ok env else .error (.environmentUnreadable e)
  | .ok _ => do
    let source ← (tree.read ".env").mapError .environmentUnreadable
    let new ← (EnvironmentFile.parse source).mapError .environmentFile
    return env.extend new

/-- The configuration of a settings file.  Without a file all values are the usual ones. -/
def load (tree : Tree) (env : Environment) (path : String) : Except ConfigError Config := do
  let env ← loadEnvironment tree env
  match tree.stat path with
  | .error e =>
    if e.reason == .missing then
      return {}
    else
      throw (.unreadable { e with action := .access })
  | .ok _ =>
    let source ← (tree.read path).mapError .unreadable
    parse env source

/-- The path has one of the source extensions, in upper or lower case. -/
def hasExtension (c : Config) (path : String) : Bool :=
  c.extensions.any fun e => Text.hasEnding (Text.lowerCase e).toList (Text.lowerCase path).toList

end Config
end Cascade
