import Cascade.Command

/-!
# Building

Compiles source files into the output directory, or the input to the output.  A
source that cannot be compiled does not keep the others from being built; the
command fails at its end when there was one.
-/

namespace Cascade
namespace Command

/-- What to build. -/
structure BuildRequest where
  /-- Files and directories; without any, the input directory of the configuration. -/
  paths : List String := []
  /-- The output directory; the empty text asks for the one of the configuration. -/
  output : String := ""
  minify : Bool := false
deriving Repr, DecidableEq, Inhabited

/-- Compiles the input to the output. -/
def buildInput (options : CommandOptions) (config : Config) : Command Unit := do
  let name := "<stdin>"
  let source ← readInput name
  let (result, events) := compileTraced config.compileOptions name source
  traceEvents options events
  print (← ofExcept .compile result).text

/-- Compiles one source into a directory. -/
def buildSource (options : CommandOptions) (config : Config) (dir : String) (source : Source) :
    Command Unit := do
  let (result, events) := compileFileTraced config.compileOptions (← get).files source.path
  traceEvents options events
  let text ← ofExcept .compileFile result
  let path := source.outputPath dir
  makeParents path
  writeFile path text
  if !options.quiet then
    print s!"Generated: {path}\n"

/-- Builds what is asked for. -/
def build (options : CommandOptions) (request : BuildRequest) : Command Unit := do
  let config ← loadConfig options
  let minify := request.minify || config.style.minify
  let config := { config with style := { config.style with minify := minify } }
  if request.paths == ["-"] then
    buildInput options config
  else
    let paths := if request.paths.isEmpty then [config.inputDir] else request.paths
    let dir := if request.output == "" then config.outputDir else request.output
    let sources ← ofExcept .sources (Source.collect config (← get).files paths)
    if options.verbose then
      print s!"Compiling {sources.length} files into {dir}\n"
    let failed ← countFailures (buildSource options config dir) sources
    if 0 < failed then
      throw (.buildFailed failed sources.length)

end Command
end Cascade
