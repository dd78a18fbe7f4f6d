import Cascade.Command

/-!
# Testing

Runs the fixtures of a project and reports on them.  The command fails when a
fixture does.
-/

namespace Cascade
namespace Command

/-- Which fixtures to run, and how. -/
structure TestRequest where
  /-- Files and directories; without any, the fixture directory of the configuration. -/
  paths : List String := []
  /-- A pattern for the names of cases; the empty text asks for all. -/
  pattern : String := ""
  /-- White space counts. -/
  strict : Bool := false
  minify : Bool := false
  /-- The time that the run may take; zero asks for no limit. -/
  timeout : Duration := .zero
deriving Repr, DecidableEq, Inhabited

/-- The time that passes between two looks at the clock of a world. -/
def tick : Duration := ⟨1000000⟩

/-- The time in a world, which goes on by a tick. -/
def now : Command Duration := do
  modify fun w => { w with clock := w.clock + tick }
  return (← get).clock

/-- What stops a run: time that is up, if there is a limit. -/
def deadline (timeout start time : Duration) : Option Interruption :=
  if 0 < timeout.nanoseconds && timeout.nanoseconds < time.nanoseconds - start.nanoseconds then
    some .deadline
  else
    none

/-- The options that a configuration and a request ask for. -/
def runOptions (config : Config) (request : TestRequest) : RunOptions :=
  { ignoreWhitespace := config.ignoresWhitespace && !request.strict
    maxDuration := config.maxDuration
    minify := request.minify
    config := some config }

/-- The paths that a request asks for. -/
def testPaths (config : Config) (request : TestRequest) : List String :=
  if request.paths.isEmpty then [config.testDir] else request.paths

/-- Reports on a run. -/
def reportRun (options : CommandOptions) (summary : RunSummary) : Command Unit := do
  if !options.quiet || 0 < summary.failed then
    print summary.report.render
  if 0 < summary.failed then
    throw (.testsFailed summary.failed summary.results.length)

/-- The configuration of a run, and the pattern for the names of its cases. -/
def testPlan (options : CommandOptions) (request : TestRequest) :
    Command (Config × Option Pattern) := do
  let config ← loadConfig options
  let pattern ← ofExcept .run (readPattern request.pattern)
  return (config, pattern)

/-- Runs the fixtures that are asked for. -/
def test (options : CommandOptions) (request : TestRequest) : Command Unit := do
  let (config, pattern) ← testPlan options request
  let start := (← get).clock
  let host : RunHost Command :=
    { now := now, log := print, interrupted := deadline request.timeout start }
  let outcome ← (runAll host options.verbose pattern (runOptions config request) (← get).files
    (testPaths config request)).run
  reportRun options (← ofExcept .run outcome)

end Command
end Cascade
