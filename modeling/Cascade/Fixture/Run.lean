import Cascade.Fixture
import Cascade.Pattern.Parser

/-!
# Running fixtures

Fixtures run one after the other.  The run is a computation in any monad with a
clock and a place for progress, so that the same definition serves a real clock
and one that is a value.
-/

namespace Cascade

/-- The time that compiling took, in all and by stage. -/
structure Timing where
  total : Duration := .zero
  tokenize : Duration := .zero
  parse : Duration := .zero
  format : Duration := .zero
deriving Repr, DecidableEq, Inhabited

/-- The result of one case. -/
structure FixtureResult where
  name : String
  file : String
  line : Nat
  error : Option FixtureError
  /-- The difference between the outputs; empty if there is none. -/
  diff : String := ""
  /-- A remark on a case that took too long; empty if it did not. -/
  warning : String := ""
  timing : Timing := {}
deriving Repr, Inhabited

/-- The case passed. -/
def FixtureResult.passed (r : FixtureResult) : Bool :=
  r.error.isNone

/-- What stops a run. -/
inductive Interruption where
  | cancelled
  | deadline
deriving Repr, DecidableEq, Inhabited

/-- Why a run has no summary. -/
inductive RunError where
  | pattern (fault : Pattern.Fault)
  | collect (error : CollectError)
  | noFixtures
  | interrupted (reason : Interruption)
deriving Repr, DecidableEq, Inhabited

/-- The wording of an error. -/
def RunError.message : RunError → String
  | .pattern fault => "invalid run pattern: " ++ fault.message
  | .collect error => error.message
  | .noFixtures => "no fixtures found"
  | .interrupted .cancelled => "context canceled"
  | .interrupted .deadline => "context deadline exceeded"

/-- The lines that two texts do not share at their beginning. -/
def dropShared : List (List Char) → List (List Char) → List (List Char) × List (List Char)
  | a :: as, b :: bs => if a = b then dropShared as bs else (a :: as, b :: bs)
  | as, bs => (as, bs)

/-- The lines in which two outputs differ, without those they share at both ends. -/
def outputDiff (expected actual : String) : String :=
  let lines (s : String) := Text.splitAt '\n' (Text.trimBlanks s.toList)
  let (a, b) := dropShared (lines expected) (lines actual)
  let (a, b) := dropShared a.reverse b.reverse
  let shown (sign : Char) (ls : List (List Char)) := ls.reverse.map fun l => sign :: ' ' :: l
  String.ofList (Text.joinWith '\n' (shown '-' a ++ shown '+' b))

/-- What a run needs from its surroundings. -/
structure RunHost (m : Type → Type) where
  /-- The time. -/
  now : m Duration
  /-- Shows a line of progress. -/
  log : String → m Unit
  /-- What stops the run at a time. -/
  interrupted : Duration → Option Interruption

namespace Fixture

/-- Compiles the source of a fixture by stages, with the time that each took. -/
def compileTimed {m : Type → Type} [Monad m] (host : RunHost m) (f : Fixture) :
    m (Except CompileError String × Timing) := do
  let start ← host.now
  let ts := tokenize f.source
  let read ← host.now
  let parsed := (Sheet.parseTokens defaultBudget f.compileOptions.limits f.file ts).1
  let resolved ← host.now
  match parsed with
  | .error stop =>
    return (.error (.stopped stop), { total := ⟨resolved.nanoseconds - start.nanoseconds⟩ })
  | .ok sheet =>
    let text := formatRules f.compileOptions.style sheet.rules
    let stop ← host.now
    let timing : Timing :=
      { total := ⟨stop.nanoseconds - start.nanoseconds⟩
        tokenize := ⟨read.nanoseconds - start.nanoseconds⟩
        parse := ⟨resolved.nanoseconds - read.nanoseconds⟩
        format := ⟨stop.nanoseconds - resolved.nanoseconds⟩ }
    match text with
    | .error entry => return (.error (.misplaced f.file entry), { total := timing.total })
    | .ok text => return (.ok text, timing)

/-- The remark on a case that took too long. -/
def warning (f : Fixture) (took : Duration) : String :=
  let limit := f.options.maxDuration
  if 0 < limit.nanoseconds && limit.nanoseconds < took.nanoseconds then
    s!"took {took.render}, limit {limit.render}"
  else
    ""

/-- The result of a fixture whose source has been compiled. -/
def result (f : Fixture) (outcome : Except CompileError String) (timing : Timing) :
    FixtureResult :=
  let error := f.judge outcome
  let diff :=
    match error, outcome with
    | some .mismatch, .ok text => outputDiff f.expected text
    | _, _ => ""
  { name := f.name
    file := f.file
    line := f.line
    error := error
    diff := diff
    warning := f.warning timing.total
    timing := timing }

end Fixture

/-- The lines of progress for a result. -/
def FixtureResult.progress (r : FixtureResult) : String :=
  let verdict := if r.passed then "PASS" else "FAIL"
  let t := r.timing
  let stages := s!"tokenize {t.tokenize.render}, parse {t.parse.render}, format {t.format.render}"
  let line := s!"{verdict} {r.name} ({t.total.milliseconds}ms: {stages})\n"
  if r.warning == "" then line else line ++ s!"  warning: {r.warning}\n"

/-- The result that a document that could not be read counts as. -/
def LoadFailure.result (f : LoadFailure) : FixtureResult :=
  { name := f.name, file := f.file, line := 0, error := some f.error }

/-- The results of a run with its length. -/
structure RunSummary where
  results : List FixtureResult
  duration : Duration
deriving Repr, Inhabited

namespace RunSummary

/-- The cases that failed. -/
def failed (s : RunSummary) : Nat :=
  s.results.countP fun r => !r.passed

/-- The cases that passed. -/
def passed (s : RunSummary) : Nat :=
  s.results.countP FixtureResult.passed

/-- The cases that took too long. -/
def warnings (s : RunSummary) : Nat :=
  s.results.countP fun r => r.warning != ""

end RunSummary

/-- Runs fixtures in order; the run ends before the first one that it is interrupted at. -/
def runEach {m : Type → Type} [Monad m] (host : RunHost m) (verbose : Bool) :
    List Fixture → ExceptT RunError m (List FixtureResult)
  | [] => pure []
  | f :: rest => do
    let time ← host.now
    if let some reason := host.interrupted time then
      throw (.interrupted reason)
    let (outcome, timing) ← ExceptT.lift (f.compileTimed host)
    let result := f.result outcome timing
    if verbose then
      host.log result.progress
    return result :: (← runEach host verbose rest)

/-- The pattern that names have to match; the empty text asks for none. -/
def readPattern (text : String) : Except RunError (Option Pattern) :=
  if text == "" then .ok none else ((Pattern.parse text).map some).mapError .pattern

/-- Runs the fixtures that a list of paths stands for and whose names match a pattern. -/
def runAll {m : Type → Type} [Monad m] (host : RunHost m) (verbose : Bool)
    (pattern : Option Pattern) (options : RunOptions) (tree : Tree) (paths : List String) :
    ExceptT RunError m RunSummary := do
  let collected ← ((Fixture.collect options tree paths).mapError RunError.collect : Except _ _)
  let fixtures := collected.fixtures.filter fun f => pattern.all (·.isMatch f.name)
  if fixtures.isEmpty && collected.failures.isEmpty then
    throw .noFixtures
  if verbose then
    host.log s!"Executing {fixtures.length} test cases\n"
  let start ← host.now
  let results ← runEach host verbose fixtures
  let stop ← host.now
  return {
    results := collected.failures.map LoadFailure.result ++ results
    duration := ⟨stop.nanoseconds - start.nanoseconds⟩ }

end Cascade
