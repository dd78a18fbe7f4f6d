import Cascade.Fixture.Run

/-!
# Reports

The summary that a run of fixtures ends with: how many cases there were, which
took too long and which failed, and why.
-/

namespace Cascade

/-- One case in a report. -/
structure ReportItem where
  name : String
  file : String
  line : Nat
  passed : Bool
  error : Option String := none
  /-- The difference between the outputs; empty if there is none. -/
  diff : String := ""
  /-- A remark on a case that took too long; empty if it did not. -/
  warning : String := ""
deriving Repr, DecidableEq, Inhabited

/-- The summary of a run. -/
structure Report where
  total : Nat
  passed : Nat
  failed : Nat
  warnings : Nat
  duration : Duration
  items : List ReportItem
deriving Repr, DecidableEq, Inhabited

/-- The case as a report shows it. -/
def FixtureResult.toItem (r : FixtureResult) : ReportItem :=
  { name := r.name
    file := r.file
    line := r.line
    passed := r.passed
    error := r.error.map FixtureError.message
    diff := r.diff
    warning := r.warning }

/-- The report of a run. -/
def RunSummary.report (s : RunSummary) : Report :=
  { total := s.results.length
    passed := s.passed
    failed := s.failed
    warnings := s.warnings
    duration := s.duration
    items := s.results.map FixtureResult.toItem }

namespace ReportItem

/-- The line for a case that took too long. -/
def slowLine (i : ReportItem) : String :=
  if i.warning == "" then "" else s!"  {i.name}: {i.warning}\n"

/-- The lines of a difference. -/
def diffLines (i : ReportItem) : String :=
  let lines := Text.splitAt '\n' (Text.dropLineEnds i.diff.toList)
  String.join (lines.map fun l => "      " ++ String.ofList l ++ "\n")

/-- The lines for a case that failed. -/
def failureLines (i : ReportItem) : String :=
  if i.passed then ""
  else
    s!"  ❌ {i.name} ({i.file}:{i.line})\n" ++
      ((i.error.map fun e => s!"    Error: {e}\n").getD "") ++
      (if i.diff == "" then "" else "    Diff (-expected +actual):\n" ++ i.diffLines)

end ReportItem

/-- The text of a report. -/
def Report.render (r : Report) : String :=
  let head := s!"\n=== Fixture Test Summary ===\n" ++
    s!"Tests: {r.total} total, {r.passed} passed, {r.failed} failed\n" ++
    s!"Duration: {r.duration.seconds}s\n"
  let slow :=
    if r.warnings = 0 then ""
    else "\nSlow tests:\n" ++ String.join (r.items.map ReportItem.slowLine)
  let failures :=
    if r.failed = 0 then ""
    else "\nFailed tests:\n" ++ String.join (r.items.map ReportItem.failureLines)
  let verdict :=
    if r.failed = 0 then "\nAll fixture tests passed! ✅\n"
    else "\nSome fixture tests failed! ❌\n"
  head ++ slow ++ failures ++ verdict

end Cascade
