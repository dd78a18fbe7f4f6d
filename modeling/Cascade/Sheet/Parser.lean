import Cascade.Sheet.Body

/-!
# Reading stylesheets

The resolved stylesheet of a source text.  Reading takes a budget of steps; the
usual one is far beyond what a stylesheet that can be read needs.
-/

namespace Cascade

/-- The steps that reading a stylesheet may take. -/
def defaultBudget : Nat :=
  1000000000000

namespace Sheet

/-- Reads all rules of a token list, and says what happened on the way. -/
def run (budget : Nat) (limits : Limits) (ts : List Token) :
    Except Stop (List Entry) × List Event :=
  match Read.ruleList budget [] (.ofTokens ts limits) with
  | .ok rules r => (.ok rules, r.events.reverse)
  | .error stop r => (.error stop, r.events.reverse)

/-- The stop with the file it was found in. -/
def locate (file : String) : Stop → Stop
  | .fault d => .fault (d.withFile file)
  | .exhausted => .exhausted

/-- The stylesheet of a token list; the file is named in diagnostics only. -/
def parseTokens (budget : Nat) (limits : Limits) (file : String) (ts : List Token) :
    Except Stop Sheet × List Event :=
  match run budget limits ts with
  | (.ok rules, events) => (.ok ⟨file, rules⟩, events)
  | (.error stop, events) => (.error (locate file stop), events)

/-- The stylesheet of a source text. -/
def parse (limits : Limits) (file source : String) : Except Stop Sheet × List Event :=
  parseTokens defaultBudget limits file (tokenize source)

end Sheet
end Cascade
