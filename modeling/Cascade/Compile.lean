import Cascade.Output.Rules
import Cascade.Sheet.Parser

/-!
# Compilation

From the text of a stylesheet with variables, mixins, aliases and nesting to the
text of a plain one.
-/

namespace Cascade

/-- How a stylesheet is read and written. -/
structure CompileOptions where
  limits : Limits := {}
  style : Style := {}
deriving Repr, DecidableEq, Inhabited

/-- Why a stylesheet could not be compiled. -/
inductive CompileError where
  | stopped (stop : Stop)
  | misplaced (file : String) (entry : Misplaced)
deriving Repr, DecidableEq, Inhabited

/-- The words for a stop. -/
def Stop.message : Stop → String
  | .fault d => d.message
  | .exhausted => "the step budget ran out"

/-- The wording of a failed compilation. -/
def CompileError.message : CompileError → String
  | .stopped stop => stop.message
  | .misplaced file entry => s!"failed to format {file}: {entry.message}"

/-- A compiled stylesheet with its tree and the number of its tokens. -/
structure Compiled where
  text : String
  sheet : Sheet
  tokens : Nat
deriving Repr, Inhabited

/-- Compiles a source text, and says what reading it did. -/
def compileTraced (options : CompileOptions) (file source : String) :
    Except CompileError Compiled × List Event :=
  let ts := tokenize source
  match Sheet.parseTokens defaultBudget options.limits file ts with
  | (.error stop, events) => (.error (.stopped stop), events)
  | (.ok sheet, events) =>
    match formatRules options.style sheet.rules with
    | .error entry => (.error (.misplaced file entry), events)
    | .ok text => (.ok ⟨text, sheet, ts.length⟩, events)

/-- Compiles a source text; the file is named in diagnostics only. -/
def compile (options : CompileOptions) (file source : String) : Except CompileError String :=
  (compileTraced options file source).1.map (·.text)

end Cascade
