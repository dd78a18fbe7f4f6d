import Cascade.Value

/-!
# Rules before their bodies are read

The rules that a list of statements yields.  Their blocks are still flat values:
a body is read when its rule is resolved, in a scope of its own.
-/

namespace Cascade

/-- An at-rule, closed by a semicolon or by a block. -/
structure AtRule where
  name : Token
  prelude : List Value
  block : Option Block
deriving Repr, Inhabited

/-- A prelude with the block it governs. -/
structure QualifiedRule where
  prelude : List Value
  block : Block
deriving Repr, Inhabited

/-- The place of a rule: that of its prelude, else of its block. -/
def QualifiedRule.start (r : QualifiedRule) : Position :=
  match r.prelude with
  | v :: _ => v.start
  | [] => r.block.opener.position

/-- A rule whose body has not been read. -/
inductive Rule where
  | atRule (rule : AtRule)
  | qualified (rule : QualifiedRule)
deriving Repr, Inhabited

end Cascade
