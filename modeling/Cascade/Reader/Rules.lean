import Cascade.Reader.Mixins
import Cascade.Rule

/-!
# Statements

The statements of a stylesheet and of the blocks in it.  Definitions of
variables, mixins and aliases, and inclusions, act on the scopes and the cursor
and leave no rule; what remains are at-rules and qualified rules, read up to the
block whose contents they govern.
-/

namespace Cascade
namespace Read

/-- The alias that an at-keyword stands for, put in front of the cursor as a media rule. -/
def expandAlias (name : Token) (values : List Value) : Read Unit := do
  splice (.token ⟨.atKeyword, "media", name.position, .none⟩ ::
    .token ⟨.whitespace, " ", name.position, .none⟩ :: values)
  record (.aliasExpanded name.text)

/-- An at-rule ends at a semicolon, with its block or at the end of the input. -/
def atRuleEnd (name : Token) (read : List Value) : Read (Option AtRule) := do
  match ← peek (·.peek 0) with
  | none => return some ⟨name, trimWhitespace read.reverse, none⟩
  | some (.token t) =>
    if t.type = .semicolon then
      let _ ← next
      return some ⟨name, trimWhitespace read.reverse, none⟩
    else if t.type = .openBrace then
      let b ← scan Scan.rawBlock
      return some ⟨name, trimWhitespace read.reverse, some b⟩
    else
      return none
  | some (.block opener contents closer) =>
    if opener.type = .openBrace then
      let _ ← next
      return some ⟨name, trimWhitespace read.reverse, some ⟨opener, contents, closer⟩⟩
    else
      return none
  | some _ => return none

/-- An at-rule that is no directive: a definition or a use of an alias, or a rule of its own. -/
def aliasOrRule (n : Nat) (name : Token) : Read (Option AtRule) := do
  if Text.foldCase name.text ≠ "media" then
    let offset ← peek (·.blankOffset)
    if ← peek (·.checkDelim offset "=") then
      skipWhitespace
      let _ ← next
      let values ← valueList n
      updateScopes (·.setAlias name.text values)
      record (.aliasDefined name.text values.length)
      return none
    if let some values := (← look (·.scopes)).findAlias? name.text then
      expandAlias name values
      return none
  return some (← collect n (atRuleEnd name) [])

/-- An at-rule; none for a directive, which acts on the scopes or the cursor. -/
def atRule (n : Nat) : Read (Option AtRule) := do
  let name ← scan (Scan.consume .atKeyword "Expected at-rule")
  let keyword := Text.foldCase name.text
  if keyword = "mixin" then
    defineMixin n
    return none
  else if keyword = "include" then
    includeMixins n name
    return none
  else
    aliasOrRule n name

/-- A qualified rule ends with its block; the end of the input before the block is a fault. -/
def qualifiedEnd (read : List Value) : Read (Option QualifiedRule) := do
  match ← peek (·.peek 0) with
  | none => failAt 0 .unclosedRule
  | some (.token t) =>
    if t.type = .openBrace then
      let b ← scan Scan.rawBlock
      return some ⟨trimWhitespace read.reverse, b⟩
    else
      return none
  | some (.block opener contents closer) =>
    if opener.type = .openBrace then
      let _ ← next
      return some ⟨trimWhitespace read.reverse, ⟨opener, contents, closer⟩⟩
    else
      return none
  | some _ => return none

/-- A rule up to its block. -/
def qualifiedRule (n : Nat) : Read QualifiedRule :=
  collect n qualifiedEnd []

/-- The next rule of a rule list; none at the end of the input. -/
def nextRule : Nat → Read (Option Rule)
  | 0 => exhausted
  | n + 1 => do
    skipWhitespace
    match ← peek (·.peek 0) with
    | none => return none
    | some v =>
      match v with
      | .token t =>
        if t.type = .cdo ∨ t.type = .cdc then
          let _ ← next
          nextRule n
        else if t.type = .atKeyword then
          match ← atRule n with
          | some r => return some (.atRule r)
          | none => nextRule n
        else if ← isVariableStart then
          let _ ← variableUse n
          nextRule n
        else
          return some (.qualified (← qualifiedRule n))
      | _ => return some (.qualified (← qualifiedRule n))

/-- The rules up to a number of them or the end of the input, and the stop that cut them short.  The
rules read before it are kept. -/
def collectRules : Nat → Option Nat → Reader → List Rule × Option Stop × Reader
  | 0, _, r => ([], some .exhausted, r)
  | _ + 1, some 0, r => ([], none, r)
  | n + 1, limit, r =>
    match nextRule n r with
    | .error stop r => ([], some stop, r)
    | .ok none r => ([], none, r)
    | .ok (some rule) r =>
      let (rules, stop, r) := collectRules n (limit.map (· - 1)) r
      (rule :: rules, stop, r)

/-- The rules up to a number of them or the end of the input. -/
def rules (n : Nat) (limit : Option Nat) : Read (List Rule) :=
  fun r =>
    match collectRules n limit r with
    | (_, some stop, r) => .error stop r
    | (rules, none, r) => .ok rules r

end Read
end Cascade
