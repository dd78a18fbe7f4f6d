import Cascade.Reader.Rules
import Cascade.Selector.Parser
import Cascade.Sheet

/-!
# Reading bodies

A rule is resolved as soon as it has been read, so that definitions behind it do
not affect it.  What its block holds depends on the rule: declarations and nested
rules, a list of rules, or keyframes.  Each body is read in a scope of its own,
one block deeper.
-/

namespace Cascade

/-! ## Important declarations -/

/-- The identifier that marks a declaration as important, in any case. -/
def isImportantKeyword : Value → Bool
  | .token t => t.type == .ident && Text.foldCase t.text == "important"
  | _ => false

/-- The values before a trailing exclamation mark and keyword, if the list ends so. -/
def stripImportant? (vs : List Value) : Option (List Value) :=
  match vs.reverse.dropWhile Value.isWhitespace with
  | [] => none
  | keyword :: before =>
    if isImportantKeyword keyword then
      match before.dropWhile Value.isWhitespace with
      | [] => none
      | bang :: values => if bang.isDelim "!" then some (trimWhitespace values.reverse) else none
    else
      none

/-- The value of a declaration, and whether it is important.  Only a list with a top-level
exclamation mark, semicolon or closer is searched for the mark. -/
def splitImportant (vs : List Value) : Except Diagnostic (List Value × Bool) :=
  match Scan.balanced false (.ofValues vs 0) with
  | .error d _ => .error d
  | .ok run c =>
    if c.atEnd then
      .ok (run, false)
    else
      match stripImportant? vs with
      | some value => .ok (value, true)
      | none => .ok (vs, false)

/-! ## Kinds of body -/

/-- What the block of an at-rule holds. -/
inductive BodyKind where
  | rules
  | declarations
  | keyframes
deriving Repr, DecidableEq, Inhabited

namespace BodyKind

/-- The at-rules that hold declarations. -/
def declarationNames : List String :=
  ["font-face", "page", "property", "counter-style", "font-palette-values", "viewport"]

/-- The marks of browser vendors in front of a name. -/
def vendorMarks : List String :=
  ["-webkit-", "-moz-", "-ms-", "-o-"]

/-- The name without the mark of a vendor. -/
def withoutVendor (name : String) : String :=
  match vendorMarks.find? (name.startsWith ·) with
  | some mark => (name.drop mark.length).toString
  | none => name

/-- What the block of an at-rule of a name holds. -/
def ofName (name : String) : BodyKind :=
  let plain := withoutVendor (Text.foldCase name)
  if plain = "keyframes" then .keyframes
  else if declarationNames.contains plain then .declarations
  else .rules

end BodyKind

namespace Read

/-- The values of a declaration end at a semicolon, which is read too, at the end of the input or at
the end of the mixin body that they came from. -/
def declarationEnd (read : List Value) : Read (Option (List Value)) := do
  match ← peek (·.peek 0) with
  | none => return some read.reverse
  | some v =>
    if ← peek (·.atExpansionEnd) then
      return some read.reverse
    else if v.hasType .semicolon then
      let _ ← next
      return some read.reverse
    else
      return none

/-- A declaration. -/
def declaration (n : Nat) : Read Declaration := do
  let name ← scan (Scan.consume .ident "Expected property name")
  skipWhitespace
  let colon ← scan (Scan.consume .colon s!"Expected ':' after property name {name.text}")
  let values ← collect n declarationEnd []
  match splitImportant (trimWhitespace values) with
  | .ok (value, important) => return ⟨name, colon, value, important⟩
  | .error d => fail d

/-- Skips values up to a semicolon, the end of the input or the end of the mixin body that they came
from; at least one is skipped. -/
def skipStatement : Nat → Bool → Read Unit
  | 0, _ => exhausted
  | n + 1, skipped => do
    match ← peek (·.peek 0) with
    | none => return ()
    | some v =>
      if skipped && (← peek (·.atExpansionEnd)) then
        return ()
      else if v.hasType .semicolon then
        let _ ← next
        return ()
      else
        if let some v ← value n then
          record (.valueSkipped v.start)
        skipStatement n true

mutual

/-- The entries of a style block, in a scope of their own. -/
def styleBlock : Nat → Block → Read (List Entry)
  | 0, _ => exhausted
  | n + 1, b => within b.contents (nested (inScope (styleEntries n [])))

/-- The entries of a style block, read behind those already collected in reverse. -/
def styleEntries : Nat → List Entry → Read (List Entry)
  | 0, _ => exhausted
  | n + 1, read => do
    match ← peek (·.peek 0) with
    | none => return read.reverse
    | some v =>
      match ← styleStatement n v with
      | some entry => styleEntries n (entry :: read)
      | none => styleEntries n read

/-- The statement of a style block that starts with the front value; none where it leaves no entry. -/
def styleStatement : Nat → Value → Read (Option Entry)
  | 0, _ => exhausted
  | n + 1, .token t => do
    if t.type = .whitespace ∨ t.type = .semicolon then
      let _ ← next
      return none
    else if t.type = .atKeyword then
      match ← atRule n with
      | none => return none
      | some r => return some (← resolveAtRule n r true)
    else if ← isVariableStart then
      let _ ← variableUse n
      return none
    else if t.type = .ident then
      return some (.declaration (← declaration n))
    else if t.isDelim "&" then
      return some (← styleRule n (← qualifiedRule n))
    else
      skipStatement n false
      return none
  | n + 1, _ => do
    skipStatement n false
    return none

/-- A qualified rule as a style rule. -/
def styleRule : Nat → QualifiedRule → Read Entry
  | 0, _ => exhausted
  | n + 1, r => do
    match Selector.parse r.prelude with
    | .error d => fail d
    | .ok selectors =>
      let body ← styleBlock n r.block
      return .style r.prelude selectors body

/-- An at-rule with its body.  Inside a style rule a body that could hold rules is a style block. -/
def resolveAtRule : Nat → AtRule → Bool → Read Entry
  | 0, _, _ => exhausted
  | n + 1, r, inStyle => do
    match r.block with
    | none => return r.resolved []
    | some b =>
      match BodyKind.ofName r.name.text, inStyle with
      | .keyframes, _ =>
        return r.resolved (← within b.contents (nested (inScope (keyframes n []))))
      | .rules, false =>
        return r.resolved (← within b.contents (nested (inScope (ruleList n []))))
      | _, _ => return r.resolved (← styleBlock n b)

/-- The resolved rules up to the end of the input. -/
def ruleList : Nat → List Entry → Read (List Entry)
  | 0, _ => exhausted
  | n + 1, read => do
    match ← nextRule n with
    | none => return read.reverse
    | some (.qualified r) =>
      let entry ← styleRule n r
      ruleList n (entry :: read)
    | some (.atRule r) =>
      let entry ← resolveAtRule n r false
      ruleList n (entry :: read)

/-- The keyframes up to the end of the input. -/
def keyframes : Nat → List Entry → Read (List Entry)
  | 0, _ => exhausted
  | n + 1, read => do
    match ← nextRule n with
    | none => return read.reverse
    | some (.qualified r) =>
      let body ← styleBlock n r.block
      keyframes n (.keyframe r.prelude r.block.opener body r.block.closer :: read)
    | some (.atRule r) =>
      let entry ← resolveAtRule n r true
      keyframes n (entry :: read)

end

@[simp] theorem styleBlock_zero (b : Block) :
    styleBlock 0 b = exhausted := by
  rw [styleBlock]

@[simp] theorem styleEntries_zero (read : List Entry) :
    styleEntries 0 read = exhausted := by
  rw [styleEntries]

@[simp] theorem styleStatement_zero (v : Value) :
    styleStatement 0 v = exhausted := by
  rw [styleStatement]

@[simp] theorem styleRule_zero (r : QualifiedRule) :
    styleRule 0 r = exhausted := by
  rw [styleRule]

@[simp] theorem resolveAtRule_zero (r : AtRule) (inStyle : Bool) :
    resolveAtRule 0 r inStyle = exhausted := by
  rw [resolveAtRule]

@[simp] theorem ruleList_zero (read : List Entry) :
    ruleList 0 read = exhausted := by
  rw [ruleList]

@[simp] theorem keyframes_zero (read : List Entry) :
    keyframes 0 read = exhausted := by
  rw [keyframes]

end Read
end Cascade
