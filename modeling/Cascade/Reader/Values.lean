import Cascade.Reader.Raw
import Cascade.Suggestion

/-!
# Resolved values

Component values with their brackets and functions grouped and their variables
resolved.  A definition of a variable binds it in the innermost scope and leaves
no value; a reference to a bound variable is replaced by the bound values, which
are then read in its place.  Inside the body of a mixin a reference to a
parameter, or to an unknown variable, is kept for the place of inclusion.

Every function takes a budget of steps as its first argument.
-/

namespace Cascade

/-- What reading `$name` did. -/
inductive VariableUse where
  /-- The variable has been defined. -/
  | defined (reference : Reference) (operator : Token) (value : List Value)
  /-- The reference stays, for the place where the mixin around it is included. -/
  | kept (reference : Reference)
  /-- The bound values now stand in front of the cursor. -/
  | substituted (reference : Reference)
deriving Repr, Inhabited

/-- The value that a use leaves in place: that of a reference that stays. -/
def VariableUse.value? : VariableUse → Option Value
  | .kept reference => some reference.toValue
  | _ => none

namespace Read

/-- The cursor is at a dollar sign with a name behind it. -/
def isVariableStart : Read Bool :=
  peek fun c => c.checkDelim 0 "$" && c.check 1 .ident

/-- Replaces a reference by the values bound to it, or keeps it. -/
def resolve (ref : Reference) : Read VariableUse := do
  let name := ref.name.text
  let scopes ← look (·.scopes)
  if scopes.isParameter name then
    return .kept ref
  match scopes.findVariable? name with
  | some values =>
    splice values
    return .substituted ref
  | none =>
    if scopes.isCapturing then
      return .kept ref
    else
      fail (.atToken (.undeclaredVariable name (suggest name scopes.variableNames)) ref.name)

/-- Reads the whitespace at the front that has no line feed. -/
def skipInline : Nat → Read Unit
  | 0 => return ()
  | n + 1 => do
    match ← peek (·.peekToken 0) with
    | some t =>
      if t.type = .whitespace ∧ ¬ t.text.contains '\n' then
        let _ ← next
        skipInline n
      else
        return ()
    | none => return ()

/-- The token ends the value of a definition: a semicolon, or whitespace with a line feed. -/
def endsDefinition (t : Token) : Bool :=
  t.type == .semicolon || (t.type == .whitespace && t.text.contains '\n')

/-! ## Ends of value lists

What ends a list of values, given those collected so far in reverse.  Where nothing does, the list
goes on with one more value. -/

/-- A block ends at its closer or at the end of the input. -/
def blockEnd (opener : Token) (closer : TokenType) (read : List Value) : Read (Option Block) := do
  match ← peek (·.peek 0) with
  | none => return some ⟨opener, read.reverse, none⟩
  | some v =>
    if v.hasType closer then
      let _ ← next
      return some ⟨opener, read.reverse, some v.witness⟩
    else
      return none

/-- A definition ends at a semicolon or a line feed, which is read too. -/
def definitionEnd (read : List Value) : Read (Option (List Value)) := do
  match ← peek (·.peek 0) with
  | none => return some (trimWhitespace read.reverse)
  | some (.token t) =>
    if endsDefinition t then
      let _ ← next
      return some (trimWhitespace read.reverse)
    else
      return none
  | some _ => return none

/-- The end of the input. -/
def inputEnd (read : List Value) : Read (Option (List Value)) := do
  if ← peek (·.atEnd) then return some read.reverse else return none

/-! ## Values -/

/-- A call that is being read: the finished arguments, the commas and the current argument, all in
reverse. -/
structure CallState where
  finished : List (List Value) := []
  commas : List Token := []
  current : List Value := []
deriving Repr, Inhabited

namespace CallState

/-- One more value in the current argument. -/
def push (s : CallState) (v : Value) : CallState :=
  { s with current := v :: s.current }

/-- The current argument ends at a comma. -/
def separate (s : CallState) (comma : Token) : CallState :=
  ⟨s.current.reverse :: s.finished, comma :: s.commas, []⟩

/-- The call of a name, when its arguments have ended. -/
def close (s : CallState) (name : Token) (closer : Option Token) : Call :=
  let all :=
    if s.current.isEmpty && s.commas.isEmpty then s.finished else s.current.reverse :: s.finished
  ⟨name, all.reverse, s.commas.reverse, closer⟩

end CallState

mutual

/-- One component value; none where a variable was defined or substituted, or the input has ended. -/
def value : Nat → Read (Option Value)
  | 0 => exhausted
  | n + 1 => do
    match ← peek (·.peek 0) with
    | some (.reference dollar name) =>
      let _ ← next
      return (← resolve ⟨dollar, name⟩).value?
    | some (.token t) =>
      if t.type.isOpener then
        return some (← block n).toValue
      else if t.type = .function then
        return some (← call n).toValue
      else if ← isVariableStart then
        return (← variableUse n).value?
      else
        next
    | some group =>
      remember group
      next
    | none => next

/-- Values up to an end, read behind those already collected in reverse. -/
def collect {β : Type} : Nat → (List Value → Read (Option β)) → List Value → Read β
  | 0, _, _ => exhausted
  | n + 1, ending, read => do
    match ← ending read with
    | some result => return result
    | none =>
      match ← value n with
      | some v => collect n ending (v :: read)
      | none => collect n ending read

/-- The block that the front token opens, its contents resolved in a scope of their own. -/
def block : Nat → Read Block
  | 0 => exhausted
  | n + 1 => do
    let (opener, closer) ← scan Scan.opener
    nested (inScope (collect n (blockEnd opener closer) []))

/-- The function call at the front. -/
def call : Nat → Read Call
  | 0 => exhausted
  | n + 1 => do
    let name ← scan (Scan.consume .function "Expected function")
    nested (arguments n name {})

/-- The arguments of a call. -/
def arguments : Nat → Token → CallState → Read Call
  | 0, _, _ => exhausted
  | n + 1, name, state => do
    match ← peek (·.peek 0) with
    | none => return state.close name none
    | some v =>
      if v.hasType .closeParen then
        let _ ← next
        return state.close name (some v.witness)
      else if v.hasType .comma then
        let _ ← next
        arguments n name (state.separate v.witness)
      else
        match ← value n with
        | some v => arguments n name (state.push v)
        | none => arguments n name state

/-- A definition of a variable, or a reference to one. -/
def variableUse : Nat → Read VariableUse
  | 0 => exhausted
  | n + 1 => do
    let dollar ← scan (Scan.consumeDelim "$" "Expected '$'")
    let name ← scan (Scan.consume .ident "Expected variable name after '$'")
    let ref : Reference := ⟨dollar, name⟩
    let offset ← peek (·.blankOffset)
    match ← peek (·.peekToken offset) with
    | some operator =>
      if operator.type = .colon ∨ operator.isDelim "=" then
        skipWhitespace
        let _ ← next
        let values ← valueList n
        updateScopes (·.setVariable name.text values)
        record (.variableDefined name.text (← look (·.scopes.depth)))
        return .defined ref operator values
      else
        resolve ref
    | none => resolve ref

/-- The value of a definition. -/
def valueList : Nat → Read (List Value)
  | 0 => exhausted
  | n + 1 => do
    skipInline (← peek (·.items.length))
    collect n definitionEnd []

end

@[simp] theorem value_zero :
    value 0 = exhausted := by
  rw [value]

@[simp] theorem collect_zero {β : Type} (ending : List Value → Read (Option β)) (read : List Value) :
    collect 0 ending read = exhausted := by
  rw [collect]

@[simp] theorem block_zero :
    block 0 = exhausted := by
  rw [block]

@[simp] theorem call_zero :
    call 0 = exhausted := by
  rw [call]

@[simp] theorem arguments_zero (name : Token) (state : CallState) :
    arguments 0 name state = exhausted := by
  rw [arguments]

@[simp] theorem variableUse_zero :
    variableUse 0 = exhausted := by
  rw [variableUse]

@[simp] theorem valueList_zero :
    valueList 0 = exhausted := by
  rw [valueList]

/-- All values up to the end of the input. -/
def allValues (n : Nat) : Read (List Value) :=
  collect n inputEnd []

end Read
end Cascade
