import Cascade.Reader.Values

/-!
# Mixins

A mixin is a captured body with parameters.  Including it puts an instance of the
body in front of the cursor: the body in which every reference to a parameter is
replaced by its argument, or by its default where the argument is missing or
blank.
-/

namespace Cascade

mutual

/-- The value with the bound references in it replaced. -/
def Value.instantiate (bound : Bindings (List Value)) : Value → List Value
  | .reference dollar name =>
    match bound.find? name.text with
    | some values => values
    | none => [.reference dollar name]
  | .block opener contents closer => [.block opener (instantiateAll bound contents) closer]
  | .call name args commas closer => [.call name (instantiateArguments bound args) commas closer]
  | .token t => [.token t]

/-- The values with the bound references in them replaced. -/
def instantiateAll (bound : Bindings (List Value)) : List Value → List Value
  | [] => []
  | v :: vs => Value.instantiate bound v ++ instantiateAll bound vs

/-- The arguments with the bound references in them replaced. -/
def instantiateArguments (bound : Bindings (List Value)) : List (List Value) → List (List Value)
  | [] => []
  | arg :: args => instantiateAll bound arg :: instantiateArguments bound args

end

theorem mem_instantiateAll {bound : Bindings (List Value)} {vs : List Value} {u : Value}
    (h : u ∈ instantiateAll bound vs) :
    ∃ v ∈ vs, u ∈ v.instantiate bound := by
  induction vs with
  | nil => simp [instantiateAll] at h
  | cons v vs ih =>
      rw [instantiateAll] at h
      rcases List.mem_append.mp h with hv | hvs
      · exact ⟨v, List.mem_cons_self, hv⟩
      · obtain ⟨w, hw, hu⟩ := ih hvs
        exact ⟨w, List.mem_cons_of_mem _ hw, hu⟩

theorem mem_instantiateArguments {bound : Bindings (List Value)} {args : List (List Value)}
    {arg : List Value} (h : arg ∈ instantiateArguments bound args) :
    ∃ vs ∈ args, arg = instantiateAll bound vs := by
  induction args with
  | nil => simp [instantiateArguments] at h
  | cons vs args ih =>
      rw [instantiateArguments] at h
      rcases List.mem_cons.mp h with rfl | h
      · exact ⟨vs, List.mem_cons_self, rfl⟩
      · obtain ⟨ws, hws, harg⟩ := ih h
        exact ⟨ws, List.mem_cons_of_mem _ hws, harg⟩

/-- Binds parameters to arguments, in order; a later parameter of the same name wins. -/
def bindArguments (mixin : String) :
    List Parameter → List (List Value) → Bindings (List Value) →
    Except Cause (Bindings (List Value))
  | [], _, bound => .ok bound
  | p :: ps, args, bound =>
    match trimWhitespace (args.headD []), p.fallback with
    | [], none => .error (.missingArgument p.name mixin)
    | [], some value => bindArguments mixin ps args.tail (bound.set p.name value)
    | value, _ => bindArguments mixin ps args.tail (bound.set p.name value)

/-- The body of a mixin with arguments in place of its parameters. -/
def Mixin.instantiate (m : Mixin) (name : String) (args : List (List Value)) :
    Except Cause (List Value) :=
  let parameters := m.parameterList
  if parameters.length < args.length then
    .error (.manyArguments name parameters.length args.length)
  else
    (bindArguments name parameters args []).map (instantiateAll · m.body)

namespace Read

/-- A default ends before a comma, a closing parenthesis or the end of the input. -/
def fallbackEnd (read : List Value) : Read (Option (List Value)) := do
  match ← peek (·.peek 0) with
  | none => return some (trimWhitespace read.reverse)
  | some v =>
    if v.hasType .comma || v.hasType .closeParen then
      return some (trimWhitespace read.reverse)
    else
      return none

/-- The parameters of a mixin up to the closing parenthesis.  Those with a default come last. -/
def parameters (mixin : Token) : Nat → Bool → List Parameter → Read (List Parameter)
  | 0, _, _ => exhausted
  | n + 1, seenDefault, read => do
    skipWhitespace
    if ← peek (·.atEnd) then
      failAt 0 (.unclosedParameters mixin.text)
    else if ← peek (·.check 0 .closeParen) then
      let _ ← next
      return read.reverse
    else
      let _ ← scan (Scan.consumeDelim "$" "Expected '$' before parameter name")
      let name ← scan (Scan.consume .ident "Expected parameter name after '$'")
      skipWhitespace
      let hasDefault ← peek fun c => c.checkDelim 0 "=" || c.check 0 .colon
      let fallback ←
        if hasDefault then
          let _ ← next
          pure (some (← collect n fallbackEnd []))
        else if seenDefault then
          fail (.atToken .requiredAfterOptional name)
        else
          pure none
      let read := ⟨name.text, name, fallback⟩ :: read
      skipWhitespace
      if ← peek (·.check 0 .comma) then
        let _ ← next
        parameters mixin n (seenDefault || hasDefault) read
      else if ← peek (·.check 0 .closeParen) then
        parameters mixin n (seenDefault || hasDefault) read
      else
        failAt 0 .parameterSeparator

/-- The name of a mixin with its parameters, if it has a list of them. -/
def mixinHead (n : Nat) : Read (Token × Option (List Parameter)) := do
  match ← peek (·.peekToken 0) with
  | some t =>
    if t.type = .ident then
      let _ ← next
      return (t, none)
    else if t.type = .function then
      let _ ← next
      return (t, some (← parameters t n false []))
    else
      failAt 0 .mixinName
  | none => failAt 0 .mixinName

/-- A definition of a mixin, read behind its keyword. -/
def defineMixin (n : Nat) : Read Unit := do
  skipWhitespace
  let (name, ps) ← mixinHead n
  skipWhitespace
  let names := (ps.getD []).map (·.name)
  let body ←
    match ← peek (·.peek 0) with
    | some (.token t) =>
      if t.type = .openBrace then
        let b ← capturing names (block n)
        pure b.contents
      else
        failAt 0 (.mixinBody name.text)
    | some (.block opener contents _) =>
      if opener.type = .openBrace then
        let _ ← next
        pure contents
      else
        failAt 0 (.mixinBody name.text)
    | _ => failAt 0 (.mixinBody name.text)
  updateScopes (·.setMixin name.text ⟨ps, body⟩)
  record (.mixinDefined name.text names.length name.position.line)

/-- The instance of a mixin for a list of arguments. -/
def instantiate (name : Token) (args : List (List Value)) : Read (List Value) := do
  let scopes ← look (·.scopes)
  match scopes.findMixin? name.text with
  | none =>
    fail (.atToken (.undeclaredMixin name.text (suggest name.text scopes.mixinNames)) name)
  | some m =>
    match m.instantiate name.text args with
    | .ok body => return body
    | .error cause => fail (.atToken cause name)

/-- The mixins that a statement includes, with their instances, the last one first. -/
def targets : Nat → List (String × List Value) → Read (List (String × List Value))
  | 0, _ => exhausted
  | n + 1, read => do
    skipWhitespace
    match ← peek (·.peek 0) with
    | none => return read
    | some (.token t) =>
      if t.type = .semicolon then
        let _ ← next
        return read
      else if t.type = .comma then
        let _ ← next
        targets n read
      else if t.type = .ident then
        let _ ← next
        let body ← instantiate t []
        targets n ((t.text, body) :: read)
      else if t.type = .function then
        let c ← call n
        let body ← instantiate c.name c.arguments
        targets n ((c.name.text, body) :: read)
      else
        failAt 0 .includeName
    | some (.call name args _ _) =>
      let _ ← next
      let body ← instantiate name args
      targets n ((name.text, body) :: read)
    | some _ => failAt 0 .includeName

/-- Puts the instances in front of the cursor, given from the last to the first. -/
def expand : List (String × List Value) → Read Unit
  | [] => return ()
  | (name, body) :: rest => do
    spliceExpansion name body
    record (.mixinIncluded name (← peek (·.depth)))
    expand rest

/-- An inclusion of mixins, read behind its keyword.  All instances are made before any is put in
front, so that the remaining targets are not displaced. -/
def includeMixins (n : Nat) (keyword : Token) : Read Unit := do
  let reversed ← targets n []
  match reversed.getLast? with
  | none => fail (.atToken .includeName keyword)
  | some (first, _) =>
    let limit ← look (·.limits.includeDepth)
    if limit < (← peek (·.depth)) + reversed.length then
      fail (.atToken (.includeLimit first limit) keyword)
    else
      expand reversed

end Read
end Cascade
