import Cascade.Value

/-!
# Diagnostics

Reading a stylesheet stops at the first fault.  A fault is a cause at a place;
its wording is given once, by `Cause.message`, and its kind is a function of its
cause.
-/

namespace Cascade

/-- The kinds of fault. -/
inductive Kind where
  | malformed
  | typeMismatch
  | undeclaredVariable
  | undeclaredMixin
  | recursionLimit
  | invalidOpener
deriving Repr, DecidableEq, Inhabited

/-- The words for a kind. -/
def Kind.describe : Kind → String
  | .malformed => "syntax error"
  | .typeMismatch => "type mismatch"
  | .undeclaredVariable => "undeclared variable"
  | .undeclaredMixin => "undeclared mixin"
  | .recursionLimit => "recursion limit exceeded"
  | .invalidOpener => "invalid simple block opener"

/-- Why reading stopped. -/
inductive Cause where
  /-- Something else was found where one thing was expected. -/
  | expected (what found : String)
  /-- A value of another shape was found. -/
  | shape (wanted : Value.Shape) (found : String)
  /-- Blocks are nested too deeply. -/
  | nestingLimit (limit : Nat)
  /-- Mixins are included too deeply. -/
  | includeLimit (mixin : String) (limit : Nat)
  /-- A block starts with something that is no token. -/
  | noBracket
  /-- A block starts with a token that is no bracket. -/
  | notOpener (type : TokenType)
  | unclosedRule
  | mixinName
  | mixinBody (mixin : String)
  | unclosedParameters (mixin : String)
  | requiredAfterOptional
  | parameterSeparator
  | includeName
  | undeclaredMixin (name suggestion : String)
  | manyArguments (mixin : String) (takes given : Nat)
  | missingArgument (parameter mixin : String)
  | undeclaredVariable (name suggestion : String)
  | emptySelector
  | unexpectedInSelector (found : String)
  | danglingCombinator (combinator : String)
  | noSelector (found : String)
  | nameAfterNamespace
  | hashNotIdentifier (text : String)
  | unclosedAttribute
  | attributeValue
  | attributeModifier (text : String)
  | unclosedPseudo (name : String)
  | pseudoName
  | mismatchedCloser (expected : TokenType)
  /-- A fault in the words of the caller. -/
  | remark (kind : Kind) (text : String)
deriving Repr, DecidableEq, Inhabited

namespace Cause

/-- The kind of a cause. -/
def kind : Cause → Kind
  | .shape _ _ => .typeMismatch
  | .nestingLimit _ => .recursionLimit
  | .includeLimit _ _ => .recursionLimit
  | .noBracket => .invalidOpener
  | .notOpener _ => .invalidOpener
  | .undeclaredMixin _ _ => .undeclaredMixin
  | .undeclaredVariable _ _ => .undeclaredVariable
  | .remark k _ => k
  | _ => .malformed

/-- The wording of a cause. -/
def message : Cause → String
  | .expected what found => s!"{what}, found {found}"
  | .shape wanted found => s!"expected {wanted.name} but found {found}"
  | .nestingLimit limit => s!"block nesting exceeds {limit} levels"
  | .includeLimit mixin limit =>
    s!"including mixin {mixin} exceeds the maximum include depth {limit}"
  | .noBracket => "simple block must start with a bracket"
  | .notOpener type => s!"{type.name} cannot open a simple block"
  | .unclosedRule => "Qualified rule was not closed"
  | .mixinName => "Expected mixin name after @mixin"
  | .mixinBody mixin => "Expected '\x7b' after mixin " ++ mixin
  | .unclosedParameters mixin => s!"Parameter list of mixin {mixin} was not closed"
  | .requiredAfterOptional => "Optional parameters must come last"
  | .parameterSeparator => "Expected ',' or ')' in parameter list"
  | .includeName => "Expected mixin name after @include"
  | .undeclaredMixin name suggestion => s!"mixin {name} is not declared{suggestion}"
  | .manyArguments mixin takes given =>
    s!"mixin {mixin} takes {takes} arguments but {given} were given"
  | .missingArgument parameter mixin => s!"missing argument ${parameter} for mixin {mixin}"
  | .undeclaredVariable name suggestion => s!"${name} is not declared{suggestion}"
  | .emptySelector => "Expected selector"
  | .unexpectedInSelector found => s!"Unexpected {found} in selector"
  | .danglingCombinator combinator => s!"Expected selector after combinator '{combinator}'"
  | .noSelector found => s!"Expected selector, found {found}"
  | .nameAfterNamespace => "Expected name or '*' after namespace prefix"
  | .hashNotIdentifier text => s!"Expected identifier after '#', found {Text.quote text}"
  | .unclosedAttribute => "Expected ']'"
  | .attributeValue => "Expected string or identifier as attribute value"
  | .attributeModifier text =>
    s!"Expected attribute modifier 'i' or 's', found {Text.quote text}"
  | .unclosedPseudo name => s!"Expected ')' to close :{name}("
  | .pseudoName => "Expected pseudo-class name after ':'"
  | .mismatchedCloser type => s!"Mismatched closing bracket, expected {type.name}"
  | .remark _ text => text

end Cause

/-- A fault at a place.  No token means that the input had ended. -/
structure Diagnostic where
  cause : Cause
  token : Option Token
  position : Position
  file : String := ""
deriving Repr, DecidableEq, Inhabited

namespace Diagnostic

/-- A fault at a token, or behind the last place when there is none. -/
def located (cause : Cause) (token : Option Token) (last : Position) : Diagnostic :=
  ⟨cause, token, (token.map Token.position).getD last, ""⟩

/-- A fault at a token. -/
def atToken (cause : Cause) (token : Token) : Diagnostic :=
  ⟨cause, some token, token.position, ""⟩

/-- A fault at the end of the input. -/
def atEnd (cause : Cause) (last : Position) : Diagnostic :=
  ⟨cause, none, last, ""⟩

/-- The kind of a fault. -/
def kind (d : Diagnostic) : Kind :=
  d.cause.kind

/-- The fault with the file it was found in, unless it has one. -/
def withFile (d : Diagnostic) (file : String) : Diagnostic :=
  if d.file = "" then { d with file := file } else d

/-- The line that reports the fault. -/
def message (d : Diagnostic) : String :=
  let file := if d.file = "" then "" else d.file ++ ":"
  let place := s!"{d.position.line}:{d.position.column}: "
  let shown :=
    match d.token with
    | some t => s!" (token: {t.describe})"
    | none => " (at end of input)"
  file ++ place ++ d.kind.describe ++ ": " ++ d.cause.message ++ shown

end Diagnostic
end Cascade
