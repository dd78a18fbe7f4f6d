import Cascade.Token

/-!
# Component values

The values that rules and declarations are made of: a token, a run of values in
brackets, a function call with its arguments, or a reference to a variable.
Blocks and calls keep their brackets and commas, so that a value list can be
laid flat again.
-/

namespace Cascade

/-- A component value. -/
inductive Value where
  | token (token : Token)
  | block (opener : Token) (contents : List Value) (closer : Option Token)
  | call (name : Token) (arguments : List (List Value)) (commas : List Token)
      (closer : Option Token)
  | reference (dollar name : Token)
deriving Repr, Inhabited

/-- A run of values in brackets; the closer is missing when the input ended first. -/
structure Block where
  opener : Token
  contents : List Value
  closer : Option Token
deriving Repr, Inhabited

/-- A function token with its arguments and the commas between them. -/
structure Call where
  name : Token
  arguments : List (List Value)
  commas : List Token
  closer : Option Token
deriving Repr, Inhabited

/-- A reference `$name`. -/
structure Reference where
  dollar : Token
  name : Token
deriving Repr, DecidableEq, Inhabited

/-- The block as a value. -/
def Block.toValue (b : Block) : Value :=
  .block b.opener b.contents b.closer

/-- The block is in braces. -/
def Block.isBraced (b : Block) : Bool :=
  b.opener.type == .openBrace

/-- The call as a value. -/
def Call.toValue (c : Call) : Value :=
  .call c.name c.arguments c.commas c.closer

/-- The reference as a value. -/
def Reference.toValue (r : Reference) : Value :=
  .reference r.dollar r.name

/-- The arguments of a call with the commas between them put back. -/
def flattenArguments : List (List Value) → List Token → List Value
  | [], _ => []
  | [arg], _ => arg
  | arg :: args, [] => arg ++ flattenArguments args []
  | arg :: args, comma :: commas => arg ++ .token comma :: flattenArguments args commas

/-- The arguments of the call with the commas between them put back. -/
def Call.flatten (c : Call) : List Value :=
  flattenArguments c.arguments c.commas

namespace Value

/-- The place of the first token of a value. -/
def start : Value → Position
  | .token t => t.position
  | .block opener _ _ => opener.position
  | .call name _ _ _ => name.position
  | .reference dollar _ => dollar.position

/-- The shapes of a value. -/
inductive Shape where
  | token
  | block
  | call
  | reference
deriving Repr, DecidableEq, Inhabited

/-- The word for a shape in diagnostics. -/
def Shape.name : Shape → String
  | .token => "tokenizer.Token"
  | .block => "*parsercommon.SimpleBlock"
  | .call => "*parsercommon.FunctionCall"
  | .reference => "*parsercommon.Variable"

/-- The shape of a value. -/
def shape : Value → Shape
  | .token _ => .token
  | .block _ _ _ => .block
  | .call _ _ _ _ => .call
  | .reference _ _ => .reference

/-- The value is a token of the given type. -/
def hasType (v : Value) (type : TokenType) : Bool :=
  match v with
  | .token t => t.type == type
  | _ => false

/-- The value is the delimiter with the given text. -/
def isDelim (v : Value) (text : String) : Bool :=
  match v with
  | .token t => t.isDelim text
  | _ => false

/-- The value is whitespace. -/
def isWhitespace (v : Value) : Bool :=
  v.hasType .whitespace

/-- The value in a diagnostic. -/
def describe : Value → String
  | .token t => t.describe
  | v => v.shape.name

/-- The token that a diagnostic shows for a value; what is no token is shown by its shape. -/
def witness : Value → Token
  | .token t => t
  | v => ⟨.delim, v.shape.name, v.start, .none⟩

end Value

/-- A value in a diagnostic, where the input may have ended. -/
def describeOption : Option Value → String
  | some v => v.describe
  | none => "end of input"

/-- The values without the whitespace at both ends. -/
def trimWhitespace (vs : List Value) : List Value :=
  ((vs.dropWhile Value.isWhitespace).reverse.dropWhile Value.isWhitespace).reverse

theorem mem_of_mem_trimWhitespace {v : Value} {vs : List Value} (h : v ∈ trimWhitespace vs) :
    v ∈ vs := by
  unfold trimWhitespace at h
  have hback := (List.dropWhile_sublist _).subset (List.mem_reverse.mp h)
  exact (List.dropWhile_sublist _).subset (List.mem_reverse.mp hback)

/-- The values of a token list; the end token is no value. -/
def valuesOf (ts : List Token) : List Value :=
  (ts.filter fun t => t.type != .eof).map .token

end Cascade
