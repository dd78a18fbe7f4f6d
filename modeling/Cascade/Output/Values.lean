import Cascade.Output.Escape
import Cascade.Output.Number
import Cascade.Value

/-!
# Writing values

Whitespace between values becomes one space.  The short form keeps a space only
where the values beside it need one, and writes numbers in their short form.
-/

namespace Cascade
namespace Output

/-- The text of a number token. -/
def numberText (minify : Bool) (text : String) : List Char :=
  (if minify then shortenNumber text else text).toList

/-- The text of a token. -/
def tokenText (minify : Bool) (t : Token) : List Char :=
  let text := t.text.toList
  match t.type with
  | .ident => escapeIdent text
  | .function => escapeIdent text ++ ['(']
  | .atKeyword => '@' :: escapeIdent text
  | .hash => '#' :: if t.isIdHash then escapeIdent text else escapeName text
  | .string => quoteString t.quote text
  | .badString => quoteString t.quote text
  | .url => "url(".toList ++ escapeUrl text ++ [')']
  | .badUrl => "url()".toList
  | .number => numberText minify t.text
  | .percentage => numberText minify t.text ++ ['%']
  | .dimension => numberText minify t.text ++ escapeName t.unit.toList
  | .whitespace => [' ']
  | _ => text

/-- No space is needed behind the value. -/
def opensRun (v : Value) : Bool :=
  [TokenType.comma, .colon, .semicolon, .openParen, .openBracket, .openBrace, .function].any v.hasType

/-- No space is needed before the value. -/
def endsRun (v : Value) : Bool :=
  [TokenType.comma, .colon, .semicolon, .closeParen, .closeBracket, .closeBrace].any v.hasType

/-- The value starts with a parenthesis. -/
def startsParen : Value → Bool
  | .block opener _ _ => opener.type == .openParen
  | v => v.hasType .openParen

/-- The value is a token that a parenthesis behind it would change. -/
def endsWord : Value → Bool
  | .token t => t.type != .delim
  | _ => false

/-- The space between two values must stay in the short form. -/
def needsSpace (a b : Value) : Bool :=
  !opensRun a && !endsRun b && (!startsParen b || endsWord a)

/-- The space between the value before it, if any, and the values behind it is written. -/
def keepsSpace (minify : Bool) (before : Option Value) (behind : List Value) : Bool :=
  match before, behind.find? (fun v => !v.isWhitespace) with
  | some a, some b => !minify || needsSpace a b
  | _, _ => false

/-- The text of the closer that an opener asks for. -/
def closerText (opener : TokenType) : List Char :=
  match opener.partner? with
  | some .closeBrace => ['\x7d']
  | some .closeBracket => [']']
  | some _ => [')']
  | none => []

mutual

/-- The text of a value. -/
def valueText (minify : Bool) : Value → List Char
  | .token t => tokenText minify t
  | .call name args _ _ =>
    escapeIdent name.text.toList ++ '(' :: argumentsText minify args ++ [')']
  | .block opener contents _ =>
    opener.text.toList ++ valuesAfter minify none contents ++ closerText opener.type
  | .reference _ _ => []

/-- The text of values behind a given one; whitespace at either end is not written. -/
def valuesAfter (minify : Bool) (before : Option Value) : List Value → List Char
  | [] => []
  | v :: vs =>
    if v.isWhitespace then
      if keepsSpace minify before vs then
        ' ' :: valuesAfter minify before vs
      else
        valuesAfter minify before vs
    else
      valueText minify v ++ valuesAfter minify (some v) vs

/-- The text of arguments with commas between them. -/
def argumentsText (minify : Bool) : List (List Value) → List Char
  | [] => []
  | [arg] => valuesAfter minify none arg
  | arg :: args =>
    valuesAfter minify none arg ++ (if minify then [','] else [',', ' ']) ++
      argumentsText minify args

end

/-- The text of a value list. -/
def valuesText (minify : Bool) (vs : List Value) : List Char :=
  valuesAfter minify none vs

end Output

/-- A value list as text, in the short form or not. -/
def formatValues (minify : Bool) (vs : List Value) : String :=
  String.ofList (Output.valuesText minify vs)

end Cascade
