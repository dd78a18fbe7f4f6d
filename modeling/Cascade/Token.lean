import Cascade.Text.Quoted

/-!
# Tokens

A stylesheet is read as a list of tokens.  A token has a type, a text with its
escapes decoded, a place in the source and, for some types, a detail that the
text alone does not give: how a string was quoted, whether a number was written
as an integer, the unit of a dimension.
-/

namespace Cascade

/-- A place in the source: line and column count from one, the offset counts bytes from zero. -/
structure Position where
  line : Nat
  column : Nat
  offset : Nat
deriving Repr, DecidableEq, Inhabited

namespace Position

/-- The place of the first character of a source. -/
def start : Position :=
  ⟨1, 1, 0⟩

/-- No place at all: the position of what was not read from a source. -/
def none : Position :=
  ⟨0, 0, 0⟩

/-- The place behind a character that stands at the given place. -/
def after (p : Position) (c : Char) : Position :=
  if c = '\n' then
    ⟨p.line + 1, 1, p.offset + c.utf8Size⟩
  else
    ⟨p.line, p.column + 1, p.offset + c.utf8Size⟩

/-- The place behind a run of characters. -/
def afterAll (p : Position) (cs : List Char) : Position :=
  cs.foldl after p

/-- The place in words. -/
def describe (p : Position) : String :=
  s!"line {p.line}, column {p.column}"

@[simp] theorem afterAll_nil (p : Position) :
    p.afterAll [] = p := by
  rfl

@[simp] theorem afterAll_cons (p : Position) (c : Char) (cs : List Char) :
    p.afterAll (c :: cs) = (p.after c).afterAll cs := by
  rfl

@[simp] theorem afterAll_append (p : Position) (u v : List Char) :
    p.afterAll (u ++ v) = (p.afterAll u).afterAll v := by
  simp [afterAll]

end Position

/-- The twenty-five types of token. -/
inductive TokenType where
  | eof
  | whitespace
  | ident
  | function
  | atKeyword
  | hash
  | string
  | badString
  | url
  | badUrl
  | delim
  | number
  | percentage
  | dimension
  | cdo
  | cdc
  | colon
  | semicolon
  | comma
  | openBracket
  | closeBracket
  | openParen
  | closeParen
  | openBrace
  | closeBrace
deriving Repr, DecidableEq, Inhabited

namespace TokenType

/-- All types, in the order of their codes. -/
def all : List TokenType :=
  [.eof, .whitespace, .ident, .function, .atKeyword, .hash, .string, .badString, .url, .badUrl,
    .delim, .number, .percentage, .dimension, .cdo, .cdc, .colon, .semicolon, .comma,
    .openBracket, .closeBracket, .openParen, .closeParen, .openBrace, .closeBrace]

/-- The name of a type in listings and diagnostics. -/
def name : TokenType → String
  | .eof => "EOF"
  | .whitespace => "WHITESPACE"
  | .ident => "IDENT"
  | .function => "FUNCTION"
  | .atKeyword => "AT_KEYWORD"
  | .hash => "HASH"
  | .string => "STRING"
  | .badString => "BAD_STRING"
  | .url => "URL"
  | .badUrl => "BAD_URL"
  | .delim => "DELIM"
  | .number => "NUMBER"
  | .percentage => "PERCENTAGE"
  | .dimension => "DIMENSION"
  | .cdo => "CDO"
  | .cdc => "CDC"
  | .colon => "COLON"
  | .semicolon => "SEMICOLON"
  | .comma => "COMMA"
  | .openBracket => "OPENED_BRACKET"
  | .closeBracket => "CLOSED_BRACKET"
  | .openParen => "OPENED_PARENS"
  | .closeParen => "CLOSED_PARENS"
  | .openBrace => "OPENED_BRACE"
  | .closeBrace => "CLOSED_BRACE"

/-- The type with a given name. -/
def ofName? (s : String) : Option TokenType :=
  all.find? fun t => t.name == s

/-- The type with a given code. -/
def ofCode? (n : Int) : Option TokenType :=
  if n < 0 then none else all[n.toNat]?

/-- The name of a code, also of one that is no type's. -/
def nameOfCode (n : Int) : String :=
  match ofCode? n with
  | some t => t.name
  | none => s!"TokenType({n})"

/-- The closer of an opening bracket. -/
def partner? : TokenType → Option TokenType
  | .openBrace => some .closeBrace
  | .openBracket => some .closeBracket
  | .openParen => some .closeParen
  | _ => none

/-- The types of the three opening brackets. -/
def isOpener (t : TokenType) : Bool :=
  t.partner?.isSome

/-- The types of the three closing brackets. -/
def isCloser : TokenType → Bool
  | .closeBrace => true
  | .closeBracket => true
  | .closeParen => true
  | _ => false

/-- The closer that a token of the type asks for: that of a bracket, or of a function's parenthesis. -/
def closer? : TokenType → Option TokenType
  | .function => some .closeParen
  | t => t.partner?

/-- The types that carry a number. -/
def isNumeric : TokenType → Bool
  | .number => true
  | .percentage => true
  | .dimension => true
  | _ => false

end TokenType

/-- The mark around a string. -/
inductive Quote where
  | single
  | double
deriving Repr, DecidableEq, Inhabited

/-- The character of a quotation mark. -/
def Quote.char : Quote → Char
  | .single => '\''
  | .double => '"'

/-- What a token carries beside its text. -/
inductive Detail where
  | none
  | name (isId : Bool)
  | quoted (quote : Quote)
  | numeral (isInteger : Bool)
  | measure (isInteger : Bool) (unit : String)
deriving Repr, DecidableEq, Inhabited

namespace Detail

/-- The detail as named flags, in the order of their names. -/
def flags : Detail → List (String × String)
  | .none => []
  | .name isId => [("type", if isId then "id" else "unquoted")]
  | .quoted q => [("quote", String.singleton q.char)]
  | .numeral isInteger => [("type", if isInteger then "integer" else "number")]
  | .measure isInteger unit => [("type", if isInteger then "integer" else "number"), ("unit", unit)]

end Detail

/-- A token of a stylesheet. -/
structure Token where
  type : TokenType
  text : String
  position : Position := Position.none
  detail : Detail := .none
deriving Repr, DecidableEq, Inhabited

namespace Token

/-- The token is the delimiter with the given text. -/
def isDelim (t : Token) (text : String) : Bool :=
  t.type == .delim && t.text == text

theorem isDelim_iff {t : Token} {text : String} :
    t.isDelim text = true ↔ t.type = .delim ∧ t.text = text := by
  simp [isDelim]

/-- The unit of a dimension; the empty text for any other token. -/
def unit (t : Token) : String :=
  match t.detail with
  | .measure _ u => u
  | _ => ""

/-- The mark that a string token is written with. -/
def quote (t : Token) : Quote :=
  match t.detail with
  | .quoted q => q
  | _ => .double

/-- The token is a hash whose name is an identifier. -/
def isIdHash (t : Token) : Bool :=
  t.type == .hash && t.detail == .name true

/-- The token in a diagnostic. -/
def describe (t : Token) : String :=
  match t.type with
  | .eof => "EOF"
  | .dimension => s!"DIMENSION({t.text}{t.unit})"
  | type => s!"{type.name}({Text.quote t.text})"

/-- The token as a line of a listing: place, type, text and flags. -/
def listing (t : Token) : String :=
  let head := s!"{t.position.line}:{t.position.column} {t.type.name}"
  let text := if t.type = .eof then "" else " " ++ Text.quote t.text
  let flags := t.detail.flags.map fun f => " " ++ f.1 ++ "=" ++ f.2
  head ++ text ++ String.join flags

end Token
end Cascade
