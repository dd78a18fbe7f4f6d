import Cascade.Token.Lexer

/-!
# Escapes

How names, strings and addresses are written so that the lexer reads them back.
A control character is written by its code and a blank, any other character that
would end or change the token by a backslash.
-/

namespace Cascade
namespace Output

/-- Control characters are written by their codes. -/
def isControl (c : Char) : Bool :=
  (0x01 ≤ c.toNat && c.toNat ≤ 0x1F) || c.toNat == 0x7F

/-- A character by its hexadecimal code; the blank ends the code. -/
def hexEscape (c : Char) : List Char :=
  '\\' :: Nat.toDigits 16 c.toNat ++ [' ']

/-- A character inside a name. -/
def escapeNameChar (c : Char) : List Char :=
  if c.toNat = 0 then ['\ufffd']
  else if isControl c then hexEscape c
  else if Lexer.isNameChar c then [c]
  else ['\\', c]

/-- A name that need not be an identifier, such as a unit. -/
def escapeName (s : List Char) : List Char :=
  s.flatMap escapeNameChar

/-- A character at a place where a digit would make the name a number. -/
def escapeStartChar (c : Char) : List Char :=
  if Lexer.isDigit c then hexEscape c else escapeNameChar c

/-- An identifier; it starts with no digit, no digit behind a hyphen, and is no lone hyphen. -/
def escapeIdent : List Char → List Char
  | [] => []
  | ['-'] => ['\\', '-']
  | '-' :: c :: rest => '-' :: escapeStartChar c ++ escapeName rest
  | c :: rest => escapeStartChar c ++ escapeName rest

/-- A character inside a string with the given mark. -/
def quoteStringChar (mark c : Char) : List Char :=
  if c.toNat = 0 then ['\ufffd']
  else if isControl c then hexEscape c
  else if c = '\\' ∨ c = mark then ['\\', c]
  else [c]

/-- A string between two marks. -/
def quoteString (q : Quote) (s : List Char) : List Char :=
  q.char :: s.flatMap (quoteStringChar q.char) ++ [q.char]

/-- A character inside an unquoted address. -/
def escapeUrlChar (c : Char) : List Char :=
  if c.toNat = 0 then ['\ufffd']
  else if isControl c ∨ c = ' ' ∨ c = '\t' then hexEscape c
  else if c = '\\' ∨ c = '"' ∨ c = '\'' ∨ c = '(' ∨ c = ')' then ['\\', c]
  else [c]

/-- The text of an unquoted address. -/
def escapeUrl (s : List Char) : List Char :=
  s.flatMap escapeUrlChar

end Output
end Cascade
