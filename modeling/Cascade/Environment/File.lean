import Cascade.Environment

/-!
# Environment files

A file with one variable a line: a name, an equals sign or a colon, and a value.
The word `export` may stand in front, and comments start with a number sign.  A
value may be quoted; without quotes it goes to the end of the line, without a
comment that a space sets off.  Values may refer to variables that the file has
set before.
-/

namespace Cascade
namespace EnvironmentFile

/-- Why a file could not be read. -/
inductive Fault where
  | emptyStatement
  | nameCharacter (found : Char)
  | unclosedQuote
deriving Repr, DecidableEq, Inhabited

/-- The wording of a fault. -/
def Fault.message : Fault → String
  | .emptyStatement => "zero length string"
  | .nameCharacter found => s!"unexpected character '{found}' in variable name"
  | .unclosedQuote => "unterminated quoted value"

/-- White space inside a line. -/
def isSpace (c : Char) : Bool :=
  c == ' ' || c == '\t' || c == '\x0b' || c == '\x0c' || c == '\r' ||
    c.toNat == 0x85 || c.toNat == 0xA0

/-- Carriage returns in front of line feeds taken out. -/
def normalizeLineEnds : List Char → List Char
  | [] => []
  | '\r' :: '\n' :: rest => '\n' :: normalizeLineEnds rest
  | c :: rest => c :: normalizeLineEnds rest

/-- The text from the next statement on.  Each comment takes a character, so the fuel is the
length of the text. -/
def statement? : Nat → List Char → Option (List Char)
  | 0, _ => none
  | fuel + 1, cs =>
    match cs.dropWhile Text.isBlank with
    | [] => none
    | '#' :: rest => statement? fuel (rest.dropWhile (· != '\n'))
    | cs => some cs

/-- The text behind the word `export`, if white space follows it. -/
def dropExport (cs : List Char) : List Char :=
  match Text.afterLead? ['e', 'x', 'p', 'o', 'r', 't'] cs with
  | some (c :: rest) => if isSpace c then rest.dropWhile isSpace else cs
  | _ => cs

/-- A byte of a name: a letter, a number, a point or a blank when each byte is taken for the
character with its code. -/
def isNameByte (b : UInt8) : Bool :=
  let n := b.toNat
  let c := Char.ofNat n
  c.isAlphanum || c == '_' || c == '.' || isSpace c ||
    [0xAA, 0xB2, 0xB3, 0xB5, 0xB9, 0xBA, 0xBC, 0xBD, 0xBE].contains n ||
    (0xC0 ≤ n && n != 0xD7 && n != 0xF7)

/-- A character of a name: all its bytes are. -/
def isNameChar (c : Char) : Bool :=
  (String.utf8EncodeChar c).all isNameByte

/-- A name with the text behind its sign; without a sign the whole text is left. -/
def nameFrom (acc : List Char) : List Char → Except Fault (Option (List Char × List Char))
  | [] => .ok none
  | c :: rest =>
    if c == '=' || c == ':' then .ok (some (acc.reverse, rest))
    else if isNameChar c then nameFrom (c :: acc) rest
    else .error (.nameCharacter c)

/-- A character of a reference. -/
def isReferenceChar (c : Char) : Bool :=
  c.isUpper || c.isDigit || c == '_'

/-- A reference behind its dollar sign: an optional bracket and brace, the name, and an optional
closing brace. -/
def reference (cs : List Char) : List Char × List Char × List Char :=
  let optional (sign : Char) (cs : List Char) :=
    match cs with
    | c :: rest => if c = sign then ([c], rest) else ([], cs)
    | [] => ([], [])
  let (bracket, cs) := optional '(' cs
  let (brace, cs) := optional '\x7b' cs
  let name := cs.takeWhile isReferenceChar
  let (closer, rest) := optional '\x7d' (cs.drop name.length)
  (name, bracket ++ brace ++ name ++ closer, rest)

/-- Replaces the references in a value.  A backslash in front of one keeps it. -/
def expandFrom (vars : Environment) : Nat → List Char → List Char
  | 0, cs => cs
  | _ + 1, [] => []
  | fuel + 1, '\\' :: '$' :: rest =>
    let (_, text, rest) := reference rest
    '$' :: text ++ expandFrom vars fuel rest
  | fuel + 1, '$' :: rest =>
    let (name, text, rest) := reference rest
    if name.isEmpty then '$' :: text ++ expandFrom vars fuel rest
    else (vars.get (String.ofList name)).toList ++ expandFrom vars fuel rest
  | fuel + 1, c :: rest => c :: expandFrom vars fuel rest

/-- The value with its references replaced. -/
def expand (vars : Environment) (cs : List Char) : List Char :=
  expandFrom vars cs.length cs

/-- Line ends that a value between double quotes writes with a backslash. -/
def lineEscapes : List Char → List Char
  | '\\' :: 'n' :: rest => '\n' :: lineEscapes rest
  | '\\' :: 'r' :: rest => '\r' :: lineEscapes rest
  | '\\' :: c :: rest => '\\' :: c :: lineEscapes rest
  | c :: rest => c :: lineEscapes rest
  | [] => []

/-- Backslashes taken off, but in front of a dollar sign. -/
def dropBackslashes : List Char → List Char
  | '\\' :: '$' :: rest => '\\' :: '$' :: dropBackslashes rest
  | '\\' :: c :: rest => c :: dropBackslashes rest
  | c :: rest => c :: dropBackslashes rest
  | [] => []

/-- The text up to the closing quote, without it; a backslash in front keeps a quote open. -/
def quotedFrom (quote : Char) (before : Char) (acc : List Char) :
    List Char → Except Fault (List Char × List Char)
  | [] => .error .unclosedQuote
  | c :: rest =>
    if c = quote ∧ before ≠ '\\' then .ok (acc.reverse, rest)
    else quotedFrom quote c (c :: acc) rest

/-- What stands in front of the first sign with white space before it, in a reversed text. -/
def beforeSign? : List Char → Option (List Char)
  | '#' :: c :: rest => if isSpace c then some (c :: rest) else beforeSign? (c :: rest)
  | _ :: rest => beforeSign? rest
  | [] => none

/-- The part of a line in front of a comment that white space sets off. -/
def beforeComment (line : List Char) : List Char :=
  match beforeSign? line.reverse with
  | some before => before.reverse
  | none => line

/-- A value with the text behind it. -/
def value (vars : Environment) (cs : List Char) : Except Fault (List Char × List Char) :=
  match cs with
  | '"' :: rest => do
    let (body, rest) ← quotedFrom '"' '"' [] rest
    let body := Text.trimWhile (· == '"') body
    return (expand vars (dropBackslashes (lineEscapes body)), rest)
  | '\'' :: rest => do
    let (body, rest) ← quotedFrom '\'' '\'' [] rest
    return (Text.trimWhile (· == '\'') body, rest)
  | cs =>
    let line := cs.takeWhile fun c => c != '\n' && c != '\r'
    .ok (expand vars (Text.trimWhile isSpace (beforeComment line)), cs.drop line.length)

/-- The variables of a file, each after those it may refer to.  Every statement takes a character,
so the fuel is the length of the text. -/
def statements : Nat → Environment → List Char → Except Fault Environment
  | 0, vars, _ => .ok vars
  | fuel + 1, vars, cs =>
    match statement? (cs.length + 1) cs with
    | none => .ok vars
    | some cs => do
      let cs := dropExport cs
      if cs.isEmpty then throw .emptyStatement
      let (name, behind) := (← nameFrom [] cs).getD ([], cs)
      let (text, rest) ← value vars (behind.dropWhile isSpace)
      let name := String.ofList (Text.dropRightWhile Text.isBlank name)
      statements fuel ((name, String.ofList text) :: vars) rest

/-- The variables of a file; a name that is set twice has its last value. -/
def parse (source : String) : Except Fault Environment :=
  statements (source.length + 1) [] (normalizeLineEnds source.toList)

end EnvironmentFile
end Cascade
