import Cascade.Yaml

/-!
# Quoted scalars

A quoted scalar may go on over several lines.  A line end inside it stands for a
space, and one that follows another for a line end; the blanks around a line end do
not count.  Between double quotes a backslash starts an escape, and one at the end of
a line joins it with the next; between single quotes two quotes stand for one.
-/

namespace Cascade
namespace Yaml

/-- A blank inside a line. -/
def isSpace (c : Char) : Bool :=
  c == ' ' || c == '\t'

/-- A line end. -/
def isBreak (c : Char) : Bool :=
  c == '\n' || c == '\r'

/-- A mark that separates documents stands here. -/
def atMarker (cs : List Char) : Bool :=
  (cs.take 3 == ['-', '-', '-'] || cs.take 3 == ['.', '.', '.']) &&
    (cs.drop 3).head?.all fun c => isSpace c || isBreak c

/-! ## Escapes -/

/-- The characters that a letter behind a backslash stands for. -/
def escapes : List (Char × Char) :=
  [('n', '\n'), ('t', '\t'), ('r', '\r'), ('"', '"'), ('\\', '\\'), ('/', '/'), (' ', ' '),
    ('\t', '\t'), ('0', '\x00'), ('a', '\x07'), ('b', '\x08'), ('e', '\x1b'), ('f', '\x0c'),
    ('v', '\x0b'), ('N', '\x85'), ('_', '\xa0'), ('L', '\u2028'), ('P', '\u2029')]

/-- The value of a hexadecimal digit.  Any other character counts by its distance from zero. -/
def hexDigit (c : Char) : Int :=
  if 'A' ≤ c && c ≤ 'F' then (c.toNat : Int) - 'A'.toNat + 10
  else if 'a' ≤ c && c ≤ 'f' then (c.toNat : Int) - 'a'.toNat + 10
  else (c.toNat : Int) - '0'.toNat

/-- The code that digits give. -/
def hexCode (digits : List Char) : Int :=
  digits.foldl (fun n c => 16 * n + hexDigit c) 0

/-- The character of a code in a word of 32 bits; a code without one gives the replacement
character. -/
def codeChar (code : Int) : Char :=
  let n := code.bmod (Nat.pow 2 32)
  if 0 ≤ n && n.toNat.isValidChar then Char.ofNat n.toNat else '\uFFFD'

/-- The character that an escape stands for; the text starts behind its backslash.  Four digits
may give the first half of a pair, and the other half has to follow. -/
def escaped? : List Char → Option (Char × List Char)
  | 'x' :: a :: b :: rest => some (codeChar (hexCode [a, b]), rest)
  | 'u' :: a :: b :: c :: d :: rest =>
    let high := hexCode [a, b, c, d]
    if 0xD800 ≤ high && high ≤ 0xDBFF then
      match rest with
      | '\\' :: 'u' :: e :: f :: g :: h :: rest =>
        let low := hexCode [e, f, g, h]
        if 0xDC00 ≤ low && low ≤ 0xDFFF then
          some (codeChar ((high - 0xD800) * 0x400 + (low - 0xDC00) + 0x10000), rest)
        else none
      | _ => none
    else some (codeChar high, rest)
  | 'U' :: a :: b :: c :: d :: e :: f :: g :: h :: rest =>
    some (codeChar (hexCode [a, b, c, d, e, f, g, h]), rest)
  | c :: rest => (escapes.lookup c).map fun d => (d, rest)
  | [] => none

/-! ## Scalars -/

/-- What has been read, last character first, after a line end.  Spaces in front of it do not
count; it stands for a space, or for itself if `fresh` says that it follows another one. -/
def foldBreak (fresh : Bool) (acc : List Char) : List Char :=
  (if fresh then '\n' else ' ') :: acc.dropWhile (· == ' ')

/-- Only blanks stand in front of the next line end. -/
def isTrailing (cs : List Char) : Bool :=
  (cs.takeWhile fun c => !isBreak c).all isSpace

/-- The text up to the closing double quote.  `fresh` is the column of a continued line while only
its blanks have been read; a tab has to stand behind the margin there.  Every step takes a
character, so the fuel is the length of the text. -/
def doubleQuotedFrom (margin : Nat) :
    Nat → Option Nat → List Char → List Char → Except Fault (String × List Char)
  | 0, _, _, _ => .error .unclosedQuote
  | _ + 1, _, _, [] => .error .unclosedQuote
  | fuel + 1, fresh, acc, c :: rest =>
    if isBreak c then
      if atMarker rest then .error .unclosedQuote
      else doubleQuotedFrom margin fuel (some 1) (foldBreak fresh.isSome acc) rest
    else
      match fresh, c with
      | some column, ' ' => doubleQuotedFrom margin fuel (some (column + 1)) acc rest
      | some column, '\t' =>
        if column ≤ margin then .error .tabIndent
        else doubleQuotedFrom margin fuel (some (column + 1)) acc rest
      | _, '"' => .ok (String.ofList acc.reverse, rest)
      | _, '\\' =>
        match rest with
        | '\n' :: rest => doubleQuotedFrom margin fuel (some 1) acc rest
        | '\r' :: '\n' :: rest => doubleQuotedFrom margin fuel (some 1) acc rest
        | '\r' :: rest => doubleQuotedFrom margin fuel (some 1) acc rest
        | _ =>
          match escaped? rest with
          | some (d, rest) => doubleQuotedFrom margin fuel none (d :: acc) rest
          | none => .error (.badEscape (rest.head?.getD ' '))
      | _, '\t' => doubleQuotedFrom margin fuel none (if isTrailing rest then acc else c :: acc) rest
      | _, _ => doubleQuotedFrom margin fuel none (c :: acc) rest

/-- The text up to the closing single quote, in the same way. -/
def singleQuotedFrom (margin : Nat) :
    Nat → Option Nat → List Char → List Char → Except Fault (String × List Char)
  | 0, _, _, _ => .error .unclosedQuote
  | _ + 1, _, _, [] => .error .unclosedQuote
  | fuel + 1, fresh, acc, c :: rest =>
    if isBreak c then
      if atMarker rest then .error .unclosedQuote
      else singleQuotedFrom margin fuel (some 1) (foldBreak fresh.isSome acc) rest
    else
      match fresh, c with
      | some column, ' ' => singleQuotedFrom margin fuel (some (column + 1)) acc rest
      | some column, '\t' =>
        if column ≤ margin then .error .tabIndent
        else singleQuotedFrom margin fuel (some (column + 1)) acc rest
      | _, '\'' =>
        match rest with
        | '\'' :: rest => singleQuotedFrom margin fuel (fresh.map (· + 2)) ('\'' :: acc) rest
        | _ => .ok (String.ofList acc.reverse, rest)
      | _, _ => singleQuotedFrom margin fuel none (c :: acc) rest

/-- The text up to the closing double quote, and what follows it. -/
def doubleQuoted (margin : Nat) (cs : List Char) : Except Fault (String × List Char) :=
  doubleQuotedFrom margin cs.length none [] cs

/-- The text up to the closing single quote, and what follows it. -/
def singleQuoted (margin : Nat) (cs : List Char) : Except Fault (String × List Char) :=
  singleQuotedFrom margin cs.length none [] cs

end Yaml
end Cascade
