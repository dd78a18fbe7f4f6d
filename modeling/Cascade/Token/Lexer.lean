import Cascade.Text.CaseFold
import Cascade.Token

/-!
# From text to tokens

The lexer never fails: a malformed string or address becomes a token of its own
type, and a character that starts nothing else is a delimiter.  Comments stand
between tokens and leave no trace but the places of what follows them.

**Input.** A text whose line ends and null characters have been normalized.

**Results.** `tokenize` is the list of all tokens, closed by one end token.
Reading an escape never lengthens the input (`length_escape_le`), which is what
makes the scanners total.
-/

namespace Cascade

/-- Line ends become line feeds, and a null character becomes the replacement character. -/
def normalize : List Char → List Char
  | [] => []
  | '\r' :: '\n' :: rest => '\n' :: normalize rest
  | c :: rest =>
    (if c = '\r' ∨ c = '\x0c' then '\n' else if c = '\x00' then '\ufffd' else c) :: normalize rest

namespace Lexer

/-! ## Character classes -/

/-- Blanks: space, tab and line feed. -/
def isBlank (c : Char) : Bool :=
  c == ' ' || c == '\t' || c == '\n'

/-- The decimal digits. -/
def isDigit (c : Char) : Bool :=
  '0' ≤ c && c ≤ '9'

/-- The hexadecimal digits. -/
def isHexDigit (c : Char) : Bool :=
  isDigit c || ('a' ≤ c && c ≤ 'f') || ('A' ≤ c && c ≤ 'F')

/-- The quotation marks. -/
def isQuote (c : Char) : Bool :=
  c == '"' || c == '\''

/-- Control characters, which an unquoted address cannot hold. -/
def isNonPrintable (c : Char) : Bool :=
  c.toNat ≤ 0x08 || c.toNat == 0x0B || (0x0E ≤ c.toNat && c.toNat ≤ 0x1F) || c.toNat == 0x7F

/-- A name starts with a letter, an underscore or any character above ASCII. -/
def isNameStart (c : Char) : Bool :=
  ('a' ≤ c && c ≤ 'z') || ('A' ≤ c && c ≤ 'Z') || c == '_' || 0x80 ≤ c.toNat

/-- A name goes on with digits and hyphens too. -/
def isNameChar (c : Char) : Bool :=
  isNameStart c || isDigit c || c == '-'

/-- A backslash escapes what follows it unless that is a line feed. -/
def startsEscape : List Char → Bool
  | '\\' :: '\n' :: _ => false
  | '\\' :: _ => true
  | _ => false

/-- The text starts with a name. -/
def startsName : List Char → Bool
  | '-' :: c :: rest => isNameStart c || c == '-' || startsEscape (c :: rest)
  | '\\' :: rest => startsEscape ('\\' :: rest)
  | c :: _ => c != '-' && isNameStart c
  | [] => false

/-- The text starts with a point and a digit. -/
def startsFraction : List Char → Bool
  | '.' :: d :: _ => isDigit d
  | _ => false

/-- The text starts with an unsigned number. -/
def startsUnsigned : List Char → Bool
  | [] => false
  | c :: rest => isDigit c || startsFraction (c :: rest)

/-- The text starts with a number. -/
def startsNumber : List Char → Bool
  | [] => false
  | c :: rest =>
    if c = '+' ∨ c = '-' then startsUnsigned rest else startsUnsigned (c :: rest)

/-! ## Reading positions -/

/-- What is left to read, and the place of its first character. -/
structure Input where
  chars : List Char
  position : Position
deriving Repr, DecidableEq

namespace Input

/-- The input of a whole text. -/
def ofChars (cs : List Char) : Input :=
  ⟨cs, Position.start⟩

/-- The input behind its first character. -/
def advance : Input → Input
  | ⟨[], p⟩ => ⟨[], p⟩
  | ⟨c :: cs, p⟩ => ⟨cs, p.after c⟩

/-- The input behind its first `n` characters. -/
def drop (i : Input) (n : Nat) : Input :=
  ⟨i.chars.drop n, i.position.afterAll (i.chars.take n)⟩

/-- The longest run of characters of a class, and the input behind it. -/
def span (i : Input) (p : Char → Bool) : List Char × Input :=
  let run := i.chars.takeWhile p
  (run, ⟨i.chars.dropWhile p, i.position.afterAll run⟩)

/-- The next character, if any. -/
def peek? (i : Input) : Option Char :=
  i.chars.head?

theorem length_advance_le (i : Input) :
    i.advance.chars.length ≤ i.chars.length := by
  rcases i with ⟨_ | ⟨c, cs⟩, p⟩ <;> simp [advance]

theorem length_drop_le (i : Input) (n : Nat) :
    (i.drop n).chars.length ≤ i.chars.length := by
  simp [drop]

end Input

/-! ## Comments -/

/-- The input behind the comment whose opening has been read; it may run to the end. -/
def closeComment : List Char → Position → Input
  | [], p => ⟨[], p⟩
  | '*' :: '/' :: rest, p => ⟨rest, (p.after '*').after '/'⟩
  | c :: rest, p => closeComment rest (p.after c)

theorem length_closeComment_le (cs : List Char) (p : Position) :
    (closeComment cs p).chars.length ≤ cs.length := by
  fun_induction closeComment cs p with
  | case1 => simp
  | case2 => simp; omega
  | case3 => simp; omega

/-- The input behind all comments at its start. -/
def skipComments (i : Input) : Input :=
  match _h : i.chars with
  | '/' :: '*' :: rest =>
    skipComments (closeComment rest ((i.position.after '/').after '*'))
  | _ => i
termination_by i.chars.length
decreasing_by
  have := length_closeComment_le rest ((i.position.after '/').after '*')
  simp [_h]
  omega

/-! ## Escapes and names -/

/-- The character with a hexadecimal code; the replacement character if there is none. -/
def charOfHex (digits : List Char) : Char :=
  let value := digits.foldl (fun n c => 16 * n + hexValue c) 0
  if value = 0 ∨ value > 0x10FFFF ∨ (0xD800 ≤ value ∧ value ≤ 0xDFFF) then
    '\ufffd'
  else
    Char.ofNat value
where
  hexValue (c : Char) : Nat :=
    if isDigit c then c.toNat - '0'.toNat
    else if 'a' ≤ c ∧ c ≤ 'f' then c.toNat - 'a'.toNat + 10
    else c.toNat - 'A'.toNat + 10

/-- The character that an escape stands for, read behind its backslash: up to six hexadecimal digits
and one blank, any other character itself, and the replacement character at the end. -/
def escape (i : Input) : Char × Input :=
  match i.chars with
  | [] => ('\ufffd', i)
  | c :: _ =>
    if isHexDigit c then
      let digits := (i.chars.take 6).takeWhile isHexDigit
      let behind := i.drop digits.length
      let behind := if behind.peek?.any isBlank then behind.advance else behind
      (charOfHex digits, behind)
    else
      (c, i.advance)

theorem length_escape_le (i : Input) :
    (escape i).2.chars.length ≤ i.chars.length := by
  unfold escape
  split
  · exact Nat.le_refl _
  · split
    · dsimp only
      split
      · exact Nat.le_trans (Input.length_advance_le _) (Input.length_drop_le _ _)
      · exact Input.length_drop_le _ _
    · exact Input.length_advance_le _

/-- A name with its escapes decoded, read behind characters already collected in reverse. -/
def nameFrom (read : List Char) (i : Input) : List Char × Input :=
  match _h : i.chars with
  | [] => (read.reverse, i)
  | c :: cs =>
    if isNameChar c then
      nameFrom (c :: read) ⟨cs, i.position.after c⟩
    else if startsEscape (c :: cs) then
      let e := escape ⟨cs, i.position.after c⟩
      nameFrom (e.1 :: read) e.2
    else
      (read.reverse, i)
termination_by i.chars.length
decreasing_by
  · simp [_h]
  · have := length_escape_le ⟨cs, i.position.after c⟩
    simp only [_h, List.length_cons]
    exact Nat.lt_succ_of_le this

/-- The longest name at the start of the input. -/
def name (i : Input) : List Char × Input :=
  nameFrom [] i

/-! ## Strings and addresses -/

/-- The text of a string up to its closing mark, and whether a line feed cut it off.  The line feed
is left in the input. -/
def stringFrom (mark : Char) (read : List Char) (i : Input) : List Char × Bool × Input :=
  match _h : i.chars with
  | [] => (read.reverse, true, i)
  | c :: cs =>
    if c = mark then
      (read.reverse, true, ⟨cs, i.position.after c⟩)
    else if c = '\n' then
      (read.reverse, false, i)
    else if c = '\\' then
      match cs with
      | [] => (read.reverse, true, ⟨[], i.position.after c⟩)
      | d :: ds =>
        if d = '\n' then
          stringFrom mark read ⟨ds, (i.position.after c).after d⟩
        else
          let e := escape ⟨d :: ds, i.position.after c⟩
          stringFrom mark (e.1 :: read) e.2
    else
      stringFrom mark (c :: read) ⟨cs, i.position.after c⟩
termination_by i.chars.length
decreasing_by
  · simp only [_h, List.length_cons]
    omega
  · have := length_escape_le ⟨d :: ds, i.position.after c⟩
    simp only [_h, List.length_cons] at this ⊢
    omega
  · simp [_h]

/-- The input behind a malformed address: behind the next closing parenthesis that is not escaped. -/
def badUrlRest (i : Input) : Input :=
  match _h : i.chars with
  | [] => i
  | c :: cs =>
    if c = ')' then
      ⟨cs, i.position.after c⟩
    else if startsEscape (c :: cs) then
      badUrlRest (escape ⟨cs, i.position.after c⟩).2
    else
      badUrlRest ⟨cs, i.position.after c⟩
termination_by i.chars.length
decreasing_by
  · have := length_escape_le ⟨cs, i.position.after c⟩
    simp only [_h, List.length_cons]
    exact Nat.lt_succ_of_le this
  · simp [_h]

/-- The text of an unquoted address up to its closing parenthesis, and whether it is well formed. -/
def urlFrom (read : List Char) (i : Input) : List Char × Bool × Input :=
  match _h : i.chars with
  | [] => (read.reverse, true, i)
  | c :: cs =>
    let behind : Input := ⟨cs, i.position.after c⟩
    if c = ')' then
      (read.reverse, true, behind)
    else if isBlank c then
      let rest := (behind.span isBlank).2
      match rest.peek? with
      | none => (read.reverse, true, rest)
      | some ')' => (read.reverse, true, rest.advance)
      | some _ => (read.reverse, false, badUrlRest rest)
    else if isQuote c ∨ c = '(' ∨ isNonPrintable c then
      (read.reverse, false, badUrlRest behind)
    else if c = '\\' then
      if startsEscape (c :: cs) then
        let e := escape behind
        urlFrom (e.1 :: read) e.2
      else
        (read.reverse, false, badUrlRest behind)
    else
      urlFrom (c :: read) behind
termination_by i.chars.length
decreasing_by
  · have := length_escape_le ⟨cs, i.position.after c⟩
    simp only [_h, List.length_cons]
    exact Nat.lt_succ_of_le this
  · simp [_h]

/-! ## Numbers -/

/-- The digits, the fraction and the exponent of a number, and whether it is an integer. -/
def numeral (i : Input) : List Char × Bool × Input :=
  let (sign, i) :=
    match i.chars with
    | c :: _ => if c = '+' ∨ c = '-' then ([c], i.advance) else ([], i)
    | [] => ([], i)
  let (digits, i) := i.span isDigit
  let (fraction, i) :=
    if startsFraction i.chars then
      let (run, j) := i.advance.span isDigit
      ('.' :: run, j)
    else
      ([], i)
  let (exponent, i) := exponentPart i
  (sign ++ digits ++ fraction ++ exponent, fraction.isEmpty && exponent.isEmpty, i)
where
  /-- An exponent needs a digit behind its letter and sign; else there is none. -/
  exponentPart (i : Input) : List Char × Input :=
    match i.chars with
    | e :: s :: rest =>
      if e = 'e' ∨ e = 'E' then
        if isDigit s then
          let (run, j) := i.advance.span isDigit
          (e :: run, j)
        else if (s = '+' ∨ s = '-') ∧ rest.head?.any isDigit then
          let (run, j) := i.advance.advance.span isDigit
          (e :: s :: run, j)
        else
          ([], i)
      else
        ([], i)
    | _ => ([], i)

/-! ## Tokens -/

/-- A token at the start of an input. -/
def tokenAt (i : Input) (type : TokenType) (text : List Char) (detail : Detail := .none) : Token :=
  ⟨type, String.ofList text, i.position, detail⟩

/-- A token that is one character. -/
def single (i : Input) (c : Char) (type : TokenType) : Token × Input :=
  (tokenAt i type [c], i.advance)

/-- A number with its unit or percent sign. -/
def numeric (i : Input) : Token × Input :=
  let (text, isInteger, j) := numeral i
  if startsName j.chars then
    let (unit, k) := name j
    (tokenAt i .dimension text (.measure isInteger (String.ofList unit)), k)
  else if j.peek? = some '%' then
    (tokenAt i .percentage text (.numeral isInteger), j.advance)
  else
    (tokenAt i .number text (.numeral isInteger), j)

/-- The address or the function that a name and its parenthesis open. -/
def urlOrFunction (i : Input) (text : List Char) (behind : Input) : Token × Input :=
  if Text.foldCase (String.ofList text) = "url" then
    let blanks := behind.chars.takeWhile isBlank
    let kept := behind.drop (blanks.length - 1)
    let body := (behind.span isBlank).2
    if body.peek?.any isQuote then
      (tokenAt i .function text, kept)
    else
      match urlFrom [] body with
      | (address, true, rest) => (tokenAt i .url address, rest)
      | (address, false, rest) => (tokenAt i .badUrl address, rest)
  else
    (tokenAt i .function text, behind)

/-- An identifier, or the function or address that it opens. -/
def identLike (i : Input) : Token × Input :=
  let (text, j) := name i
  if j.peek? = some '(' then
    urlOrFunction i text j.advance
  else
    (tokenAt i .ident text, j)

/-- A string, or the malformed one that a line feed cuts off. -/
def string (i : Input) (q : Quote) : Token × Input :=
  match stringFrom q.char [] i.advance with
  | (text, true, rest) => (tokenAt i .string text (.quoted q), rest)
  | (text, false, rest) => (tokenAt i .badString text (.quoted q), rest)

/-- A hash name, or the delimiter where no name follows. -/
def hash (i : Input) (c : Char) : Token × Input :=
  let behind := i.advance
  if behind.peek?.any isNameChar || startsEscape behind.chars then
    let (text, rest) := name behind
    (tokenAt i .hash text (.name (startsName behind.chars)), rest)
  else
    single i c .delim

/-- The token at the start of an input whose first character is given. -/
def token (i : Input) (c : Char) : Token × Input :=
  if isBlank c then
    let (run, rest) := i.span isBlank
    (tokenAt i .whitespace run, rest)
  else
    match c with
    | '"' => string i .double
    | '\'' => string i .single
    | '#' => hash i c
    | '(' => single i c .openParen
    | ')' => single i c .closeParen
    | '[' => single i c .openBracket
    | ']' => single i c .closeBracket
    | '{' => single i c .openBrace
    | '}' => single i c .closeBrace
    | ',' => single i c .comma
    | ':' => single i c .colon
    | ';' => single i c .semicolon
    | '-' =>
      if startsNumber i.chars then numeric i
      else if ['-', '-', '>'].isPrefixOf i.chars then (tokenAt i .cdc ['-', '-', '>'], i.drop 3)
      else if startsName i.chars then identLike i
      else single i c .delim
    | '<' =>
      if ['<', '!', '-', '-'].isPrefixOf i.chars then
        (tokenAt i .cdo ['<', '!', '-', '-'], i.drop 4)
      else
        single i c .delim
    | '@' =>
      if startsName i.advance.chars then
        let (text, rest) := name i.advance
        (tokenAt i .atKeyword text, rest)
      else
        single i c .delim
    | _ =>
      if startsNumber i.chars then numeric i
      else if startsName i.chars then identLike i
      else single i c .delim

/-- The tokens of an input, by a bound on their number. -/
def tokensFrom : Nat → Input → List Token
  | 0, i => [tokenAt i .eof []]
  | n + 1, i =>
    let i := skipComments i
    match i.chars with
    | [] => [tokenAt i .eof []]
    | c :: _ =>
      let (t, rest) := token i c
      t :: tokensFrom n rest

/-- The tokens of a normalized text; each takes at least one character. -/
def tokens (cs : List Char) : List Token :=
  tokensFrom cs.length (Input.ofChars cs)

end Lexer

/-- All tokens of a source text, closed by the end token. -/
def tokenize (source : String) : List Token :=
  Lexer.tokens (normalize source.toList)

/-- All tokens but whitespace. -/
def dropWhitespace (ts : List Token) : List Token :=
  ts.filter fun t => t.type != .whitespace

end Cascade
