import Cascade.Text.Blank
import Cascade.Yaml.Quoted

/-!
# Flow collections

Lists and maps between brackets.  Line ends and comments may stand between their
parts, and a plain scalar may go on over lines that are indented beyond the margin.
-/

namespace Cascade
namespace Yaml

/-- The spaces and tabs in front of a text taken off. -/
def skipSpaces (cs : List Char) : List Char :=
  cs.dropWhile isSpace

/-- The blanks, line ends and comments in front of a text taken off; it may start inside a
comment. -/
def skipVoid (inComment : Bool) : List Char → List Char
  | [] => []
  | c :: rest =>
    if isBreak c then skipVoid false rest
    else if inComment || isSpace c then skipVoid inComment rest
    else if c == '#' then skipVoid true rest
    else c :: rest

/-- A colon that is followed by this text ends a key. -/
def endsKey (rest : List Char) : Bool :=
  rest.head?.all fun c => isSpace c || isBreak c

/-- A sign that starts, ends or separates the parts of a collection. -/
def isFlowSign (c : Char) : Bool :=
  c == ',' || c == '[' || c == ']' || c == '\x7b' || c == '\x7d'

/-- Between which signs a plain scalar stands. -/
inductive Place where
  | item
  /-- In front of the colon of an entry, which needs no blank behind it. -/
  | key
deriving Repr, DecidableEq

/-- A colon that is followed by this text ends a plain scalar at a place. -/
def Place.endsAt : Place → List Char → Bool
  | .item, rest => endsKey rest
  | .key, rest => rest.head? != some '/'

/-- The part of a plain scalar on one line.  Tabs inside it do not count. -/
def flowLine (place : Place) : List Char → List Char × List Char
  | [] => ([], [])
  | c :: rest =>
    if isBreak c || isFlowSign c || (c == ':' && place.endsAt rest) ||
        (isSpace c && rest.head? == some '#') then
      ([], c :: rest)
    else
      let (part, rest) := flowLine place rest
      (if c == '\t' then part else c :: part, rest)

/-- The lines between two parts of a scalar. -/
structure Gap where
  /-- The line ends that count: those of empty lines, from the last one with blanks on. -/
  breaks : Nat := 0
  comment : Bool := false
  /-- A line starts with a tab. -/
  tab : Bool := false
deriving Repr, DecidableEq, Inhabited

/-- A line without text is passed; `spaced` says that it holds blanks. -/
def Gap.addBlank (g : Gap) (spaced : Bool) : Gap :=
  { g with breaks := if spaced then 1 else g.breaks + 1 }

/-- What stands between two parts of a scalar. -/
def Gap.text (g : Gap) : List Char :=
  if g.breaks = 0 then [' '] else List.replicate g.breaks '\n'

/-- The gap in front of the next text, the indentation of that text, and the text itself; it starts
behind the end of a line. -/
def nextText (gap : Gap) (indent : Nat) (spaced : Bool) : List Char → Gap × Nat × List Char
  | [] => (gap, indent, [])
  | '\r' :: '\n' :: rest => nextText (gap.addBlank spaced) 0 false rest
  | c :: rest =>
    if isBreak c then nextText (gap.addBlank spaced) 0 false rest
    else if c == ' ' then nextText gap (indent + 1) true rest
    else if c == '\t' then nextText gap indent true rest
    else (gap, indent, c :: rest)

/-- The text behind a line end. -/
def behindBreak : List Char → List Char
  | '\r' :: '\n' :: rest => rest
  | cs => cs.drop 1

/-- A plain scalar between brackets.  Every line takes a character, so the fuel is the length of the
text. -/
def flowPlain (place : Place) (margin : Nat) : Nat → List Char → List Char × List Char
  | 0, cs => ([], cs)
  | fuel + 1, cs =>
    let (part, rest) := flowLine place cs
    let part := Text.dropRightWhile (· == ' ') part
    if rest.head?.any isBreak then
      let (gap, indent, next) := nextText {} 0 false (behindBreak rest)
      let goesOn := next.head?.any fun c => !isFlowSign c && c != '#'
      if goesOn && margin ≤ indent then
        let (more, rest) := flowPlain place margin fuel next
        (part ++ gap.text ++ more, rest)
      else (part, rest)
    else (part, rest)

/-- Characters that cannot start a plain scalar. -/
def isReserved (c : Char) : Bool :=
  ['@', '\x60', '&', '*', '!', '|', '>', ']', '\x7d'].contains c

mutual

/-- A node between brackets. -/
def flowNode (margin : Nat) : Nat → Place → List Char → Except Fault (Node × List Char)
  | 0, _, _ => .error .tooDeep
  | fuel + 1, place, cs =>
    match skipVoid false cs with
    | [] => .error .unclosedFlow
    | '"' :: rest => (doubleQuoted margin rest).map fun r => (.quoted r.1, r.2)
    | '\'' :: rest => (singleQuoted margin rest).map fun r => (.quoted r.1, r.2)
    | '[' :: rest => flowItems margin fuel [] rest
    | '\x7b' :: rest => flowFields margin fuel [] rest
    | c :: rest =>
      if isReserved c || c == ',' || c == '%' then .error (.unexpected c)
      else
        let (part, rest) := flowPlain place margin (rest.length + 1) (c :: rest)
        .ok (.plain (String.ofList part), rest)

/-- The items of a list up to its closing bracket. -/
def flowItems (margin : Nat) : Nat → List Node → List Char → Except Fault (Node × List Char)
  | 0, _, _ => .error .tooDeep
  | fuel + 1, acc, cs =>
    match skipVoid false cs with
    | ']' :: rest => .ok (.list acc.reverse, rest)
    | cs => do
      let (item, rest) ← flowNode margin fuel .item cs
      match skipVoid false rest with
      | [] => throw .unclosedFlow
      | ',' :: rest => flowItems margin fuel (item :: acc) rest
      | ']' :: rest => return (.list (item :: acc).reverse, rest)
      | c :: _ => throw (.unexpected c)

/-- The fields of a map up to its closing brace. -/
def flowFields (margin : Nat) :
    Nat → List (String × Node) → List Char → Except Fault (Node × List Char)
  | 0, _, _ => .error .tooDeep
  | fuel + 1, acc, cs =>
    match skipVoid false cs with
    | '\x7d' :: rest => .ok (.map acc.reverse, rest)
    | cs => do
      let (key, rest) ← flowNode margin fuel .key cs
      let key ← key.toText
      if (acc.lookup key).isSome then throw (.duplicateKey key)
      let (value, rest) ←
        match skipVoid false rest with
        | ':' :: rest =>
          match skipVoid false rest with
          | ',' :: rest => pure (.null, ',' :: rest)
          | '\x7d' :: rest => pure (.null, '\x7d' :: rest)
          | rest => flowNode margin fuel .item rest
        | rest => pure (.null, rest)
      match skipVoid false rest with
      | [] => throw .unclosedFlow
      | ',' :: rest => flowFields margin fuel ((key, value) :: acc) rest
      | '\x7d' :: rest => return (.map ((key, value) :: acc).reverse, rest)
      | c :: _ => throw (.unexpected c)

end

end Yaml
end Cascade
