import Cascade.Pattern
import Cascade.Text.Lines

/-!
# Reading patterns

The written form of patterns, read from left to right.  An open group is a frame:
its flags, the alternatives that are finished and the items of the one that is
not.  A pattern is refused at its first fault; the fault shows the part of the
text that is wrong.
-/

namespace Cascade
namespace Pattern

/-- The kinds of fault. -/
inductive FaultKind where
  | missingParen
  | unexpectedParen
  | missingBracket
  | missingArgument
  | nestedRepetition
  | repeatCount
  | trailingBackslash
  | badEscape
  | badRange
  | badGroup
  | badName
deriving Repr, DecidableEq, Inhabited

/-- The words for a kind. -/
def FaultKind.describe : FaultKind → String
  | .missingParen => "missing closing )"
  | .unexpectedParen => "unexpected )"
  | .missingBracket => "missing closing ]"
  | .missingArgument => "missing argument to repetition operator"
  | .nestedRepetition => "invalid nested repetition operator"
  | .repeatCount => "invalid repeat count"
  | .trailingBackslash => "trailing backslash at end of expression"
  | .badEscape => "invalid escape sequence"
  | .badRange => "invalid character class range"
  | .badGroup => "invalid or unsupported Perl syntax"
  | .badName => "invalid named capture"

/-- A fault with the part of the pattern that shows it. -/
structure Fault where
  kind : FaultKind
  text : List Char
deriving Repr, DecidableEq, Inhabited

/-- The wording of a fault. -/
def Fault.message (f : Fault) : String :=
  "error parsing regexp: " ++ f.kind.describe ++ ": `" ++ String.ofList f.text ++ "`"

/-- The part of a text in front of its rest. -/
def upToRest (s rest : List Char) : List Char :=
  s.take (s.length - rest.length)

/-! ## Single characters -/

/-- The value of a hexadecimal digit. -/
def hexValue? (c : Char) : Option Nat :=
  let n := c.toNat
  if c.isDigit then some (n - '0'.toNat)
  else if 'a' ≤ c && c ≤ 'f' then some (n - 'a'.toNat + 10)
  else if 'A' ≤ c && c ≤ 'F' then some (n - 'A'.toNat + 10)
  else none

/-- The value of digits in base eight or sixteen. -/
def codeOf (base : Nat) (ds : List Char) : Option Nat :=
  ds.foldlM (fun n c => (hexValue? c).map fun d => n * base + d) 0

/-- An octal digit. -/
def isOctal (c : Char) : Bool :=
  '0' ≤ c && c ≤ '7'

/-- The characters that single letters stand for behind a backslash. -/
def letterEscapes : List (Char × Char) :=
  [('a', '\x07'), ('f', '\x0c'), ('n', '\n'), ('r', '\r'), ('t', '\t'), ('v', '\x0b')]

/-- The character that an escape stands for; the text starts with its backslash. -/
def escape (s : List Char) : Except Fault (Char × List Char) :=
  match s.drop 1 with
  | [] => .error ⟨.trailingBackslash, []⟩
  | c :: rest =>
    let bad : Except Fault (Char × List Char) := .error ⟨.badEscape, upToRest s rest⟩
    if isOctal c then
      if c != '0' && !(rest.head?.any isOctal) then bad
      else
        let digits := (rest.take 2).takeWhile isOctal
        match codeOf 8 (c :: digits) with
        | some n => .ok (Char.ofNat n, rest.drop digits.length)
        | none => bad
    else if c = 'x' then
      match rest with
      | '\x7b' :: inner =>
        let digits := inner.takeWhile (· != '\x7d')
        match inner.drop digits.length, codeOf 16 digits with
        | _ :: behind, some n =>
          if digits.isEmpty || 0x10FFFF < n then bad else .ok (Char.ofNat n, behind)
        | _, _ => bad
      | a :: b :: behind =>
        match codeOf 16 [a, b] with
        | some n => .ok (Char.ofNat n, behind)
        | none => .error ⟨.badEscape, upToRest s behind⟩
      | _ => .error ⟨.badEscape, s⟩
    else
      match letterEscapes.lookup c with
      | some d => .ok (d, rest)
      | none => if c.toNat < 0x80 && !c.isAlphanum then .ok (c, rest) else bad

/-- The sets that letters stand for behind a backslash. -/
def letterSets : List (Char × CharSet) :=
  let digit := [(0x30, 0x39)]
  let space := [(0x09, 0x0A), (0x0C, 0x0D), (0x20, 0x20)]
  let word := [(0x30, 0x39), (0x41, 0x5A), (0x5F, 0x5F), (0x61, 0x7A)]
  [('d', ⟨false, digit⟩), ('D', ⟨true, digit⟩), ('s', ⟨false, space⟩), ('S', ⟨true, space⟩),
    ('w', ⟨false, word⟩), ('W', ⟨true, word⟩)]

/-- The set that an escape stands for, if it stands for one. -/
def escapedSet? : List Char → Option (CharSet × List Char)
  | '\\' :: c :: rest => (letterSets.lookup c).map fun s => (s, rest)
  | _ => none

/-! ## Sets of characters -/

/-- The named sets of ASCII. -/
def namedSets : List (String × List (Nat × Nat)) :=
  [("alnum", [(0x30, 0x39), (0x41, 0x5A), (0x61, 0x7A)]), ("alpha", [(0x41, 0x5A), (0x61, 0x7A)]),
    ("ascii", [(0, 0x7F)]), ("blank", [(0x09, 0x09), (0x20, 0x20)]),
    ("cntrl", [(0, 0x1F), (0x7F, 0x7F)]), ("digit", [(0x30, 0x39)]), ("graph", [(0x21, 0x7E)]),
    ("lower", [(0x61, 0x7A)]), ("print", [(0x20, 0x7E)]),
    ("punct", [(0x21, 0x2F), (0x3A, 0x40), (0x5B, 0x60), (0x7B, 0x7E)]),
    ("space", [(0x09, 0x0D), (0x20, 0x20)]), ("upper", [(0x41, 0x5A)]),
    ("word", [(0x30, 0x39), (0x41, 0x5A), (0x5F, 0x5F), (0x61, 0x7A)]),
    ("xdigit", [(0x30, 0x39), (0x41, 0x46), (0x61, 0x66)])]

/-- A named set between brackets with colons, if the text starts with one. -/
def namedSet? (s : List Char) : Except Fault (Option (CharSet × List Char)) :=
  match Text.afterLead? ['[', ':'] s with
  | none => .ok none
  | some inner =>
    match Text.cutAtPart? [':', ']'] inner with
    | none => .ok none
    | some (name, rest) =>
      let negated := name.head? == some '^'
      match namedSets.lookup (String.ofList (if negated then name.drop 1 else name)) with
      | some ranges => .ok (some (⟨negated, ranges⟩, rest))
      | none => .error ⟨.badRange, upToRest s rest⟩

/-- One character of a set; `whole` is the set from its bracket on. -/
def setChar (whole : List Char) : List Char → Except Fault (Char × List Char)
  | [] => .error ⟨.missingBracket, whole⟩
  | '\\' :: rest => escape ('\\' :: rest)
  | c :: rest => .ok (c, rest)

/-- The members of a set up to its closing bracket.  Every member takes a character, so the fuel is
the length of the text. -/
def setMembers (whole : List Char) : Nat → Bool → List CharSet → List Char →
    Except Fault (List CharSet × List Char)
  | 0, _, _, _ => .error ⟨.missingBracket, whole⟩
  | fuel + 1, first, acc, s => do
    match s, first with
    | ']' :: rest, false => return (acc.reverse, rest)
    | _, _ =>
      match ← namedSet? s, escapedSet? s with
      | some (set, rest), _ => setMembers whole fuel false (set :: acc) rest
      | none, some (set, rest) => setMembers whole fuel false (set :: acc) rest
      | none, none =>
        let (lo, rest) ← setChar whole s
        match rest with
        | '-' :: d :: more =>
          if d = ']' then
            setMembers whole fuel false (⟨false, [(lo.toNat, lo.toNat)]⟩ :: acc) rest
          else
            let (hi, rest) ← setChar whole (d :: more)
            if hi < lo then throw ⟨.badRange, upToRest s rest⟩
            setMembers whole fuel false (⟨false, [(lo.toNat, hi.toNat)]⟩ :: acc) rest
        | _ => setMembers whole fuel false (⟨false, [(lo.toNat, lo.toNat)]⟩ :: acc) rest

/-- A set of characters; the text starts with its bracket. -/
def charSet (fold : Bool) (s : List Char) : Except Fault (Pattern × List Char) := do
  let (negated, inner) :=
    match s.drop 1 with
    | '^' :: rest => (true, rest)
    | rest => (false, rest)
  let (sets, rest) ← setMembers s (s.length + 1) true [] inner
  return (.oneOf sets negated fold, rest)

/-! ## Groups and repetitions -/

/-- The flags of a group. -/
structure Flags where
  fold : Bool := false
  lines : Bool := false
  dotLineEnds : Bool := false
deriving Repr, DecidableEq, Inhabited

/-- An open group: its flags, the alternatives that are finished and the items of the one that is
not, both from the last one on. -/
structure Frame where
  flags : Flags := {}
  alternatives : List Pattern := []
  items : List Pattern := []
deriving Repr, Inhabited

/-- The items one after the other. -/
def Frame.branch (f : Frame) : Pattern :=
  f.items.foldl (fun acc p => .sequence p acc) .empty

/-- The pattern of a group. -/
def Frame.pattern (f : Frame) : Pattern :=
  f.alternatives.foldl (fun acc p => .alternative p acc) f.branch

/-- What a group is opened with. -/
inductive Opening where
  | group (flags : Flags)
  /-- Flags for the rest of the group around. -/
  | flags (flags : Flags)

/-- The flags of a group, letter by letter; `s` is the group from its bracket on. -/
def groupFlags (s : List Char) (flags : Flags) (positive seen : Bool) :
    List Char → Except Fault (Opening × List Char)
  | [] => .error ⟨.badGroup, s⟩
  | c :: rest =>
    let bad : Except Fault (Opening × List Char) := .error ⟨.badGroup, upToRest s rest⟩
    match c with
    | 'i' => groupFlags s { flags with fold := positive } positive true rest
    | 'm' => groupFlags s { flags with lines := positive } positive true rest
    | 's' => groupFlags s { flags with dotLineEnds := positive } positive true rest
    | 'U' => groupFlags s flags positive true rest
    | '-' => if positive then groupFlags s flags false false rest else bad
    | ':' => if positive || seen then .ok (.group flags, rest) else bad
    | ')' => if positive || seen then .ok (.flags flags, rest) else bad
    | _ => bad

/-- A named group; `s` is the group from its bracket on and `inner` the text behind its first angle
bracket. -/
def namedGroup (s inner : List Char) (flags : Flags) : Except Fault (Opening × List Char) :=
  let name := inner.takeWhile (· != '>')
  match inner.drop name.length with
  | [] => .error ⟨.badName, s⟩
  | _ :: rest =>
    if !name.isEmpty && name.all isWordChar then .ok (.group flags, rest)
    else .error ⟨.badName, upToRest s rest⟩

/-- How a group opens; the text starts with its bracket. -/
def opening (flags : Flags) (s : List Char) : Except Fault (Opening × List Char) :=
  match s with
  | '(' :: '?' :: 'P' :: '<' :: inner => namedGroup s inner flags
  | '(' :: '?' :: '<' :: inner => namedGroup s inner flags
  | '(' :: '?' :: rest => groupFlags s flags true false rest
  | _ => .ok (.group flags, s.drop 1)

/-- A count without leading zeros. -/
def count? (s : List Char) : Option (Nat × List Char) :=
  let digits := s.takeWhile Char.isDigit
  if digits.isEmpty || (1 < digits.length && digits.head? == some '0') then none
  else (codeOf 10 digits).map fun n => (n, s.drop digits.length)

/-- Counts between braces; the text starts with the opening one. -/
def counts? (s : List Char) : Option ((Nat × Option Nat) × List Char) := do
  let (least, rest) ← count? (s.drop 1)
  match rest with
  | '\x7d' :: rest => return ((least, some least), rest)
  | ',' :: '\x7d' :: rest => return ((least, none), rest)
  | ',' :: rest =>
    let (most, rest) ← count? rest
    match rest with
    | '\x7d' :: rest => return ((least, some most), rest)
    | _ => none
  | _ => none

/-- The most that a count may be. -/
def countLimit : Nat := 1000

/-- The counts of a pattern, multiplied where one repetition stands in another, keep to a limit. -/
def keepsTo : Nat → Pattern → Bool
  | limit, .sequence first second => keepsTo limit first && keepsTo limit second
  | limit, .alternative first second => keepsTo limit first && keepsTo limit second
  | limit, .repetition pattern least most =>
    let count := most.getD least
    most == some 0 || (count ≤ limit && keepsTo (if count = 0 then limit else limit / count) pattern)
  | _, _ => true

/-- Repeats the last item of a frame.  `before` is the text from the sign on, `after` the text
behind it, and `last` the text from the sign in front of it on, if that was a repetition too. -/
def repeatLast (f : Frame) (least : Nat) (most : Option Nat) (before after : List Char)
    (last : Option (List Char)) : Except Fault (Frame × List Char) :=
  let after := Text.dropLead ['?'] after
  match last, f.items with
  | some last, _ => .error ⟨.nestedRepetition, upToRest last after⟩
  | none, [] => .error ⟨.missingArgument, upToRest before after⟩
  | none, item :: items =>
    let repeated := Pattern.repetition item least most
    if (2 ≤ least || most.any (2 ≤ ·)) && !keepsTo countLimit repeated then
      .error ⟨.repeatCount, upToRest before after⟩
    else .ok ({ f with items := repeated :: items }, after)

/-- Adds an item to a frame. -/
def Frame.add (f : Frame) (p : Pattern) : Frame :=
  { f with items := p :: f.items }

/-- A place or a literal run that a backslash and a letter stand for. -/
def special? (fold : Bool) : List Char → Option (List Pattern × List Char)
  | '\\' :: 'A' :: rest => some ([.textStart], rest)
  | '\\' :: 'b' :: rest => some ([.wordEdge true], rest)
  | '\\' :: 'B' :: rest => some ([.wordEdge false], rest)
  | '\\' :: 'z' :: rest => some ([.textEnd], rest)
  | '\\' :: 'Q' :: rest =>
    let (body, rest) := (Text.cutAtPart? ['\\', 'E'] rest).getD (rest, [])
    some (body.map fun c => .literal c fold, rest)
  | _ => none

/-- The frames after one item has been read, with the rest of the text and the place of a
repetition. -/
structure State where
  frame : Frame
  outer : List Frame
  rest : List Char
  last : Option (List Char) := none

/-- Reads one item. -/
def item (whole : List Char) (st : State) (c : Char) (rest : List Char) : Except Fault State :=
  let s := c :: rest
  let flags := st.frame.flags
  let add (p : Pattern) (rest : List Char) : State := ⟨st.frame.add p, st.outer, rest, none⟩
  let repeated (least : Nat) (most : Option Nat) (after : List Char) : Except Fault State := do
    let (frame, rest) ← repeatLast st.frame least most s after st.last
    return ⟨frame, st.outer, rest, some s⟩
  match c with
  | '(' => do
    match ← opening flags s with
    | (.group flags, rest) => return ⟨{ flags := flags }, st.frame :: st.outer, rest, none⟩
    | (.flags flags, rest) => return ⟨{ st.frame with flags := flags }, st.outer, rest, none⟩
  | ')' =>
    match st.outer with
    | [] => .error ⟨.unexpectedParen, whole⟩
    | frame :: outer => .ok ⟨frame.add st.frame.pattern, outer, rest, none⟩
  | '|' =>
    let frame := { st.frame with alternatives := st.frame.branch :: st.frame.alternatives, items := [] }
    .ok ⟨frame, st.outer, rest, none⟩
  | '^' => .ok (add (if flags.lines then .lineStart else .textStart) rest)
  | '$' => .ok (add (if flags.lines then .lineEnd else .textEnd) rest)
  | '.' => .ok (add (.anyChar flags.dotLineEnds) rest)
  | '[' => do
    let (p, rest) ← charSet flags.fold s
    return add p rest
  | '*' => repeated 0 none rest
  | '+' => repeated 1 none rest
  | '?' => repeated 0 (some 1) rest
  | '\x7b' =>
    match counts? s with
    | none => .ok (add (.literal c flags.fold) rest)
    | some ((least, most), after) =>
      if countLimit < least || most.any (countLimit < ·) || most.any (· < least) then
        .error ⟨.repeatCount, upToRest s after⟩
      else repeated least most after
  | '\\' =>
    match special? flags.fold s, escapedSet? s with
    | some (ps, rest), _ => .ok ⟨ps.foldl Frame.add st.frame, st.outer, rest, none⟩
    | none, some (set, rest) => .ok (add (.oneOf [set] false flags.fold) rest)
    | none, none => do
      let (d, rest) ← escape s
      return add (.literal d flags.fold) rest
  | c => .ok (add (.literal c flags.fold) rest)

/-- Reads items to the end.  Every item takes a character, so the fuel is the length of the text. -/
def items (whole : List Char) : Nat → State → Except Fault Pattern
  | 0, st => finish st
  | fuel + 1, st =>
    match st.rest with
    | [] => finish st
    | c :: rest => do items whole fuel (← item whole st c rest)
where
  /-- The pattern of the outermost frame, if no group is open. -/
  finish (st : State) : Except Fault Pattern :=
    if st.outer.isEmpty then .ok st.frame.pattern else .error ⟨.missingParen, whole⟩

/-- The pattern of a text. -/
def parse (text : String) : Except Fault Pattern :=
  items text.toList text.length ⟨{}, [], text.toList, none⟩

end Pattern
end Cascade
