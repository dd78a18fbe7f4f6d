import Cascade.Fraction
import Cascade.Text.Lines

/-!
# Settings documents

A settings document is a tree of maps, lists and scalars.  A scalar without
quotes may stand for nothing, a truth value or a number; `Scalar.ofPlain` says
which.  A quoted scalar is always a text.
-/

namespace Cascade
namespace Yaml

/-- A node of a document. -/
inductive Node where
  | null
  /-- A scalar without quotes. -/
  | plain (text : String)
  | quoted (text : String)
  | list (items : List Node)
  | map (fields : List (String × Node))
deriving Repr, Inhabited

/-- Why a document could not be read. -/
inductive Fault where
  | unclosedQuote
  | unclosedFlow
  | unexpected (found : Char)
  | badEscape (found : Char)
  | tabIndent
  | badIndent
  | notEntry (text : String)
  | inlineEntry (text : String)
  | duplicateKey (key : String)
  | unknownKey (key : String)
  | wrongType (expected : String)
  | tooDeep
deriving Repr, DecidableEq, Inhabited

/-- The wording of a fault. -/
def Fault.message : Fault → String
  | .unclosedQuote => "quoted scalar is not closed"
  | .unclosedFlow => "flow collection is not closed"
  | .unexpected found => s!"unexpected character '{found}'"
  | .badEscape found => s!"unknown escape '{found}'"
  | .tabIndent => "tabs cannot indent"
  | .badIndent => "bad indentation"
  | .notEntry text => s!"'{text}' is not a map entry"
  | .inlineEntry text => s!"map entry inside '{text}'"
  | .duplicateKey key => s!"key '{key}' is already defined"
  | .unknownKey key => s!"unknown key '{key}'"
  | .wrongType expected => s!"expected {expected}"
  | .tooDeep => "document is nested too deeply"

/-- What a scalar stands for. -/
inductive Scalar where
  | null
  | bool (value : Bool)
  | int (value : Int)
  | float (negative : Bool) (magnitude : Fraction)
  | infinite (negative : Bool)
  | notNumber
  | text (value : String)
deriving Repr, DecidableEq, Inhabited

namespace Scalar

/-- The value of a digit in bases up to sixteen. -/
def digit? (c : Char) : Option Nat :=
  let n := c.toNat
  if c.isDigit then some (n - '0'.toNat)
  else if 'a' ≤ c && c ≤ 'f' then some (n - 'a'.toNat + 10)
  else if 'A' ≤ c && c ≤ 'F' then some (n - 'A'.toNat + 10)
  else none

/-- The value of a nonempty run of digits in a base. -/
def natOf? (base : Nat) (cs : List Char) : Option Nat :=
  if cs.isEmpty then none
  else cs.foldlM (fun n c => (digit? c).bind fun d => if d < base then some (n * base + d) else none) 0

/-- The value of an unsigned numeral, whose base its first digits may give. -/
def magnitude? : List Char → Option Nat
  | '0' :: 'x' :: cs => natOf? 16 cs
  | '0' :: 'o' :: cs => natOf? 8 cs
  | '0' :: 'b' :: cs => natOf? 2 cs
  | '0' :: c :: cs => natOf? 8 (c :: cs)
  | cs => natOf? 10 cs

/-- The sign of a numeral and its digits, which may be grouped by underscores. -/
def signed (text : String) : Bool × List Char :=
  let cs := text.toList
  let digits := Text.dropLead ['-'] (Text.dropLead ['+'] cs)
  (cs.head? == some '-', if cs.head? == some '_' then [] else digits.filter (· != '_'))

/-- The value of a whole number of 64 bits. -/
def int? (text : String) : Option Int :=
  let (negative, digits) := signed text
  (magnitude? digits).bind fun n =>
    if negative then if n ≤ Nat.pow 2 63 then some (-(n : Int)) else none
    else if n < Nat.pow 2 64 then some (n : Int) else none

/-- The value of a number with a point; the answer says whether it is negative. -/
def float? (text : String) : Option (Bool × Fraction) :=
  let (negative, digits) := signed text
  if digits.count '.' = 1 && digits.head?.all (fun c => c.isDigit || c == '.') then
    ((Decimal.parse (String.ofList digits)).toOption.bind Fraction.binary?).map fun f => (negative, f)
  else
    none

/-- The texts that stand for nothing. -/
def nullTexts : List String := ["", "~", "null", "Null", "NULL"]

/-- The texts that stand for a truth value. -/
def boolTexts : List (String × Bool) :=
  [("true", true), ("True", true), ("TRUE", true),
    ("false", false), ("False", false), ("FALSE", false)]

/-- The texts that stand for a value without digits. -/
def otherTexts : List (String × Scalar) :=
  [(".inf", .infinite false), (".Inf", .infinite false), (".INF", .infinite false),
    ("-.inf", .infinite true), ("-.Inf", .infinite true), ("-.INF", .infinite true),
    (".nan", .notNumber), (".NaN", .notNumber), (".NAN", .notNumber)]

/-- What a scalar without quotes stands for. -/
def ofPlain (text : String) : Scalar :=
  if nullTexts.contains text then .null
  else
    match boolTexts.lookup text, otherTexts.lookup text, int? text, float? text with
    | some b, _, _, _ => .bool b
    | none, some s, _, _ => s
    | none, none, some n, _ => .int n
    | none, none, none, some (negative, f) => .float negative f
    | none, none, none, none => .text text

/-- The text of a number: its digits with a point among them, or behind the first one if the number
has seven places in front of the point or more than three zeros behind it. -/
def numberText (negative : Bool) (f : Fraction) : String :=
  let d := f.shortest
  let digits := Nat.toDigits 10 d.coefficient.toNat
  let power := digits.length + d.exponent - 1
  let sign := if negative then ['-'] else []
  let body :=
    if f.num = 0 then ['0']
    else if power < -4 || 6 ≤ power then
      let places := Nat.toDigits 10 power.natAbs
      let fraction := if digits.length = 1 then [] else '.' :: digits.drop 1
      digits.take 1 ++ fraction ++ 'e' :: (if power < 0 then '-' else '+') ::
        (if places.length = 1 then '0' :: places else places)
    else if power < 0 then
      '0' :: '.' :: List.replicate (-power - 1).toNat '0' ++ digits
    else
      let whole := power.toNat + 1
      let padded := digits ++ List.replicate (whole - digits.length) '0'
      padded.take whole ++ if padded.length ≤ whole then [] else '.' :: padded.drop whole
  String.ofList (sign ++ body)

end Scalar

namespace Node

/-- What a node stands for, if it is a scalar. -/
def scalar? : Node → Option Scalar
  | .null => some .null
  | .plain text => some (.ofPlain text)
  | .quoted text => some (.text text)
  | .list _ => none
  | .map _ => none

/-- Whole numbers have 64 bits. -/
def fitted (n : Int) : Except Fault Int :=
  let bound : Nat := Nat.pow 2 63
  if -(bound : Int) ≤ n && n < bound then .ok n else .error (.wrongType "a number of 64 bits")

/-- The text of a scalar; numbers and truth values are written in their usual form. -/
def toText (node : Node) : Except Fault String :=
  match node.scalar? with
  | some .null => .ok ""
  | some (.bool b) => .ok (if b then "true" else "false")
  | some (.int n) => .ok (toString n)
  | some (.float negative f) => .ok (Scalar.numberText negative f)
  | some (.infinite negative) => .ok (if negative then "-Inf" else "+Inf")
  | some .notNumber => .ok "NaN"
  | some (.text s) => .ok s
  | none => .error (.wrongType "a text")

/-- A truth value, or nothing. -/
def toBool? (node : Node) : Except Fault (Option Bool) :=
  match node.scalar? with
  | some .null => .ok none
  | some (.bool b) => .ok (some b)
  | _ => .error (.wrongType "a truth value")

/-- A truth value; nothing counts as false. -/
def toBool (node : Node) : Except Fault Bool :=
  node.toBool?.map (·.getD false)

/-- A whole number.  A fraction is cut, and a text may hold a number that is not negative. -/
def toInt (node : Node) : Except Fault Int :=
  match node.scalar? with
  | some .null => .ok 0
  | some (.int n) => fitted n
  | some (.float negative f) =>
    let whole := f.num / f.den
    fitted (if negative then -(whole : Int) else whole)
  | some (.text s) =>
    match (Decimal.parse s).toOption.bind fun d => (Fraction.binary? d).map (d, ·) with
    | some (d, f) =>
      if 0 ≤ d.coefficient then fitted (f.num / f.den : Nat) else .error (.wrongType "a number")
    | none => .error (.wrongType "a number")
  | _ => .error (.wrongType "a number")

/-- The items of a list; nothing counts as the empty one. -/
def toList : Node → Except Fault (List Node)
  | .null => .ok []
  | .list items => .ok items
  | .plain text => if Scalar.ofPlain text == .null then .ok [] else .error (.wrongType "a list")
  | _ => .error (.wrongType "a list")

/-- The fields of a map whose keys are among those given; nothing counts as the empty one. -/
def toFields (keys : List String) : Node → Except Fault (List (String × Node))
  | .null => .ok []
  | .map fields =>
    match fields.find? fun f => !keys.contains f.1 with
    | some (key, _) => .error (.unknownKey key)
    | none => .ok fields
  | .plain text => if Scalar.ofPlain text == .null then .ok [] else .error (.wrongType "a map")
  | _ => .error (.wrongType "a map")

/-- A field of a map; what is missing is nothing. -/
def get (fields : List (String × Node)) (key : String) : Node :=
  (fields.lookup key).getD .null

end Node
end Yaml
end Cascade
