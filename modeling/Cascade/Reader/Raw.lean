import Cascade.Reader

/-!
# Values as they stand

Reading that resolves nothing: a block whose contents stay flat, so that they can
be read later in a scope of their own, and a run of values whose brackets match.
-/

namespace Cascade
namespace Scan

/-- The bracket at the front, and the closer it asks for. -/
def opener : Scan (Token × TokenType) := do
  match ← look (·.peekToken 0) with
  | none => failAt 0 .noBracket
  | some t =>
    match t.type.partner? with
    | none => failAt 0 (.notOpener t.type)
    | some closer =>
      let _ ← next
      return (t, closer)

/-- The closers that are due behind a token: those of brackets and functions that it opens, without
the one that it is. -/
def dueAfter (t : Token) (due : List TokenType) : List TokenType :=
  match t.type.closer? with
  | some closer => closer :: due
  | none => if due.head? = some t.type then due.tail else due

/-- The flat contents of a block, read behind those already collected in reverse. -/
def rawContents (opener : Token) (closer : TokenType) :
    Nat → List TokenType → List Value → Scan Block
  | 0, _, read => return ⟨opener, read.reverse, none⟩
  | n + 1, due, read => do
    match ← next with
    | none => return ⟨opener, read.reverse, none⟩
    | some (.token t) =>
      if due = [] ∧ t.type = closer then
        return ⟨opener, read.reverse, some t⟩
      else
        rawContents opener closer n (dueAfter t due) (.token t :: read)
    | some v => rawContents opener closer n due (v :: read)

/-- A block whose contents stay flat. -/
def rawBlock : Scan Block := do
  let (t, closer) ← opener
  rawContents t closer (← look (·.items.length + 1)) [] []

/-- A run of values whose brackets match, read behind those already collected in reverse. -/
def balancedFrom (anyValue : Bool) : Nat → List TokenType → List Value → Scan (List Value)
  | 0, _, read => return read.reverse
  | n + 1, due, read => do
    match ← look (·.peek 0) with
    | none => return read.reverse
    | some (.token t) =>
      if t.type.closer?.isSome then
        let _ ← next
        balancedFrom anyValue n (dueAfter t due) (.token t :: read)
      else if t.type.isCloser then
        match due with
        | [] => return read.reverse
        | expected :: rest =>
          if t.type = expected then
            let _ ← next
            balancedFrom anyValue n rest (.token t :: read)
          else
            failAt 0 (.mismatchedCloser expected)
      else if !anyValue && due.isEmpty && (t.type == .semicolon || t.isDelim "!") then
        return read.reverse
      else
        let _ ← next
        balancedFrom anyValue n due (.token t :: read)
    | some v =>
      let _ ← next
      balancedFrom anyValue n due (v :: read)

/-- The longest run of values at the front whose brackets match.  It ends before a closer that has no
opener in the run and, unless it may hold any value, before a semicolon or an exclamation mark. -/
def balanced (anyValue : Bool) : Scan (List Value) := do
  balancedFrom anyValue (← look (·.items.length + 1)) [] []

end Scan
end Cascade
