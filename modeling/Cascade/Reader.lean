import Cascade.Cursor
import Cascade.Scope

/-!
# Readers

A reader is a cursor together with the scopes it resolves names in, the depth of
the blocks around it and a record of what it did.  Reading is a computation on
readers that stops at the first fault and leaves the reader where the fault was
found.

Two things end a computation early: a fault of the stylesheet, and a budget of
steps that has run out.  Substituting a reference can put the same reference back
in front, so some stylesheets can be read for ever; the budget cuts them off.

A reader also has a history that no computation looks at: how deep blocks were
nested, and which groups were read as they stood.  It is there for statements
about a whole run.

**Results.** `nested`, `inScope`, `capturing` and `within` put back what they
change, whether the computation inside them succeeds or not.
-/

namespace Cascade

/-- How deep mixins may be included and blocks nested. -/
structure Limits where
  includeDepth : Nat := 64
  nestingDepth : Nat := 256
deriving Repr, DecidableEq, Inhabited

/-- The limits asked for; what is not positive asks for the usual one. -/
def Limits.ofRequest (includeDepth nestingDepth : Int) : Limits :=
  { includeDepth := if includeDepth ≤ 0 then 64 else includeDepth.toNat
    nestingDepth := if nestingDepth ≤ 0 then 256 else nestingDepth.toNat }

/-- A step of resolution that a trace shows. -/
inductive Event where
  | variableDefined (name : String) (depth : Nat)
  | aliasDefined (name : String) (length : Nat)
  | aliasExpanded (name : String)
  | mixinDefined (name : String) (parameters line : Nat)
  | mixinIncluded (name : String) (depth : Nat)
  | valueSkipped (position : Position)
deriving Repr, DecidableEq

namespace Event

/-- The title of an event. -/
def title : Event → String
  | .variableDefined _ _ => "variable defined"
  | .aliasDefined _ _ => "at-rule alias defined"
  | .aliasExpanded _ => "at-rule alias expanded"
  | .mixinDefined _ _ _ => "mixin defined"
  | .mixinIncluded _ _ => "mixin included"
  | .valueSkipped _ => "skipped value in style block"

/-- The named facts of an event. -/
def facts : Event → List (String × String)
  | .variableDefined name depth => [("name", name), ("scope", toString depth)]
  | .aliasDefined name length => [("name", name), ("values", toString length)]
  | .aliasExpanded name => [("name", name)]
  | .mixinDefined name parameters line =>
    [("name", name), ("parameters", toString parameters), ("line", toString line)]
  | .mixinIncluded name depth => [("name", name), ("depth", toString depth)]
  | .valueSkipped position => [("position", position.describe)]

end Event

/-- The state of reading. -/
structure Reader where
  cursor : Cursor
  scopes : Scopes := {}
  /-- The number of blocks that are open around the cursor. -/
  nesting : Int := 0
  limits : Limits := {}
  /-- What happened so far, the latest first. -/
  events : List Event := []
  /-- The most blocks that were open at one time. -/
  deepest : Int := 0
  /-- The blocks and calls that were read whole, as they stood, the latest first. -/
  passed : List Value := []
deriving Repr, Inhabited

/-- A reader at the start of a token list. -/
def Reader.ofTokens (ts : List Token) (limits : Limits) : Reader :=
  { cursor := .ofTokens ts, limits := limits }

/-- Why a computation stopped before its end. -/
inductive Stop where
  | fault (diagnostic : Diagnostic)
  | exhausted
deriving Repr, DecidableEq, Inhabited

/-- A computation that reads from a reader. -/
abbrev Read :=
  EStateM Stop Reader

namespace Read

variable {α : Type}

/-- A look at the reader. -/
def look (f : Reader → α) : Read α :=
  fun r => .ok (f r) r

/-- A look at the cursor. -/
def peek (f : Cursor → α) : Read α :=
  fun r => .ok (f r.cursor) r

/-- Stops with a fault. -/
def fail (d : Diagnostic) : Read α :=
  fun r => .error (.fault d) r

/-- Stops with a fault at the value at an offset. -/
def failAt (n : Nat) (cause : Cause) : Read α :=
  fun r => .error (.fault (r.cursor.faultAt n cause)) r

/-- Stops because no step is left. -/
def exhausted : Read α :=
  fun r => .error .exhausted r

/-- Scans with the cursor. -/
def scan (x : Scan α) : Read α :=
  fun r =>
    match x r.cursor with
    | .ok a c => .ok a { r with cursor := c }
    | .error d c => .error (.fault d) { r with cursor := c }

/-- Reads the front value. -/
def next : Read (Option Value) :=
  scan Scan.next

/-- Reads the whitespace at the front. -/
def skipWhitespace : Read Unit :=
  scan Scan.skipWhitespace

/-- Puts values in front of the cursor. -/
def splice (vs : List Value) : Read Unit :=
  fun r => .ok () { r with cursor := r.cursor.splice vs }

/-- Puts the body of a mixin in front of the cursor. -/
def spliceExpansion (mixin : String) (vs : List Value) : Read Unit :=
  fun r => .ok () { r with cursor := r.cursor.spliceExpansion mixin vs }

/-- Changes the scopes. -/
def updateScopes (f : Scopes → Scopes) : Read Unit :=
  fun r => .ok () { r with scopes := f r.scopes }

/-- Records an event. -/
def record (e : Event) : Read Unit :=
  fun r => .ok () { r with events := e :: r.events }

/-- Keeps in mind that a group is read as it stands. -/
def remember (group : Value) : Read Unit :=
  fun r => .ok () { r with passed := group :: r.passed }

/-- Opens a block, unless too many are open. -/
def enterBlock : Read Unit :=
  fun r =>
    if r.limits.nestingDepth ≤ r.nesting then
      .error (.fault (r.cursor.faultAt 0 (.nestingLimit r.limits.nestingDepth))) r
    else
      .ok () { r with nesting := r.nesting + 1, deepest := max r.deepest (r.nesting + 1) }

/-- Closes a block. -/
def leaveBlock : Read Unit :=
  fun r => .ok () { r with nesting := r.nesting - 1 }

/-- Changes the reader when a computation ends, by a result or by a stop. -/
def andFinally (x : Read α) (f : Reader → Reader) : Read α :=
  fun r =>
    match x r with
    | .ok a r => .ok a (f r)
    | .error e r => .error e (f r)

/-- Runs inside one more block. -/
def nested (x : Read α) : Read α := do
  enterBlock
  andFinally x fun r => { r with nesting := r.nesting - 1 }

/-- Runs inside one more scope. -/
def inScope (x : Read α) : Read α := do
  updateScopes Scopes.enter
  andFinally x fun r => { r with scopes := r.scopes.exit }

/-- Runs inside the scope that captures the body of a mixin. -/
def capturing (parameters : List String) (x : Read α) : Read α := do
  updateScopes (Scopes.enterCapture · parameters)
  andFinally x fun r => { r with scopes := r.scopes.exit }

/-- Runs on a cursor over other values and comes back to the present one. -/
def within (vs : List Value) (x : Read α) : Read α :=
  fun r =>
    andFinally x (fun s => { s with cursor := r.cursor })
      { r with cursor := .ofValues vs r.cursor.depth }

/-! ## Outcomes -/

section Outcomes

variable {β : Type} {x : Read α} {f : α → Read β} {r s : Reader}

/-- A sequence goes on where its first part ended. -/
theorem bind_ok {a : α} (h : x r = .ok a s) :
    (x >>= f) r = f a s := by
  change EStateM.bind x f r = f a s
  simp [EStateM.bind, h]

/-- A sequence stops where its first part stopped. -/
theorem bind_error {e : Stop} (h : x r = .error e s) :
    (x >>= f) r = .error e s := by
  change EStateM.bind x f r = .error e s
  simp [EStateM.bind, h]

/-- A sequence that gives a result has gone through both parts. -/
theorem ok_of_bind {b : β} {t : Reader} (h : (x >>= f) r = .ok b t) :
    ∃ a s, x r = .ok a s ∧ f a s = .ok b t := by
  cases hx : x r with
  | ok a s => rw [bind_ok hx] at h; exact ⟨a, s, rfl, h⟩
  | error e s => rw [bind_error hx] at h; cases h

theorem andFinally_ok {g : Reader → Reader} {a : α} (h : x r = .ok a s) :
    andFinally x g r = .ok a (g s) := by
  simp [andFinally, h]

theorem andFinally_error {g : Reader → Reader} {e : Stop} (h : x r = .error e s) :
    andFinally x g r = .error e (g s) := by
  simp [andFinally, h]

theorem ok_of_andFinally {g : Reader → Reader} {a : α} {t : Reader} (h : andFinally x g r = .ok a t) :
    ∃ s, x r = .ok a s ∧ t = g s := by
  cases hx : x r with
  | ok b s => rw [andFinally_ok hx] at h; cases h; exact ⟨s, rfl, rfl⟩
  | error e s => rw [andFinally_error hx] at h; cases h

/-- Room for one more block. -/
theorem enterBlock_ok (h : r.nesting < r.limits.nestingDepth) :
    enterBlock r =
      .ok () { r with nesting := r.nesting + 1, deepest := max r.deepest (r.nesting + 1) } := by
  simp [enterBlock, Int.not_le.mpr h]

/-- No room for one more block. -/
theorem enterBlock_error (h : r.limits.nestingDepth ≤ r.nesting) :
    enterBlock r = .error (.fault (r.cursor.faultAt 0 (.nestingLimit r.limits.nestingDepth))) r := by
  simp [enterBlock, h]

/-- Inside one more block, if there is room for it. -/
theorem nested_of_lt (h : r.nesting < r.limits.nestingDepth) :
    nested x r = andFinally x (fun r => { r with nesting := r.nesting - 1 })
      { r with nesting := r.nesting + 1, deepest := max r.deepest (r.nesting + 1) } :=
  bind_ok (enterBlock_ok h)

/-- Nothing runs inside where there is no room for one more block. -/
theorem nested_of_le (h : r.limits.nestingDepth ≤ r.nesting) :
    nested x r = .error (.fault (r.cursor.faultAt 0 (.nestingLimit r.limits.nestingDepth))) r :=
  bind_error (enterBlock_error h)

theorem inScope_run :
    inScope x r = andFinally x (fun r => { r with scopes := r.scopes.exit })
      { r with scopes := r.scopes.enter } := by
  rfl

theorem capturing_run (names : List String) :
    capturing names x r = andFinally x (fun r => { r with scopes := r.scopes.exit })
      { r with scopes := r.scopes.enterCapture names } := by
  rfl

theorem within_run (vs : List Value) :
    within vs x r = andFinally x (fun s => { s with cursor := r.cursor })
      { r with cursor := .ofValues vs r.cursor.depth } := by
  rfl

theorem peek_run (f : Cursor → α) (r : Reader) :
    peek f r = .ok (f r.cursor) r := by
  rfl

/-- Reading gives the front value. -/
theorem next_of_peek {v : Value} (h : r.cursor.peek 0 = some v) :
    next r = .ok (some v) { r with cursor := r.cursor.next.2 } := by
  have hfront : r.cursor.next.1 = some v := by
    rw [Cursor.next_fst, ← h, Cursor.peek_eq_getElem?, List.head?_eq_getElem?]
  rw [← hfront]
  rfl

/-- A group is read as it stands and kept in mind. -/
theorem pass_of_peek {v : Value} (h : r.cursor.peek 0 = some v) :
    (do remember v; next) r =
      .ok (some v) { r with cursor := r.cursor.next.2, passed := v :: r.passed } := by
  have hfront : { r with passed := v :: r.passed }.cursor.peek 0 = some v := h
  rw [bind_ok (show remember v r = .ok () { r with passed := v :: r.passed } from rfl)]
  exact next_of_peek hfront

end Outcomes

end Read
end Cascade
