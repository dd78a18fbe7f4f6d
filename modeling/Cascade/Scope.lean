import Cascade.Text.CaseFold
import Cascade.Value

/-!
# Scopes

Variables, mixins and at-rule aliases are bound in the innermost of a stack of
scopes and looked up from there outwards.  The scope that surrounds the body of
a mixin while it is being captured carries the names of its parameters.

**Results.** Leaving undoes entering (`exit?_enter`), and a binding is found
right after it has been made (`findVariable?_setVariable`).
-/

namespace Cascade

/-- A parameter of a mixin; one with a default may be left out of a call. -/
structure Parameter where
  name : String
  token : Token
  fallback : Option (List Value)
deriving Repr, Inhabited

/-- A captured mixin; it may have been declared without a parameter list. -/
structure Mixin where
  parameters : Option (List Parameter)
  body : List Value
deriving Repr, Inhabited

/-- The parameters of a mixin; none without a parameter list. -/
def Mixin.parameterList (m : Mixin) : List Parameter :=
  m.parameters.getD []

/-- Names with what they are bound to, each name once. -/
abbrev Bindings (α : Type) :=
  List (String × α)

namespace Bindings

/-- Binds a name, in place of an earlier binding. -/
def set {α : Type} (b : Bindings α) (name : String) (value : α) : Bindings α :=
  (name, value) :: List.filter (fun e => e.1 != name) b

/-- What a name is bound to. -/
def find? {α : Type} (b : Bindings α) (name : String) : Option α :=
  List.lookup name b

/-- The bound names. -/
def names {α : Type} (b : Bindings α) : List String :=
  List.map Prod.fst b

@[simp] theorem find?_set {α : Type} (b : Bindings α) (name : String) (value : α) :
    (b.set name value).find? name = some value := by
  simp [set, find?]

end Bindings

/-- One lexical scope. -/
structure Scope where
  /-- The values of variables. -/
  assigned : Bindings (List Value) := []
  aliases : Bindings (List Value) := []
  mixins : Bindings Mixin := []
  /-- The parameters of the mixin whose body is captured in this scope. -/
  parameters : List String := []
  /-- The body of a mixin is captured in this scope. -/
  isCapture : Bool := false
deriving Repr, Inhabited

/-- A stack of scopes, which is never empty: the outermost one is that of the stylesheet. -/
structure Scopes where
  current : Scope := {}
  outer : List Scope := []
deriving Repr, Inhabited

namespace Scopes

/-- All scopes, the innermost first. -/
def frames (s : Scopes) : List Scope :=
  s.current :: s.outer

/-- The number of scopes. -/
def depth (s : Scopes) : Nat :=
  s.frames.length

/-- Opens a scope. -/
def enter (s : Scopes) : Scopes :=
  ⟨{}, s.frames⟩

/-- Opens the scope around the body of a mixin with the given parameters. -/
def enterCapture (s : Scopes) (parameters : List String) : Scopes :=
  ⟨{ parameters := parameters, isCapture := true }, s.frames⟩

/-- Leaves the innermost scope; that of the stylesheet cannot be left. -/
def exit? (s : Scopes) : Option Scopes :=
  match s.outer with
  | [] => none
  | frame :: rest => some ⟨frame, rest⟩

/-- Leaves the innermost scope, unless it is that of the stylesheet. -/
def exit (s : Scopes) : Scopes :=
  s.exit?.getD s

/-- Binds a variable in the innermost scope. -/
def setVariable (s : Scopes) (name : String) (value : List Value) : Scopes :=
  { s with current := { s.current with assigned := s.current.assigned.set name value } }

/-- Binds an at-rule alias in the innermost scope; case does not count. -/
def setAlias (s : Scopes) (name : String) (value : List Value) : Scopes :=
  { s with
    current := { s.current with aliases := s.current.aliases.set (Text.foldCase name) value } }

/-- Binds a mixin in the innermost scope. -/
def setMixin (s : Scopes) (name : String) (mixin : Mixin) : Scopes :=
  { s with current := { s.current with mixins := s.current.mixins.set name mixin } }

/-- The value of a variable in the innermost scope that binds it. -/
def findVariable? (s : Scopes) (name : String) : Option (List Value) :=
  s.frames.findSome? (·.assigned.find? name)

/-- The value of an at-rule alias; case does not count. -/
def findAlias? (s : Scopes) (name : String) : Option (List Value) :=
  s.frames.findSome? (·.aliases.find? (Text.foldCase name))

/-- The mixin of a name in the innermost scope that binds it. -/
def findMixin? (s : Scopes) (name : String) : Option Mixin :=
  s.frames.findSome? (·.mixins.find? name)

/-- The name is a parameter of a mixin whose body is being captured. -/
def isParameter (s : Scopes) (name : String) : Bool :=
  s.frames.any (·.parameters.contains name)

/-- The body of a mixin is being captured. -/
def isCapturing (s : Scopes) : Bool :=
  s.frames.any (·.isCapture)

/-- Names in ascending order, each once. -/
def sortNames (names : List String) : List String :=
  (names.mergeSort fun a b => !decide (b < a)).eraseDups

/-- The names of all visible variables. -/
def variableNames (s : Scopes) : List String :=
  sortNames (s.frames.flatMap (·.assigned.names))

/-- The names of all visible mixins. -/
def mixinNames (s : Scopes) : List String :=
  sortNames (s.frames.flatMap (·.mixins.names))

/-- Leaving undoes entering. -/
@[simp] theorem exit?_enter (s : Scopes) :
    s.enter.exit? = some s := by
  rfl

@[simp] theorem exit?_enterCapture (s : Scopes) (parameters : List String) :
    (s.enterCapture parameters).exit? = some s := by
  rfl

/-- A variable has the value it was bound to last. -/
theorem findVariable?_setVariable (s : Scopes) (name : String) (value : List Value) :
    (s.setVariable name value).findVariable? name = some value := by
  simp [findVariable?, setVariable, frames]

end Scopes
end Cascade
