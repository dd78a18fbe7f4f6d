import Cascade.Text.Caseless

/-!
# Patterns

Regular patterns over texts.  The meaning of a pattern is the list of places where
a match that starts at a given place can end; a text matches when some place has
such an end.  Repetition goes on until no new place is found, so it needs no more
rounds than the text has places.
-/

namespace Cascade

/-- A set of characters: intervals, or the complement of intervals. -/
structure CharSet where
  negated : Bool := false
  ranges : List (Nat × Nat)
deriving Repr, DecidableEq, Inhabited

/-- A character with these forms is in the set: one of the forms is in an interval, or none is. -/
def CharSet.contains (s : CharSet) (forms : List Char) : Bool :=
  (forms.any fun c => s.ranges.any fun r => r.1 ≤ c.toNat && c.toNat ≤ r.2) != s.negated

/-- A regular pattern. -/
inductive Pattern where
  | empty
  /-- Any character; whether a line end is one. -/
  | anyChar (lineEnds : Bool)
  /-- A character, or any form of its letter. -/
  | literal (char : Char) (fold : Bool)
  /-- A character of one of the sets, or of none of them. -/
  | oneOf (sets : List CharSet) (negated fold : Bool)
  | textStart
  | textEnd
  | lineStart
  | lineEnd
  /-- A place between a word and something else, or a place that is none. -/
  | wordEdge (edge : Bool)
  | sequence (first second : Pattern)
  | alternative (first second : Pattern)
  /-- A pattern so many times; without a most there is no upper limit. -/
  | repetition (pattern : Pattern) (least : Nat) (most : Option Nat)
deriving Repr, Inhabited

namespace Pattern

/-- A character of a word. -/
def isWordChar (c : Char) : Bool :=
  c.isAlphanum || c == '_'

/-- The character is in one of the sets, in any of its forms if case does not count. -/
def inSets (sets : List CharSet) (fold : Bool) (c : Char) : Bool :=
  sets.any (·.contains (if fold then Text.caseVariants c else [c]))

/-- The end of a match of one character. -/
def oneChar (text : Array Char) (place : Nat) (p : Char → Bool) : List Nat :=
  match text[place]? with
  | some c => if p c then [place + 1] else []
  | none => []

/-- An empty match where a condition holds. -/
def assertion (place : Nat) (holds : Bool) : List Nat :=
  if holds then [place] else []

/-- One round: the ends of matches that start at given places, each once. -/
def round (f : Nat → List Nat) (places : List Nat) : List Nat :=
  (places.flatMap f).eraseDups

/-- So many rounds. -/
def rounds (f : Nat → List Nat) : Nat → List Nat → List Nat
  | 0, places => places
  | n + 1, places => rounds f n (round f places)

/-- At most so many rounds: all places on the way. -/
def upTo (f : Nat → List Nat) : Nat → List Nat → List Nat
  | 0, places => places
  | n + 1, places => upTo f n (places ++ round f places).eraseDups

/-- The character in front of a place. -/
def charBefore (text : Array Char) (place : Nat) : Option Char :=
  if place = 0 then none else text[place - 1]?

/-- The ends of the matches that start at a place. -/
def ends (text : Array Char) : Pattern → Nat → List Nat
  | .empty, place => [place]
  | .anyChar lineEnds, place => oneChar text place fun c => lineEnds || c != '\n'
  | .literal char fold, place =>
    oneChar text place fun c => c == char || (fold && Text.sameLetter c char)
  | .oneOf sets negated fold, place => oneChar text place fun c => inSets sets fold c != negated
  | .textStart, place => assertion place (place == 0)
  | .textEnd, place => assertion place (place == text.size)
  | .lineStart, place => assertion place (place == 0 || charBefore text place == some '\n')
  | .lineEnd, place => assertion place (place == text.size || text[place]? == some '\n')
  | .wordEdge edge, place =>
    let inside (c : Option Char) := c.any isWordChar
    assertion place ((inside (charBefore text place) != inside text[place]?) == edge)
  | .sequence first second, place => (ends text first place).flatMap fun p => ends text second p
  | .alternative first second, place => ends text first place ++ ends text second place
  | .repetition pattern least most, place =>
    let f := fun p => ends text pattern p
    let more :=
      match most with
      | some most => min (most - least) (text.size + 1)
      | none => text.size + 1
    upTo f more (rounds f least [place])

/-- The pattern matches somewhere in the text. -/
def isMatch (p : Pattern) (s : String) : Bool :=
  let text := s.toList.toArray
  (List.range (text.size + 1)).any fun place => !(ends text p place).isEmpty

end Pattern
end Cascade
