import Cascade.Sorting
import Cascade.Text.CaseFold
import Cascade.Text.Distance
import Cascade.Text.Quoted
import Cascade.Text.SearchForm

/-!
# Suggestions for misspelt names

A diagnostic about an unknown name offers the closest known one.  Names that
hold the unknown one as a subsequence, whatever the case of letters, come first,
the nearest of them by edit distance; otherwise a name that is only a typing
error away is offered.
-/

namespace Cascade
namespace Suggestion

/-- The first candidate whose measure is least. -/
def nearest (measure : String → Nat) : List String → Option String
  | [] => none
  | c :: cs =>
    match nearest measure cs with
    | none => some c
    | some d => if measure c ≤ measure d then some c else some d

/-- The candidates that hold the target as a subsequence, ignoring case. -/
def containing (target : String) (candidates : List String) : List String :=
  let letters := Text.searchForm target
  candidates.filter fun c => Text.isSubsequence letters (Text.searchForm c)

/-- A candidate with its measure. -/
structure Rank where
  candidate : String
  measure : Nat
deriving Repr, DecidableEq

/-- The candidates from the least measure to the greatest. -/
def ranked (measure : String → Nat) (candidates : List String) : Array Rank :=
  Sorting.sort (fun a b => a.measure < b.measure)
    (candidates.map fun c => ⟨c, measure c⟩).toArray

/-- The edit distance that still counts as a typing error: a third of the bytes, at least one. -/
def tolerance (target : String) : Nat :=
  max 1 (target.utf8ByteSize / 3)

/-- The candidate closest to the target. -/
def closest? (target : String) (candidates : List String) : Option String :=
  match containing target candidates with
  | [] =>
    let letters := (Text.foldCase target).toList
    let distance c := Text.editDistance letters (Text.foldCase c).toList
    let near := candidates.filter fun c => distance c ≤ tolerance target
    (nearest distance near).filter (· ≠ "")
  | matching =>
    let ranks := ranked (fun c => Text.editDistance target.toList c.toList) matching
    ranks[0]?.map (·.candidate)

end Suggestion

/-- The remark that a diagnostic adds about an unknown name; empty when no candidate is close. -/
def suggest (target : String) (candidates : List String) : String :=
  match Suggestion.closest? target candidates with
  | some c => s!" (did you mean {Text.quote c}?)"
  | none => ""

end Cascade
