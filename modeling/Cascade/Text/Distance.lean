/-!
# Edit distance

The least number of insertions, deletions and replacements that turn one text
into another, row by row: the row of a prefix of the first text holds its
distances to all prefixes of the second.
-/

namespace Cascade
namespace Text

/-- The cells of a row to the right of `left`, from the row above it. -/
def distanceCells (a : Char) (left : Nat) : List Char → List Nat → List Nat
  | b :: bs, diagonal :: up :: above =>
    let cell := min (min (up + 1) (left + 1)) (diagonal + if a = b then 0 else 1)
    cell :: distanceCells a cell bs (up :: above)
  | _, _ => []

/-- The row of a text that is one character longer. -/
def distanceRow (t : List Char) (above : List Nat) (a : Char) : List Nat :=
  let first := above.headD 0 + 1
  first :: distanceCells a first t above

/-- The edit distance of two texts. -/
def editDistance (s t : List Char) : Nat :=
  (s.foldl (distanceRow t) (List.range (t.length + 1))).getLastD 0

/-- The first text arises from the second by deletions. -/
def isSubsequence : List Char → List Char → Bool
  | [], _ => true
  | _ :: _, [] => false
  | a :: s, b :: t => if a = b then isSubsequence s t else isSubsequence (a :: s) t

end Text
end Cascade
