import Cascade.Text.CaseFold
import Cascade.Text.LowerCase

/-!
# Letters without regard to case

Two characters are the same letter when they differ only in case.  `caseKey` is what
such characters have in common, and `caseVariants` lists them.
-/

namespace Cascade
namespace Text

/-- What the forms of a letter have in common: its folding in lower case. -/
def caseKey (c : Char) : List Char :=
  (foldChar c).map lowerChar

/-- The characters are forms of one letter. -/
def sameLetter (c d : Char) : Bool :=
  caseKey c == caseKey d

/-- The code points that the runs of a table send to one. -/
def Shift.sources (table : Array Shift) (n : Nat) : List Nat :=
  table.toList.filterMap fun s =>
    let m := (n : Int) - s.distance
    if 0 ≤ m && s.covers m.toNat then some m.toNat else none

/-- The characters from which folding or lower case may lead to a key. -/
def caseSources : List Char → List Char
  | [k] =>
    let sources := Shift.sources CaseFold.shifts k.toNat ++ Shift.sources LowerCase.shifts k.toNat
    k :: k.toUpper :: sources.map Char.ofNat
  | key => CaseFold.expansions.filterMap fun (n, images) =>
      if images == key.map Char.toNat then some (Char.ofNat n) else none

/-- The forms of the letter that a character is one of. -/
def caseVariants (c : Char) : List Char :=
  c :: (caseSources (caseKey c)).filter (sameLetter c)

end Text
end Cascade
