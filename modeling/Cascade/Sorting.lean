/-!
# Sorting in place

Arrays are sorted by quicksort.  A short part is sorted by insertion; a part that
looks sorted gets a few repairs instead of a division; where the pivots divide badly
some elements change places, and after too many bad divisions the part is sorted as
a heap.  Elements that are equal in the order may end up in any of their places, but
always in the same ones: the sort uses no chance.

**Results.** `sort_perm`: every step exchanges two elements, so sorting only permutes.
-/

namespace Cascade
namespace Sorting

variable {α : Type} (before : α → α → Bool)

/-- The element at one place comes before the one at another. -/
def beforeAt (a : Array α) (i j : Nat) : Bool :=
  match a[i]?, a[j]? with
  | some x, some y => before x y
  | _, _ => false

theorem swapIfInBounds_perm (a : Array α) (i j : Nat) : (a.swapIfInBounds i j).Perm a := by
  rw [Array.swapIfInBounds_def]
  split
  · split
    · exact Array.swap_perm _ _
    · exact .refl a
  · exact .refl a

theorem foldl_perm {β : Type} {f : Array α → β → Array α} (h : ∀ a b, (f a b).Perm a) :
    ∀ (bs : List β) (a : Array α), (bs.foldl f a).Perm a
  | [], a => .refl a
  | b :: bs, a => (foldl_perm h bs (f a b)).trans (h a b)

/-! ## Insertion -/

/-- Moves the element at a place down to where it belongs, not below `lo`. -/
def moveDown (lo : Nat) : Nat → Array α → Array α
  | 0, a => a
  | i + 1, a =>
    if lo ≤ i && beforeAt before a (i + 1) i then moveDown lo i (a.swapIfInBounds (i + 1) i) else a

/-- Moves the element at a place up to where it belongs, by at most so many places. -/
def moveUp : Nat → Nat → Array α → Array α
  | 0, _, a => a
  | most + 1, i, a =>
    if beforeAt before a (i + 1) i then moveUp most (i + 1) (a.swapIfInBounds (i + 1) i) else a

/-- Sorts the part from `lo` up to `hi` by insertion. -/
def insertionSort (lo hi : Nat) (a : Array α) : Array α :=
  (List.range' (lo + 1) (hi - (lo + 1))).foldl (fun a i => moveDown before lo i a) a

theorem moveDown_perm (lo i : Nat) (a : Array α) : (moveDown before lo i a).Perm a := by
  induction i generalizing a with
  | zero => exact .refl a
  | succ i ih =>
    rw [moveDown]
    split
    · exact (ih _).trans (swapIfInBounds_perm a _ _)
    · exact .refl a

theorem moveUp_perm (most i : Nat) (a : Array α) : (moveUp before most i a).Perm a := by
  induction most generalizing i a with
  | zero => exact .refl a
  | succ most ih =>
    rw [moveUp]
    split
    · exact (ih _ _).trans (swapIfInBounds_perm a _ _)
    · exact .refl a

theorem insertionSort_perm (lo hi : Nat) (a : Array α) : (insertionSort before lo hi a).Perm a :=
  foldl_perm (fun a i => moveDown_perm before lo i a) _ a

/-! ## Heaps -/

/-- Moves a root down its heap of so many elements, which starts at `lo`.  Every step doubles the
root, so the fuel is the number of elements. -/
def siftDown (lo count : Nat) : Nat → Nat → Array α → Array α
  | 0, _, a => a
  | fuel + 1, root, a =>
    let left := 2 * root + 1
    if count ≤ left then a
    else
      let child :=
        if left + 1 < count && beforeAt before a (lo + left) (lo + left + 1) then left + 1 else left
      if beforeAt before a (lo + root) (lo + child) then
        siftDown lo count fuel child (a.swapIfInBounds (lo + root) (lo + child))
      else a

/-- Sorts the part from `lo` up to `hi` as a heap with the last element at its root. -/
def heapSort (lo hi : Nat) (a : Array α) : Array α :=
  let count := hi - lo
  let heap := (List.range ((count - 1) / 2 + 1)).reverse.foldl
    (fun a root => siftDown before lo count count root a) a
  (List.range count).reverse.foldl
    (fun a i => siftDown before lo i count 0 (a.swapIfInBounds lo (lo + i))) heap

theorem siftDown_perm (lo count fuel root : Nat) (a : Array α) :
    (siftDown before lo count fuel root a).Perm a := by
  induction fuel generalizing root a with
  | zero => exact .refl a
  | succ fuel ih =>
    unfold siftDown
    simp only
    split
    · exact .refl a
    · split <;> split <;>
        first | exact (ih _ _).trans (swapIfInBounds_perm a _ _) | exact .refl a

theorem heapSort_perm (lo hi : Nat) (a : Array α) : (heapSort before lo hi a).Perm a :=
  (foldl_perm (fun a _ => (siftDown_perm before _ _ _ _ _).trans (swapIfInBounds_perm a _ _)) _ _).trans
    (foldl_perm (fun a _ => siftDown_perm before _ _ _ _ a) _ a)

/-! ## Pivots -/

/-- A place, and how many pairs had to be turned round to find it. -/
structure Median where
  place : Nat
  turns : Nat
deriving Repr, DecidableEq

/-- The place of the median of three. -/
def median (a : Array α) (i j k turns : Nat) : Median :=
  let order (x y turns : Nat) := if beforeAt before a y x then (y, x, turns + 1) else (x, y, turns)
  let (i, j, turns) := order i j turns
  let (j, _, turns) := order j k turns
  let (_, j, turns) := order i j turns
  ⟨j, turns⟩

/-- From this length on a pivot is the median of three medians, and repairs are tried. -/
def longPart : Nat := 50

/-- The turns of four medians whose elements are all in falling order. -/
def mostTurns : Nat := 12

/-- The pivot of the part from `lo` up to `hi`: a median of elements at its quarters. -/
def choosePivot (lo hi : Nat) (a : Array α) : Median :=
  let quarter := (hi - lo) / 4
  let near (i turns : Nat) := median before a (i - 1) i (i + 1) turns
  if hi - lo < longPart then
    median before a (lo + quarter) (lo + 2 * quarter) (lo + 3 * quarter) 0
  else
    let i := near (lo + quarter) 0
    let j := near (lo + 2 * quarter) i.turns
    let k := near (lo + 3 * quarter) j.turns
    median before a i.place j.place k.place k.turns

/-! ## Divisions -/

/-- The first place from `i` up to `j` that fails a test, else the one behind `j`. -/
def scanUp (test : Nat → Bool) (j : Nat) : Nat → Nat → Nat
  | 0, i => i
  | fuel + 1, i => if i ≤ j && test i then scanUp test j fuel (i + 1) else i

/-- The first place from `j` down to `i` that fails a test, else the one in front of `i`. -/
def scanDown (test : Nat → Bool) (i : Nat) : Nat → Nat
  | 0 => 0
  | j + 1 => if i ≤ j + 1 && test (j + 1) then scanDown test i j else j + 1

/-- A part that has been divided: the last place on the left, and whether nothing had to move. -/
structure Division (α : Type) where
  elements : Array α
  last : Nat
  already : Bool

/-- Brings the elements from `i` up to `j` that belong on the left in front of the others.  Every
exchange brings the places together by two, so the fuel is their distance. -/
def divide (onLeft : Array α → Nat → Bool) (already : Bool) :
    Nat → Nat → Nat → Array α → Division α
  | 0, _, j, a => ⟨a, j, already⟩
  | fuel + 1, i, j, a =>
    let i := scanUp (onLeft a) j (j + 1 - i) i
    let j := scanDown (fun k => !onLeft a k) i j
    if j < i then ⟨a, j, already⟩
    else divide onLeft false fuel (i + 1) (j - 1) (a.swapIfInBounds i j)

/-- Divides a part into the elements before the pivot, the pivot, and the others. -/
def divideAt (lo hi pivot : Nat) (a : Array α) : Division α :=
  let d := divide (fun a k => beforeAt before a k lo) true (hi - lo) (lo + 1) (hi - 1)
    (a.swapIfInBounds lo pivot)
  { d with elements := d.elements.swapIfInBounds d.last lo }

/-- Divides a part that holds nothing before the pivot into the elements equal to it and the
others. -/
def divideEqual (lo hi pivot : Nat) (a : Array α) : Division α :=
  divide (fun a k => !beforeAt before a lo k) true (hi - lo) (lo + 1) (hi - 1)
    (a.swapIfInBounds lo pivot)

theorem divide_perm (onLeft : Array α → Nat → Bool) (already : Bool) (fuel i j : Nat)
    (a : Array α) : (divide onLeft already fuel i j a).elements.Perm a := by
  induction fuel generalizing already i j a with
  | zero => exact .refl a
  | succ fuel ih =>
    unfold divide
    simp only
    split
    · exact .refl a
    · exact (ih _ _ _ _).trans (swapIfInBounds_perm a _ _)

theorem divideAt_perm (lo hi pivot : Nat) (a : Array α) :
    (divideAt before lo hi pivot a).elements.Perm a :=
  (swapIfInBounds_perm _ _ _).trans
    ((divide_perm _ _ _ _ _ _).trans (swapIfInBounds_perm a _ _))

theorem divideEqual_perm (lo hi pivot : Nat) (a : Array α) :
    (divideEqual before lo hi pivot a).elements.Perm a :=
  (divide_perm _ _ _ _ _ _).trans (swapIfInBounds_perm a _ _)

/-! ## Repairs and disorder -/

/-- Repairs a part that is almost sorted, at most so many pairs from place `i` on.  The answer says
whether it is sorted now.  A short part is not repaired. -/
def repair (lo hi : Nat) : Nat → Nat → Array α → Bool × Array α
  | 0, _, a => (false, a)
  | steps + 1, i, a =>
    let i := scanUp (fun k => !beforeAt before a k (k - 1)) (hi - 1) (hi - i) i
    if hi ≤ i then (true, a)
    else if hi - lo < longPart then (false, a)
    else
      let a := a.swapIfInBounds i (i - 1)
      let a := if lo + 2 ≤ i then moveDown before 0 (i - 1) a else a
      let a := if i + 2 ≤ hi then moveUp before (hi - 1 - i) i a else a
      repair lo hi steps i a

/-- The steps of a repair. -/
def repairSteps : Nat := 5

theorem repair_perm (lo hi steps i : Nat) (a : Array α) :
    (repair before lo hi steps i a).2.Perm a := by
  induction steps generalizing i a with
  | zero => exact .refl a
  | succ steps ih =>
    unfold repair
    simp only
    split
    · exact .refl a
    · split
      · exact .refl a
      · refine (ih _ _).trans ?_
        split <;> split <;>
          first
            | exact (moveUp_perm before _ _ _).trans
                ((moveDown_perm before _ _ _).trans (swapIfInBounds_perm a _ _))
            | exact (moveUp_perm before _ _ _).trans (swapIfInBounds_perm a _ _)
            | exact (moveDown_perm before _ _ _).trans (swapIfInBounds_perm a _ _)
            | exact swapIfInBounds_perm a _ _

/-- The next number of a sequence without pattern. -/
def nextRandom (r : UInt64) : UInt64 :=
  let r := r ^^^ (r <<< 13)
  let r := r ^^^ (r >>> 7)
  r ^^^ (r <<< 17)

/-- Exchanges the three elements in the middle of a part with others. -/
def scatter (lo hi : Nat) (a : Array α) : Array α :=
  let length := hi - lo
  let modulus := Nat.pow 2 (Nat.log2 length + 1)
  let first := nextRandom (UInt64.ofNat length)
  let second := nextRandom first
  let third := nextRandom second
  let place (r : UInt64) :=
    let other := r.toNat % modulus
    lo + if length ≤ other then other - length else other
  let middle := lo + 2 * (length / 4) - 1
  ((a.swapIfInBounds (middle - 1) (place first)).swapIfInBounds middle (place second)).swapIfInBounds
    (middle + 1) (place third)

/-- Turns a part round. -/
def turn (lo hi : Nat) (a : Array α) : Array α :=
  (List.range ((hi - lo) / 2)).foldl (fun a i => a.swapIfInBounds (lo + i) (hi - 1 - i)) a

theorem scatter_perm (lo hi : Nat) (a : Array α) : (scatter lo hi a).Perm a :=
  (swapIfInBounds_perm _ _ _).trans
    ((swapIfInBounds_perm _ _ _).trans (swapIfInBounds_perm a _ _))

theorem turn_perm (lo hi : Nat) (a : Array α) : (turn lo hi a).Perm a :=
  foldl_perm (fun a _ => swapIfInBounds_perm a _ _) _ a

/-! ## Quicksort -/

/-- The longest part that is sorted by insertion. -/
def shortPart : Nat := 12

/-- Sorts the part from `lo` up to `hi`.  `limit` is the number of bad divisions that are left, and
the two flags say whether the last division was balanced and whether it moved nothing.  Every
division takes a place off the part, so the fuel is its length. -/
def quick : Nat → Nat → Nat → Nat → Bool → Bool → Array α → Array α
  | 0, _, _, _, _, _, a => a
  | fuel + 1, limit, lo, hi, balanced, already, a =>
    if hi - lo ≤ shortPart then insertionSort before lo hi a
    else if limit = 0 then heapSort before lo hi a
    else
      let limit := if balanced then limit else limit - 1
      let a := if balanced then a else scatter lo hi a
      let choice := choosePivot before lo hi a
      let falling := choice.turns == mostTurns
      let pivot := if falling then hi - 1 - (choice.place - lo) else choice.place
      let a := if falling then turn lo hi a else a
      let tried :=
        if balanced && already && (falling || choice.turns == 0) then
          repair before lo hi repairSteps (lo + 1) a
        else (false, a)
      let a := tried.2
      if tried.1 then a
      else if 0 < lo && !beforeAt before a (lo - 1) pivot then
        let d := divideEqual before lo hi pivot a
        quick fuel limit (d.last + 1) hi balanced already d.elements
      else
        let d := divideAt before lo hi pivot a
        let left := d.last - lo
        let right := hi - d.last
        let least := (hi - lo) / 8
        if left < right then
          quick fuel limit (d.last + 1) hi (least ≤ left) d.already
            (quick fuel limit lo d.last true true d.elements)
        else
          quick fuel limit lo d.last (least ≤ right) d.already
            (quick fuel limit (d.last + 1) hi true true d.elements)

theorem quick_perm (fuel limit lo hi : Nat) (balanced already : Bool) (a : Array α) :
    (quick before fuel limit lo hi balanced already a).Perm a := by
  induction fuel generalizing limit lo hi balanced already a with
  | zero => exact .refl a
  | succ fuel ih =>
    unfold quick
    split
    · exact insertionSort_perm before lo hi a
    split
    · exact heapSort_perm before lo hi a
    extract_lets limit' scattered choice falling pivot turned tried tidied equal parted left right least
    have scattered_perm : scattered.Perm a := by
      simp only [scattered]
      split
      · exact .refl a
      · exact scatter_perm lo hi a
    have turned_perm : turned.Perm a := by
      simp only [turned]
      split
      · exact (turn_perm lo hi scattered).trans scattered_perm
      · exact scattered_perm
    have tidied_perm : tidied.Perm a := by
      simp only [tidied, tried]
      split
      · exact (repair_perm before _ _ _ _ turned).trans turned_perm
      · exact turned_perm
    split
    · exact tidied_perm
    split
    · exact (ih _ _ _ _ _ _).trans ((divideEqual_perm before _ _ _ tidied).trans tidied_perm)
    have parted_perm : parted.elements.Perm a :=
      (divideAt_perm before _ _ _ tidied).trans tidied_perm
    split
    · exact (ih _ _ _ _ _ _).trans ((ih _ _ _ _ _ _).trans parted_perm)
    · exact (ih _ _ _ _ _ _).trans ((ih _ _ _ _ _ _).trans parted_perm)

/-- The array in ascending order. -/
def sort (a : Array α) : Array α :=
  quick before a.size (Nat.log2 a.size + 1) 0 a.size true true a

theorem sort_perm (a : Array α) : (sort before a).Perm a :=
  quick_perm before _ _ _ _ _ _ a

end Sorting
end Cascade
