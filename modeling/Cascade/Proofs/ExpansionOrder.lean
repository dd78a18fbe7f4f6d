import Cascade.Cursor
import Mathlib.Data.DFinsupp.WellFounded

/-!
# The order of expansion

Including a mixin puts its body in front of the cursor, so the values left to
read may become more.  What becomes smaller is found behind the markers: a value
counts the more, the fewer markers stand behind it.  The inclusion itself was
read from some place, and every body that it puts in front stands before one more
marker than that place.

**Method.**  `weight items i` is the number of values with exactly `i` markers
behind them.  With at most `limit` markers the weights form a vector, and vectors
are compared at the first index where they differ.

**Results.**
* `rank_lt_of_pushed`: reading a value and putting bodies in front lowers the rank.
* `rank_nil_lt`: so does reading everything.
-/

namespace Cascade
namespace Item

/-- The number of expansions that end in an item list. -/
def markers : List Item → Nat
  | [] => 0
  | .value _ :: rest => markers rest
  | .marker _ :: rest => markers rest + 1

/-- The number of values with exactly so many markers behind them. -/
def weight : List Item → Nat → Nat
  | [], _ => 0
  | .marker _ :: rest, i => weight rest i
  | .value _ :: rest, i => weight rest i + if markers rest = i then 1 else 0

@[simp] theorem markers_append (s t : List Item) :
    markers (s ++ t) = markers s + markers t := by
  induction s with
  | nil => simp [markers]
  | cons item rest ih =>
      cases item with
      | value v => simpa [markers] using ih
      | marker m =>
          simp only [List.cons_append, markers, ih]
          omega

theorem markers_map_value (vs : List Value) : markers (vs.map .value) = 0 := by
  induction vs with
  | nil => rfl
  | cons v vs ih => simpa only [List.map_cons, markers] using ih

/-- What stands in front does not count at an index below the markers behind it. -/
theorem weight_append_of_lt {i : Nat} (s : List Item) {t : List Item} (h : i < markers t) :
    weight (s ++ t) i = weight t i := by
  induction s with
  | nil => rfl
  | cons item rest ih =>
      cases item with
      | marker m => simpa [weight] using ih
      | value v =>
          have hne : markers rest + markers t ≠ i := by omega
          simpa [weight, hne] using ih

theorem weight_le_append (s t : List Item) (i : Nat) :
    weight t i ≤ weight (s ++ t) i := by
  induction s with
  | nil => exact Nat.le_refl _
  | cons item rest ih =>
      cases item with
      | marker m => simpa [weight] using ih
      | value v =>
          simp only [List.cons_append, weight]
          omega

/-! ## Reading and putting in front -/

/-- The items that are left when at least one value has been read. -/
def Past (s t : List Item) : Prop :=
  ∃ x v, s = x ++ .value v :: t

theorem Past.value (v : Value) (t : List Item) :
    Past (.value v :: t) t :=
  ⟨[], v, rfl⟩

theorem Past.cons (item : Item) {s t : List Item} (h : Past s t) :
    Past (item :: s) t := by
  obtain ⟨x, v, rfl⟩ := h
  exact ⟨item :: x, v, rfl⟩

theorem Past.trans {s t u : List Item} (h : Past s t) (k : Past t u) :
    Past s u := by
  obtain ⟨x, v, rfl⟩ := h
  obtain ⟨y, w, rfl⟩ := k
  exact ⟨x ++ .value v :: y, w, by simp⟩

theorem Past.markers_le {s t : List Item} (h : Past s t) :
    markers t ≤ markers s := by
  obtain ⟨x, v, rfl⟩ := h
  simp [markers]

theorem Past.length_lt {s t : List Item} (h : Past s t) :
    (t.filterMap value?).length < (s.filterMap value?).length := by
  obtain ⟨x, v, rfl⟩ := h
  simp only [List.filterMap_append, List.filterMap_cons, value?, List.length_append,
    List.length_cons]
  omega

theorem Past.subset {s t : List Item} (h : Past s t) :
    ∀ v ∈ t.filterMap value?, v ∈ s.filterMap value? := by
  obtain ⟨x, v, rfl⟩ := h
  intro u hu
  simp [List.filterMap_append, value?, hu]

/-- A value that has been read no longer counts. -/
theorem Past.weight_lt {s t : List Item} (h : Past s t) :
    weight t (markers t) < weight s (markers t) := by
  obtain ⟨x, v, rfl⟩ := h
  have hle := weight_le_append x (.value v :: t) (markers t)
  have hone : weight (.value v :: t) (markers t) = weight t (markers t) + 1 := by
    simp [weight]
  omega

/-- The second list is the first one with bodies of mixins put in front. -/
inductive Pushed (t : List Item) : List Item → Prop
  | refl : Pushed t t
  | push (vs : List Value) (mixin : String) {s : List Item} :
      Pushed t s → Pushed t (vs.map .value ++ .marker mixin :: s)

theorem Pushed.of_push {vs : List Value} {mixin : String} {t u : List Item}
    (h : Pushed (vs.map .value ++ .marker mixin :: t) u) :
    Pushed t u := by
  induction h with
  | refl => exact .push vs mixin .refl
  | push ws name _ ih => exact .push ws name ih

theorem Pushed.markers_le {t u : List Item} (h : Pushed t u) :
    markers t ≤ markers u := by
  induction h with
  | refl => exact Nat.le_refl _
  | push vs mixin _ ih =>
      simp only [markers_append, markers]
      omega

/-- The bodies stand before more markers than what they were put in front of. -/
theorem Pushed.weight_eq {t u : List Item} (h : Pushed t u) {i : Nat} (hi : i ≤ markers t) :
    weight u i = weight t i := by
  induction h with
  | refl => rfl
  | @push vs mixin s hs ih =>
      have hle := hs.markers_le
      have hlt : i < markers (.marker mixin :: s) := by
        simp only [markers]
        omega
      rw [weight_append_of_lt _ hlt, weight, ih]

/-! ## The rank -/

/-- The weights of an item list with at most `limit` markers, the fewest markers first. -/
def rank (limit : Nat) (items : List Item) : Lex (Fin (limit + 1) → Nat) :=
  toLex fun i => weight items i

theorem rank_lt_of_pushed {limit : Nat} {s t u : List Item} (h : Past s t) (hu : Pushed t u)
    (hlimit : markers t ≤ limit) :
    rank limit u < rank limit s := by
  refine ⟨⟨markers t, by omega⟩, ?_, ?_⟩
  · intro j hj
    have hj : (j : Nat) < markers t := hj
    have hfront : weight s j = weight t j := by
      obtain ⟨x, v, rfl⟩ := h
      rw [List.append_cons]
      exact weight_append_of_lt _ hj
    change weight u j = weight s j
    rw [hu.weight_eq (Nat.le_of_lt hj), hfront]
  · change weight u (markers t) < weight s (markers t)
    rw [hu.weight_eq (Nat.le_refl _)]
    exact h.weight_lt

theorem rank_lt_of_past {limit : Nat} {s t : List Item} (h : Past s t) (hlimit : markers t ≤ limit) :
    rank limit t < rank limit s :=
  rank_lt_of_pushed h .refl hlimit

theorem rank_nil_lt {limit : Nat} {s t : List Item} (h : Past s t) (hlimit : markers t ≤ limit) :
    rank limit [] < rank limit s := by
  apply Pi.toLex_strictMono
  refine Pi.lt_def.mpr ⟨?_, ⟨markers t, by omega⟩, ?_⟩
  · intro i
    exact Nat.zero_le _
  · have hlt := h.weight_lt
    change 0 < weight s (markers t)
    omega

end Item
end Cascade
