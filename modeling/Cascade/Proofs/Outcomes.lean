/-!
# Outcomes of steps

A step has a result or fails, and so does a chain of steps.

**Results.** `ok_of_bind` and `mapM_cons_ok`: a chain has a result only if each of its steps
has one.  `exists_of_mem_mapM` and `exists_of_mapM_error`: a result of a step that is taken for
each element of a list, and its failure, come from one of the elements.
-/

namespace Cascade
namespace Outcome

variable {ε α β : Type}

theorem ok_of_bind {x : Except ε α} {f : α → Except ε β} {b : β} (h : x >>= f = .ok b) :
    ∃ a, x = .ok a ∧ f a = .ok b := by
  cases x with
  | error e => cases h
  | ok a => exact ⟨a, rfl, h⟩

theorem ok_of_map {x : Except ε α} {g : α → β} {b : β} (h : x.map g = .ok b) :
    ∃ a, x = .ok a ∧ g a = b := by
  cases x with
  | error e => cases h
  | ok a => exact ⟨a, rfl, Except.ok.inj h⟩

variable {f : α → Except ε β} {x : α} {xs : List α} {ys : List β}

theorem mapM_cons_ok :
    (x :: xs).mapM f = .ok ys ↔
      ∃ y rest, ys = y :: rest ∧ f x = .ok y ∧ xs.mapM f = .ok rest := by
  rw [List.mapM_cons]
  constructor
  · intro h
    obtain ⟨y, hy, h⟩ := ok_of_bind h
    obtain ⟨rest, hrest, h⟩ := ok_of_bind h
    cases h
    exact ⟨y, rest, rfl, hy, hrest⟩
  · rintro ⟨y, rest, rfl, hy, hrest⟩
    rw [hy, hrest]
    rfl

/-- Each result is that of an element. -/
theorem exists_of_mem_mapM (h : xs.mapM f = .ok ys) {y : β} (hy : y ∈ ys) :
    ∃ x ∈ xs, f x = .ok y := by
  induction xs generalizing ys with
  | nil =>
      cases h
      cases hy
  | cons x xs ih =>
      obtain ⟨first, rest, rfl, hfirst, hrest⟩ := mapM_cons_ok.mp h
      rcases List.mem_cons.mp hy with rfl | hy
      · exact ⟨x, List.mem_cons_self, hfirst⟩
      · obtain ⟨x', hx', hfound⟩ := ih hrest hy
        exact ⟨x', List.mem_cons_of_mem x hx', hfound⟩

/-- Each element has its result. -/
theorem exists_of_mem (h : xs.mapM f = .ok ys) (hx : x ∈ xs) :
    ∃ y ∈ ys, f x = .ok y := by
  induction xs generalizing ys with
  | nil => cases hx
  | cons first xs ih =>
      obtain ⟨y, rest, rfl, hy, hrest⟩ := mapM_cons_ok.mp h
      rcases List.mem_cons.mp hx with rfl | hx
      · exact ⟨y, List.mem_cons_self, hy⟩
      · obtain ⟨y', hy', hfound⟩ := ih hrest hx
        exact ⟨y', List.mem_cons_of_mem y hy', hfound⟩

/-- A failure is that of an element. -/
theorem exists_of_mapM_error {e : ε} (h : xs.mapM f = .error e) :
    ∃ x ∈ xs, f x = .error e := by
  induction xs with
  | nil => cases h
  | cons x xs ih =>
      rw [List.mapM_cons] at h
      cases hfirst : f x with
      | error e' =>
          rw [hfirst] at h
          cases h
          exact ⟨x, List.mem_cons_self, hfirst⟩
      | ok y =>
          cases hrest : xs.mapM f with
          | error e' =>
              rw [hfirst, hrest] at h
              cases h
              exact (ih hrest).imp fun x' hx' => And.imp_left (List.mem_cons_of_mem x) hx'
          | ok rest =>
              rw [hfirst, hrest] at h
              cases h

end Outcome
end Cascade
