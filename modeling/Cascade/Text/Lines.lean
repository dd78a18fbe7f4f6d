import Cascade.Text.Blank

/-!
# Lines

A text cut at a separator, and put together again.  `splitAt` keeps empty parts,
so a text that ends with the separator has an empty last part.

**Results.** `joinWith_splitAt`: joining the parts with the separator gives the
text back.  `splitAt_append_sep` and `not_mem_of_mem_splitAt`: the parts are those between
the separators.  `splitAt_joinWith`: parts without the separator are found again.
-/

namespace Cascade
namespace Text

/-- Puts a character in front of the first part, or starts a new one. -/
def splitStep (sep c : Char) (parts : List (List Char)) : List (List Char) :=
  if c = sep then
    [] :: parts
  else
    match parts with
    | [] => [[c]]
    | part :: rest => (c :: part) :: rest

/-- The parts of a text between separators. -/
def splitAt (sep : Char) (s : List Char) : List (List Char) :=
  s.foldr (splitStep sep) [[]]

/-- The parts with a separator between any two. -/
def joinWith (sep : Char) : List (List Char) → List Char
  | [] => []
  | [part] => part
  | part :: next :: rest => part ++ sep :: joinWith sep (next :: rest)

theorem splitAt_ne_nil (sep : Char) (s : List Char) : splitAt sep s ≠ [] := by
  cases s with
  | nil => simp [splitAt]
  | cons c cs =>
    simp only [splitAt, List.foldr_cons, splitStep]
    split
    · simp
    · split <;> simp

/-- A text is its parts with the separators between them. -/
theorem joinWith_splitAt (sep : Char) (s : List Char) : joinWith sep (splitAt sep s) = s := by
  induction s with
  | nil => rfl
  | cons c cs ih =>
    have hne := splitAt_ne_nil sep cs
    simp only [splitAt, List.foldr_cons] at ih hne ⊢
    cases hp : List.foldr (splitStep sep) [[]] cs with
    | nil => exact absurd hp hne
    | cons part rest =>
      rw [hp] at ih
      by_cases hc : c = sep
      · simp [splitStep, hc, joinWith, ih]
      · cases rest with
        | nil => simpa [splitStep, hc, joinWith] using ih
        | cons next more => simpa [splitStep, hc, joinWith] using ih

@[simp] theorem splitAt_sep (sep : Char) (s : List Char) :
    splitAt sep (sep :: s) = [] :: splitAt sep s := by
  simp [splitAt, splitStep]

/-- Any other character belongs to the first part. -/
theorem exists_splitAt_cons {sep c : Char} (h : c ≠ sep) (s : List Char) :
    ∃ part rest, splitAt sep s = part :: rest ∧ splitAt sep (c :: s) = (c :: part) :: rest := by
  obtain ⟨part, rest, hparts⟩ := List.exists_cons_of_ne_nil (splitAt_ne_nil sep s)
  refine ⟨part, rest, hparts, ?_⟩
  rw [splitAt] at hparts
  simp [splitAt, splitStep, h, hparts]

/-- A text without the separator is its only part. -/
theorem splitAt_of_not_mem {sep : Char} {s : List Char} (h : sep ∉ s) :
    splitAt sep s = [s] := by
  induction s with
  | nil => rfl
  | cons c cs ih =>
    obtain ⟨hc, hcs⟩ := not_or.mp (mt List.mem_cons.mpr h)
    obtain ⟨part, rest, hparts, hcons⟩ := exists_splitAt_cons (Ne.symm hc) cs
    rw [ih hcs] at hparts
    cases hparts
    exact hcons

/-- A text is cut at a separator into the parts of what stands on its sides. -/
theorem splitAt_append_sep (sep : Char) (s t : List Char) :
    splitAt sep (s ++ sep :: t) = splitAt sep s ++ splitAt sep t := by
  induction s with
  | nil => exact splitAt_sep sep t
  | cons c cs ih =>
    by_cases hc : c = sep
    · subst hc
      rw [List.cons_append, splitAt_sep, splitAt_sep, ih, List.cons_append]
    · obtain ⟨part, rest, hparts, hcons⟩ := exists_splitAt_cons hc cs
      obtain ⟨part', rest', hparts', hcons'⟩ := exists_splitAt_cons hc (cs ++ sep :: t)
      rw [ih, hparts, List.cons_append] at hparts'
      cases hparts'
      rw [List.cons_append, hcons', hcons, List.cons_append]

/-- The first part ends at the first separator. -/
theorem splitAt_append {sep : Char} {part : List Char} (h : sep ∉ part) (s : List Char) :
    splitAt sep (part ++ sep :: s) = part :: splitAt sep s := by
  rw [splitAt_append_sep, splitAt_of_not_mem h, List.singleton_append]

/-- What follows without a separator belongs to the last part. -/
theorem exists_splitAt_last (sep : Char) (s : List Char) :
    ∃ front last, splitAt sep s = front ++ [last] ∧
      ∀ t, sep ∉ t → splitAt sep (s ++ t) = front ++ [last ++ t] := by
  induction s with
  | nil => exact ⟨[], [], rfl, fun t ht => splitAt_of_not_mem ht⟩
  | cons c cs ih =>
    obtain ⟨front, last, hlast, hmore⟩ := ih
    by_cases hc : c = sep
    · subst hc
      refine ⟨[] :: front, last, ?_, fun t ht => ?_⟩
      · rw [splitAt_sep, hlast, List.cons_append]
      · rw [List.cons_append, splitAt_sep, hmore t ht, List.cons_append]
    · have hstep : ∀ t, splitAt sep (c :: t) = splitStep sep c (splitAt sep t) := fun t => rfl
      cases front with
      | nil =>
        refine ⟨[], c :: last, ?_, fun t ht => ?_⟩
        · simp [hstep, hlast, splitStep, hc]
        · simp [hstep, hmore t ht, splitStep, hc]
      | cons first front =>
        refine ⟨(c :: first) :: front, last, ?_, fun t ht => ?_⟩
        · simp [hstep, hlast, splitStep, hc]
        · simp [hstep, hmore t ht, splitStep, hc]

/-- No part has a separator. -/
theorem not_mem_of_mem_splitAt {sep : Char} {s part : List Char} (h : part ∈ splitAt sep s) :
    sep ∉ part := by
  induction s generalizing part with
  | nil =>
    cases List.mem_singleton.mp h
    exact List.not_mem_nil
  | cons c cs ih =>
    by_cases hc : c = sep
    · subst hc
      rw [splitAt_sep] at h
      rcases List.mem_cons.mp h with rfl | h
      · exact List.not_mem_nil
      · exact ih h
    · obtain ⟨first, rest, hparts, hcons⟩ := exists_splitAt_cons hc cs
      have hfirst := ih (hparts ▸ List.mem_cons_self)
      rw [hcons] at h
      rcases List.mem_cons.mp h with rfl | h
      · exact fun hmem => (List.mem_cons.mp hmem).elim (fun hsep => hc hsep.symm) hfirst
      · exact ih (hparts ▸ List.mem_cons_of_mem _ h)

theorem joinWith_cons (sep : Char) (part : List Char) {parts : List (List Char)}
    (h : parts ≠ []) : joinWith sep (part :: parts) = part ++ sep :: joinWith sep parts := by
  cases parts with
  | nil => exact absurd rfl h
  | cons next rest => rfl

theorem joinWith_eq_intercalate (sep : Char) (parts : List (List Char)) :
    joinWith sep parts = [sep].intercalate parts := by
  induction parts with
  | nil => rfl
  | cons part parts ih =>
    cases parts with
    | nil => simp [joinWith, List.intercalate_singleton]
    | cons next rest => simp [joinWith_cons, List.intercalate_cons_cons, ih]

/-- Cutting parts without the separator joined together gives the parts back. -/
theorem splitAt_joinWith {sep : Char} {parts : List (List Char)} (hne : parts ≠ [])
    (h : ∀ part ∈ parts, sep ∉ part) : splitAt sep (joinWith sep parts) = parts := by
  induction parts with
  | nil => exact absurd rfl hne
  | cons part parts ih =>
    obtain ⟨hpart, hparts⟩ := List.forall_mem_cons.mp h
    by_cases hnil : parts = []
    · subst hnil
      exact splitAt_of_not_mem hpart
    · rw [joinWith_cons sep part hnil, splitAt_append hpart, ih hnil hparts]

/-- Each part in front is followed by a separator. -/
theorem joinWith_append (sep : Char) (front : List (List Char)) {parts : List (List Char)}
    (h : parts ≠ []) :
    joinWith sep (front ++ parts) = (front.flatMap fun part => part ++ [sep]) ++ joinWith sep parts := by
  induction front with
  | nil => rfl
  | cons part front ih =>
    rw [List.cons_append, joinWith_cons sep part (List.append_ne_nil_of_right_ne_nil front h), ih]
    simp

/-- The text behind a given beginning, if it has that beginning. -/
def afterLead? : List Char → List Char → Option (List Char)
  | [], s => some s
  | _ :: _, [] => none
  | p :: ps, c :: cs => if p = c then afterLead? ps cs else none

/-- The text without a given beginning. -/
def dropLead (lead s : List Char) : List Char :=
  (afterLead? lead s).getD s

/-- The text with a given beginning taken off is what stood behind it. -/
theorem afterLead?_append (lead s : List Char) : afterLead? lead (lead ++ s) = some s := by
  induction lead with
  | nil => rfl
  | cons p ps ih => simp [afterLead?, ih]

/-- The text without a given ending. -/
def dropEnding (ending s : List Char) : List Char :=
  (dropLead ending.reverse s.reverse).reverse

/-- The text has a given ending. -/
def hasEnding (ending s : List Char) : Bool :=
  (afterLead? ending.reverse s.reverse).isSome

/-- The text has a given part somewhere. -/
def hasPart (part : List Char) : List Char → Bool
  | [] => part.isEmpty
  | c :: cs => (afterLead? part (c :: cs)).isSome || hasPart part cs

/-- The text in front of the first place with a given part, and the text behind that part. -/
def cutAtPart? (part : List Char) : List Char → Option (List Char × List Char)
  | [] => if part.isEmpty then some ([], []) else none
  | c :: cs =>
    match afterLead? part (c :: cs) with
    | some rest => some ([], rest)
    | none => (cutAtPart? part cs).map fun r => (c :: r.1, r.2)

/-- The text without line ends at its end. -/
def dropLineEnds (s : List Char) : List Char :=
  dropRightWhile (· == '\n') s

end Text
end Cascade
