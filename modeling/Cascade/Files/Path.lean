import Cascade.Text.Lines

/-!
# Paths

Slash-separated paths as texts.  `clean` gives the shortest path that names the
same place by its letters alone; the other operations take a path apart at its
last slash and its last point.

**Results.** The elements of a clean path are plain elements of the path or steps up
(`forall_normalize`); they are neither empty nor single points (`isPlain_normalize`).
-/

namespace Cascade
namespace Path

/-- The elements of a path between its slashes. -/
def elements (path : List Char) : List (List Char) :=
  Text.splitAt '/' path

/-- The path starts at the root. -/
def isRooted (path : List Char) : Bool :=
  path.head? == some '/'

/-- The element that names the directory around. -/
def up : List Char := ['.', '.']

/-- An element that names something. -/
def isPlain (e : List Char) : Bool :=
  !(e == [] || e == ['.'])

/-- The name of an entry of a directory. -/
structure IsName (e : List Char) : Prop where
  plain : isPlain e = true
  ne_up : e ≠ up
  slash_free : '/' ∉ e

instance (e : List Char) : Decidable (IsName e) :=
  decidable_of_iff (isPlain e = true ∧ e ≠ up ∧ '/' ∉ e)
    ⟨fun ⟨plain, ne_up, slash_free⟩ => ⟨plain, ne_up, slash_free⟩,
      fun h => ⟨h.plain, h.ne_up, h.slash_free⟩⟩

/-- Takes one more element on a stack of elements.  What goes up takes the last name off; above
the root there is nothing, and elsewhere the step is kept. -/
def push (rooted : Bool) (stack : List (List Char)) (e : List Char) : List (List Char) :=
  if !isPlain e then stack
  else if e = up then
    match stack with
    | [] => if rooted then [] else [up]
    | top :: rest => if top = up then up :: stack else rest
  else e :: stack

/-- The elements of the shortest path for the same place. -/
def normalize (rooted : Bool) (es : List (List Char)) : List (List Char) :=
  (es.foldl (push rooted) []).reverse

/-- The text of a list of elements. -/
def render (rooted : Bool) (es : List (List Char)) : List Char :=
  if rooted then '/' :: Text.joinWith '/' es
  else if es.isEmpty then ['.']
  else Text.joinWith '/' es

/-- The shortest path for the same place. -/
def clean (path : List Char) : List Char :=
  render (isRooted path) (normalize (isRooted path) (elements path))

section
variable {P : List Char → Prop} (hup : P up)
include hup

/-- What holds of a step up and of the plain element that is pushed stays true of the stack. -/
theorem forall_push {rooted : Bool} {stack : List (List Char)} {e : List Char}
    (he : isPlain e = true → P e) (h : ∀ x ∈ stack, P x) : ∀ x ∈ push rooted stack e, P x := by
  unfold push
  split
  · exact h
  · rename_i hplain
    split
    · cases stack with
      | nil => by_cases hr : rooted = true <;> simp [hr, hup]
      | cons top rest =>
        by_cases ht : top = up
        · simpa [ht, hup] using h
        · simpa [ht] using fun x hx => h x (List.mem_cons_of_mem _ hx)
    · exact List.forall_mem_cons.mpr ⟨he (by simpa using hplain), h⟩

/-- What holds of a step up and of the plain elements of a path holds of its shortest form. -/
theorem forall_normalize (rooted : Bool) {es : List (List Char)}
    (h : ∀ e ∈ es, isPlain e = true → P e) : ∀ x ∈ normalize rooted es, P x := by
  have hrun : ∀ (stack : List (List Char)), (∀ x ∈ stack, P x) →
      ∀ x ∈ es.foldl (push rooted) stack, P x := by
    induction es with
    | nil => exact fun stack hstack => hstack
    | cons e es ih =>
      obtain ⟨he, hes⟩ := List.forall_mem_cons.mp h
      exact fun stack hstack => ih hes _ (forall_push hup he hstack)
  intro x hx
  exact hrun [] (List.forall_mem_nil _) x (List.mem_reverse.mp hx)

end

/-- The elements of a clean path all name something. -/
theorem isPlain_normalize (rooted : Bool) (es : List (List Char)) :
    ∀ x ∈ normalize rooted es, isPlain x = true :=
  forall_normalize (by decide) rooted fun _ _ h => h

/-- One path under another, in its shortest form; empty paths do not count. -/
def join (paths : List (List Char)) : List Char :=
  match paths.filter fun p => !p.isEmpty with
  | [] => []
  | ps => clean (Text.joinWith '/' ps)

/-- The directory part of a path, in its shortest form. -/
def parent (path : List Char) : List Char :=
  clean (path.take (path.length - (path.reverse.takeWhile (· != '/')).length))

/-- The last element of a path. -/
def base (path : List Char) : List Char :=
  if path.isEmpty then ['.']
  else
    match Text.dropRightWhile (· == '/') path with
    | [] => ['/']
    | p => (p.reverse.takeWhile (· != '/')).reverse

/-- The extension of a path: its last element from the last point on, if it has one. -/
def extension (path : List Char) : List Char :=
  let last := (path.reverse.takeWhile (· != '/')).reverse
  if last.contains '.' then '.' :: (last.reverse.takeWhile (· != '.')).reverse else []

/-- The path without its extension. -/
def withoutExtension (path : List Char) : List Char :=
  path.take (path.length - (extension path).length)

end Path
end Cascade
