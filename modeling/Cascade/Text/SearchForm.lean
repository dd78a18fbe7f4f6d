import Cascade.Text.LowerCase

/-!
# The form in which names are searched

Names are compared in lower case.  A name is lowered through a window of 128 bytes
into a buffer that starts with as many.  As long as the windows are in lower case
already nothing is copied; from the first one that is not, the characters go to the
buffer.  A character for which the buffer has no room left is lost, and the buffer
grows when a window finds it full.  A window may cut a character in two, and each
of the bytes that remain of it then counts as a character that cannot be read.

**Results.** `lower_of_room`: a window for which there is room is lowered character by
character.
-/

namespace Cascade
namespace Text
namespace SearchForm

/-- The bytes of a window, and of the buffer at first. -/
def windowSize : Nat := 128

/-- The character that stands for bytes that cannot be read. -/
def unreadable : Char := '\uFFFD'

/-- The characters of a window from a place on. -/
def charsFrom (window : ByteArray) (i : Nat) : List Char :=
  if i < window.size then
    match window.utf8DecodeChar? i with
    | some c => c :: charsFrom window (i + c.utf8Size)
    | none => unreadable :: charsFrom window (i + 1)
  else
    []
termination_by window.size - i
decreasing_by
  · have := c.utf8Size_pos
    omega
  · omega

/-- What lowering a window leaves: the characters that fit, the bytes that were read for them and
for the first one that did not, and whether there was one. -/
structure Lowered where
  written : List Char
  read : Nat
  full : Bool
deriving Repr, DecidableEq

/-- The bytes that a character is taken to have in a name. -/
def bytesRead (c : Char) : Nat :=
  if c = unreadable then 1 else c.utf8Size

/-- Lowers characters into so many bytes. -/
def lower (room : Nat) : List Char → Lowered
  | [] => ⟨[], 0, false⟩
  | c :: cs =>
    let size := (lowerChar c).utf8Size
    if room < size then ⟨[], bytesRead c, true⟩
    else
      let rest := lower (room - size) cs
      ⟨lowerChar c :: rest.written, bytesRead c + rest.read, rest.full⟩

/-- The bytes of characters. -/
def bytesOf (cs : List Char) : List UInt8 :=
  cs.flatMap String.utf8EncodeChar

/-- The window of a name at a place. -/
def windowAt (name : ByteArray) (place : Nat) : ByteArray :=
  name.extract place (place + windowSize)

/-- The size of the buffer after it has grown. -/
def grown (size : Nat) : Nat :=
  if size ≤ 256 then 2 * size else size + size / 2

/-- The characters that go to the buffer from a place on; `used` of its bytes hold some already.
Every window takes a byte, so the fuel is the number of bytes. -/
def copyFrom (name : ByteArray) : Nat → Nat → Nat → Nat → List Char
  | 0, _, _, _ => []
  | fuel + 1, place, used, size =>
    if place < name.size then
      let l := lower (size - used) (charsFrom (windowAt name place) 0)
      let size := if l.full && l.written.isEmpty then grown size else size
      l.written ++ copyFrom name fuel (place + l.read) (used + (bytesOf l.written).length) size
    else
      []

/-- The characters of a name from a window on, as long as nothing had to be copied. -/
def formFrom (name : ByteArray) : Nat → Nat → List Char
  | 0, _ => []
  | fuel + 1, place =>
    if place < name.size then
      let window := windowAt name place
      let l := lower windowSize (charsFrom window 0)
      let used := place + (bytesOf l.written).length
      let size :=
        if place = 0 || used ≤ windowSize then windowSize else name.size + used - place - l.read
      l.written ++
        if !l.full && bytesOf l.written == (window.extract 0 l.read).toList then
          formFrom name fuel (place + l.read)
        else
          copyFrom name fuel (place + l.read) used size
    else
      []

/-- Characters for which there is room are all written. -/
theorem lower_of_room {room : Nat} {cs : List Char}
    (h : (bytesOf (cs.map lowerChar)).length ≤ room) :
    (lower room cs).written = cs.map lowerChar := by
  induction cs generalizing room with
  | nil => rfl
  | cons c cs ih =>
    rw [List.map_cons, bytesOf, List.flatMap_cons, List.length_append,
      String.length_utf8EncodeChar] at h
    have hc : ¬ room < (lowerChar c).utf8Size := by omega
    have hr := @ih (room - (lowerChar c).utf8Size) (by rw [bytesOf]; omega)
    rw [lower, if_neg hc, List.map_cons, ← hr]

end SearchForm

/-- The form in which a name is searched. -/
def searchForm (name : String) : List Char :=
  let bytes := name.toUTF8
  SearchForm.formFrom bytes bytes.size 0

end Text
end Cascade
