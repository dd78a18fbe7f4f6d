/-!
# White space

Three notions of white space are in use.  `isBlank` is the property of the
character standard: it decides which characters do not count when outputs are
compared and what is trimmed from the ends of a text.  `isLayout` is white space
of ASCII, which separates the parts of a document.  `isAsciiBlank` is the
narrow one that indentation is made of.

**Results.** `isLayout_of_isAsciiBlank` and `isBlank_of_isLayout` say that each
notion is within the next wider one.
-/

namespace Cascade
namespace Text

/-- A character with the white-space property. -/
def isBlank (c : Char) : Bool :=
  let n := c.toNat
  (0x09 ≤ n && n ≤ 0x0D) || n == 0x20 || n == 0x85 || n == 0xA0 || n == 0x1680 ||
    (0x2000 ≤ n && n ≤ 0x200A) || n == 0x2028 || n == 0x2029 || n == 0x202F || n == 0x205F ||
    n == 0x3000

/-- A space, a tab, or a character that ends a line or a page. -/
def isAsciiBlank (c : Char) : Bool :=
  c == ' ' || c == '\t' || c == '\n' || c == '\x0c' || c == '\r'

/-- White space of ASCII. -/
def isLayout (c : Char) : Bool :=
  isAsciiBlank c || c == '\x0b'

/-- What indents a text is white space of ASCII. -/
theorem isLayout_of_isAsciiBlank {c : Char} (h : isAsciiBlank c = true) : isLayout c = true := by
  simp [isLayout, h]

/-- White space of ASCII is white space. -/
theorem isBlank_of_isLayout {c : Char} (h : isLayout c = true) : isBlank c = true := by
  simp only [isLayout, isAsciiBlank, Bool.or_eq_true, beq_iff_eq] at h
  rcases h with ((((rfl | rfl) | rfl) | rfl) | rfl) | rfl <;> decide

/-- The text without the characters of a class at its end. -/
def dropRightWhile (p : Char → Bool) (s : List Char) : List Char :=
  (s.reverse.dropWhile p).reverse

/-- The text without the characters of a class at its ends. -/
def trimWhile (p : Char → Bool) (s : List Char) : List Char :=
  dropRightWhile p (s.dropWhile p)

/-- The text without white space at its ends. -/
def trimBlanks (s : List Char) : List Char :=
  trimWhile isBlank s

/-- The text without white space at its ends. -/
def trim (s : String) : String :=
  String.ofList (trimBlanks s.toList)

/-- Nothing but white space. -/
def isAllBlank (s : List Char) : Bool :=
  s.all isBlank

/-- The text without any white space. -/
def withoutBlanks (s : String) : String :=
  String.ofList (s.toList.filter fun c => !isBlank c)

end Text
end Cascade
