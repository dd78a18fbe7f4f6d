import Cascade.Decimal

/-!
# Short numbers

The shortest plain form of a number: no zero before the point, no zeros that do
not count, no exponent.  A plus sign is kept, and a form that is longer than the
one given is not taken.
-/

namespace Cascade
namespace Output

/-- The text of a number without the zero before its point. -/
def dropLeadingZero : List Char → List Char
  | '0' :: '.' :: rest => '.' :: rest
  | '-' :: '0' :: '.' :: rest => '-' :: '.' :: rest
  | cs => cs

/-- The shorter of the given text and the plain form of its value. -/
def shortenNumber (text : String) : String :=
  match Decimal.parse text with
  | .error _ => text
  | .ok d =>
    let plain := dropLeadingZero d.render.toList
    let signed := if text.toList.head? = some '+' ∧ ¬ d.isZero then '+' :: plain else plain
    if text.length < signed.length then text else String.ofList signed

end Output
end Cascade
