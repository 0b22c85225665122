/-!
# Classes of characters

A class of characters is given by the code points at which it begins and ends, in turn and in order. A
code point belongs to it if an odd number of these bounds lie at or below it.
-/
namespace MeasuredBoot.Text

/-- True of a code point in the class with the given bounds. -/
def isWithin (bounds : List Nat) (n : Nat) : Bool :=
  bounds.foldl (fun inside bound => if bound ≤ n then !inside else inside) false

end MeasuredBoot.Text
