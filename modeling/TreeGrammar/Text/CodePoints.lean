/-!
This module contains sets of characters that are given by the code points at which they begin and
end.
-/

namespace TreeGrammar.Text

/--
Whether a character lies in one of the ranges with the given edges. The edges are in increasing
order: the first range runs from the first edge up to, and without, the second, and so on, so a code
point lies in a range exactly when an odd number of edges has been passed.
-/
def isBetween (c : Char) : List Nat → Bool
  | [] => false
  | edge :: edges => edge ≤ c.toNat && !isBetween c edges

end TreeGrammar.Text
