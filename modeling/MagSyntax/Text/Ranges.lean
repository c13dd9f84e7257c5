import MagSyntax.Text.CodePoint

/-!
Classes of code points given by a table of ranges, both ends included.
-/

namespace MagSyntax

def CodePoint.inRanges (c : CodePoint) (ranges : List (Nat × Nat)) : Bool :=
  ranges.any fun (first, last) => first ≤ c.val && c.val ≤ last

end MagSyntax
