import MagSyntax.Text.Ranges

/-!
White space of Unicode 14, and blanks, which are white space and the four information separators. Lines
are trimmed of blanks and numbers of white space; what separates tokens is a much smaller class.
-/

namespace MagSyntax

namespace CodePoint

def spaceRanges : List (Nat × Nat) :=
  [(0x9, 0xD), (0x20, 0x20), (0x85, 0x85), (0xA0, 0xA0), (0x1680, 0x1680), (0x2000, 0x200A),
   (0x2028, 0x2029), (0x202F, 0x202F), (0x205F, 0x205F), (0x3000, 0x3000)]

def isSpace (c : CodePoint) : Bool := c.inRanges spaceRanges

/-- The code point is white space or an information separator. -/
def isBlank (c : CodePoint) : Bool := c.isSpace || (0x1C ≤ c.val && c.val ≤ 0x1F)

end CodePoint

namespace Text

def trimEnd (inClass : CodePoint → Bool) (t : Text) : Text :=
  (t.reverse.dropWhile inClass).reverse

def trimLeft (t : Text) : Text := t.dropWhile CodePoint.isBlank

def trim (t : Text) : Text := trimEnd CodePoint.isBlank (trimLeft t)

def trimSpace (t : Text) : Text := trimEnd CodePoint.isSpace (t.dropWhile CodePoint.isSpace)

end Text

end MagSyntax
