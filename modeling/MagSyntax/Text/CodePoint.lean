/-!
Code points and texts. A text is a list of code points, so it can hold the lone surrogates that
escapes in string literals produce; a `String` cannot. String literals stand for their code points.
-/

namespace MagSyntax

/-- A Unicode code point; surrogates are code points too. -/
structure CodePoint where
  val : Nat
  valid : val < 0x110000
deriving DecidableEq

namespace CodePoint

def ofChar (c : Char) : CodePoint :=
  ⟨c.toNat, by
    have := c.valid
    simp only [UInt32.isValidChar, Nat.isValidChar] at this
    simp only [Char.toNat]
    omega⟩

instance : Coe Char CodePoint := ⟨ofChar⟩

def ofNat? (n : Nat) : Option CodePoint :=
  if h : n < 0x110000 then some ⟨n, h⟩ else none

def isSurrogate (c : CodePoint) : Bool :=
  0xD800 ≤ c.val && c.val ≤ 0xDFFF

def isCapital (c : CodePoint) : Bool := 0x41 ≤ c.val && c.val ≤ 0x5A

/-- The small letter of one of the letters from A to Z, and any other code point itself. -/
def small (c : CodePoint) : CodePoint :=
  if c.isCapital then (ofNat? (c.val + 0x20)).getD c else c

theorem ofChar_injective {c d : Char} (h : ofChar c = ofChar d) : c = d := by
  have h' : c.toNat = d.toNat := congrArg CodePoint.val h
  exact Char.ext (UInt32.toNat_inj.mp h')

end CodePoint

abbrev Text := List CodePoint

namespace Text

def ofString (s : String) : Text := s.toList.map CodePoint.ofChar

instance : Coe String Text := ⟨ofString⟩

def ofNat (n : Nat) : Text := (Nat.toDigits 10 n).map CodePoint.ofChar

def ofInt : Int → Text
  | .ofNat n => ofNat n
  | .negSucc n => "-" ++ ofNat (n + 1)

/-- The string with the same code points; a surrogate becomes the replacement character. -/
def asString (t : Text) : String :=
  String.ofList (t.map fun c => if c.isSurrogate then '\uFFFD' else Char.ofNat c.val)

end Text

end MagSyntax
