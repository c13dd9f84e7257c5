import MagSyntax.Text.Printable

/-!
Quoted texts, as messages show a piece of a source. The result is on one line and printable: quotes
stand around it, a backslash and the quote are escaped, and what cannot be printed is written by its
number.
-/

namespace MagSyntax.Text

def hexDigit (n : Nat) : CodePoint :=
  Char.ofNat (if n < 10 then 0x30 + n else 0x57 + n)

def hexDigits : Nat → Nat → Text
  | 0, _ => []
  | width + 1, n => hexDigits width (n / 16) ++ [hexDigit (n % 16)]

/-- The quote that a quoted text stands in: a single one, unless the text holds single quotes and no
double ones. -/
def quoteFor (t : Text) : CodePoint :=
  if ('\'' : CodePoint) ∈ t ∧ ('"' : CodePoint) ∉ t then '"' else '\''

def quotedPoint (quote c : CodePoint) : Text :=
  if c = '\\' || c = quote then ['\\', c]
  else if c = '\n' then "\\n"
  else if c = '\r' then "\\r"
  else if c = '\t' then "\\t"
  else if c.isPrintable then [c]
  else if c.val < 0x100 then "\\x" ++ hexDigits 2 c.val
  else if c.val < 0x10000 then "\\u" ++ hexDigits 4 c.val
  else "\\U" ++ hexDigits 8 c.val

def quoted (t : Text) : Text :=
  [quoteFor t] ++ t.flatMap (quotedPoint (quoteFor t)) ++ [quoteFor t]

end MagSyntax.Text
