import MagSyntax.Lexeme.Basic
import MagSyntax.Text.NamePart

/-!
Numerals. A decimal numeral is a group of digits, a fraction and an exponent, the last two of which may
be missing; a numeral with a radix mark is one group of digits of its base. Underscores may stand in
a group; what is asked of them is checked once over the whole numeral: it does not end in one, and
no two stand side by side. No numeral runs into a code point that can continue a name.
-/

namespace MagSyntax.Numeral

def decimalDigits : Text := "0123456789"

def hexDigits : Text := "0123456789abcdefABCDEF"

structure Radix where
  letter : CodePoint
  base : Nat
  digits : Text
deriving DecidableEq

namespace Radix

def hexadecimal : Radix := ⟨'x', 16, hexDigits⟩

def octal : Radix := ⟨'o', 8, "01234567"⟩

def binary : Radix := ⟨'b', 2, "01"⟩

def all : List Radix := [hexadecimal, octal, binary]

def ofLetter? (c : CodePoint) : Option Radix :=
  all.find? fun r => c.small = r.letter

def ofBase? (base : Int) : Option Radix := all.find? fun r => (r.base : Int) = base

def mark (r : Radix) : Text := ['0', r.letter]

end Radix

def digitRun (digits : Text) (ahead : Text) : Text :=
  ahead.takeWhile fun c => c ∈ digits || c = '_'

/-- A digit of any script opens a fraction or an exponent. -/
def startsWithDigit (ahead : Text) : Bool := ahead.head?.any CodePoint.isDigit

/-- The fraction at the front of a text: a point and decimal digits. -/
def fraction : Text → Text
  | [] => []
  | c :: rest =>
    if c = '.' && startsWithDigit rest then c :: digitRun decimalDigits rest else []

def sign : Text → Text
  | [] => []
  | c :: _ => if c = '+' || c = '-' then [c] else []

/-- The exponent at the front of a text: its letter, a sign that may be missing, and decimal digits. -/
def exponent : Text → Text
  | [] => []
  | c :: rest =>
    let s := sign rest
    let digits := rest.drop s.length
    if (c = 'e' || c = 'E') && startsWithDigit digits then
      c :: s ++ digitRun decimalDigits digits
    else []

def decimal (ahead : Text) : Text :=
  let whole := digitRun decimalDigits ahead
  let part := fraction (ahead.drop whole.length)
  let scale := exponent (ahead.drop (whole.length + part.length))
  whole ++ part ++ scale

def hasDoubleSeparator : Text → Bool
  | [] => false
  | c :: rest => (c = '_' && rest.head? = some '_') || hasDoubleSeparator rest

/-- The numeral ends in an underscore or has two side by side. -/
def separatorsMisplaced (numeral : Text) : Bool :=
  numeral.getLast? = some '_' || hasDoubleSeparator numeral

/-- The numeral just read, unless its underscores or what follows it are at fault. -/
def checked (taken : Nat) (base : Nat) (value : Text) (rest : Text) : Reading Lexeme :=
  if separatorsMisplaced value then .failed taken (.misplacedSeparator value)
  else match rest.head? with
    | none => .found taken ⟨.number, value, base, []⟩
    | some c =>
      if c.continuesName then .failed taken (.strayInNumeral c)
      else .found taken ⟨.number, value, base, []⟩

def radix? : Text → Option Radix
  | zero :: letter :: _ => if zero = '0' then Radix.ofLetter? letter else none
  | _ => none

def read (ahead : Text) : Reading Lexeme :=
  match radix? ahead with
  | some radix =>
    let digits := digitRun radix.digits (ahead.drop 2)
    let taken := 2 + digits.length
    if digits.all (· = '_') then .failed taken (.missingDigits radix.letter)
    else checked taken radix.base digits (ahead.drop taken)
  | none =>
    let value := decimal ahead
    checked value.length 10 value (ahead.drop value.length)

end MagSyntax.Numeral
