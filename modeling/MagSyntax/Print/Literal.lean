import MagSyntax.Lexeme.Numeral
import MagSyntax.Print.Error
import MagSyntax.Text.Quoted

/-!
Literals as a source writes them.
-/

namespace MagSyntax.Print

def stringPoint (c : CodePoint) : Text :=
  if c = '\\' then "\\\\"
  else if c = '"' then "\\\""
  else if c = '\n' then "\\n"
  else if c = '\t' then "\\t"
  else if c = '\r' then "\\r"
  else if c = '\x08' then "\\b"
  else if c = '\x0c' then "\\f"
  else if c = '\x0b' then "\\v"
  else if c = '\x00' then "\\0"
  else if c.val < 0x20 || c.val = 0x7F then "\\x" ++ Text.hexDigits 2 c.val
  else [c]

def stringLiteral (value : Text) : Text := "\"" ++ value.flatMap stringPoint ++ "\""

/-- A numeral with the mark of its base. -/
def numeral (digits : Text) (base : Int) : Except PrintError Text :=
  if base = 10 then .ok digits
  else match Numeral.Radix.ofBase? base with
    | some radix => .ok (radix.mark ++ digits)
    | none => .error (.unsupportedBase base)

def regexLiteral (pattern flags : Text) : Text := "/" ++ pattern ++ "/" ++ flags

def booleanLiteral (value : Bool) : Text := if value then "true" else "false"

end MagSyntax.Print
