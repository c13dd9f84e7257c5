import MagSyntax.Text.Quoted

/-!
What can be wrong with the lexical form of a source, and how messages name it.
-/

namespace MagSyntax

inductive Fault
  | endOfSource
  | openComment
  /-- A radix mark, given by its lower-case letter, without digits behind it. -/
  | missingDigits (radix : CodePoint)
  /-- The numeral ends in an underscore or has two side by side. -/
  | misplacedSeparator (numeral : Text)
  | strayInNumeral (stray : CodePoint)
  | openString
  /-- A braced escape in a string that its line does not close. -/
  | openEscape
  | shortEscape
  | malformedEscape (digits : Text)
  | escapeTooLarge
  | openRegex
  /-- A letter behind a regular expression that is no flag or a repeated one. -/
  | badFlag (letter : CodePoint)
  | unexpected (point : CodePoint)
deriving DecidableEq

namespace Fault

def message : Fault → Text
  | .endOfSource => "Unexpected end of input"
  | .openComment => "Unterminated block comment"
  | .missingDigits radix => "Missing digits after '0" ++ [radix] ++ "'"
  | .misplacedSeparator numeral => "Invalid numeric separator in '" ++ numeral ++ "'"
  | .strayInNumeral stray => "Invalid character " ++ Text.quoted [stray] ++ " in numeric literal"
  | .openString => "Unterminated string"
  | .openEscape => "Unterminated unicode escape"
  | .shortEscape => "Malformed escape sequence"
  | .malformedEscape digits => "Malformed escape sequence '" ++ digits ++ "'"
  | .escapeTooLarge => "Unicode escape out of range"
  | .openRegex => "Unterminated regular expression"
  | .badFlag letter => "Invalid regular expression flag " ++ Text.quoted [letter]
  | .unexpected point => "Unexpected character " ++ Text.quoted [point]

end Fault

end MagSyntax
