import MagSyntax.Lexeme.Regex
import MagSyntax.Lexeme.StringLiteral

/-!
The lexeme at the front of a text. Its first code point decides the class; only a slash needs to know
what came before, because it starts a regular expression where an operand may stand and is the
sign of division elsewhere.
-/

namespace MagSyntax.Lexeme

/-- The name or keyword that a word is. -/
def ofWord (word : Text) : Lexeme :=
  match Keyword.ofSpelling? word with
  | some keyword => ⟨keyword, word, 10, []⟩
  | none => ⟨.ident, word, 10, []⟩

def ofSymbol (symbol : Symbol) : Lexeme := ⟨symbol, symbol.spelling, 10, []⟩

def endOfInput : Lexeme := ⟨.eof, "EOF", 10, []⟩

/-- Reads the longest run of name characters. -/
def readWord (ahead : Text) : Reading Lexeme :=
  let word := ahead.takeWhile CodePoint.continuesName
  .found word.length (ofWord word)

def read (regexAllowed : Bool) (ahead : Text) : Reading Lexeme :=
  match ahead with
  | [] => .found 0 endOfInput
  | c :: _ =>
    if c.startsName then readWord ahead
    else if c.isDigit then Numeral.read ahead
    else if c = '"' || c = '\'' then StringLiteral.read ahead
    else if c = '/' && regexAllowed then Regex.read ahead
    else match Symbol.longest? ahead with
      | some symbol => .found symbol.spelling.length (ofSymbol symbol)
      | none => .failed 0 (.unexpected c)

end MagSyntax.Lexeme
