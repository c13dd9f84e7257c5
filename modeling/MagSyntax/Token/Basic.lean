import MagSyntax.Lexeme.Basic
import MagSyntax.Place

/-!
Tokens: lexemes with the place where they start.
-/

namespace MagSyntax

structure Token extends Lexeme where
  place : Place
deriving DecidableEq

namespace Token

def ofLexeme (lexeme : Lexeme) (place : Place) : Token := { toLexeme := lexeme, place }

/-- The token that closes a sequence of tokens which has no end of its own. -/
def endAt (place : Place) : Token := ⟨⟨.eof, "EOF", 10, []⟩, place⟩

/-- Tokens count as the same when kind, value, line and column agree. -/
def same (a b : Token) : Bool :=
  a.kind = b.kind && a.value = b.value && a.place.line = b.place.line &&
    a.place.column = b.place.column

def describe (t : Token) : Text := "Token(" ++ t.kind.name ++ ", " ++ t.value ++ ")"

end Token

end MagSyntax
