import MagSyntax.Token.Basic

/-!
The tokens that a grammar reads: any tokens and, behind them, the end of the input. Asking for a token
behind the end gives the end.
-/

namespace MagSyntax

structure Input where
  before : Array Token
  last : Token

namespace Input

/-- The tokens, closed by an end of the input if they have none; that end stands one code point behind
the place of the last token. -/
def ofTokens (tokens : List Token) : Input :=
  match tokens.getLast? with
  | none => ⟨#[], .endAt ⟨0, 1, 1⟩⟩
  | some last =>
    if last.kind = .eof then ⟨tokens.dropLast.toArray, last⟩
    else ⟨tokens.toArray, .endAt { last.place with position := last.place.position + 1 }⟩

def toList (input : Input) : List Token := input.before.toList ++ [input.last]

def get (input : Input) (index : Nat) : Token := input.before.getD index input.last

end Input

end MagSyntax
