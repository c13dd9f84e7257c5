import MagSyntax.Token.Kind

/-!
What decides whether a slash starts a regular expression. Behind a value a slash divides. A closing
parenthesis ends a value too, unless it closes the condition of an `if`: what follows that one starts
a branch. So the parentheses that are open are kept, each with whether it opens a condition.
-/

namespace MagSyntax

structure SlashContext where
  previous : Option TokenKind
  /-- One entry for each open parenthesis, the innermost first: it opens the condition of an `if`. -/
  groups : List Bool
  /-- The previous token is an `if` whose condition a parenthesis may open. -/
  opensCondition : Bool
  /-- The previous token closed the condition of an `if`. -/
  afterCondition : Bool
deriving DecidableEq

namespace SlashContext

def start : SlashContext := ⟨none, [], false, false⟩

def valueEnds : List TokenKind :=
  [.ident, .number, .string, .regex, Keyword.trueWord, Keyword.falseWord, Symbol.rparen,
   Symbol.rbrack]

def regexAllowed (c : SlashContext) : Bool :=
  c.afterCondition || c.previous.all (· ∉ valueEnds)

def groupsAfter (c : SlashContext) (kind : TokenKind) : List Bool :=
  if kind = Symbol.lparen then c.opensCondition :: c.groups
  else if kind = Symbol.rparen then c.groups.tail
  else c.groups

/-- The context behind one more token. An `if` behind a point is the name of a field. -/
def after (c : SlashContext) (kind : TokenKind) : SlashContext where
  previous := kind
  groups := c.groupsAfter kind
  opensCondition := kind = Keyword.ifWord && c.previous ≠ some (Symbol.dot : TokenKind)
  afterCondition := kind = Symbol.rparen && c.groups.head? = some true

end SlashContext

end MagSyntax
