import MagSyntax.Node.Basic
import MagSyntax.Print.Error
import MagSyntax.Token.Kind

/-!
How tightly expressions bind and where they are open to what stands beside them. From this follows where
parentheses are needed: around an operand that binds looser than its place allows, and around one
that would swallow what follows it.
-/

namespace MagSyntax

/-- How tightly an expression binds, from 1 for an assignment to 8 for a primary. -/
abbrev Level := Nat

namespace Level

def assignment : Level := 1

def comparison : Level := 2

def additive : Level := 3

def multiplicative : Level := 4

def exponent : Level := 5

def unary : Level := 6

def postfixChain : Level := 7

def primary : Level := 8

def operators : List (Symbol × Level) :=
  [(.eq, comparison), (.ne, comparison), (.strictEq, comparison), (.strictNe, comparison),
   (.lt, comparison), (.le, comparison), (.gt, comparison), (.ge, comparison), (.plus, additive),
   (.sub, additive), (.mult, multiplicative), (.div, multiplicative), (.mod, multiplicative),
   (.pow, exponent)]

def ofOperator (operator : Text) : Except PrintError Level :=
  match operators.find? (·.1.spelling = operator) with
  | some (_, level) => .ok level
  | none => .error (.unknownOperator operator)

/-- The least level of each operand of a binary operator that needs no parentheses. Comparisons take
neither operand of their own level, powers take one on the right, and the others on the left. -/
def operands (operator : Text) : Except PrintError (Level × Level) := do
  let level ← ofOperator operator
  if level = comparison then return (additive, additive)
  else if level = exponent then return (unary, exponent)
  else return (level, level + 1)

end Level

namespace Node

def level : Node → Except PrintError Level
  | .assignment .. => .ok .assignment
  | .binary _ operator _ _ => Level.ofOperator operator
  | .unary .. => .ok .unary
  | .field .. | .index .. | .call .. => .ok .postfixChain
  | _ => .ok .primary

def isBlock : Node → Bool
  | .block .. => true
  | _ => false

def isParenthesized : Node → Bool
  | .parenthesized .. => true
  | _ => false

def isAssignment : Node → Bool
  | .assignment .. => true
  | _ => false

/-- The expression ends in a branch that would swallow an operator behind it. -/
def endsOpen : Node → Bool
  | .conditional _ _ consequent alternate _ =>
    !consequent.isBlock || (!alternate.isBlock && alternate.endsOpen)
  | .assignment _ _ right _ => right.endsOpen
  | .binary _ _ _ right => right.endsOpen
  | .unary _ _ argument _ => argument.endsOpen
  | _ => false

def startsWithIf : Node → Bool
  | .conditional .. => true
  | .binary _ _ left _ => left.startsWithIf
  | .assignment _ left _ _ => left.startsWithIf
  | .field _ object _ => object.startsWithIf
  | .index _ object _ => object.startsWithIf
  | .call _ callee _ => callee.startsWithIf
  | _ => false

/-- The expression starts with a group in parentheses and a sign of division behind it. Right behind an
`if` the group would be the whole condition, and the sign would start a regular expression. -/
def dividesLeadingGroup : Node → Except PrintError Bool
  | .binary _ operator left _ => do
    let (least, _) ← Level.operands operator
    let grouped := (← left.level) < least
    if left.isParenthesized || grouped || left.endsOpen then
      return operator = Symbol.div.spelling
    else left.dividesLeadingGroup
  | _ => return false

/-- An `else` behind the statement would belong to an `if` inside it. -/
def dangles : Node → Bool
  | .conditionalStatement _ _ _ none => true
  | .conditionalStatement _ _ _ (some alternate) => alternate.dangles
  | _ => false

end Node

end MagSyntax
