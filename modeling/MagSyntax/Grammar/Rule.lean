/-!
The rules of the grammar, by name. Expressions are layered from the loosest operators to the tightest.
-/

namespace MagSyntax

inductive Rule
  | program
  | statement
  | expressionStatement
  | block
  | conditionalStatement
  | declaration
  | bindingPattern
  | expression
  | operand
  | comparison
  | additive
  | multiplicative
  | exponent
  | unary
  | postfixChain
  | primary
  | conditional
deriving DecidableEq

namespace Rule

def all : List Rule :=
  [.program, .statement, .expressionStatement, .block, .conditionalStatement, .declaration,
   .bindingPattern, .expression, .operand, .comparison, .additive, .multiplicative, .exponent, .unary,
   .postfixChain, .primary, .conditional]

/-- The rules whose outcome at a token is remembered: those that alternatives try again. -/
def isRemembered : Rule → Bool
  | .statement | .block | .expression | .operand => true
  | _ => false

/-- The rules that count as a level of nesting. -/
def isNested : Rule → Bool
  | .statement | .expression | .bindingPattern => true
  | _ => false

/-- What an open rule takes from the budget beyond one: one for each of its guards, one for a loop in it,
and two for its alternatives. A list between brackets takes nothing; no more of them can be open than rules
can be nested. -/
def surcharge : Rule → Nat
  | .statement | .expression | .bindingPattern | .conditional | .conditionalStatement => 2
  | .block | .operand | .additive | .multiplicative => 1
  | _ => 0

def index : Rule → Nat
  | .program => 0
  | .statement => 1
  | .expressionStatement => 2
  | .block => 3
  | .conditionalStatement => 4
  | .declaration => 5
  | .bindingPattern => 6
  | .expression => 7
  | .operand => 8
  | .comparison => 9
  | .additive => 10
  | .multiplicative => 11
  | .exponent => 12
  | .unary => 13
  | .postfixChain => 14
  | .primary => 15
  | .conditional => 16

theorem index_injective {r s : Rule} (h : r.index = s.index) : r = s := by
  cases r <;> cases s <;> first | rfl | cases h

end Rule

end MagSyntax
