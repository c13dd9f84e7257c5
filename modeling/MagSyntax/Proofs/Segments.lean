import MagSyntax.Grammar.Run

/-! Two stretches of the grammar under names of their own, so that a pass over the rules says of each of them once what
it comes to: what is declared behind the words of a declaration, and the branches of an `if` with a value. -/

namespace MagSyntax.Grammar

open Parse

/-- What is declared, behind the words that open the declaration. -/
def declarationRest (self : Rule → Parse Node) (loc : Loc) (constant mutable : Bool) : Parse Node := do
  let left ← self .bindingPattern
  let type ← if ← skip Symbol.colon then some <$> self .operand else pure none
  let right ← if ← skip Symbol.assign then some <$> self .expression else pure none
  terminate
  return .declaration loc left type right constant mutable

/-- The branches of an `if` with a value, when they are expressions, behind its condition. -/
def conditionalRest (self : Rule → Parse Node) (loc : Loc) (test : Node) (explicitThen : Bool) : Parse Node := do
  let consequent ← self .expression
  requireElse
  return .conditional loc test consequent (← self .expression) explicitThen

variable (self : Rule → Parse Node) (loc : Loc)

theorem declaration_eq : declaration self = (do
    let word ← expectKind [Keyword.letWord, Keyword.constWord]
    let constant : Bool := word.kind = Keyword.constWord
    let mutable ← sees Keyword.mutWord
    if mutable then
      if constant then complain .mutableConstant
      discard advance
    declarationRest self (locOf word) constant mutable) :=
  rfl

theorem conditionalByParentheses_eq : conditionalByParentheses self loc = (do
    let test ← condition self
    conditionalRest self loc test false) :=
  rfl

theorem conditionalByThen_eq : conditionalByThen self loc = (do
    let test ← self .operand
    expect Keyword.thenWord .thenAfterCondition
    conditionalRest self loc test true) :=
  rfl

end MagSyntax.Grammar
