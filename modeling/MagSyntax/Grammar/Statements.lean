import MagSyntax.Grammar.Expressions

/-!
The rules of statements. The first token decides the rule. An assignment is no statement, nor is an `if`
with a value: both need parentheses around them.
-/

namespace MagSyntax.Grammar

open Parse

def program (self : Rule → Parse Node) : Parse Node := do
  let first ← current
  return .program (locOf first) (← statementsToEnd (self .statement) (← rounds) [])

/-- A statement, by its first token. -/
def statement (self : Rule → Parse Node) : Parse Node := do
  match (← current).kind with
  | .keyword .ifWord => self .conditionalStatement
  | .keyword .letWord | .keyword .constWord => self .declaration
  | .symbol .lbrace => self .block
  | _ => self .expressionStatement

def expressionStatement (self : Rule → Parse Node) : Parse Node := do
  let value ← self .operand
  if ← sees Symbol.assign then complain .bareAssignment
  expect Symbol.semi .statementEnd
  return .expressionStatement value.loc value

def block (self : Rule → Parse Node) : Parse Node := do
  let brace ← expectOne [Symbol.lbrace] .blockStart
  let body ← statementsToBrace (self .statement) (← rounds) []
  discard (expectKind [Symbol.rbrace])
  return .block (locOf brace) body

def conditionAndStatement (self : Rule → Parse Node) : Parse (Node × Node) := do
  let test ← condition self
  return (test, ← self .statement)

/-- An `if` between statements. Without parentheses around its condition it needs a block. -/
def conditionalStatement (self : Rule → Parse Node) : Parse Node := do
  let loc := locOf (← expectKind [Keyword.ifWord])
  let (test, consequent) ← attempt (conditionAndStatement self) [conditionAndBlock self]
  let alternate ← if ← skip Keyword.elseWord then some <$> self .statement else pure none
  return .conditionalStatement loc test consequent alternate

def terminate : Parse Unit := expect Symbol.semi .declarationEnd

/-- A declaration: what it binds, then a type and a value, each of which may be missing. -/
def declaration (self : Rule → Parse Node) : Parse Node := do
  let word ← expectKind [Keyword.letWord, Keyword.constWord]
  let constant : Bool := word.kind = Keyword.constWord
  let mutable ← sees Keyword.mutWord
  if mutable then
    if constant then complain .mutableConstant
    discard advance
  let left ← self .bindingPattern
  let type ← if ← skip Symbol.colon then some <$> self .operand else pure none
  let right ← if ← skip Symbol.assign then some <$> self .expression else pure none
  terminate
  return .declaration (locOf word) left type right constant mutable

/-- A name to bind, or an array of such patterns. -/
def bindingPattern (self : Rule → Parse Node) : Parse Node := do
  let token ← current
  match token.kind with
  | .ident => discard advance; return .identifier (locOf token) token.value
  | .symbol .lbrack =>
    return .arrayPattern (locOf token) (← delimited Symbol.rbrack (self .bindingPattern))
  | _ => complain .bindingTarget

end MagSyntax.Grammar
