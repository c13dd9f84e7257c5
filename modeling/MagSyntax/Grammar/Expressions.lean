import MagSyntax.Grammar.Loops
import MagSyntax.Node.Target

/-!
The rules of expressions. Each gets the parser of the other rules as an argument. From the loosest to
the tightest: assignment, at most one comparison, sums, products, powers, a sign, chains of fields,
elements and calls, and primaries, the `if` with a value among them.
-/

namespace MagSyntax.Grammar

open Parse

def comparisons : List TokenKind :=
  [Symbol.eq, Symbol.ne, Symbol.strictEq, Symbol.strictNe, Symbol.lt, Symbol.le, Symbol.gt,
   Symbol.ge]

def additives : List TokenKind := [Symbol.plus, Symbol.sub]

def multiplicatives : List TokenKind := [Symbol.mult, Symbol.div, Symbol.mod]

def locOf (token : Token) : Loc := ⟨token.place.line, token.place.column⟩

def toTarget (node : Node) (assign : Token) : Parse Node :=
  match node.asTarget with
  | .ok target => return target
  | .error part => complainAt assign (.assignmentTarget part.typeName)

/-- An operand, or the assignment of an expression to it. -/
def expression (self : Rule → Parse Node) : Parse Node := do
  let left ← self .operand
  match ← accept [Symbol.assign] with
  | none => return left
  | some assign =>
    let target ← toTarget left assign
    let right ← self .expression
    return .assignment left.loc target right "="

/-- At most one comparison. -/
def comparison (self : Rule → Parse Node) : Parse Node := do
  let left ← self .additive
  match ← accept comparisons with
  | none => return left
  | some operator =>
    let right ← self .additive
    if ← check comparisons then complain .chainedComparison
    return .binary left.loc operator.value left right

/-- A power, which groups to the right. -/
def exponent (self : Rule → Parse Node) : Parse Node := do
  let base ← self .unary
  match ← accept [Symbol.pow] with
  | none => return base
  | some operator =>
    let power ← self .exponent
    return .binary base.loc operator.value base power

/-- A chain with at most one sign in front. -/
def unary (self : Rule → Parse Node) : Parse Node := do
  match ← accept [Symbol.sub] with
  | none => self .postfixChain
  | some operator =>
    let argument ← self .postfixChain
    return .unary (locOf operator) operator.value argument true

/-- The name of a field: a name or the spelling of a keyword. -/
def fieldName : Parse Node := do
  let token ← current
  if token.kind ≠ .ident ∧ Keyword.ofSpelling? token.value = none then complain .fieldName
  discard advance
  return .identifier (locOf token) token.value

/-- Up to `bound` fields, elements and calls behind a node. -/
def chain (self : Rule → Parse Node) : (bound : Nat) → Node → Parse Node
  | 0, _ => fail .exhausted
  | bound + 1, node => do
    if ← skip Symbol.dot then
      let name ← fieldName
      chain self bound (.field node.loc node name)
    else if ← skip Symbol.lbrack then
      let index ← self .expression
      expect Symbol.rbrack .indexEnd
      chain self bound (.index node.loc node index)
    else if ← sees Symbol.lparen then
      let arguments ← delimited Symbol.rparen (self .expression)
      chain self bound (.call node.loc node arguments)
    else return node

def postfixChain (self : Rule → Parse Node) : Parse Node := do
  let node ← self .primary
  chain self (← rounds) node

/-- What an operator can stand beside without parentheses of its own. -/
def primary (self : Rule → Parse Node) : Parse Node := do
  let token ← current
  let loc := locOf token
  match token.kind with
  | .ident => discard advance; return .identifier loc token.value
  | .number => discard advance; return .numeric loc token.value token.base
  | .string => discard advance; return .string loc token.value
  | .keyword .trueWord => discard advance; return .boolean loc true
  | .keyword .falseWord => discard advance; return .boolean loc false
  | .regex => discard advance; return .regex loc token.value token.flags
  | .symbol .lbrack => return .array loc (← delimited Symbol.rbrack (self .expression))
  | .symbol .lparen =>
    discard advance
    let inner ← self .expression
    expect Symbol.rparen .groupEnd
    return .parenthesized loc inner
  | .keyword .ifWord => self .conditional
  | _ => complain .expression

def requireElse : Parse Unit := expect Keyword.elseWord .elseAfterBranch

def condition (self : Rule → Parse Node) : Parse Node := do
  expect Symbol.lparen .conditionStart
  let test ← self .expression
  expect Symbol.rparen .conditionEnd
  return test

def conditionAndBlock (self : Rule → Parse Node) : Parse (Node × Node) := do
  let test ← self .operand
  if !(← sees Symbol.lbrace) then complain .blockAfterCondition
  return (test, ← self .block)

def conditionalByParentheses (self : Rule → Parse Node) (loc : Loc) : Parse Node := do
  let test ← condition self
  let consequent ← self .expression
  requireElse
  return .conditional loc test consequent (← self .expression) false

def conditionalByThen (self : Rule → Parse Node) (loc : Loc) : Parse Node := do
  let test ← self .operand
  expect Keyword.thenWord .thenAfterCondition
  let consequent ← self .expression
  requireElse
  return .conditional loc test consequent (← self .expression) true

/-- An `if` with a value whose branches are blocks; the last one may be another such `if`. -/
def conditionalByBlocks (self : Rule → Parse Node) (loc : Loc) : Parse Node := do
  let (test, consequent) ← conditionAndBlock self
  requireElse
  let alternate ← if ← sees Keyword.ifWord then self .conditional else self .block
  return .conditional loc test consequent alternate false

/-- An `if` with a value, in the first of its three forms that matches. -/
def conditional (self : Rule → Parse Node) : Parse Node := do
  let loc := locOf (← expectKind [Keyword.ifWord])
  attempt (conditionalByParentheses self loc)
    [conditionalByThen self loc, conditionalByBlocks self loc]

end MagSyntax.Grammar
