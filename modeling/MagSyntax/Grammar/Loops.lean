import MagSyntax.Grammar.Parse

/-!
The repetitions of the grammar: sequences of statements, lists between brackets, and operators that
group to the left. Every round but the last takes a token, so the bound on the rounds is never
reached.
-/

namespace MagSyntax.Parse

/-- Up to `bound` statements before the end of the input, behind those given, nearest first. -/
def statementsToEnd (statement : Parse Node) : (bound : Nat) → List Node → Parse (List Node)
  | 0, _ => fail .exhausted
  | bound + 1, sofar => do
    if ← sees .eof then return sofar.reverse
    let next ← statement
    statementsToEnd statement bound (next :: sofar)

def statementsToBrace (statement : Parse Node) : (bound : Nat) → List Node → Parse (List Node)
  | 0, _ => fail .exhausted
  | bound + 1, sofar => do
    if ← sees Symbol.rbrace then return sofar.reverse
    if ← sees .eof then complain .blockEnd
    let next ← statement
    statementsToBrace statement bound (next :: sofar)

def elements (close : TokenKind) (element : Parse Node) :
    (bound : Nat) → List Node → Parse (List Node)
  | 0, _ => fail .exhausted
  | bound + 1, sofar => do
    if ← sees close then return sofar.reverse
    let next ← element
    if ← skip Symbol.comma then elements close element bound (next :: sofar)
    else return (next :: sofar).reverse

def closingBracket? : TokenKind → Option Symbol
  | .symbol .rparen => some .rparen
  | .symbol .rbrack => some .rbrack
  | _ => none

/-- A list between brackets, with a comma behind each element but the last, which may have one. The
cursor is on the opening bracket. -/
def delimited (close : TokenKind) (element : Parse Node) : Parse (List Node) := do
  discard advance
  let items ← elements close element (← rounds) []
  match closingBracket? close with
  | none => fail (.unclosable close)
  | some bracket =>
    expect close (.listEnd bracket)
    return items

def operatorsLeft (operators : List TokenKind) (operand : Parse Node) :
    (bound : Nat) → Node → Parse Node
  | 0, _ => fail .exhausted
  | bound + 1, left => do
    match ← accept operators with
    | none => return left
    | some operator =>
      let right ← operand
      operatorsLeft operators operand bound (.binary left.loc operator.value left right)

def binaryLeft (operators : List TokenKind) (operand : Parse Node) : Parse Node := do
  let left ← operand
  operatorsLeft operators operand (← rounds) left

end MagSyntax.Parse
