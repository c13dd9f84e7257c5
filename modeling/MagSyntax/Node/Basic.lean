import MagSyntax.Text.CodePoint

/-!
The tree of a program. One type holds all nodes, so that a tree can be built that no source has, such as
a statement where an expression belongs; what the grammar admits is said elsewhere. Every node
carries the line and column it starts at, which are no part of its meaning.
-/

namespace MagSyntax

/-- A line and a column, both 0 where they are unknown. -/
structure Loc where
  line : Int
  column : Int
deriving DecidableEq

def Loc.unknown : Loc := ⟨0, 0⟩

inductive Node
  | program (loc : Loc) (body : List Node)
  | block (loc : Loc) (body : List Node)
  | expressionStatement (loc : Loc) (expression : Node)
  /-- An `if` between statements; it need not have an `else`. -/
  | conditionalStatement (loc : Loc) (condition consequent : Node) (alternate : Option Node)
  | declaration (loc : Loc) (left : Node) (type right : Option Node)
      (constant mutable : Bool)
  | parenthesized (loc : Loc) (expression : Node)
  /-- An `if` with a value; its branches are expressions or blocks. -/
  | conditional (loc : Loc) (condition consequent alternate : Node) (explicitThen : Bool)
  | assignment (loc : Loc) (left right : Node) (operator : Text)
  | binary (loc : Loc) (operator : Text) (left right : Node)
  /-- The flag says that the operator stands before its argument. -/
  | unary (loc : Loc) (operator : Text) (argument : Node) (leading : Bool)
  | field (loc : Loc) (object name : Node)
  | index (loc : Loc) (object index : Node)
  | call (loc : Loc) (callee : Node) (arguments : List Node)
  | array (loc : Loc) (elements : List Node)
  | arrayPattern (loc : Loc) (elements : List Node)
  | identifier (loc : Loc) (name : Text)
  /-- A number as its digits were written, in the given base. -/
  | numeric (loc : Loc) (digits : Text) (base : Int)
  | string (loc : Loc) (value : Text)
  | boolean (loc : Loc) (value : Bool)
  | regex (loc : Loc) (pattern flags : Text)
  | bare (loc : Loc)

namespace Node

def loc : Node → Loc
  | .program loc .. | .block loc .. | .expressionStatement loc .. | .conditionalStatement loc ..
  | .declaration loc .. | .parenthesized loc .. | .conditional loc .. | .assignment loc ..
  | .binary loc .. | .unary loc .. | .field loc .. | .index loc .. | .call loc .. | .array loc ..
  | .arrayPattern loc .. | .identifier loc .. | .numeric loc .. | .string loc .. | .boolean loc ..
  | .regex loc .. | .bare loc => loc

def typeName : Node → Text
  | .program .. => "Program"
  | .block .. => "BlockStatement"
  | .expressionStatement .. => "ExpressionStatement"
  | .conditionalStatement .. => "ConditionalStatement"
  | .declaration .. => "VariableDeclaration"
  | .parenthesized .. => "ParenthesizedExpression"
  | .conditional .. => "ConditionalExpression"
  | .assignment .. => "AssignmentExpression"
  | .binary .. => "BinaryExpression"
  | .unary .. => "UnaryExpression"
  | .field .. => "FieldExpression"
  | .index .. => "IndexExpression"
  | .call .. => "CallExpression"
  | .array .. => "ArrayExpression"
  | .arrayPattern .. => "ArrayPattern"
  | .identifier .. => "Identifier"
  | .numeric .. => "NumericLiteral"
  | .string .. => "StringLiteral"
  | .boolean .. => "BooleanLiteral"
  | .regex .. => "RegularExpressionLiteral"
  | .bare .. => "Node"

/-- A name of several words, each with a capital letter, in small letters with underscores between the
words. -/
def snakeCase : Text → Text
  | [] => []
  | first :: rest =>
    first.small :: rest.flatMap fun c => if c.isCapital then ['_', c.small] else [c]

def kind (n : Node) : Text := snakeCase n.typeName

end Node

end MagSyntax
