import MagSyntax.Json
import MagSyntax.Node.Basic

/-!
The record of a tree: a JSON object for each node with its type and its parts under the names that ESTree
gives them, and with its place if places are asked for.
-/

namespace MagSyntax.Node

/-- The member that holds the place of a node, if places are asked for. -/
def locMember (locations : Bool) (loc : Loc) : List (Text × Json) :=
  if locations then [("loc", .object [("line", .int loc.line), ("col", .int loc.column)])] else []

def typeMember (type : Text) : Text × Json := ("type", .string type)

def recordOf (locations : Bool) (type : Text) (loc : Loc) (members : List (Text × Json)) : Json :=
  .object (typeMember type :: (members ++ locMember locations loc))

mutual

def toJson (locations : Bool) : Node → Json
  | .program loc body =>
    recordOf locations "Program" loc [("body", .list (allToJson locations body))]
  | .block loc body =>
    recordOf locations "BlockStatement" loc [("body", .list (allToJson locations body))]
  | .expressionStatement loc e =>
    recordOf locations "ExpressionStatement" loc [("expression", e.toJson locations)]
  | .conditionalStatement loc c t e =>
    recordOf locations "ConditionalStatement" loc
      [("condition", c.toJson locations), ("consequent", t.toJson locations),
       ("alternate", toJson? locations e)]
  | .declaration loc l type r constant mutable =>
    recordOf locations "VariableDeclaration" loc
      [("left", l.toJson locations), ("typeAnnotation", toJson? locations type),
       ("right", toJson? locations r), ("constant", .bool constant), ("mutable", .bool mutable)]
  | .parenthesized loc e =>
    recordOf locations "ParenthesizedExpression" loc [("expression", e.toJson locations)]
  | .conditional loc c t e explicitThen =>
    recordOf locations "ConditionalExpression" loc
      [("condition", c.toJson locations), ("consequent", t.toJson locations),
       ("alternate", e.toJson locations), ("explicitThen", .bool explicitThen)]
  | .assignment loc l r operator =>
    recordOf locations "AssignmentExpression" loc
      [("left", l.toJson locations), ("right", r.toJson locations), ("operator", .string operator)]
  | .binary loc operator l r =>
    recordOf locations "BinaryExpression" loc
      [("operator", .string operator), ("left", l.toJson locations),
       ("right", r.toJson locations)]
  | .unary loc operator a leading =>
    recordOf locations "UnaryExpression" loc
      [("operator", .string operator), ("argument", a.toJson locations), ("prefix", .bool leading)]
  | .field loc o name =>
    recordOf locations "FieldExpression" loc
      [("object", o.toJson locations), ("field", name.toJson locations)]
  | .index loc o i =>
    recordOf locations "IndexExpression" loc
      [("object", o.toJson locations), ("index", i.toJson locations)]
  | .call loc f args =>
    recordOf locations "CallExpression" loc
      [("callee", f.toJson locations), ("arguments", .list (allToJson locations args))]
  | .array loc elements =>
    recordOf locations "ArrayExpression" loc [("elements", .list (allToJson locations elements))]
  | .arrayPattern loc elements =>
    recordOf locations "ArrayPattern" loc [("elements", .list (allToJson locations elements))]
  | .identifier loc name => recordOf locations "Identifier" loc [("name", .string name)]
  | .numeric loc digits base =>
    recordOf locations "NumericLiteral" loc [("value", .string digits), ("base", .int base)]
  | .string loc value => recordOf locations "StringLiteral" loc [("value", .string value)]
  | .boolean loc value => recordOf locations "BooleanLiteral" loc [("value", .bool value)]
  | .regex loc pattern flags =>
    recordOf locations "RegularExpressionLiteral" loc
      [("pattern", .string pattern), ("flags", .string flags)]
  | .bare loc => recordOf locations "Node" loc []

def allToJson (locations : Bool) : List Node → List Json
  | [] => []
  | n :: rest => n.toJson locations :: allToJson locations rest

def toJson? (locations : Bool) : Option Node → Json
  | none => .null
  | some n => n.toJson locations

end

end MagSyntax.Node
