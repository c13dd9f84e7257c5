import MagSyntax.Print.Binding
import MagSyntax.Print.Literal
import MagSyntax.Text.Blank

/-!
Printing trees in their canonical layout: a statement starts a line, a block indents its statements by
four spaces, and one space stands around binary operators. Parentheses are kept where the tree has
them and added where the grammar would otherwise group differently. A statement that cannot be printed
leaves the lines that were complete before the fault.
-/

namespace MagSyntax

namespace Print

structure Broken where
  error : PrintError
  lines : List Text
  indent : Int

/-- The lines of a statement, or where printing broke off. -/
abbrev Lines := Except Broken (List Text)

/-- The spaces before a line; a negative level has none. -/
def indentation (indent : Int) : Text := List.replicate (4 * indent.toNat) ' '

def line (indent : Int) (text : Text) : Text := indentation indent ++ text

def before (lines : List Text) : Lines → Lines
  | .ok later => .ok (lines ++ later)
  | .error broken => .error { broken with lines := lines ++ broken.lines }

def inOrder : Lines → Lines → Lines
  | .ok lines, later => before lines later
  | .error broken, _ => .error broken

def oneLine (indent : Int) : Except PrintError Text → Lines
  | .ok text => .ok [line indent text]
  | .error e => .error ⟨e, [], indent⟩

def parenthesize (text : Text) : Text := "(" ++ text ++ ")"

/-- The text of an operand whose place takes nothing looser than a level, and nothing open if more text
follows it. -/
def operand (node : Node) (least : Level) (followed : Bool) (text : Except PrintError Text) :
    Except PrintError Text := do
  let text ← text
  let looser := (← node.level) < least
  if looser || (followed && node.endsOpen) then return parenthesize text else return text

/-- The text of the condition before a `then` or a block. -/
def bareCondition (node : Node) (text : Except PrintError Text) : Except PrintError Text := do
  let looser := (← node.level) < Level.comparison
  let grouped := looser || node.endsOpen
  let text ← operand node .comparison true text
  if grouped then return text
  else if ← node.dividesLeadingGroup then return parenthesize text
  else return text

def statementText (node : Node) (text : Text) : Text :=
  (if node.isAssignment || node.startsWithIf then parenthesize text else text) ++ ";"

def braced (indent : Int) (body : Lines) : Lines :=
  match body with
  | .ok lines => .ok ([line indent "\x7b"] ++ lines ++ [line indent "\x7d"])
  | .error broken => .error { broken with lines := line indent "\x7b" :: broken.lines }

def inlined (body : Lines) : Except PrintError Text :=
  match body with
  | .error broken => .error broken.error
  | .ok lines =>
    let content : Text := List.intercalate " " (lines.map Text.trim)
    if content.isEmpty then .ok "\x7b\x7d" else .ok ("\x7b " ++ content ++ " \x7d")

def headed (indent : Int) (head : Text) : List Text → Lines
  | [] => .error ⟨.emptyBranch, [], indent⟩
  | first :: rest => .ok (line indent (head ++ first.trimLeft) :: rest)

/-- The lines of an `else` behind those of its `if`; it shares a line with the closing brace of a block. -/
def joinElse (indent : Int) (ifLines : List Text) : List Text → Lines
  | [] => .error ⟨.emptyBranch, ifLines, indent⟩
  | first :: rest =>
    let last : Text := ifLines.getLast?.getD []
    if last.getLast? = some '\x7d' then
      .ok (ifLines.dropLast ++ (last ++ " else " ++ first.trimLeft) :: rest)
    else .ok (ifLines ++ line indent ("else " ++ first.trimLeft) :: rest)

def withElse (indent : Int) (alternate : Option Lines) (ifLines : List Text) : Lines :=
  match alternate with
  | none => .ok ifLines
  | some (.ok elseLines) => joinElse indent ifLines elseLines
  | some (.error broken) => before ifLines (.error broken)

/-- The lines of an `if` between statements. Its first branch is printed before its condition. -/
def ifStatement (indent : Int) (consequent : Lines) (condition : Except PrintError Text)
    (alternate : Option Lines) : Lines :=
  match consequent, condition with
  | .error broken, _ => .error broken
  | .ok lines, .error e => .error ⟨e, lines, indent⟩
  | .ok lines, .ok text =>
    headed indent ("if " ++ parenthesize text ++ " ") lines >>= withElse indent alternate

/-- Lines in braces if they would catch an `else` that is not theirs. -/
def bracedIf (dangling : Bool) (indent : Int) (body : Lines) : Lines :=
  if dangling then braced indent body else body

def declarationWords (constant mutable : Bool) : Text :=
  if constant then "const " else if mutable then "let mut " else "let "

def marked (mark : Text) : Option (Except PrintError Text) → Except PrintError Text
  | none => .ok []
  | some text => text.map (mark ++ ·)

def declared (left type right : Except PrintError Text) : Except PrintError Text := do
  return (← left) ++ (← type) ++ (← right) ++ ";"

def declarationLine (indent : Int) (constant mutable : Bool) (content : Except PrintError Text) :
    Lines :=
  if constant && mutable then .error ⟨.mutableConstant, [], indent⟩
  else oneLine indent (content.map (declarationWords constant mutable ++ ·))

def listed (texts : Except PrintError (List Text)) : Except PrintError Text :=
  texts.map (List.intercalate ", ")

def bracketed (texts : Except PrintError (List Text)) : Except PrintError Text := do
  return "[" ++ (← listed texts) ++ "]"

def fieldName : Node → Except PrintError Text
  | .identifier _ name => .ok name
  | other => .error (.noFieldName other.typeName)

def linked (object : Node) (text : Except PrintError Text) : Except PrintError Text :=
  operand object .postfixChain true text

/-- The text of a binary expression; an operator that the language lacks is noticed first. -/
def binaryText (operator : Text) (left right : Node) (leftText rightText : Except PrintError Text) :
    Except PrintError Text := do
  let (leastLeft, leastRight) ← Level.operands operator
  let left ← operand left leastLeft true leftText
  let right ← operand right leastRight false rightText
  return left ++ " " ++ operator ++ " " ++ right

/-- The text of an `if` whose branches are blocks; the first of them is printed last. -/
def ifBlocks (condition consequent alternate : Except PrintError Text) :
    Except PrintError Text := do
  let condition ← condition
  let alternate ← alternate
  return "if " ++ condition ++ " " ++ (← consequent) ++ " else " ++ alternate

/-- The text of an `if` whose branches are expressions; its condition is printed last. -/
def ifBranches (condition : Node) (explicitThen : Bool)
    (conditionText consequent alternate : Except PrintError Text) : Except PrintError Text := do
  let consequent ← consequent
  let alternate ← alternate
  if explicitThen then
    let test ← bareCondition condition conditionText
    return "if " ++ test ++ " then " ++ consequent ++ " else " ++ alternate
  else return "if " ++ parenthesize (← conditionText) ++ " " ++ consequent ++ " else " ++ alternate

end Print

open Print

mutual

def Node.lines (indent : Int) : Node → Lines
  | .program _ body => Node.allLines indent body
  | .expressionStatement _ value => oneLine indent (value.text.map (statementText value))
  | .block _ [] => .ok [line indent "\x7b\x7d"]
  | .block _ (first :: rest) => braced indent (Node.allLines (indent + 1) (first :: rest))
  | .conditionalStatement _ condition consequent alternate =>
    let dangling := alternate.isSome && consequent.dangles
    let inner := if dangling then indent + 1 else indent
    ifStatement indent (bracedIf dangling indent (consequent.lines inner)) condition.text
      (Node.lines? indent alternate)
  | .declaration _ left type right constant mutable =>
    declarationLine indent constant mutable
      (declared left.text (marked ": " (Node.typeText? right.isSome type))
        (marked " = " (Node.text? right)))
  | other => .error ⟨.noStatement other.typeName, [], indent⟩

def Node.allLines (indent : Int) : List Node → Lines
  | [] => .ok []
  | first :: rest => inOrder (first.lines indent) (Node.allLines indent rest)

def Node.lines? (indent : Int) : Option Node → Option Lines
  | none => none
  | some n => some (n.lines indent)

def Node.text : Node → Except PrintError Text
  | .identifier _ name => .ok name
  | .numeric _ digits base => numeral digits base
  | .string _ value => .ok (stringLiteral value)
  | .boolean _ value => .ok (booleanLiteral value)
  | .regex _ pattern flags => .ok (regexLiteral pattern flags)
  | .parenthesized _ inner => inner.text.map parenthesize
  | .array _ elements => bracketed (Node.allTexts elements)
  | .arrayPattern _ elements => bracketed (Node.allTexts elements)
  | .field _ object name => return (← linked object object.text) ++ "." ++ (← fieldName name)
  | .index _ object place => return (← linked object object.text) ++ "[" ++ (← place.text) ++ "]"
  | .call _ callee arguments =>
    return (← linked callee callee.text) ++ "(" ++ (← listed (Node.allTexts arguments)) ++ ")"
  | .unary _ operator argument _ =>
    return operator ++ (← operand argument .postfixChain false argument.text)
  | .binary _ operator left right => binaryText operator left right left.text right.text
  | .assignment _ left right operator =>
    return (← left.text) ++ " " ++ operator ++ " " ++ (← right.text)
  | .conditional _ condition (.block _ body) (.block _ other) _ =>
    ifBlocks (bareCondition condition condition.text) (inlined (Node.allLines 0 body))
      (inlined (Node.allLines 0 other))
  | .conditional _ condition (.block _ body) alternate _ =>
    ifBlocks (bareCondition condition condition.text) (inlined (Node.allLines 0 body))
      alternate.text
  | .conditional _ condition consequent alternate explicitThen =>
    ifBranches condition explicitThen condition.text consequent.text alternate.text
  | other => .error (.noExpression other.typeName)

def Node.allTexts : List Node → Except PrintError (List Text)
  | [] => .ok []
  | first :: rest => return (← first.text) :: (← Node.allTexts rest)

def Node.text? : Option Node → Option (Except PrintError Text)
  | none => none
  | some n => some n.text

def Node.typeText? (followed : Bool) : Option Node → Option (Except PrintError Text)
  | none => none
  | some n => some (operand n .comparison followed n.text)

end

/-- A block on one line; other nodes with a body are printed as blocks too. -/
def Node.inlineBlock : Node → Except PrintError Text
  | .block _ body => inlined (Node.allLines 0 body)
  | .program _ body => inlined (Node.allLines 0 body)
  | other => .error (.noBlock other.typeName)

end MagSyntax
