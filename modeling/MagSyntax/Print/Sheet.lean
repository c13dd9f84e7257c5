import MagSyntax.Print.Statement

/-!
A sheet of printed lines, to which statements are added one after the other. The lines of an `if` are added
first and changed where they stand. A statement that breaks off leaves the lines it has added on the sheet and
the indentation at the level it had reached.
-/

namespace MagSyntax

/-- The lines printed so far and the level of indentation for the next. -/
structure Sheet where
  lines : List Text
  indent : Int
deriving DecidableEq

namespace Sheet

def empty : Sheet := ⟨[], 0⟩

def text (s : Sheet) : Text := s.lines.flatMap fun line => line ++ "\n"

/-- Whether printing went through, and the sheet as it was left. -/
abbrev Outcome := Except PrintError Unit × Sheet

def Outcome.andThen (o : Outcome) (next : Sheet → Outcome) : Outcome :=
  match o with
  | (.ok (), later) => next later
  | (.error e, later) => (.error e, later)

/-- Adds lines, or those before the fault. -/
def add (s : Sheet) : Print.Lines → Outcome
  | .ok lines => (.ok (), { s with lines := s.lines ++ lines })
  | .error broken => (.error broken.error, ⟨s.lines ++ broken.lines, broken.indent⟩)

def push (s : Sheet) (text : Text) : Sheet := { s with lines := s.lines ++ [Print.line s.indent text] }

def inBraces (s : Sheet) (body : Sheet → Outcome) : Outcome :=
  (body { s.push "\x7b" with indent := s.indent + 1 }).andThen fun later =>
    (.ok (), { later with indent := later.indent - 1 }.push "\x7d")

def putHead (s : Sheet) (start : Nat) (head : Text) : Outcome :=
  match s.lines[start]? with
  | none => (.error .emptyBranch, s)
  | some first =>
    (.ok (), { s with lines := s.lines.set start (Print.line s.indent (head ++ first.trimLeft)) })

/-- Puts an `else` in front of its branch, which starts at a line; it moves to the line before if a block closes
there. -/
def putElse (s : Sheet) (start : Nat) : Outcome :=
  match s.lines[start]? with
  | none => (.error .emptyBranch, s)
  | some first =>
    let last : Text := s.lines[start - 1]?.getD []
    if last.getLast? = some '\x7d' then
      (.ok (), { s with lines := (s.lines.set (start - 1) (last ++ " else " ++ first.trimLeft)).eraseIdx start })
    else (.ok (), { s with lines := s.lines.set start (Print.line s.indent ("else " ++ first.trimLeft)) })

open Print

mutual

def addStatement (s : Sheet) : Node → Outcome
  | .program _ body => s.addStatements body
  | .expressionStatement _ value => s.add (oneLine s.indent (value.text.map (statementText value)))
  | .block _ [] => (.ok (), s.push "\x7b\x7d")
  | .block _ (first :: rest) => s.inBraces (addStatements · (first :: rest))
  | .conditionalStatement _ condition consequent alternate =>
    let branch : Outcome :=
      if alternate.isSome && consequent.dangles then s.inBraces (addStatement · consequent)
      else s.addStatement consequent
    branch.andThen fun later =>
      match condition.text with
      | .error e => (.error e, later)
      | .ok text =>
        (later.putHead s.lines.length ("if " ++ parenthesize text ++ " ")).andThen (addElse · alternate)
  | .declaration _ left type right constant mutable =>
    s.add (declarationLine s.indent constant mutable
      (declared left.text (marked ": " (Node.typeText? right.isSome type)) (marked " = " (Node.text? right))))
  | other => (.error (.noStatement other.typeName), s)

def addStatements (s : Sheet) : List Node → Outcome
  | [] => (.ok (), s)
  | first :: rest => (s.addStatement first).andThen (addStatements · rest)

def addElse (s : Sheet) : Option Node → Outcome
  | none => (.ok (), s)
  | some alternate => (s.addStatement alternate).andThen (putElse · s.lines.length)

end

def addExpression (s : Sheet) (node : Node) : Outcome :=
  s.add (Print.oneLine s.indent node.text)

/-- Adds a program statement by statement, and any other tree as an expression. -/
def addTree (s : Sheet) (node : Node) : Outcome :=
  match node with
  | .program .. => s.addStatement node
  | _ => s.addExpression node

end Sheet

def Node.source (node : Node) : Except PrintError Text :=
  match Sheet.empty.addTree node with
  | (.ok (), sheet) => .ok sheet.text
  | (.error e, _) => .error e

end MagSyntax
