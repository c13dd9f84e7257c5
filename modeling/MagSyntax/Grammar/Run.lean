import MagSyntax.Grammar.Statements
import MagSyntax.Token.Reader

/-!
Running the rules. Every open rule takes its share of a budget, so the recursion ends; a parse that uses
up the budget is reported as nested too deeply at the token it had got to. The depth of nesting is
bounded far more tightly, so only long chains of powers or of `else if` with blocks use it up.
-/

namespace MagSyntax

namespace Grammar

def body (self : Rule → Parse Node) : Rule → Parse Node
  | .program => program self
  | .statement => statement self
  | .expressionStatement => expressionStatement self
  | .block => block self
  | .conditionalStatement => conditionalStatement self
  | .declaration => declaration self
  | .bindingPattern => bindingPattern self
  | .expression => expression self
  | .operand => self .comparison
  | .comparison => comparison self
  | .additive => Parse.binaryLeft additives (self .multiplicative)
  | .multiplicative => Parse.binaryLeft multiplicatives (self .exponent)
  | .exponent => exponent self
  | .unary => unary self
  | .postfixChain => postfixChain self
  | .primary => primary self
  | .conditional => conditional self

/-- A rule with its level of nesting counted and its outcome remembered, as far as that is done. -/
def guarded (rule : Rule) (content : Parse Node) : Parse Node :=
  let counted := if rule.isNested then Parse.nested content else content
  if rule.isRemembered then Parse.remembered rule counted else counted

/-- Runs a rule on a budget of which `due` is still to be taken for it besides the one that every rule
takes. -/
def parse : (budget due : Nat) → Rule → Parse Node
  | 0, _, _ => Parse.fail .exhausted
  | budget + 1, due + 1, rule => parse budget due rule
  | budget + 1, 0, rule => guarded rule (body (fun r => parse budget r.surcharge r) rule)

theorem parse_due (budget due : Nat) (rule : Rule) :
    parse budget due rule = parse (budget - due) 0 rule := by
  induction due generalizing budget with
  | zero => rfl
  | succ due ih =>
    cases budget with
    | zero => simp [parse]
    | succ budget => rw [parse, ih, Nat.add_sub_add_right]

/-- What the rules that are open at once may take together. Ten of ten thousand are left to whoever runs the parse
and to the helpers that look at a token. -/
def budget : Nat := 9990

def rule (r : Rule) : Parse Node := parse budget r.surcharge r

/-- Runs a step from outside: a budget that is used up is a complaint about the token at the cursor. -/
def run {α : Type} (step : Parse α) : Parse α :=
  ⟨fun setup p =>
    match step.run setup p with
    | .failed .exhausted q => (Parse.complain .tooDeep).run setup q
    | outcome => outcome⟩

def expectEnd : Parse Unit := do
  if !(← Parse.sees .eof) then Parse.complain .inputEnd

end Grammar

/-- Where a source is read from: a whole program, or a single expression. -/
inductive Entry
  | program
  | expression
deriving DecidableEq

namespace Entry

def parse : Entry → Parse Node
  | .program => Grammar.run (Grammar.rule .program)
  | .expression => do
    let node ← Grammar.run (Grammar.rule .expression)
    Grammar.expectEnd
    return node

def ofInput (entry : Entry) (input : Input) : Except SyntaxError Node :=
  match entry.parse.run { input } .start with
  | .ok node _ => .ok node
  | .failed failure p => .error (failure.asError (input.get p.cursor))

def ofSource (entry : Entry) (source : Text) : Except SyntaxError Node := do
  entry.ofInput (.ofTokens (← tokenize source))

end Entry

end MagSyntax
