import MagSyntax.Proofs.Starts
import MagSyntax.Proofs.Steps

/-! What it means that the tokens of an input read as a tree of a rule: the tree is one that the rule
admits, the tokens are a way to write it, and the token behind them does not go on with it. -/

namespace MagSyntax

/-- The rule that reads a statement like this. -/
def Node.statementRule : Node → Rule
  | .block .. => .block
  | .conditionalStatement .. => .conditionalStatement
  | .declaration .. => .declaration
  | _ => .expressionStatement

/-- The tree is an operand that stands as a statement. -/
def Node.isOperandStatement : Node → Bool
  | .expressionStatement _ e => e.isExpression && e.bindsAt .comparison
  | _ => false

theorem Node.isBlock_of_statementRule {n : Node} (h : n.statementRule = .block) : n.isBlock := by
  cases n <;> first | rfl | cases h

namespace Rule

/-- The least level of the expressions that a rule reads; 0 for the other rules. -/
def least : Rule → Level
  | .expression => .assignment
  | .operand | .comparison => .comparison
  | .additive => .additive
  | .multiplicative => .multiplicative
  | .exponent => .exponent
  | .unary => .unary
  | .postfixChain => .postfixChain
  | .primary | .conditional => .primary
  | _ => 0

/-- The rule reads expressions. -/
def isValue (r : Rule) : Bool := r.least ≠ 0

/-- The rule can read the tree. -/
def admits (r : Rule) (n : Node) : Bool :=
  match r with
  | .program => n.isProgram
  | .statement => n.isStatement
  | .expressionStatement => n.isOperandStatement
  | .block | .conditionalStatement | .declaration => n.isStatement && n.statementRule = r
  | .bindingPattern => n.isBinding
  | .conditional => n.isExpression && n.isConditional
  | _ => n.isExpression && n.bindsAt r.least

/-- The kinds of tokens that go on with a chain. -/
def links : List TokenKind := [Symbol.dot, Symbol.lbrack, Symbol.lparen]

/-- The kinds of tokens that a rule would go on with. -/
def continuers : Rule → List TokenKind
  | .expression => TokenKind.symbol .assign :: (Grammar.comparisons ++ (Grammar.additives ++
      (Grammar.multiplicatives ++ (TokenKind.symbol .pow :: links))))
  | .operand | .comparison => Grammar.comparisons ++ (Grammar.additives ++
      (Grammar.multiplicatives ++ (TokenKind.symbol .pow :: links)))
  | .additive => Grammar.additives ++ (Grammar.multiplicatives ++ (TokenKind.symbol .pow :: links))
  | .multiplicative => Grammar.multiplicatives ++ (TokenKind.symbol .pow :: links)
  | .exponent => TokenKind.symbol .pow :: links
  | .unary | .postfixChain => links
  | _ => []

/-- The tree, read by the rule, ends before a token of this kind. -/
structure EndsBefore (r : Rule) (n : Node) (kind : TokenKind) : Prop where
  rule : kind ∉ r.continuers
  branch : n.endsOpen → kind ∉ Rule.expression.continuers
  elseless : n.dangles → kind ≠ Keyword.elseWord

end Rule

theorem Rule.EndsBefore.not_endsOpen {r : Rule} {n : Node} {k : TokenKind} (h : r.EndsBefore n k)
    (hk : k ∈ Rule.expression.continuers) : n.endsOpen = false := by
  cases ho : n.endsOpen with
  | false => rfl
  | true => exact absurd hk (h.branch ho)

namespace Input

variable (input : Input)

/-- Every keyword and every symbol has the value that belongs to it. -/
def IsProper : Prop := ∀ c, (input.get c).HasOwnValue

/-- These lexemes stand from a token on, and none of them is the end of the input. -/
def Shows : Nat → List Lexeme → Prop
  | _, [] => True
  | c, l :: ls => (input.get c).essence = l ∧ l.kind ≠ .eof ∧ Shows (c + 1) ls

/-- The end of the input stands at a token and has the spelling of a keyword, so that it can be taken for
the name of a field. -/
def StrayEnd (c : Nat) : Prop :=
  (input.get c).kind = .eof ∧ (Keyword.ofSpelling? (input.get c).value).isSome

/-- The tokens between two places are a way to write the tree. -/
def Writes (bare : Node → Prop) (c : Nat) (n : Node) (stop : Nat) : Prop :=
  ∃ ls, n.WrittenAs bare ls ∧ input.Shows c ls ∧ stop = c + ls.length

/-- The tokens between two places read as a tree of the rule. -/
structure Reads (bare : Node → Prop) (r : Rule) (c : Nat) (n : Node) (stop : Nat) : Prop where
  admitted : r.admits n
  written : input.Writes bare c n stop
  ended : r.EndsBefore n (input.get stop).kind

/-- What a rule may find: a reading, or an expression cut off by a stray end. -/
def Found (bare : Node → Prop) (r : Rule) (c : Nat) (n : Node) (stop : Nat) : Prop :=
  r.isValue ∧ input.StrayEnd stop ∨ input.Reads bare r c n stop

variable {input}

theorem shows_append {c : Nat} {a b : List Lexeme} :
    input.Shows c (a ++ b) ↔ input.Shows c a ∧ input.Shows (c + a.length) b := by
  induction a generalizing c with
  | nil => simp [Shows]
  | cons l ls ih =>
    simp only [List.cons_append, Shows, ih, List.length_cons, and_assoc]
    rw [show c + 1 + ls.length = c + (ls.length + 1) by omega]

theorem IsProper.essence_symbol (h : input.IsProper) {c : Nat} {s : Symbol}
    (hk : (input.get c).kind = s) : (input.get c).essence = .ofSymbol s := by
  have hv := (h c).2 s hk
  simp [Token.essence, Lexeme.ofSymbol, hk, hv]

theorem IsProper.essence_keyword (h : input.IsProper) {c : Nat} {w : Keyword}
    (hk : (input.get c).kind = w) : (input.get c).essence = .ofKeyword w := by
  have hv := (h c).1 w hk
  simp [Token.essence, Lexeme.ofKeyword, hk, hv]

theorem IsProper.shows_symbol (h : input.IsProper) {c : Nat} {s : Symbol}
    (hk : (input.get c).kind = s) : input.Shows c [.ofSymbol s] :=
  ⟨h.essence_symbol hk, by simp [Lexeme.ofSymbol], trivial⟩

theorem IsProper.shows_keyword (h : input.IsProper) {c : Nat} {w : Keyword}
    (hk : (input.get c).kind = w) : input.Shows c [.ofKeyword w] :=
  ⟨h.essence_keyword hk, by simp [Lexeme.ofKeyword], trivial⟩

theorem IsProper.shows_symbol_cons (h : input.IsProper) {c : Nat} {s : Symbol} {ls : List Lexeme}
    (hk : (input.get c).kind = s) (hs : input.Shows (c + 1) ls) :
    input.Shows c (.ofSymbol s :: ls) :=
  ⟨h.essence_symbol hk, by simp [Lexeme.ofSymbol], hs⟩

theorem IsProper.shows_keyword_cons (h : input.IsProper) {c : Nat} {w : Keyword}
    {ls : List Lexeme} (hk : (input.get c).kind = w) (hs : input.Shows (c + 1) ls) :
    input.Shows c (.ofKeyword w :: ls) :=
  ⟨h.essence_keyword hk, by simp [Lexeme.ofKeyword], hs⟩

theorem kind_of_shows {c : Nat} {l : Lexeme} {ls : List Lexeme} (h : input.Shows c (l :: ls)) :
    (input.get c).kind = l.kind := by
  rw [← h.1]
  rfl

theorem value_of_shows {c : Nat} {l : Lexeme} {ls : List Lexeme} (h : input.Shows c (l :: ls)) :
    (input.get c).value = l.value := by
  rw [← h.1]
  rfl

theorem after_of_shows {c : Nat} {l : Lexeme} {ls : List Lexeme} (h : input.Shows c (l :: ls)) :
    input.after c = c + 1 :=
  input.after_of_ne (by rw [kind_of_shows h]; exact h.2.1)

theorem Found.reads {bare : Node → Prop} {r : Rule} {c stop : Nat} {n : Node}
    (h : input.Found bare r c n stop) (hk : (input.get stop).kind ≠ .eof) :
    input.Reads bare r c n stop :=
  h.resolve_left fun hs => hk hs.2.1

theorem Reads.found {bare : Node → Prop} {r : Rule} {c stop : Nat} {n : Node}
    (h : input.Reads bare r c n stop) : input.Found bare r c n stop := .inr h

end Input

end MagSyntax
