import MagSyntax.Proofs.Spelling

/-! The first lexeme of an expression: it tells whether the expression starts with the word `if`, and
no expression starts with anything that opens a statement of another kind. -/

namespace MagSyntax

namespace Rule

/-- The kinds of tokens that an expression starts with. -/
def starters : List TokenKind :=
  [.ident, .number, .string, .regex, Keyword.trueWord, Keyword.falseWord, Keyword.ifWord,
   Symbol.lbrack, Symbol.lparen, Symbol.sub]

/-- The kinds of tokens that a statement starts with. -/
def openers : List TokenKind :=
  TokenKind.keyword .letWord :: TokenKind.keyword .constWord :: TokenKind.symbol .lbrace :: starters

end Rule

namespace Node

/-- The lexemes start as an expression does, with the word `if` just when the expression does. -/
def StartsAs (n : Node) (ls : List Lexeme) : Prop :=
  ∃ first rest, ls = first :: rest ∧ first.kind ∈ Rule.starters ∧
    (first.kind = Keyword.ifWord ↔ n.startsWithIf)

theorem StartsAs.append {n m : Node} {a b : List Lexeme} (h : n.StartsAs a)
    (hm : m.startsWithIf = n.startsWithIf) : m.StartsAs (a ++ b) := by
  obtain ⟨first, rest, rfl, hk, hi⟩ := h
  exact ⟨first, rest ++ b, rfl, hk, by rw [hm]; exact hi⟩

theorem StartsAs.single {n : Node} {l : Lexeme} {rest : List Lexeme} (hk : l.kind ∈ Rule.starters)
    (hi : l.kind ≠ Keyword.ifWord) (hn : n.startsWithIf = false) : n.StartsAs (l :: rest) :=
  ⟨l, rest, rfl, hk, by simp [hi, hn]⟩

theorem startsAs_of_writtenAs (n : Node) {bare : Node → Prop} {ls : List Lexeme}
    (he : n.isExpression) (h : n.WrittenAs bare ls) : n.StartsAs ls := by
  cases n with
  | identifier | numeric | string | regex =>
    cases h
    exact .single (by simp [Rule.starters]) (by simp) rfl
  | boolean loc value =>
    cases h
    cases value <;> exact .single (by decide) (by decide) rfl
  | parenthesized =>
    obtain ⟨a, -, rfl⟩ := h
    exact .single (by decide) (by decide) rfl
  | array =>
    obtain ⟨a, -, rfl⟩ := h
    exact .single (by decide) (by decide) rfl
  | unary loc operator argument leading =>
    obtain ⟨a, -, rfl⟩ := h
    simp only [isExpression, Bool.and_eq_true, decide_eq_true_eq] at he
    rw [he.1.1.1]
    exact .single (by decide) (by decide) rfl
  | conditional =>
    obtain ⟨a, b, d, -, -, -, rfl⟩ := h
    exact ⟨_, _, rfl, by simp [Lexeme.ofKeyword]; decide, by simp [startsWithIf, Lexeme.ofKeyword]⟩
  | field loc object name =>
    obtain ⟨a, word, ha, -, -, rfl⟩ := h
    simp only [isExpression, Bool.and_eq_true] at he
    exact (startsAs_of_writtenAs object he.1.1 ha).append rfl
  | index loc object i =>
    obtain ⟨a, b, ha, -, rfl⟩ := h
    simp only [isExpression, Bool.and_eq_true] at he
    rw [List.append_assoc]
    exact (startsAs_of_writtenAs object he.1.1 ha).append rfl
  | call loc callee arguments =>
    obtain ⟨a, b, ha, -, rfl⟩ := h
    simp only [isExpression, Bool.and_eq_true] at he
    rw [List.append_assoc]
    exact (startsAs_of_writtenAs callee he.1.1 ha).append rfl
  | binary loc operator left right =>
    obtain ⟨a, b, ha, -, rfl⟩ := h
    simp only [isExpression] at he
    split at he
    next => cases he
    next =>
      simp only [Bool.and_eq_true] at he
      exact (startsAs_of_writtenAs left he.1.1.1 ha).append rfl
  | assignment loc left right operator =>
    obtain ⟨a, b, ha, -, rfl⟩ := h
    simp only [isExpression, Bool.and_eq_true] at he
    refine StartsAs.append (n := left) ?_ rfl
    have ht := he.1.2
    cases left with
    | identifier =>
      cases ha
      exact .single (by simp [Rule.starters]) (by simp) rfl
    | arrayPattern =>
      obtain ⟨a, -, rfl⟩ := ha
      exact .single (by decide) (by decide) rfl
    | field loc object name =>
      obtain ⟨a, word, ha, -, -, rfl⟩ := ha
      simp only [isTarget, Bool.and_eq_true] at ht
      exact (startsAs_of_writtenAs object ht.1.2 ha).append rfl
    | index loc object i =>
      obtain ⟨a, b, ha, -, rfl⟩ := ha
      simp only [isTarget, Bool.and_eq_true] at ht
      rw [List.append_assoc]
      exact (startsAs_of_writtenAs object ht.1.2 ha).append rfl
    | _ => cases ht
  | _ => cases he

/-- A chain does not start with a sign. -/
theorem head_ne_sub (n : Node) {bare : Node → Prop} {ls : List Lexeme} (he : n.isExpression)
    (hb : n.bindsAt .postfixChain) (h : n.WrittenAs bare ls) :
    ∃ first rest, ls = first :: rest ∧ first.kind ≠ Symbol.sub := by
  cases n with
  | identifier | numeric | string | regex =>
    cases h
    exact ⟨_, _, rfl, by simp⟩
  | boolean loc value =>
    cases h
    exact ⟨_, _, rfl, by simp [Lexeme.ofKeyword]⟩
  | parenthesized =>
    obtain ⟨a, -, rfl⟩ := h
    exact ⟨_, _, rfl, by simp [Lexeme.ofSymbol]⟩
  | array =>
    obtain ⟨a, -, rfl⟩ := h
    exact ⟨_, _, rfl, by simp [Lexeme.ofSymbol]⟩
  | conditional =>
    obtain ⟨a, b, d, -, -, -, rfl⟩ := h
    exact ⟨_, _, rfl, by simp [Lexeme.ofKeyword]⟩
  | field loc object name =>
    obtain ⟨a, word, ha, -, -, rfl⟩ := h
    simp only [isExpression, Bool.and_eq_true, standsBefore_iff] at he
    obtain ⟨first, rest, rfl, hk⟩ := head_ne_sub object he.1.1 he.1.2.1 ha
    exact ⟨_, _, rfl, hk⟩
  | index loc object i =>
    obtain ⟨a, b, ha, -, rfl⟩ := h
    simp only [isExpression, Bool.and_eq_true, standsBefore_iff] at he
    obtain ⟨first, rest, rfl, hk⟩ := head_ne_sub object he.1.1 he.1.2.1 ha
    exact ⟨_, _, rfl, hk⟩
  | call loc callee arguments =>
    obtain ⟨a, b, ha, -, rfl⟩ := h
    simp only [isExpression, Bool.and_eq_true, standsBefore_iff] at he
    obtain ⟨first, rest, rfl, hk⟩ := head_ne_sub callee he.1.1 he.1.2.1 ha
    exact ⟨_, _, rfl, hk⟩
  | binary loc operator left right =>
    cases ho : Level.ofOperator operator with
    | error => simp [bindsAt, Node.level, ho] at hb
    | ok level =>
      rw [bindsAt_binary ho] at hb
      exact absurd (Nat.le_trans (of_decide_eq_true hb) (Level.le_exponent ho)) (by decide)
  | unary => cases hb
  | assignment => cases hb
  | _ => cases he

theorem head_of_isStatement {n : Node} {bare : Node → Prop} {ls : List Lexeme} (hs : n.isStatement)
    (h : n.WrittenAs bare ls) : ∃ first rest, ls = first :: rest ∧ first.kind ∈ Rule.openers := by
  cases n with
  | block =>
    obtain ⟨a, -, rfl⟩ := h
    exact ⟨_, _, rfl, by decide⟩
  | expressionStatement loc e =>
    obtain ⟨a, ha, rfl⟩ := h
    simp only [isStatement, Bool.and_eq_true] at hs
    obtain ⟨first, rest, rfl, hk, -⟩ := startsAs_of_writtenAs e hs.1.1 ha
    exact ⟨first, _, rfl, List.mem_cons_of_mem _ (List.mem_cons_of_mem _ (List.mem_cons_of_mem _ hk))⟩
  | conditionalStatement =>
    obtain ⟨a, b, d, -, -, -, rfl | ⟨-, -, -, rfl⟩⟩ := h <;> exact ⟨_, _, rfl, by decide⟩
  | declaration loc left type right constant mutable =>
    obtain ⟨a, b, d, -, -, -, rfl⟩ := h
    cases constant <;> cases mutable <;> exact ⟨_, _, rfl, by decide⟩
  | _ => cases hs

end Node

end MagSyntax
