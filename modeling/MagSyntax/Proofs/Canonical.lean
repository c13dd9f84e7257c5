import MagSyntax.Grammar.Run
import MagSyntax.Print.Binding

/-! The canonical trees: every operand binds tightly enough for its place, nothing open stands where
more text follows, and targets are patterns. A canonical tree can be written out without any
parentheses of its own, so these are the trees that the rules of the grammar can find. -/

namespace MagSyntax

namespace Symbol

theorem spelling_injective {s t : Symbol} (h : s.spelling = t.spelling) : s = t := by
  revert h
  cases s <;> cases t <;> decide

end Symbol

namespace Level

/-- The kinds of the operators of a level. -/
def kinds (level : Level) : List TokenKind :=
  (operators.filter (·.2 = level)).map fun o => .symbol o.1

/-- The least level of each operand of the operators of a level. -/
def sides (level : Level) : Level × Level :=
  if level = comparison then (additive, additive)
  else if level = exponent then (unary, exponent)
  else (level, level + 1)

theorem kinds_comparison : kinds comparison = Grammar.comparisons := rfl

theorem kinds_additive : kinds additive = Grammar.additives := rfl

theorem kinds_multiplicative : kinds multiplicative = Grammar.multiplicatives := rfl

theorem kinds_exponent : kinds exponent = [TokenKind.symbol .pow] := rfl

theorem ofOperator_of_mem {level : Level} {s : Symbol} (h : TokenKind.symbol s ∈ level.kinds) :
    ofOperator s.spelling = .ok level := by
  simp only [kinds, List.mem_map, List.mem_filter, decide_eq_true_eq] at h
  obtain ⟨⟨t, l⟩, ⟨hm, rfl⟩, ht⟩ := h
  obtain rfl : t = s := TokenKind.symbol.inj ht
  revert hm
  cases t <;> simp only [operators, List.mem_cons, Prod.mk.injEq, reduceCtorEq, false_and, true_and,
    false_or, or_false, List.not_mem_nil, false_imp_iff] <;> rintro rfl <;> rfl

theorem exists_symbol_of_mem {level : Level} {k : TokenKind} (h : k ∈ level.kinds) :
    ∃ s, k = .symbol s := by
  simp only [kinds, List.mem_map] at h
  obtain ⟨o, _, rfl⟩ := h
  exact ⟨o.1, rfl⟩

theorem symbol_of_ofOperator {operator : Text} {level : Level}
    (h : ofOperator operator = .ok level) :
    ∃ s : Symbol, operator = s.spelling ∧ TokenKind.symbol s ∈ level.kinds := by
  unfold ofOperator at h
  split at h
  next s l hf =>
    cases h
    have hs : s.spelling = operator := by simpa using List.find?_some hf
    refine ⟨s, hs.symm, ?_⟩
    simp only [kinds, List.mem_map, List.mem_filter, decide_eq_true_eq]
    exact ⟨(s, _), ⟨List.mem_of_find?_eq_some hf, rfl⟩, rfl⟩
  next => cases h

theorem comparison_le {operator : Text} {level : Level} (h : ofOperator operator = .ok level) :
    comparison ≤ level := by
  obtain ⟨s, rfl, -⟩ := symbol_of_ofOperator h
  cases s <;> cases h <;> decide

theorem le_exponent {operator : Text} {level : Level} (h : ofOperator operator = .ok level) :
    level ≤ exponent := by
  obtain ⟨s, rfl, -⟩ := symbol_of_ofOperator h
  cases s <;> cases h <;> decide

theorem operands_of_ofOperator {operator : Text} {level : Level}
    (h : ofOperator operator = .ok level) : operands operator = .ok level.sides := by
  simp only [operands, h, sides]
  simp only [bind, Except.bind]
  split
  · rfl
  · split <;> rfl

end Level

namespace Node

/-- The node is an identifier. -/
def isIdentifier : Node → Bool
  | .identifier .. => true
  | _ => false

/-- The node is an `if` with a value. -/
def isConditional : Node → Bool
  | .conditional .. => true
  | _ => false

/-- The node binds at least as tightly as a level. -/
def bindsAt (n : Node) (least : Level) : Bool :=
  match n.level with
  | .ok level => least ≤ level
  | .error _ => false

/-- The node can stand before more text at a level without parentheses. -/
def standsBefore (n : Node) (least : Level) : Bool := n.bindsAt least && !n.endsOpen

mutual

/-- The tree is a canonical expression. -/
def isExpression : Node → Bool
  | .identifier .. | .numeric .. | .string .. | .boolean .. | .regex .. => true
  | .parenthesized _ e => e.isExpression
  | .array _ elements => allExpressions elements
  | .field _ object name =>
    object.isExpression && object.standsBefore .postfixChain && name.isIdentifier
  | .index _ object i => object.isExpression && object.standsBefore .postfixChain && i.isExpression
  | .call _ callee arguments =>
    callee.isExpression && callee.standsBefore .postfixChain && allExpressions arguments
  | .unary _ operator argument leading =>
    operator = Symbol.sub.spelling && leading && argument.isExpression &&
      argument.bindsAt .postfixChain
  | .binary _ operator left right =>
    match Level.operands operator with
    | .error _ => false
    | .ok (leastLeft, leastRight) =>
      left.isExpression && left.standsBefore leastLeft && right.isExpression &&
        right.bindsAt leastRight
  | .assignment _ left right operator =>
    operator = Symbol.assign.spelling && left.isTarget && right.isExpression
  | .conditional _ condition consequent alternate explicitThen =>
    condition.isExpression &&
      if consequent.isBlock then
        !explicitThen && !condition.isAssignment && consequent.isStatement &&
          if alternate.isBlock then alternate.isStatement
          else alternate.isConditional && alternate.isExpression
      else
        (!explicitThen || !condition.isAssignment) && consequent.isExpression &&
          alternate.isExpression
  | _ => false

/-- The trees are canonical expressions. -/
def allExpressions : List Node → Bool
  | [] => true
  | n :: rest => n.isExpression && allExpressions rest

/-- The tree is canonical and something can be assigned to it. -/
def isTarget : Node → Bool
  | .identifier .. => true
  | .field _ object name => object.isRooted && object.isExpression && name.isIdentifier
  | .index _ object i => object.isRooted && object.isExpression && i.isExpression
  | .arrayPattern _ elements => allTargets elements
  | _ => false

/-- The trees are targets. -/
def allTargets : List Node → Bool
  | [] => true
  | n :: rest => n.isTarget && allTargets rest

/-- The tree is a canonical statement. -/
def isStatement : Node → Bool
  | .block _ body => allStatements body
  | .expressionStatement _ e => e.isExpression && !e.isAssignment && !e.startsWithIf
  | .conditionalStatement _ condition consequent alternate =>
    condition.isExpression && consequent.isStatement && noneOrStatement alternate &&
      !(alternate.isSome && consequent.dangles)
  | .declaration _ left type right constant mutable =>
    left.isBinding && noneOrType right.isSome type && noneOrExpression right &&
      !(constant && mutable)
  | _ => false

/-- The trees are canonical statements. -/
def allStatements : List Node → Bool
  | [] => true
  | n :: rest => n.isStatement && allStatements rest

/-- The tree is a canonical statement if it is there. -/
def noneOrStatement : Option Node → Bool
  | none => true
  | some n => n.isStatement

/-- The tree is a canonical expression if it is there. -/
def noneOrExpression : Option Node → Bool
  | none => true
  | some n => n.isExpression

/-- The tree, if it is there, can be the type of a declaration, which a value may follow. -/
def noneOrType (followed : Bool) : Option Node → Bool
  | none => true
  | some n => n.isExpression && !n.isAssignment && !(followed && n.endsOpen)

/-- The tree is a name or an array of names, as a declaration binds them. -/
def isBinding : Node → Bool
  | .identifier .. => true
  | .arrayPattern _ elements => allBindings elements
  | _ => false

/-- The trees are names and arrays of names. -/
def allBindings : List Node → Bool
  | [] => true
  | n :: rest => n.isBinding && allBindings rest

end

/-- The tree is a canonical program. -/
def isProgram : Node → Bool
  | .program _ body => allStatements body
  | _ => false

theorem allExpressions_iff {l : List Node} : allExpressions l ↔ ∀ n ∈ l, n.isExpression := by
  induction l with
  | nil => simp [allExpressions]
  | cons n rest ih => simp [allExpressions, ih]

/-- An expression is canonical only if its operands can do without parentheses. -/
example :
    let a : Node := .identifier .unknown "a"
    allExpressions [.unary .unknown "-" a true, .field .unknown (.parenthesized .unknown a) a] ∧
      allExpressions [.field .unknown (.unary .unknown "-" a true) a] = false := by cbv

theorem allTargets_iff {l : List Node} : allTargets l ↔ ∀ n ∈ l, n.isTarget := by
  induction l with
  | nil => simp [allTargets]
  | cons n rest ih => simp [allTargets, ih]

theorem allStatements_iff {l : List Node} : allStatements l ↔ ∀ n ∈ l, n.isStatement := by
  induction l with
  | nil => simp [allStatements]
  | cons n rest ih => simp [allStatements, ih]

theorem allBindings_iff {l : List Node} : allBindings l ↔ ∀ n ∈ l, n.isBinding := by
  induction l with
  | nil => simp [allBindings]
  | cons n rest ih => simp [allBindings, ih]

theorem bindsAt_of_le {n : Node} {least least' : Level} (h : n.bindsAt least)
    (hle : least' ≤ least) : n.bindsAt least' := by
  unfold bindsAt at *
  split at h
  · simp_all
    exact Nat.le_trans hle h
  · cases h

theorem bindsAt_binary {loc : Loc} {operator : Text} {left right : Node} {level least : Level}
    (h : Level.ofOperator operator = .ok level) :
    (binary loc operator left right).bindsAt least = decide (least ≤ level) := by
  simp [bindsAt, Node.level, h]

theorem isExpression_binary {loc : Loc} {operator : Text} {left right : Node} {level : Level}
    (h : Level.ofOperator operator = .ok level) :
    (binary loc operator left right).isExpression =
      (left.isExpression && left.standsBefore level.sides.1 && right.isExpression &&
        right.bindsAt level.sides.2) := by
  simp [isExpression, Level.operands_of_ofOperator h]

theorem not_endsOpen_of_isStatement {n : Node} (h : n.isStatement) : n.endsOpen = false := by
  cases n <;> first | rfl | cases h

theorem not_isBlock_of_isExpression {n : Node} (h : n.isExpression) : n.isBlock = false := by
  cases n <;> first | rfl | cases h

theorem not_isAssignment_of_bindsAt {n : Node} (h : n.bindsAt .comparison) :
    n.isAssignment = false := by
  cases n <;> first | rfl | cases h

theorem isExpression_unary {loc : Loc} {argument : Node} :
    (unary loc Symbol.sub.spelling argument true).isExpression =
      (argument.isExpression && argument.bindsAt .postfixChain) := by
  simp [isExpression]

theorem standsBefore_iff {n : Node} {least : Level} :
    n.standsBefore least ↔ n.bindsAt least ∧ n.endsOpen = false := by
  simp [standsBefore]

/-- An expression at a level is at the next one too, or it is a binary expression of this level, a
comparison for instance. -/
theorem binary_or_bindsAt_succ {n : Node} (level : Level) (he : n.isExpression)
    (hb : n.bindsAt level) (hlow : Level.comparison ≤ level) (hhigh : level ≤ Level.exponent) :
    n.bindsAt (level + 1) ∨ ∃ loc s left right, n = .binary loc s.spelling left right ∧
      TokenKind.symbol s ∈ level.kinds ∧ left.isExpression ∧ left.standsBefore level.sides.1 ∧
      right.isExpression ∧ right.bindsAt level.sides.2 := by
  cases n with
  | binary loc operator left right =>
    cases ho : Level.ofOperator operator with
    | error e => simp [bindsAt, Node.level, ho] at hb
    | ok l =>
      rw [bindsAt_binary ho, decide_eq_true_eq] at hb
      rcases Nat.lt_or_eq_of_le hb with hlt | rfl
      · exact .inl (by rw [bindsAt_binary ho]; exact decide_eq_true hlt)
      · obtain ⟨s, rfl, hs⟩ := Level.symbol_of_ofOperator ho
        rw [isExpression_binary ho] at he
        simp only [Bool.and_eq_true] at he
        obtain ⟨⟨⟨h1, h2⟩, h3⟩, h4⟩ := he
        exact .inr ⟨loc, s, left, right, rfl, hs, h1, h2, h3, h4⟩
  | assignment =>
    exact absurd (Nat.le_trans hlow (of_decide_eq_true hb)) (by decide)
  | _ =>
    exact .inl (decide_eq_true (Nat.le_trans (Nat.succ_le_succ hhigh) (by decide)))

/-- An expression at the level of a sign is one with a sign or a chain. -/
theorem unary_or_bindsAt {n : Node} (he : n.isExpression) (hb : n.bindsAt .unary) :
    (∃ loc argument, n = .unary loc Symbol.sub.spelling argument true) ∨
      n.bindsAt .postfixChain := by
  cases n with
  | unary loc operator argument leading =>
    simp only [isExpression, Bool.and_eq_true, decide_eq_true_eq] at he
    obtain ⟨⟨⟨rfl, rfl⟩, -⟩, -⟩ := he
    exact .inl ⟨loc, argument, rfl⟩
  | binary loc operator left right =>
    cases ho : Level.ofOperator operator with
    | error => simp [bindsAt, Node.level, ho] at hb
    | ok level =>
      rw [bindsAt_binary ho] at hb
      exact absurd (Nat.le_trans (of_decide_eq_true hb) (Level.le_exponent ho)) (by decide)
  | assignment => cases hb
  | _ => exact .inr rfl

theorem standsBefore_of_le {n : Node} {least least' : Level} (h : n.standsBefore least)
    (hle : least' ≤ least) : n.standsBefore least' := by
  rw [standsBefore_iff] at *
  exact ⟨bindsAt_of_le h.1 hle, h.2⟩

/-- An expression is an assignment or binds at least like a comparison. -/
theorem assignment_or_bindsAt {n : Node} (he : n.isExpression) :
    (∃ loc target right, n = .assignment loc target right Symbol.assign.spelling ∧
      target.isTarget ∧ right.isExpression) ∨ n.bindsAt .comparison := by
  cases n with
  | assignment loc target right operator =>
    simp only [isExpression, Bool.and_eq_true, decide_eq_true_eq] at he
    obtain ⟨⟨rfl, ht⟩, hr⟩ := he
    exact .inl ⟨loc, target, right, rfl, ht, hr⟩
  | binary loc operator left right =>
    cases ho : Level.ofOperator operator with
    | error => simp [isExpression, Level.operands, ho, bind, Except.bind] at he
    | ok level =>
      rw [bindsAt_binary ho]
      exact .inr (decide_eq_true (Level.comparison_le ho))
  | _ => exact .inr rfl

theorem bindsAt_of_not_isAssignment {n : Node} (he : n.isExpression) (h : n.isAssignment = false) :
    n.bindsAt .comparison := by
  rcases assignment_or_bindsAt he with ⟨loc, target, right, rfl, -, -⟩ | hb
  · cases h
  · exact hb

theorem bindsAt_assignment {n : Node} (he : n.isExpression) : n.bindsAt .assignment := by
  rcases assignment_or_bindsAt he with ⟨loc, target, right, rfl, -, -⟩ | h
  · rfl
  · exact bindsAt_of_le h (by decide)

/-- A chain is a field, an element or a call of a chain, or a primary. -/
theorem link_or_bindsAt {n : Node} (he : n.isExpression) (hb : n.bindsAt .postfixChain) :
    (∃ loc object loc' name, n = .field loc object (.identifier loc' name) ∧
        object.isExpression ∧ object.standsBefore .postfixChain) ∨
      (∃ loc object i, n = .index loc object i ∧
        object.isExpression ∧ object.standsBefore .postfixChain ∧ i.isExpression) ∨
      (∃ loc callee arguments, n = .call loc callee arguments ∧
        callee.isExpression ∧ callee.standsBefore .postfixChain ∧ allExpressions arguments) ∨
      n.bindsAt .primary := by
  cases n with
  | field loc object name =>
    simp only [isExpression, Bool.and_eq_true] at he
    obtain ⟨⟨h1, h2⟩, h3⟩ := he
    cases name with
    | identifier loc' name => exact .inl ⟨loc, object, loc', name, rfl, h1, h2⟩
    | _ => cases h3
  | index loc object i =>
    simp only [isExpression, Bool.and_eq_true] at he
    exact .inr (.inl ⟨loc, object, i, rfl, he.1.1, he.1.2, he.2⟩)
  | call loc callee arguments =>
    simp only [isExpression, Bool.and_eq_true] at he
    exact .inr (.inr (.inl ⟨loc, callee, arguments, rfl, he.1.1, he.1.2, he.2⟩))
  | binary loc operator left right =>
    cases ho : Level.ofOperator operator with
    | error => simp [bindsAt, Node.level, ho] at hb
    | ok level =>
      rw [bindsAt_binary ho] at hb
      exact absurd (Nat.le_trans (of_decide_eq_true hb) (Level.le_exponent ho)) (by decide)
  | _ => first | exact .inr (.inr (.inr rfl)) | cases hb

end Node

end MagSyntax
