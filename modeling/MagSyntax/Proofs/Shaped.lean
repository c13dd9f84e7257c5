import MagSyntax.Proofs.Formed
import MagSyntax.Proofs.Spelling

/-! What is known of the lexemes that a canonical tree is written with is known of the lexemes of each node
in it, so a property that its own lexemes give a node holds of all nodes in the tree. -/

namespace MagSyntax.Node

/-- The node can stand somewhere in a canonical tree. -/
def IsCanonical (n : Node) : Prop := n.isExpression ∨ n.isTarget ∨ n.isStatement

mutual

theorem isTarget_of_isBinding (n : Node) (h : n.isBinding) : n.isTarget := by
  cases n with
  | identifier => rfl
  | arrayPattern loc elements => exact allTargets_of_allBindings elements h
  | _ => cases h

theorem allTargets_of_allBindings (l : List Node) (h : allBindings l) : allTargets l := by
  cases l with
  | nil => rfl
  | cons n rest =>
    simp only [allBindings, Bool.and_eq_true] at h
    simp only [allTargets, isTarget_of_isBinding n h.1, allTargets_of_allBindings rest h.2,
      Bool.and_self]

end

/-- A property of the lexemes of a tree that those have too that stand together among them, and that gives
a property to the node that they write. -/
structure Gives (bare : Node → Prop) (G : List Lexeme → Prop) (P : Node → Prop) : Prop where
  part : ∀ a b, a <:+: b → G b → G a
  node : ∀ n ls, n.IsCanonical → n.WrittenAs bare ls → G ls → P n

variable {bare : Node → Prop} {G : List Lexeme → Prop} {P : Node → Prop} (h : Gives bare G P)
include h

mutual

theorem expressionOf_writtenAs (n : Node) {ls : List Lexeme} (he : n.isExpression)
    (hw : n.WrittenAs bare ls) (hg : G ls) : n.ExpressionOf P := by
  have hn := h.node n ls (.inl he) hw hg
  cases n with
  | identifier | numeric | string | boolean | regex => exact hn
  | parenthesized loc e =>
    obtain ⟨a, ha, rfl⟩ := hw
    exact ⟨hn, expressionOf_writtenAs e he ha (h.part a _ ⟨[_], [_], rfl⟩ hg)⟩
  | array loc elements =>
    obtain ⟨a, ha, rfl⟩ := hw
    exact ⟨hn, expressionsOf_listWrittenAs elements he ha (h.part a _ ⟨[_], [_], rfl⟩ hg)⟩
  | field loc object name =>
    obtain ⟨a, word, ha, -, -, rfl⟩ := hw
    simp only [isExpression, Bool.and_eq_true] at he
    exact ⟨hn, expressionOf_writtenAs object he.1.1 ha (h.part a _ ⟨[], _, rfl⟩ hg), he.2⟩
  | index loc object i =>
    obtain ⟨a, b, ha, hb, rfl⟩ := hw
    simp only [isExpression, Bool.and_eq_true] at he
    refine ⟨hn, expressionOf_writtenAs object he.1.1 ha
        (h.part a _ ⟨[], .ofSymbol .lbrack :: b ++ [.ofSymbol .rbrack], ?_⟩ hg),
      expressionOf_writtenAs i he.2 hb (h.part b _ ⟨a ++ [.ofSymbol .lbrack], [.ofSymbol .rbrack], ?_⟩ hg)⟩
    · rw [List.nil_append, List.append_assoc]
    · simp
  | call loc callee arguments =>
    obtain ⟨a, b, ha, hb, rfl⟩ := hw
    simp only [isExpression, Bool.and_eq_true] at he
    refine ⟨hn, expressionOf_writtenAs callee he.1.1 ha
        (h.part a _ ⟨[], .ofSymbol .lparen :: b ++ [.ofSymbol .rparen], ?_⟩ hg),
      expressionsOf_listWrittenAs arguments he.2 hb
        (h.part b _ ⟨a ++ [.ofSymbol .lparen], [.ofSymbol .rparen], ?_⟩ hg)⟩
    · rw [List.nil_append, List.append_assoc]
    · simp
  | unary loc operator argument leading =>
    obtain ⟨a, ha, rfl⟩ := hw
    simp only [isExpression, Bool.and_eq_true, decide_eq_true_eq] at he
    exact ⟨hn, he.1.1.1, he.1.1.2,
      expressionOf_writtenAs argument he.1.2 ha (h.part a _ ⟨[_], [], List.append_nil _⟩ hg)⟩
  | binary loc operator left right =>
    obtain ⟨a, b, ha, hb, rfl⟩ := hw
    cases ho : Level.ofOperator operator with
    | error => simp [isExpression, Level.operands, ho, bind, Except.bind] at he
    | ok level =>
      rw [isExpression_binary ho] at he
      simp only [Bool.and_eq_true] at he
      refine ⟨hn, ⟨level, ho⟩,
        expressionOf_writtenAs left he.1.1.1 ha (h.part a _ ⟨[], _, rfl⟩ hg),
        expressionOf_writtenAs right he.1.2 hb (h.part b _ ⟨a ++ [.ofOperator operator], [], ?_⟩ hg)⟩
      simp
  | assignment loc left right operator =>
    obtain ⟨a, b, ha, hb, rfl⟩ := hw
    simp only [isExpression, Bool.and_eq_true, decide_eq_true_eq] at he
    refine ⟨hn, he.1.1, targetOf_writtenAs left he.1.2 ha (h.part a _ ⟨[], _, rfl⟩ hg),
      expressionOf_writtenAs right he.2 hb (h.part b _ ⟨a ++ [.ofOperator operator], [], ?_⟩ hg)⟩
    simp
  | conditional loc condition consequent alternate explicitThen =>
    obtain ⟨a, b, d, ha, hb, hd, rfl⟩ := hw
    have hga : G a := by
      refine h.part a _ ?_ hg
      rw [conditionWords]
      split
      · exact ⟨[.ofKeyword .ifWord], b ++ .ofKeyword .elseWord :: d, by simp⟩
      · split
        · exact ⟨[.ofKeyword .ifWord], .ofKeyword .thenWord :: b ++ .ofKeyword .elseWord :: d, by simp⟩
        · exact ⟨[.ofKeyword .ifWord, .ofSymbol .lparen],
            .ofSymbol .rparen :: b ++ .ofKeyword .elseWord :: d, by simp⟩
    have hgb : G b := h.part b _ ⟨conditionWords consequent explicitThen a, _, rfl⟩ hg
    have hgd : G d := by
      refine h.part d _ ⟨conditionWords consequent explicitThen a ++ b ++ [.ofKeyword .elseWord], [], ?_⟩ hg
      simp
    simp only [isExpression, Bool.and_eq_true] at he
    obtain ⟨hc, he⟩ := he
    refine ⟨hn, expressionOf_writtenAs condition hc ha hga, ?_⟩
    cases hblock : consequent.isBlock with
    | false =>
      simp only [hblock, Bool.false_eq_true, if_false, Bool.and_eq_true] at he
      exact .inl ⟨expressionOf_writtenAs consequent he.1.2 hb hgb,
        expressionOf_writtenAs alternate he.2 hd hgd⟩
    | true =>
      simp only [hblock, if_true, Bool.and_eq_true, Bool.not_eq_true'] at he
      refine .inr ⟨he.1.1.1, rfl, statementOf_writtenAs consequent he.1.2 hb hgb, ?_⟩
      have ha := he.2
      cases hblock : alternate.isBlock with
      | true =>
        rw [hblock, if_pos rfl] at ha
        exact .inl ⟨rfl, statementOf_writtenAs alternate ha hd hgd⟩
      | false =>
        rw [hblock, if_neg Bool.false_ne_true, Bool.and_eq_true] at ha
        exact .inr ⟨ha.1, expressionOf_writtenAs alternate ha.2 hd hgd⟩
  | _ => cases he

theorem expressionsOf_listWrittenAs (l : List Node) {ls : List Lexeme} (he : allExpressions l)
    (hw : ListWrittenAs bare l ls) (hg : G ls) : ExpressionsOf P l := by
  cases l with
  | nil => trivial
  | cons n rest =>
    obtain ⟨a, b, ha, hb, rfl⟩ := hw
    simp only [allExpressions, Bool.and_eq_true] at he
    exact ⟨expressionOf_writtenAs n he.1 ha (h.part a _ ⟨[], _, rfl⟩ hg),
      expressionsOf_restWrittenAs rest he.2 hb (h.part b _ (List.suffix_append a b).isInfix hg)⟩

theorem expressionsOf_restWrittenAs (l : List Node) {ls : List Lexeme} (he : allExpressions l)
    (hw : RestWrittenAs bare l ls) (hg : G ls) : ExpressionsOf P l := by
  cases l with
  | nil => trivial
  | cons n rest =>
    obtain ⟨a, b, ha, hb, rfl⟩ := hw
    simp only [allExpressions, Bool.and_eq_true] at he
    refine ⟨expressionOf_writtenAs n he.1 ha (h.part a _ ⟨[_], b, rfl⟩ hg),
      expressionsOf_restWrittenAs rest he.2 hb (h.part b _ ⟨.ofSymbol .comma :: a, [], ?_⟩ hg)⟩
    simp

theorem targetOf_writtenAs (n : Node) {ls : List Lexeme} (ht : n.isTarget)
    (hw : n.WrittenAs bare ls) (hg : G ls) : n.TargetOf P := by
  have hn := h.node n ls (.inr (.inl ht)) hw hg
  cases n with
  | identifier => exact hn
  | field loc object name =>
    obtain ⟨a, word, ha, -, -, rfl⟩ := hw
    simp only [isTarget, Bool.and_eq_true] at ht
    exact ⟨hn, ht.1.1, expressionOf_writtenAs object ht.1.2 ha (h.part a _ ⟨[], _, rfl⟩ hg), ht.2⟩
  | index loc object i =>
    obtain ⟨a, b, ha, hb, rfl⟩ := hw
    simp only [isTarget, Bool.and_eq_true] at ht
    refine ⟨hn, ht.1.1, expressionOf_writtenAs object ht.1.2 ha
        (h.part a _ ⟨[], .ofSymbol .lbrack :: b ++ [.ofSymbol .rbrack], ?_⟩ hg),
      expressionOf_writtenAs i ht.2 hb (h.part b _ ⟨a ++ [.ofSymbol .lbrack], [.ofSymbol .rbrack], ?_⟩ hg)⟩
    · rw [List.nil_append, List.append_assoc]
    · simp
  | arrayPattern loc elements =>
    obtain ⟨a, ha, rfl⟩ := hw
    exact ⟨hn, targetsOf_listWrittenAs elements ht ha (h.part a _ ⟨[_], [_], rfl⟩ hg)⟩
  | _ => cases ht

theorem targetsOf_listWrittenAs (l : List Node) {ls : List Lexeme} (ht : allTargets l)
    (hw : ListWrittenAs bare l ls) (hg : G ls) : TargetsOf P l := by
  cases l with
  | nil => trivial
  | cons n rest =>
    obtain ⟨a, b, ha, hb, rfl⟩ := hw
    simp only [allTargets, Bool.and_eq_true] at ht
    exact ⟨targetOf_writtenAs n ht.1 ha (h.part a _ ⟨[], _, rfl⟩ hg),
      targetsOf_restWrittenAs rest ht.2 hb (h.part b _ (List.suffix_append a b).isInfix hg)⟩

theorem targetsOf_restWrittenAs (l : List Node) {ls : List Lexeme} (ht : allTargets l)
    (hw : RestWrittenAs bare l ls) (hg : G ls) : TargetsOf P l := by
  cases l with
  | nil => trivial
  | cons n rest =>
    obtain ⟨a, b, ha, hb, rfl⟩ := hw
    simp only [allTargets, Bool.and_eq_true] at ht
    refine ⟨targetOf_writtenAs n ht.1 ha (h.part a _ ⟨[_], b, rfl⟩ hg),
      targetsOf_restWrittenAs rest ht.2 hb (h.part b _ ⟨.ofSymbol .comma :: a, [], ?_⟩ hg)⟩
    simp

theorem statementOf_writtenAs (n : Node) {ls : List Lexeme} (hs : n.isStatement)
    (hw : n.WrittenAs bare ls) (hg : G ls) : n.StatementOf P := by
  have hn := h.node n ls (.inr (.inr hs)) hw hg
  cases n with
  | block loc body =>
    obtain ⟨a, ha, rfl⟩ := hw
    exact ⟨hn, statementsOf_writtenAs body hs ha (h.part a _ ⟨[_], [_], rfl⟩ hg)⟩
  | expressionStatement loc e =>
    obtain ⟨a, ha, rfl⟩ := hw
    simp only [isStatement, Bool.and_eq_true] at hs
    exact ⟨hn, expressionOf_writtenAs e hs.1.1 ha (h.part a _ ⟨[], _, rfl⟩ hg)⟩
  | conditionalStatement loc condition consequent alternate =>
    obtain ⟨a, b, d, ha, hb, hd, hls⟩ := hw
    simp only [isStatement, Bool.and_eq_true] at hs
    obtain ⟨⟨⟨hc, hq⟩, halt⟩, -⟩ := hs
    have hparts : a <:+: ls ∧ b <:+: ls ∧ d <:+: ls := by
      rcases hls with rfl | ⟨-, -, -, rfl⟩
      · exact ⟨⟨[.ofKeyword .ifWord, .ofSymbol .lparen], .ofSymbol .rparen :: b ++ d, by simp⟩,
          ⟨.ofKeyword .ifWord :: .ofSymbol .lparen :: a ++ [.ofSymbol .rparen], d, by simp⟩,
          ⟨.ofKeyword .ifWord :: .ofSymbol .lparen :: a ++ .ofSymbol .rparen :: b, [], by simp⟩⟩
      · exact ⟨⟨[.ofKeyword .ifWord], b ++ d, by simp⟩, ⟨.ofKeyword .ifWord :: a, d, by simp⟩,
          ⟨.ofKeyword .ifWord :: a ++ b, [], by simp⟩⟩
    refine ⟨hn, expressionOf_writtenAs condition hc ha (h.part a _ hparts.1 hg),
      statementOf_writtenAs consequent hq hb (h.part b _ hparts.2.1 hg), ?_⟩
    cases alternate with
    | none => trivial
    | some alternate =>
      obtain ⟨e, he, rfl⟩ := hd
      have hge := h.part e _ ((List.suffix_cons _ e).isInfix.trans hparts.2.2) hg
      exact statementOf_writtenAs alternate halt he hge
  | declaration loc left type right constant mutable =>
    obtain ⟨a, b, d, ha, hb, hd, rfl⟩ := hw
    simp only [isStatement, Bool.and_eq_true, Bool.not_eq_true'] at hs
    obtain ⟨⟨⟨hl, ht⟩, hr⟩, hcm⟩ := hs
    have hga := h.part a _ ⟨declarationWords constant mutable, b ++ d ++ [.ofSymbol .semi], by simp⟩ hg
    have hgb := h.part b _ ⟨declarationWords constant mutable ++ a, d ++ [.ofSymbol .semi], by simp⟩ hg
    have hgd := h.part d _ ⟨declarationWords constant mutable ++ a ++ b, [.ofSymbol .semi], rfl⟩ hg
    refine ⟨hn, hl, targetOf_writtenAs left (isTarget_of_isBinding left hl) ha hga, ?_, ?_, hcm⟩
    · cases type with
      | none => trivial
      | some type =>
        obtain ⟨e, he, rfl⟩ := hb
        simp only [noneOrType, Bool.and_eq_true] at ht
        exact expressionOf_writtenAs type ht.1.1 he (h.part e _ (List.suffix_cons _ e).isInfix hgb)
    · cases right with
      | none => trivial
      | some right =>
        obtain ⟨e, he, rfl⟩ := hd
        exact expressionOf_writtenAs right hr he (h.part e _ (List.suffix_cons _ e).isInfix hgd)
  | _ => cases hs

theorem statementsOf_writtenAs (l : List Node) {ls : List Lexeme} (hs : allStatements l)
    (hw : AllWrittenAs bare l ls) (hg : G ls) : StatementsOf P l := by
  cases l with
  | nil => trivial
  | cons n rest =>
    obtain ⟨a, b, ha, hb, rfl⟩ := hw
    simp only [allStatements, Bool.and_eq_true] at hs
    exact ⟨statementOf_writtenAs n hs.1 ha (h.part a _ ⟨[], _, rfl⟩ hg),
      statementsOf_writtenAs rest hs.2 hb (h.part b _ (List.suffix_append a b).isInfix hg)⟩

end

end MagSyntax.Node
