import MagSyntax.Proofs.Shaped

/-! Properties of lexemes that hold of what a tree is written as because they hold of its parts: of single lexemes,
of a dot with the name of a field, of what stands in braces, and of what is put together from such. -/

namespace MagSyntax

namespace Lexeme

/-- The property passes on from the parts of a tree to the tree. A dot and the braces count only with what belongs to
them. -/
structure Composes (P : List Lexeme → Prop) : Prop where
  nil : P []
  append {a b : List Lexeme} : P a → P b → P (a ++ b)
  single {l : Lexeme} : l.kind ∉ [TokenKind.symbol .dot, Symbol.lbrace, Symbol.rbrace] → P [l]
  field {word : Lexeme} : word.NamesField → P [.ofSymbol .dot, word]
  braced {a : List Lexeme} : P a → P (.ofSymbol .lbrace :: a ++ [.ofSymbol .rbrace])

namespace Composes

variable {P : List Lexeme → Prop} (h : Composes P) {a : List Lexeme}
include h

theorem cons {l : Lexeme} (hl : l.kind ∉ [TokenKind.symbol .dot, Symbol.lbrace, Symbol.rbrace]) (ha : P a) :
    P (l :: a) :=
  h.append (h.single hl) ha

theorem keyword {w : Keyword} (ha : P a) : P (.ofKeyword w :: a) := h.cons (by simp [ofKeyword]) ha

theorem parentheses (ha : P a) : P (.ofSymbol .lparen :: a ++ [.ofSymbol .rparen]) :=
  h.cons (by decide) (h.append ha (h.single (by decide)))

theorem brackets (ha : P a) : P (.ofSymbol .lbrack :: a ++ [.ofSymbol .rbrack]) :=
  h.cons (by decide) (h.append ha (h.single (by decide)))

theorem operator {operator : Text} {level : Level} (ho : Level.ofOperator operator = .ok level) (ha : P a) :
    P (ofOperator operator :: a) := by
  obtain ⟨s, rfl, -⟩ := Level.symbol_of_ofOperator ho
  rw [ofOperator_spelling]
  refine h.cons ?_ ha
  cases s <;> first | decide | cases ho

theorem conditionWords {consequent : Node} {explicitThen : Bool} (ha : P a) :
    P (Node.conditionWords consequent explicitThen a) := by
  unfold Node.conditionWords
  refine h.keyword ?_
  split
  · exact ha
  · split
    · exact h.append ha (h.keyword h.nil)
    · exact h.parentheses ha

theorem declarationWords {constant mutable : Bool} : P (Node.declarationWords constant mutable) := by
  cases constant <;> cases mutable <;> first
    | exact h.keyword h.nil
    | exact h.keyword (h.keyword h.nil)

end Composes

end Lexeme

namespace Node

open Lexeme

theorem isExpression_of_noneOrType {followed : Bool} {n : Node} (h : noneOrType followed (some n)) :
    n.isExpression := by
  simp only [noneOrType, Bool.and_eq_true] at h
  exact h.1.1

variable {bare : Node → Prop} {P : List Lexeme → Prop} (hP : Composes P) {ls : List Lexeme}
include hP

theorem composed_of_rest {l : List Node} (h : RestWrittenAs bare l ls)
    (hp : ∀ n ∈ l, ∀ a, n.WrittenAs bare a → P a) : P ls := by
  induction l generalizing ls with
  | nil =>
    rcases h with rfl | rfl
    · exact hP.nil
    · exact hP.single (by decide)
  | cons n rest ih =>
    obtain ⟨a, b, ha, hb, rfl⟩ := h
    rw [List.forall_mem_cons] at hp
    exact hP.cons (by decide) (hP.append (hp.1 a ha) (ih hb hp.2))

theorem composed_of_list {l : List Node} (h : ListWrittenAs bare l ls)
    (hp : ∀ n ∈ l, ∀ a, n.WrittenAs bare a → P a) : P ls := by
  cases l with
  | nil =>
    cases h
    exact hP.nil
  | cons n rest =>
    obtain ⟨a, b, ha, hb, rfl⟩ := h
    rw [List.forall_mem_cons] at hp
    exact hP.append (hp.1 a ha) (composed_of_rest hP hb hp.2)

theorem composed_of_all {l : List Node} (h : AllWrittenAs bare l ls)
    (hp : ∀ n ∈ l, ∀ a, n.WrittenAs bare a → P a) : P ls := by
  induction l generalizing ls with
  | nil =>
    cases h
    exact hP.nil
  | cons n rest ih =>
    obtain ⟨a, b, ha, hb, rfl⟩ := h
    rw [List.forall_mem_cons] at hp
    exact hP.append (hp.1 a ha) (ih hb hp.2)

theorem composed_of_marked {mark : Lexeme} {o : Option Node} (h : MarkedWrittenAs bare mark o ls)
    (hm : mark.kind ∉ [TokenKind.symbol .dot, Symbol.lbrace, Symbol.rbrace])
    (hp : ∀ n, o = some n → ∀ a, n.WrittenAs bare a → P a) : P ls := by
  cases o with
  | none =>
    cases h
    exact hP.nil
  | some n =>
    obtain ⟨a, ha, rfl⟩ := h
    exact hP.cons hm (hp n rfl a ha)

mutual

/-- What an expression is written as has the property. -/
theorem composed_of_isExpression (n : Node) {ls : List Lexeme} (he : n.isExpression)
    (h : n.WrittenAs bare ls) : P ls := by
  cases n with
  | identifier | numeric | string | regex =>
    cases h
    exact hP.single (by simp)
  | boolean loc value =>
    cases h
    exact hP.keyword hP.nil
  | parenthesized loc e =>
    obtain ⟨a, ha, rfl⟩ := h
    exact hP.parentheses (composed_of_isExpression e he ha)
  | array loc elements =>
    obtain ⟨a, ha, rfl⟩ := h
    exact hP.brackets (composed_of_list hP ha fun n hn a ha =>
      composed_of_isExpression n (allExpressions_iff.mp he n hn) ha)
  | unary loc operator argument leading =>
    obtain ⟨a, ha, rfl⟩ := h
    simp only [isExpression, Bool.and_eq_true, decide_eq_true_eq] at he
    rw [he.1.1.1]
    exact hP.cons (by decide) (composed_of_isExpression argument he.1.2 ha)
  | field loc object name =>
    obtain ⟨a, word, ha, hw, -, rfl⟩ := h
    simp only [isExpression, Bool.and_eq_true] at he
    exact hP.append (composed_of_isExpression object he.1.1 ha) (hP.field hw)
  | index loc object i =>
    obtain ⟨a, b, ha, hb, rfl⟩ := h
    simp only [isExpression, Bool.and_eq_true] at he
    rw [List.append_assoc]
    exact hP.append (composed_of_isExpression object he.1.1 ha)
      (hP.brackets (composed_of_isExpression i he.2 hb))
  | call loc callee arguments =>
    obtain ⟨a, b, ha, hb, rfl⟩ := h
    simp only [isExpression, Bool.and_eq_true] at he
    rw [List.append_assoc]
    exact hP.append (composed_of_isExpression callee he.1.1 ha)
      (hP.parentheses (composed_of_list hP hb fun n hn a ha =>
        composed_of_isExpression n (allExpressions_iff.mp he.2 n hn) ha))
  | binary loc operator left right =>
    obtain ⟨a, b, ha, hb, rfl⟩ := h
    cases ho : Level.ofOperator operator with
    | error => simp [isExpression, Level.operands, ho, bind, Except.bind] at he
    | ok level =>
      rw [isExpression_binary ho] at he
      simp only [Bool.and_eq_true] at he
      exact hP.append (composed_of_isExpression left he.1.1.1 ha)
        (hP.operator ho (composed_of_isExpression right he.1.2 hb))
  | assignment loc left right operator =>
    obtain ⟨a, b, ha, hb, rfl⟩ := h
    simp only [isExpression, Bool.and_eq_true, decide_eq_true_eq] at he
    rw [he.1.1]
    exact hP.append (composed_of_isTarget left he.1.2 ha)
      (hP.cons (by decide) (composed_of_isExpression right he.2 hb))
  | conditional loc condition consequent alternate explicitThen =>
    obtain ⟨a, b, d, ha, hb, hd, rfl⟩ := h
    simp only [isExpression, Bool.and_eq_true] at he
    have hbranches : P b ∧ P d := by
      cases hq : consequent.isBlock with
      | true =>
        simp only [hq, if_true, Bool.and_eq_true] at he
        refine ⟨composed_of_isStatement consequent he.2.1.2 hb, ?_⟩
        cases hr : alternate.isBlock with
        | true =>
          simp only [hr, if_true] at he
          exact composed_of_isStatement alternate he.2.2 hd
        | false =>
          simp only [hr, Bool.false_eq_true, if_false, Bool.and_eq_true] at he
          exact composed_of_isExpression alternate he.2.2.2 hd
      | false =>
        simp only [hq, Bool.false_eq_true, if_false, Bool.and_eq_true] at he
        exact ⟨composed_of_isExpression consequent he.2.1.2 hb, composed_of_isExpression alternate he.2.2 hd⟩
    have hcondition : P (conditionWords consequent explicitThen a) :=
      hP.conditionWords (composed_of_isExpression condition he.1 ha)
    exact hP.append (hP.append hcondition hbranches.1) (hP.keyword hbranches.2)
  | _ => cases he
termination_by n
decreasing_by all_goals
  subst_eqs
  first | (simp <;> omega) | (have hm := List.sizeOf_lt_of_mem ‹_ ∈ _›; simp; omega)

theorem composed_of_isTarget (n : Node) {ls : List Lexeme} (ht : n.isTarget)
    (h : n.WrittenAs bare ls) : P ls := by
  cases n with
  | identifier =>
    cases h
    exact hP.single (by simp)
  | field loc object name =>
    obtain ⟨a, word, ha, hw, -, rfl⟩ := h
    simp only [isTarget, Bool.and_eq_true] at ht
    exact hP.append (composed_of_isExpression object ht.1.2 ha) (hP.field hw)
  | index loc object i =>
    obtain ⟨a, b, ha, hb, rfl⟩ := h
    simp only [isTarget, Bool.and_eq_true] at ht
    rw [List.append_assoc]
    exact hP.append (composed_of_isExpression object ht.1.2 ha)
      (hP.brackets (composed_of_isExpression i ht.2 hb))
  | arrayPattern loc elements =>
    obtain ⟨a, ha, rfl⟩ := h
    exact hP.brackets (composed_of_list hP ha fun n hn a ha =>
      composed_of_isTarget n (allTargets_iff.mp ht n hn) ha)
  | _ => cases ht
termination_by n
decreasing_by all_goals
  subst_eqs
  first | (simp <;> omega) | (have hm := List.sizeOf_lt_of_mem ‹_ ∈ _›; simp; omega)

/-- What a statement is written as has the property. -/
theorem composed_of_isStatement (n : Node) {ls : List Lexeme} (hs : n.isStatement)
    (h : n.WrittenAs bare ls) : P ls := by
  cases n with
  | block loc body =>
    obtain ⟨a, ha, rfl⟩ := h
    exact hP.braced (composed_of_all hP ha fun n hn a ha =>
      composed_of_isStatement n (allStatements_iff.mp hs n hn) ha)
  | expressionStatement loc e =>
    obtain ⟨a, ha, rfl⟩ := h
    simp only [isStatement, Bool.and_eq_true] at hs
    exact hP.append (composed_of_isExpression e hs.1.1 ha) (hP.single (by decide))
  | conditionalStatement loc condition consequent alternate =>
    obtain ⟨a, b, d, ha, hb, hd, hls⟩ := h
    simp only [isStatement, Bool.and_eq_true] at hs
    have pa := composed_of_isExpression condition hs.1.1.1 ha
    have pb := composed_of_isStatement consequent hs.1.1.2 hb
    have pd : P d := composed_of_marked hP hd (by decide) fun n hn a ha =>
      composed_of_isStatement n (by cases hn; exact hs.1.2) ha
    rcases hls with rfl | ⟨-, -, -, rfl⟩
    · rw [List.append_cons _ (ofSymbol .rparen)]
      exact hP.append (hP.keyword (hP.append (hP.parentheses pa) pb)) pd
    · exact hP.append (hP.keyword (hP.append pa pb)) pd
  | declaration loc left type right constant mutable =>
    obtain ⟨a, b, d, ha, hb, hd, rfl⟩ := h
    simp only [isStatement, Bool.and_eq_true] at hs
    have pa := composed_of_isTarget left (isTarget_of_isBinding left hs.1.1.1) ha
    have pb : P b := composed_of_marked hP hb (by decide) fun n hn a ha =>
      composed_of_isExpression n (isExpression_of_noneOrType (by cases hn; exact hs.1.1.2)) ha
    have pd : P d := composed_of_marked hP hd (by decide) fun n hn a ha =>
      composed_of_isExpression n (by cases hn; exact hs.1.2) ha
    exact hP.append (hP.append (hP.append (hP.append hP.declarationWords pa) pb) pd) (hP.single (by decide))
  | _ => cases hs
termination_by n
decreasing_by all_goals
  subst_eqs
  first | (simp <;> omega) | (have hm := List.sizeOf_lt_of_mem ‹_ ∈ _›; simp; omega)

end

end Node

end MagSyntax
