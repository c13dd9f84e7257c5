import MagSyntax.Grammar.Run
import MagSyntax.Proofs.Printing

/-! Trees in which every node is of a sort that can stand in its place, however tightly it binds there.
These are the trees that can be printed; with what printing adds they are canonical. A property of
single nodes can be asked of all nodes in them. -/

namespace MagSyntax

namespace Node

variable (P : Node → Prop)

mutual

/-- The tree is an expression, and its nodes have the property. -/
def ExpressionOf : Node → Prop
  | .identifier loc name => P (.identifier loc name)
  | .numeric loc digits base => P (.numeric loc digits base)
  | .string loc value => P (.string loc value)
  | .boolean loc value => P (.boolean loc value)
  | .regex loc pattern flags => P (.regex loc pattern flags)
  | .parenthesized loc e => P (.parenthesized loc e) ∧ e.ExpressionOf
  | .array loc elements => P (.array loc elements) ∧ ExpressionsOf elements
  | .field loc object name => P (.field loc object name) ∧ object.ExpressionOf ∧ name.isIdentifier
  | .index loc object i => P (.index loc object i) ∧ object.ExpressionOf ∧ i.ExpressionOf
  | .call loc callee arguments =>
    P (.call loc callee arguments) ∧ callee.ExpressionOf ∧ ExpressionsOf arguments
  | .unary loc operator argument leading =>
    P (.unary loc operator argument leading) ∧ operator = Symbol.sub.spelling ∧ leading ∧
      argument.ExpressionOf
  | .binary loc operator left right =>
    P (.binary loc operator left right) ∧ (∃ level, Level.ofOperator operator = .ok level) ∧
      left.ExpressionOf ∧ right.ExpressionOf
  | .assignment loc left right operator =>
    P (.assignment loc left right operator) ∧ operator = Symbol.assign.spelling ∧ left.TargetOf ∧
      right.ExpressionOf
  | .conditional loc condition consequent alternate explicitThen =>
    P (.conditional loc condition consequent alternate explicitThen) ∧ condition.ExpressionOf ∧
      (consequent.ExpressionOf ∧ alternate.ExpressionOf ∨
        explicitThen = false ∧ consequent.isBlock ∧ consequent.StatementOf ∧
          (alternate.isBlock ∧ alternate.StatementOf ∨
            alternate.isConditional ∧ alternate.ExpressionOf))
  | _ => False

/-- The trees are expressions, and their nodes have the property. -/
def ExpressionsOf : List Node → Prop
  | [] => True
  | n :: rest => n.ExpressionOf ∧ ExpressionsOf rest

/-- Something can be assigned to the tree, and its nodes have the property. -/
def TargetOf : Node → Prop
  | .identifier loc name => P (.identifier loc name)
  | .field loc object name =>
    P (.field loc object name) ∧ object.isRooted ∧ object.ExpressionOf ∧ name.isIdentifier
  | .index loc object i =>
    P (.index loc object i) ∧ object.isRooted ∧ object.ExpressionOf ∧ i.ExpressionOf
  | .arrayPattern loc elements => P (.arrayPattern loc elements) ∧ TargetsOf elements
  | _ => False

/-- The trees are targets, and their nodes have the property. -/
def TargetsOf : List Node → Prop
  | [] => True
  | n :: rest => n.TargetOf ∧ TargetsOf rest

/-- The tree is a statement, and its nodes have the property. -/
def StatementOf : Node → Prop
  | .block loc body => P (.block loc body) ∧ StatementsOf body
  | .expressionStatement loc e => P (.expressionStatement loc e) ∧ e.ExpressionOf
  | .conditionalStatement loc condition consequent alternate =>
    P (.conditionalStatement loc condition consequent alternate) ∧ condition.ExpressionOf ∧
      consequent.StatementOf ∧ NoneOrStatementOf alternate
  | .declaration loc left type right constant mutable =>
    P (.declaration loc left type right constant mutable) ∧ left.isBinding ∧ left.TargetOf ∧
      NoneOrExpressionOf type ∧ NoneOrExpressionOf right ∧ (constant && mutable) = false
  | _ => False

/-- The trees are statements, and their nodes have the property. -/
def StatementsOf : List Node → Prop
  | [] => True
  | n :: rest => n.StatementOf ∧ StatementsOf rest

/-- The tree, if it is there, is a statement whose nodes have the property. -/
def NoneOrStatementOf : Option Node → Prop
  | none => True
  | some n => n.StatementOf

/-- The tree, if it is there, is an expression whose nodes have the property. -/
def NoneOrExpressionOf : Option Node → Prop
  | none => True
  | some n => n.ExpressionOf

end

variable {P}

theorem expressionsOf_iff {l : List Node} : ExpressionsOf P l ↔ ∀ n ∈ l, n.ExpressionOf P := by
  induction l with
  | nil => simp [ExpressionsOf]
  | cons n rest ih => simp only [ExpressionsOf, ih, List.forall_mem_cons]

theorem statementsOf_iff {l : List Node} : StatementsOf P l ↔ ∀ n ∈ l, n.StatementOf P := by
  induction l with
  | nil => simp [StatementsOf]
  | cons n rest ih => simp only [StatementsOf, ih, List.forall_mem_cons]

theorem ExpressionOf.isBlock {n : Node} (h : n.ExpressionOf P) : n.isBlock = false := by
  cases n <;> first | rfl | cases h

section Both

variable {Q R : Node → Prop}

mutual

/-- Two properties that all nodes of an expression have give them every property that follows. -/
theorem ExpressionOf.both (hR : ∀ n, P n → Q n → R n) {n : Node}
    (hp : n.ExpressionOf P) (hq : n.ExpressionOf Q) : n.ExpressionOf R := by
  cases n with
  | identifier | numeric | string | boolean | regex => exact hR _ hp hq
  | parenthesized loc e => exact ⟨hR _ hp.1 hq.1, hp.2.both hR hq.2⟩
  | array loc elements => exact ⟨hR _ hp.1 hq.1, hp.2.both hR hq.2⟩
  | field loc object name => exact ⟨hR _ hp.1 hq.1, hp.2.1.both hR hq.2.1, hp.2.2⟩
  | index loc object i => exact ⟨hR _ hp.1 hq.1, hp.2.1.both hR hq.2.1, hp.2.2.both hR hq.2.2⟩
  | call loc callee arguments =>
    exact ⟨hR _ hp.1 hq.1, hp.2.1.both hR hq.2.1, hp.2.2.both hR hq.2.2⟩
  | unary loc operator argument leading =>
    exact ⟨hR _ hp.1 hq.1, hp.2.1, hp.2.2.1, hp.2.2.2.both hR hq.2.2.2⟩
  | binary loc operator left right =>
    exact ⟨hR _ hp.1 hq.1, hp.2.1, hp.2.2.1.both hR hq.2.2.1, hp.2.2.2.both hR hq.2.2.2⟩
  | assignment loc left right operator =>
    exact ⟨hR _ hp.1 hq.1, hp.2.1, hp.2.2.1.both hR hq.2.2.1, hp.2.2.2.both hR hq.2.2.2⟩
  | conditional loc condition consequent alternate explicitThen =>
    obtain ⟨hp, hpc, hpb⟩ := hp
    obtain ⟨hq, hqc, hqb⟩ := hq
    refine ⟨hR _ hp hq, hpc.both hR hqc, ?_⟩
    rcases hpb with ⟨hpq, hpa⟩ | ⟨ht, hb, hpq, hpa⟩ <;>
      rcases hqb with ⟨hqq, hqa⟩ | ⟨-, hb', hqq, hqa⟩
    · exact .inl ⟨hpq.both hR hqq, hpa.both hR hqa⟩
    · exact absurd (hpq.isBlock.symm.trans hb') Bool.false_ne_true
    · exact absurd (hqq.isBlock.symm.trans hb) Bool.false_ne_true
    · refine .inr ⟨ht, hb, hpq.both hR hqq, ?_⟩
      rcases hpa with ⟨ha, hpa⟩ | ⟨ha, hpa⟩ <;> rcases hqa with ⟨ha', hqa⟩ | ⟨-, hqa⟩
      · exact .inl ⟨ha, hpa.both hR hqa⟩
      · exact absurd (hqa.isBlock.symm.trans ha) Bool.false_ne_true
      · exact absurd (hpa.isBlock.symm.trans ha') Bool.false_ne_true
      · exact .inr ⟨ha, hpa.both hR hqa⟩
  | _ => exact hp.elim

theorem ExpressionsOf.both (hR : ∀ n, P n → Q n → R n) {l : List Node}
    (hp : ExpressionsOf P l) (hq : ExpressionsOf Q l) : ExpressionsOf R l := by
  cases l with
  | nil => trivial
  | cons n rest => exact ⟨hp.1.both hR hq.1, hp.2.both hR hq.2⟩

theorem TargetOf.both (hR : ∀ n, P n → Q n → R n) {n : Node}
    (hp : n.TargetOf P) (hq : n.TargetOf Q) : n.TargetOf R := by
  cases n with
  | identifier => exact hR _ hp hq
  | field loc object name => exact ⟨hR _ hp.1 hq.1, hp.2.1, hp.2.2.1.both hR hq.2.2.1, hp.2.2.2⟩
  | index loc object i =>
    exact ⟨hR _ hp.1 hq.1, hp.2.1, hp.2.2.1.both hR hq.2.2.1, hp.2.2.2.both hR hq.2.2.2⟩
  | arrayPattern loc elements => exact ⟨hR _ hp.1 hq.1, hp.2.both hR hq.2⟩
  | _ => exact hp.elim

theorem TargetsOf.both (hR : ∀ n, P n → Q n → R n) {l : List Node}
    (hp : TargetsOf P l) (hq : TargetsOf Q l) : TargetsOf R l := by
  cases l with
  | nil => trivial
  | cons n rest => exact ⟨hp.1.both hR hq.1, hp.2.both hR hq.2⟩

theorem StatementOf.both (hR : ∀ n, P n → Q n → R n) {n : Node}
    (hp : n.StatementOf P) (hq : n.StatementOf Q) : n.StatementOf R := by
  cases n with
  | block loc body => exact ⟨hR _ hp.1 hq.1, hp.2.both hR hq.2⟩
  | expressionStatement loc e => exact ⟨hR _ hp.1 hq.1, hp.2.both hR hq.2⟩
  | conditionalStatement loc condition consequent alternate =>
    exact ⟨hR _ hp.1 hq.1, hp.2.1.both hR hq.2.1, hp.2.2.1.both hR hq.2.2.1,
      hp.2.2.2.both hR hq.2.2.2⟩
  | declaration loc left type right constant mutable =>
    obtain ⟨hp, hl, hpl, hpt, hpr, hcm⟩ := hp
    obtain ⟨hq, -, hql, hqt, hqr, -⟩ := hq
    exact ⟨hR _ hp hq, hl, hpl.both hR hql, hpt.both hR hqt, hpr.both hR hqr, hcm⟩
  | _ => exact hp.elim

theorem StatementsOf.both (hR : ∀ n, P n → Q n → R n) {l : List Node}
    (hp : StatementsOf P l) (hq : StatementsOf Q l) : StatementsOf R l := by
  cases l with
  | nil => trivial
  | cons n rest => exact ⟨hp.1.both hR hq.1, hp.2.both hR hq.2⟩

theorem NoneOrStatementOf.both (hR : ∀ n, P n → Q n → R n) {n : Option Node}
    (hp : NoneOrStatementOf P n) (hq : NoneOrStatementOf Q n) : NoneOrStatementOf R n := by
  cases n with
  | none => trivial
  | some n => exact StatementOf.both hR hp hq

theorem NoneOrExpressionOf.both (hR : ∀ n, P n → Q n → R n) {n : Option Node}
    (hp : NoneOrExpressionOf P n) (hq : NoneOrExpressionOf Q n) : NoneOrExpressionOf R n := by
  cases n with
  | none => trivial
  | some n => exact ExpressionOf.both hR hp hq

end

end Both

theorem needsGroup_eq (n : Node) (least : Level) :
    n.needsGroup least true = !n.standsBefore least := by
  simp [needsGroup, standsBefore]

theorem needsGroup_eq_bindsAt (n : Node) (least : Level) :
    n.needsGroup least false = !n.bindsAt least := by
  simp [needsGroup]

/-- An operand with the parentheses that it needs can stand before more text. -/
theorem standsBefore_grouped {n : Node} {least : Level} (hl : least ≤ Level.primary) :
    (grouped (n.needsGroup least true) n.enclosed).standsBefore least := by
  have h := needsGroup_grouped n least true hl
  rwa [needsGroup_eq, Bool.not_eq_false'] at h

theorem bindsAt_grouped {n : Node} {least : Level} (hl : least ≤ Level.primary) :
    (grouped (n.needsGroup least false) n.enclosed).bindsAt least := by
  have h := needsGroup_grouped n least false hl
  rwa [needsGroup_eq_bindsAt, Bool.not_eq_false'] at h

theorem isExpression_grouped {b : Bool} {n : Node} (h : n.isExpression) :
    (grouped b n).isExpression := by
  cases b <;> exact h

theorem needsGroup_of_isRooted {n : Node} (h : n.isRooted) :
    n.needsGroup .postfixChain true = false := by
  cases n <;> first | rfl | cases h

theorem isRooted_enclosed (n : Node) (h : n.isRooted) : n.enclosed.isRooted := by
  cases n with
  | identifier => rfl
  | field loc object name =>
    rw [enclosed, needsGroup_of_isRooted (n := object) h]
    exact isRooted_enclosed object h
  | index loc object i =>
    rw [enclosed, needsGroup_of_isRooted (n := object) h]
    exact isRooted_enclosed object h
  | call loc callee arguments =>
    rw [enclosed, needsGroup_of_isRooted (n := callee) h]
    exact isRooted_enclosed callee h
  | _ => cases h

theorem isConditional_enclosed (n : Node) (h : n.isConditional) : n.enclosed.isConditional := by
  cases n <;> first | rfl | cases h

mutual

theorem isBinding_enclosed (n : Node) (h : n.isBinding) : n.enclosed.isBinding := by
  cases n with
  | identifier => rfl
  | arrayPattern loc elements => exact allBindings_enclosed elements h
  | _ => cases h

theorem allBindings_enclosed (l : List Node) (h : allBindings l) : allBindings (allEnclosed l) := by
  cases l with
  | nil => rfl
  | cons n rest =>
    simp only [allBindings, Bool.and_eq_true] at h
    simp only [allEnclosed, allBindings, isBinding_enclosed n h.1, allBindings_enclosed rest h.2,
      Bool.and_self]

end

/-- The condition of an `if` with a `then` or with blocks is no assignment when it is printed. -/
theorem isAssignment_grouped_bare (n : Node) :
    (grouped n.needsGroupBare n.enclosed).isAssignment = false := by
  cases h : n.needsGroupBare with
  | true => rfl
  | false =>
    simp only [needsGroupBare, Bool.or_eq_false_iff, needsGroup_eq, Bool.not_eq_false'] at h
    rw [grouped_false, isAssignment_enclosed]
    exact not_isAssignment_of_bindsAt (standsBefore_iff.mp h.1).1

/-- What stands as a statement is neither an assignment nor starts with an `if` when it is printed. -/
theorem grouped_statement (n : Node) :
    (grouped (n.isAssignment || n.startsWithIf) n.enclosed).isAssignment = false ∧
      (grouped (n.isAssignment || n.startsWithIf) n.enclosed).startsWithIf = false := by
  cases h : n.isAssignment || n.startsWithIf with
  | true => exact ⟨rfl, rfl⟩
  | false =>
    rw [Bool.or_eq_false_iff] at h
    refine ⟨(isAssignment_enclosed n).trans h.1, Bool.eq_false_iff.mpr fun hif => ?_⟩
    exact absurd (startsWithIf_of_enclosed n hif) (by simp [h.2])

/-- A type is no assignment when it is printed, and not open before a value. -/
theorem grouped_type (n : Node) (followed : Bool) :
    (grouped (n.needsGroup .comparison followed) n.enclosed).isAssignment = false ∧
      (followed && (grouped (n.needsGroup .comparison followed) n.enclosed).endsOpen) = false := by
  have h := needsGroup_grouped n .comparison followed (by decide)
  rw [needsGroup, Bool.or_eq_false_iff, Bool.not_eq_false'] at h
  exact ⟨not_isAssignment_of_bindsAt h.1, h.2⟩

mutual

/-- With what printing adds an expression is canonical. -/
theorem isExpression_enclosed (n : Node) (h : n.ExpressionOf P) : n.enclosed.isExpression := by
  cases n with
  | parenthesized loc e => exact isExpression_enclosed e h.2
  | array loc elements => exact allExpressions_enclosed elements h.2
  | field loc object name =>
    simp only [enclosed, isExpression, Bool.and_eq_true]
    exact ⟨⟨isExpression_grouped (isExpression_enclosed object h.2.1),
      standsBefore_grouped (by decide)⟩, h.2.2⟩
  | index loc object i =>
    simp only [enclosed, isExpression, Bool.and_eq_true]
    exact ⟨⟨isExpression_grouped (isExpression_enclosed object h.2.1),
      standsBefore_grouped (by decide)⟩, isExpression_enclosed i h.2.2⟩
  | call loc callee arguments =>
    simp only [enclosed, isExpression, Bool.and_eq_true]
    exact ⟨⟨isExpression_grouped (isExpression_enclosed callee h.2.1),
      standsBefore_grouped (by decide)⟩, allExpressions_enclosed arguments h.2.2⟩
  | unary loc operator argument leading =>
    obtain ⟨-, rfl, rfl, ha⟩ := h
    rw [enclosed, isExpression_unary, Bool.and_eq_true]
    exact ⟨isExpression_grouped (isExpression_enclosed argument ha), bindsAt_grouped (by decide)⟩
  | binary loc operator left right =>
    obtain ⟨-, ⟨level, ho⟩, hl, hr⟩ := h
    have hle := sides_le_primary ho
    rw [enclosed_binary ho, isExpression_binary ho]
    simp only [Bool.and_eq_true]
    exact ⟨⟨⟨isExpression_grouped (isExpression_enclosed left hl), standsBefore_grouped hle.1⟩,
      isExpression_grouped (isExpression_enclosed right hr)⟩, bindsAt_grouped hle.2⟩
  | assignment loc left right operator =>
    obtain ⟨-, rfl, hl, hr⟩ := h
    simp only [enclosed, isExpression, Bool.and_eq_true, decide_eq_true_eq]
    exact ⟨⟨trivial, isTarget_enclosed left hl⟩, isExpression_enclosed right hr⟩
  | conditional loc condition consequent alternate explicitThen =>
    obtain ⟨-, hc, hb⟩ := h
    have hc := isExpression_enclosed condition hc
    simp only [enclosed, isExpression, isExpression_grouped hc, Bool.true_and]
    rcases hb with ⟨hq, ha⟩ | ⟨rfl, hb, hq, ha⟩
    · rw [isBlock_enclosed, hq.isBlock, if_neg (by decide), Bool.or_false]
      simp only [isExpression_enclosed consequent hq, isExpression_enclosed alternate ha,
        Bool.and_true]
      cases explicitThen with
      | false => rfl
      | true => rw [Bool.true_and, isAssignment_grouped_bare]; rfl
    · rw [isBlock_enclosed, hb, if_pos rfl, Bool.or_true, Bool.true_and, isAssignment_grouped_bare,
        isStatement_enclosed consequent hq]
      rcases ha with ⟨hb, ha⟩ | ⟨hc, ha⟩
      · rw [isBlock_enclosed, hb, if_pos rfl, isStatement_enclosed alternate ha]
        rfl
      · rw [isBlock_enclosed, ha.isBlock, if_neg (by decide), isExpression_enclosed alternate ha,
          isConditional_enclosed alternate hc]
        rfl
  | identifier | numeric | string | boolean | regex => rfl
  | _ => exact h.elim

theorem allExpressions_enclosed (l : List Node) (h : ExpressionsOf P l) :
    allExpressions (allEnclosed l) := by
  cases l with
  | nil => rfl
  | cons n rest =>
    simp only [allEnclosed, allExpressions, isExpression_enclosed n h.1,
      allExpressions_enclosed rest h.2, Bool.and_self]

theorem isTarget_enclosed (n : Node) (h : n.TargetOf P) : n.enclosed.isTarget := by
  cases n with
  | identifier => rfl
  | field loc object name =>
    rw [enclosed, needsGroup_of_isRooted h.2.1]
    simp only [grouped_false, isTarget, Bool.and_eq_true]
    exact ⟨⟨isRooted_enclosed object h.2.1, isExpression_enclosed object h.2.2.1⟩, h.2.2.2⟩
  | index loc object i =>
    rw [enclosed, needsGroup_of_isRooted h.2.1]
    simp only [grouped_false, isTarget, Bool.and_eq_true]
    exact ⟨⟨isRooted_enclosed object h.2.1, isExpression_enclosed object h.2.2.1⟩,
      isExpression_enclosed i h.2.2.2⟩
  | arrayPattern loc elements => exact allTargets_enclosed elements h.2
  | _ => exact h.elim

theorem allTargets_enclosed (l : List Node) (h : TargetsOf P l) : allTargets (allEnclosed l) := by
  cases l with
  | nil => rfl
  | cons n rest =>
    simp only [allEnclosed, allTargets, isTarget_enclosed n h.1, allTargets_enclosed rest h.2,
      Bool.and_self]

theorem isStatement_enclosed (n : Node) (h : n.StatementOf P) : n.enclosed.isStatement := by
  cases n with
  | block loc body => exact allStatements_enclosed body h.2
  | expressionStatement loc e =>
    obtain ⟨ha, hif⟩ := grouped_statement e
    simp only [enclosed, isStatement, isExpression_grouped (isExpression_enclosed e h.2), ha, hif]
    rfl
  | conditionalStatement loc condition consequent alternate =>
    obtain ⟨-, hc, hq, ha⟩ := h
    have hq := isStatement_enclosed consequent hq
    have hsome : (enclosed? alternate).isSome = alternate.isSome := by cases alternate <;> rfl
    simp only [enclosed, isStatement, isExpression_enclosed condition hc,
      noneOrStatement_enclosed alternate ha, hsome, Bool.true_and, Bool.and_true]
    cases hd : alternate.isSome && consequent.dangles with
    | true => simp [isStatement, allStatements, hq, dangles]
    | false => simp [hq, dangles_enclosed, hd]
  | declaration loc left type right constant mutable =>
    obtain ⟨-, hl, -, ht, hr, hcm⟩ := h
    have hsome : (enclosed? right).isSome = right.isSome := by cases right <;> rfl
    simp only [enclosed, isStatement, isBinding_enclosed left hl, hsome, hcm,
      noneOrType_enclosed type right.isSome ht, noneOrExpression_enclosed right hr]
    rfl
  | _ => exact h.elim

theorem allStatements_enclosed (l : List Node) (h : StatementsOf P l) :
    allStatements (allEnclosed l) := by
  cases l with
  | nil => rfl
  | cons n rest =>
    simp only [allEnclosed, allStatements, isStatement_enclosed n h.1,
      allStatements_enclosed rest h.2, Bool.and_self]

theorem noneOrStatement_enclosed (n : Option Node) (h : NoneOrStatementOf P n) :
    noneOrStatement (enclosed? n) := by
  cases n with
  | none => rfl
  | some n => exact isStatement_enclosed n h

theorem noneOrExpression_enclosed (n : Option Node) (h : NoneOrExpressionOf P n) :
    noneOrExpression (enclosed? n) := by
  cases n with
  | none => rfl
  | some n => exact isExpression_enclosed n h

theorem noneOrType_enclosed (n : Option Node) (followed : Bool) (h : NoneOrExpressionOf P n) :
    noneOrType followed (typeEnclosed? followed n) := by
  cases n with
  | none => rfl
  | some n =>
    obtain ⟨ha, ho⟩ := grouped_type n followed
    simp only [typeEnclosed?, noneOrType, isExpression_grouped (isExpression_enclosed n h), ha, ho]
    rfl

end

end Node

end MagSyntax
