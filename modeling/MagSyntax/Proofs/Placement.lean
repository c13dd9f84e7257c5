import MagSyntax.Proofs.Printing
import MagSyntax.Proofs.Shaped
import MagSyntax.Proofs.Sources

/-! Where the nodes of an accepted tree stand. Every operand binds tightly enough for its place and nothing
open stands where more text follows, so that the printer asks for no parentheses of its own; the
condition of an `if` with a `then` or with blocks is the only place where it may add some. -/

namespace MagSyntax

open Print

namespace Node

/-- The parts of the node can stand where they are, and a name is no reserved word. -/
def IsWellPlaced : Node → Prop
  | .identifier _ name => Keyword.ofSpelling? name = none
  | .binary _ operator left right =>
    ∃ least, Level.operands operator = .ok least ∧ left.bindsAt least.1 ∧ left.endsOpen = false ∧
      right.bindsAt least.2
  | .unary _ _ argument _ => argument.bindsAt .postfixChain
  | .field _ object _ | .index _ object _ | .call _ object _ =>
    object.bindsAt .postfixChain ∧ object.endsOpen = false
  | .expressionStatement _ e => e.isAssignment = false ∧ e.startsWithIf = false
  | .conditionalStatement _ _ consequent alternate => alternate.isSome → consequent.dangles = false
  | .declaration _ _ type right _ _ =>
    ∀ t, type = some t → t.bindsAt .comparison ∧ (right.isSome → t.endsOpen = false)
  | _ => True

/-- The operands of the node, other than the condition of an `if`, are printed without parentheses. -/
def PrintsPlainly : Node → Prop
  | .binary _ operator left right =>
    ∀ least, Level.operands operator = .ok least →
      operand left least.1 true left.text = left.text ∧
        operand right least.2 false right.text = right.text
  | .unary _ _ argument _ => operand argument .postfixChain false argument.text = argument.text
  | .field _ object _ | .index _ object _ | .call _ object _ =>
    operand object .postfixChain true object.text = object.text
  | .declaration _ _ type right _ _ =>
    ∀ t, type = some t → operand t .comparison right.isSome t.text = t.text
  | _ => True

theorem needsGroup_of_bindsAt {n : Node} {least : Level} {followed : Bool} (hb : n.bindsAt least)
    (ho : followed → n.endsOpen = false) : n.needsGroup least followed = false := by
  rw [needsGroup, hb]
  cases followed with
  | false => rfl
  | true => rw [ho rfl]; rfl

/-- What binds tightly enough and is not open before more text is printed as it is. -/
theorem operand_of_bindsAt {n : Node} {least : Level} {followed : Bool} (hb : n.bindsAt least)
    (ho : followed → n.endsOpen = false) : operand n least followed n.text = n.text := by
  cases ht : n.text with
  | error e => rfl
  | ok s =>
    have h := operand_text ht least followed
    rw [needsGroup_of_bindsAt hb ho, ht] at h
    exact h

theorem IsWellPlaced.printsPlainly {n : Node} (h : n.IsWellPlaced) : n.PrintsPlainly := by
  cases n with
  | binary loc operator left right =>
    obtain ⟨least, hl, hleft, hopen, hright⟩ := h
    intro least' hl'
    obtain rfl : least = least' := Except.ok.inj (hl.symm.trans hl')
    exact ⟨operand_of_bindsAt hleft fun _ => hopen, operand_of_bindsAt hright fun h => by cases h⟩
  | unary loc operator argument leading => exact operand_of_bindsAt h fun h => by cases h
  | field loc object name => exact operand_of_bindsAt h.1 fun _ => h.2
  | index loc object i => exact operand_of_bindsAt h.1 fun _ => h.2
  | call loc callee arguments => exact operand_of_bindsAt h.1 fun _ => h.2
  | declaration loc left type right constant mutable =>
    intro t ht
    exact operand_of_bindsAt (h t ht).1 (h t ht).2
  | _ => trivial

/-- A node of a canonical tree is well placed if the names in it are no reserved words. -/
theorem IsCanonical.isWellPlaced {n : Node} (h : n.IsCanonical)
    (hname : ∀ loc name, n = .identifier loc name → Keyword.ofSpelling? name = none) :
    n.IsWellPlaced := by
  cases n with
  | identifier loc name => exact hname loc name rfl
  | binary loc operator left right =>
    obtain he | h | h := h
    · cases ho : Level.ofOperator operator with
      | error => simp [isExpression, Level.operands, ho, bind, Except.bind] at he
      | ok level =>
        rw [isExpression_binary ho] at he
        simp only [Bool.and_eq_true, standsBefore_iff] at he
        exact ⟨level.sides, Level.operands_of_ofOperator ho, he.1.1.2.1, he.1.1.2.2, he.2⟩
    · cases h
    · cases h
  | unary loc operator argument leading =>
    obtain he | h | h := h
    · simp only [isExpression, Bool.and_eq_true] at he
      exact he.2
    · cases h
    · cases h
  | field loc object name =>
    obtain he | ht | h := h
    · simp only [isExpression, Bool.and_eq_true] at he
      exact standsBefore_iff.mp he.1.2
    · simp only [isTarget, Bool.and_eq_true] at ht
      exact standsBefore_iff.mp (standsBefore_of_isRooted ht.1.1)
    · cases h
  | index loc object i =>
    obtain he | ht | h := h
    · simp only [isExpression, Bool.and_eq_true] at he
      exact standsBefore_iff.mp he.1.2
    · simp only [isTarget, Bool.and_eq_true] at ht
      exact standsBefore_iff.mp (standsBefore_of_isRooted ht.1.1)
    · cases h
  | call loc callee arguments =>
    obtain he | h | h := h
    · simp only [isExpression, Bool.and_eq_true] at he
      exact standsBefore_iff.mp he.1.2
    · cases h
    · cases h
  | expressionStatement loc e =>
    obtain h | h | hs := h
    · cases h
    · cases h
    · simp only [isStatement, Bool.and_eq_true, Bool.not_eq_true'] at hs
      exact ⟨hs.1.2, hs.2⟩
  | conditionalStatement loc condition consequent alternate =>
    obtain h | h | hs := h
    · cases h
    · cases h
    · simp only [isStatement, Bool.and_eq_true, Bool.not_eq_true', Bool.and_eq_false_imp] at hs
      exact hs.2
  | declaration loc left type right constant mutable =>
    obtain h | h | hs := h
    · cases h
    · cases h
    · simp only [isStatement, Bool.and_eq_true] at hs
      rintro t rfl
      have ht := hs.1.1.2
      simp only [noneOrType, Bool.and_eq_true, Bool.not_eq_true', Bool.and_eq_false_imp] at ht
      exact ⟨bindsAt_of_not_isAssignment ht.1.1 ht.1.2, ht.2⟩
  | _ => trivial

/-- The names that a source writes in a canonical tree are no reserved words. -/
theorem gives_isWellPlaced : Gives (fun _ => True) (fun ls => ∀ l ∈ ls, l.kind ≠ .eof ∧ l.IsScanned)
    fun n => n.IsWellPlaced ∧ n.PrintsPlainly where
  part _ _ hin h l hl := h l (hin.subset hl)
  node n ls hn hw h := by
    have hplaced := hn.isWellPlaced fun loc name he => by
      subst he
      cases hw
      exact (h _ (List.mem_singleton_self _)).2.ofSpelling?_eq_none rfl
    exact ⟨hplaced, hplaced.printsPlainly⟩

/-- The condition of the node needs no parentheses of its own before a `then` or a block. -/
def HasBareCondition : Node → Prop
  | .conditional _ condition consequent _ explicitThen =>
    (explicitThen || consequent.isBlock) → condition.needsGroupBare = false
  | _ => True

variable {P : Node → Prop}

mutual

/-- Printing adds nothing to an expression of well placed nodes whose conditions stand as they are. -/
theorem enclosed_eq (hP : ∀ n, P n → n.IsWellPlaced ∧ n.HasBareCondition) (n : Node)
    (h : n.ExpressionOf P) : n.enclosed = n := by
  cases n with
  | parenthesized loc e => rw [enclosed, enclosed_eq hP e h.2]
  | array loc elements => rw [enclosed, allEnclosed_eq hP elements h.2]
  | field loc object name =>
    obtain ⟨hb, ho⟩ := (hP _ h.1).1
    rw [enclosed, enclosed_eq hP object h.2.1, needsGroup_of_bindsAt hb fun _ => ho, grouped_false]
  | index loc object i =>
    obtain ⟨hb, ho⟩ := (hP _ h.1).1
    rw [enclosed, enclosed_eq hP object h.2.1, enclosed_eq hP i h.2.2,
      needsGroup_of_bindsAt hb fun _ => ho, grouped_false]
  | call loc callee arguments =>
    obtain ⟨hb, ho⟩ := (hP _ h.1).1
    rw [enclosed, enclosed_eq hP callee h.2.1, allEnclosed_eq hP arguments h.2.2,
      needsGroup_of_bindsAt hb fun _ => ho, grouped_false]
  | unary loc operator argument leading =>
    rw [enclosed, enclosed_eq hP argument h.2.2.2,
      needsGroup_of_bindsAt (hP _ h.1).1 (fun h => absurd h Bool.false_ne_true), grouped_false]
  | binary loc operator left right =>
    obtain ⟨h, ⟨level, ho⟩, hl, hr⟩ := h
    obtain ⟨least, hleast, hleft, hopen, hright⟩ := (hP _ h).1
    obtain rfl : level.sides = least :=
      Except.ok.inj ((Level.operands_of_ofOperator ho).symm.trans hleast)
    rw [enclosed_binary ho, enclosed_eq hP left hl, enclosed_eq hP right hr,
      needsGroup_of_bindsAt hleft fun _ => hopen,
      needsGroup_of_bindsAt hright (fun h => absurd h Bool.false_ne_true), grouped_false,
      grouped_false]
  | assignment loc left right operator =>
    rw [enclosed, enclosed_eq_target hP left h.2.2.1, enclosed_eq hP right h.2.2.2]
  | conditional loc condition consequent alternate explicitThen =>
    obtain ⟨h, hc, hb⟩ := h
    have hbare : ((explicitThen || consequent.isBlock) && condition.needsGroupBare) = false :=
      Bool.and_eq_false_imp.mpr (hP _ h).2
    have hb : consequent.enclosed = consequent ∧ alternate.enclosed = alternate := by
      rcases hb with ⟨hq, ha⟩ | ⟨-, -, hq, ha⟩
      · exact ⟨enclosed_eq hP consequent hq, enclosed_eq hP alternate ha⟩
      · refine ⟨enclosed_eq_statement hP consequent hq, ?_⟩
        rcases ha with ⟨-, ha⟩ | ⟨-, ha⟩
        · exact enclosed_eq_statement hP alternate ha
        · exact enclosed_eq hP alternate ha
    rw [enclosed, enclosed_eq hP condition hc, hb.1, hb.2, hbare, grouped_false]
  | identifier | numeric | string | boolean | regex => rfl
  | _ => exact h.elim

theorem allEnclosed_eq (hP : ∀ n, P n → n.IsWellPlaced ∧ n.HasBareCondition) (l : List Node)
    (h : ExpressionsOf P l) : allEnclosed l = l := by
  cases l with
  | nil => rfl
  | cons n rest => rw [allEnclosed, enclosed_eq hP n h.1, allEnclosed_eq hP rest h.2]

theorem enclosed_eq_target (hP : ∀ n, P n → n.IsWellPlaced ∧ n.HasBareCondition) (n : Node)
    (h : n.TargetOf P) : n.enclosed = n := by
  cases n with
  | identifier => rfl
  | field loc object name =>
    rw [enclosed, enclosed_eq hP object h.2.2.1, needsGroup_of_isRooted h.2.1, grouped_false]
  | index loc object i =>
    rw [enclosed, enclosed_eq hP object h.2.2.1, enclosed_eq hP i h.2.2.2,
      needsGroup_of_isRooted h.2.1, grouped_false]
  | arrayPattern loc elements => rw [enclosed, allEnclosed_eq_targets hP elements h.2]
  | _ => exact h.elim

theorem allEnclosed_eq_targets (hP : ∀ n, P n → n.IsWellPlaced ∧ n.HasBareCondition) (l : List Node)
    (h : TargetsOf P l) : allEnclosed l = l := by
  cases l with
  | nil => rfl
  | cons n rest => rw [allEnclosed, enclosed_eq_target hP n h.1, allEnclosed_eq_targets hP rest h.2]

/-- Printing adds nothing to a statement of well placed nodes whose conditions stand as they are. -/
theorem enclosed_eq_statement (hP : ∀ n, P n → n.IsWellPlaced ∧ n.HasBareCondition) (n : Node)
    (h : n.StatementOf P) : n.enclosed = n := by
  cases n with
  | block loc body => rw [enclosed, allEnclosed_eq_statements hP body h.2]
  | expressionStatement loc e =>
    obtain ⟨ha, hif⟩ := (hP _ h.1).1
    rw [enclosed, enclosed_eq hP e h.2, ha, hif]
    rfl
  | conditionalStatement loc condition consequent alternate =>
    have hkeeps : (alternate.isSome && consequent.dangles) = false :=
      Bool.and_eq_false_imp.mpr (hP _ h.1).1
    rw [enclosed, hkeeps, if_neg Bool.false_ne_true, enclosed_eq hP condition h.2.1,
      enclosed_eq_statement hP consequent h.2.2.1, enclosed?_eq_statement hP alternate h.2.2.2]
  | declaration loc left type right constant mutable =>
    obtain ⟨h, -, hl, ht, hr, -⟩ := h
    have htype : typeEnclosed? right.isSome type = type := by
      cases type with
      | none => rfl
      | some t =>
        obtain ⟨hb, ho⟩ := (hP _ h).1 t rfl
        rw [typeEnclosed?, enclosed_eq hP t ht, needsGroup_of_bindsAt hb ho, grouped_false]
    have hright : enclosed? right = right := by
      cases right with
      | none => rfl
      | some right => rw [enclosed?, enclosed_eq hP right hr]
    rw [enclosed, enclosed_eq_target hP left hl, htype, hright]
  | _ => exact h.elim

theorem allEnclosed_eq_statements (hP : ∀ n, P n → n.IsWellPlaced ∧ n.HasBareCondition)
    (l : List Node) (h : StatementsOf P l) : allEnclosed l = l := by
  cases l with
  | nil => rfl
  | cons n rest =>
    rw [allEnclosed, enclosed_eq_statement hP n h.1, allEnclosed_eq_statements hP rest h.2]

theorem enclosed?_eq_statement (hP : ∀ n, P n → n.IsWellPlaced ∧ n.HasBareCondition)
    (n : Option Node) (h : NoneOrStatementOf P n) : enclosed? n = n := by
  cases n with
  | none => rfl
  | some n => rw [enclosed?, enclosed_eq_statement hP n h]

end

end Node

namespace Entry

/-- The tree is one that the entry reads, and its nodes have the property. -/
def TreeOf (P : Node → Prop) : Entry → Node → Prop
  | program, .program _ body => Node.StatementsOf P body
  | program, _ => False
  | expression, n => n.ExpressionOf P

theorem treeOf_writtenAs (entry : Entry) {bare : Node → Prop} {G : List Lexeme → Prop}
    {P : Node → Prop} (h : Node.Gives bare G P) {n : Node} {ls : List Lexeme}
    (hn : entry.isCanonical n) (hw : n.WrittenAs bare ls) (hg : G ls) : entry.TreeOf P n := by
  cases entry with
  | program =>
    cases n with
    | program loc body => exact Node.statementsOf_writtenAs h body hn hw hg
    | _ => cases hn
  | expression => exact Node.expressionOf_writtenAs h n hn hw hg

/-- Every node of an accepted tree is well placed, and printing it asks for no parentheses but around the
condition of an `if`. -/
theorem isWellPlaced_of_ofSource (entry : Entry) {source : Text} {tree : Node}
    (h : entry.ofSource source = .ok tree) :
    entry.isCanonical tree ∧ entry.TreeOf (fun n => n.IsWellPlaced ∧ n.PrintsPlainly) tree := by
  obtain ⟨ls, hls, hcanonical, hw⟩ := entry.written_of_ofSource h
  exact ⟨hcanonical, entry.treeOf_writtenAs Node.gives_isWellPlaced hcanonical hw hls.scanned⟩

theorem isWellPlaced_of_ofSource_pattern :
    ∃ tree, program.ofSource "let [p, q]: t = if (c) - d then -x ** 2 else a.if[0](b);" = .ok tree ∧
      program.isCanonical tree ∧
      program.TreeOf (fun n => n.IsWellPlaced ∧ n.PrintsPlainly) tree := by
  obtain ⟨tree, h⟩ : ∃ tree, program.ofSource
      "let [p, q]: t = if (c) - d then -x ** 2 else a.if[0](b);" = .ok tree := ⟨_, rfl⟩
  exact ⟨tree, h, isWellPlaced_of_ofSource .program h⟩

end Entry

end MagSyntax
