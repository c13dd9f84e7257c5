import MagSyntax.Node.Equality
import MagSyntax.Proofs.Formed

/-! Trees without parentheses. What printing adds to a tree are parentheses alone, as long as every `else`
stands behind the `if` that it belongs to: without them the tree is what it was. -/

namespace MagSyntax

namespace Node

mutual

/-- The tree with what stands in parentheses in place of the parentheses. -/
def unwrapped : Node → Node
  | .program loc body => .program loc (allUnwrapped body)
  | .block loc body => .block loc (allUnwrapped body)
  | .expressionStatement loc e => .expressionStatement loc e.unwrapped
  | .conditionalStatement loc condition consequent alternate =>
    .conditionalStatement loc condition.unwrapped consequent.unwrapped (unwrapped? alternate)
  | .declaration loc left type right constant mutable =>
    .declaration loc left.unwrapped (unwrapped? type) (unwrapped? right) constant mutable
  | .parenthesized _ e => e.unwrapped
  | .conditional loc condition consequent alternate explicitThen =>
    .conditional loc condition.unwrapped consequent.unwrapped alternate.unwrapped explicitThen
  | .assignment loc left right operator => .assignment loc left.unwrapped right.unwrapped operator
  | .binary loc operator left right => .binary loc operator left.unwrapped right.unwrapped
  | .unary loc operator argument leading => .unary loc operator argument.unwrapped leading
  | .field loc object name => .field loc object.unwrapped name.unwrapped
  | .index loc object i => .index loc object.unwrapped i.unwrapped
  | .call loc callee arguments => .call loc callee.unwrapped (allUnwrapped arguments)
  | .array loc elements => .array loc (allUnwrapped elements)
  | .arrayPattern loc elements => .arrayPattern loc (allUnwrapped elements)
  | other => other

/-- The trees without their parentheses. -/
def allUnwrapped : List Node → List Node
  | [] => []
  | n :: rest => n.unwrapped :: allUnwrapped rest

/-- The tree, if it is there, without its parentheses. -/
def unwrapped? : Option Node → Option Node
  | none => none
  | some n => some n.unwrapped

end

mutual

theorem unwrapped_unplaced (n : Node) : n.unplaced.unwrapped = n.unwrapped.unplaced := by
  cases n with
  | program loc body => simp only [unplaced, unwrapped, allUnwrapped_unplaced body]
  | block loc body => simp only [unplaced, unwrapped, allUnwrapped_unplaced body]
  | expressionStatement loc e => simp only [unplaced, unwrapped, unwrapped_unplaced e]
  | conditionalStatement loc condition consequent alternate =>
    simp only [unplaced, unwrapped, unwrapped_unplaced condition, unwrapped_unplaced consequent,
      unwrapped?_unplaced alternate]
  | declaration loc left type right =>
    simp only [unplaced, unwrapped, unwrapped_unplaced left, unwrapped?_unplaced type,
      unwrapped?_unplaced right]
  | parenthesized loc e => simp only [unplaced, unwrapped, unwrapped_unplaced e]
  | conditional loc condition consequent alternate =>
    simp only [unplaced, unwrapped, unwrapped_unplaced condition, unwrapped_unplaced consequent,
      unwrapped_unplaced alternate]
  | assignment loc left right =>
    simp only [unplaced, unwrapped, unwrapped_unplaced left, unwrapped_unplaced right]
  | binary loc operator left right =>
    simp only [unplaced, unwrapped, unwrapped_unplaced left, unwrapped_unplaced right]
  | unary loc operator argument => simp only [unplaced, unwrapped, unwrapped_unplaced argument]
  | field loc object name =>
    simp only [unplaced, unwrapped, unwrapped_unplaced object, unwrapped_unplaced name]
  | index loc object i =>
    simp only [unplaced, unwrapped, unwrapped_unplaced object, unwrapped_unplaced i]
  | call loc callee arguments =>
    simp only [unplaced, unwrapped, unwrapped_unplaced callee, allUnwrapped_unplaced arguments]
  | array loc elements => simp only [unplaced, unwrapped, allUnwrapped_unplaced elements]
  | arrayPattern loc elements => simp only [unplaced, unwrapped, allUnwrapped_unplaced elements]
  | _ => rfl

theorem allUnwrapped_unplaced (l : List Node) :
    allUnwrapped (allUnplaced l) = allUnplaced (allUnwrapped l) := by
  cases l with
  | nil => rfl
  | cons n rest =>
    simp only [allUnplaced, allUnwrapped, unwrapped_unplaced n, allUnwrapped_unplaced rest]

theorem unwrapped?_unplaced (n : Option Node) :
    unwrapped? (unplaced? n) = unplaced? (unwrapped? n) := by
  cases n with
  | none => rfl
  | some n => simp only [unplaced?, unwrapped?, unwrapped_unplaced n]

end

/-- Trees that are alike are alike without their parentheses. -/
theorem alike_unwrapped {n m : Node} (h : n.alike m) : n.unwrapped.alike m.unwrapped := by
  rw [alike_iff, ← unwrapped_unplaced, (alike_iff n m).mp h, unwrapped_unplaced]

/-- An `else` of the node is its own when it is written out. -/
def KeepsElse : Node → Prop
  | .conditionalStatement _ _ consequent alternate => alternate.isSome → consequent.dangles = false
  | _ => True

@[simp] theorem unwrapped_grouped (needed : Bool) (n : Node) : (grouped needed n).unwrapped = n.unwrapped := by
  cases needed <;> rfl

variable {P : Node → Prop}

mutual

/-- Printing adds nothing but parentheses to an expression. -/
theorem unwrapped_enclosed (hP : ∀ n, P n → n.KeepsElse) (n : Node) (h : n.ExpressionOf P) :
    n.enclosed.unwrapped = n.unwrapped := by
  cases n with
  | parenthesized loc e => simp only [enclosed, unwrapped, unwrapped_enclosed hP e h.2]
  | array loc elements => simp only [enclosed, unwrapped, allUnwrapped_enclosed hP elements h.2]
  | field loc object name =>
    simp only [enclosed, unwrapped, unwrapped_grouped, unwrapped_enclosed hP object h.2.1]
  | index loc object i =>
    simp only [enclosed, unwrapped, unwrapped_grouped, unwrapped_enclosed hP object h.2.1,
      unwrapped_enclosed hP i h.2.2]
  | call loc callee arguments =>
    simp only [enclosed, unwrapped, unwrapped_grouped, unwrapped_enclosed hP callee h.2.1,
      allUnwrapped_enclosed hP arguments h.2.2]
  | unary loc operator argument leading =>
    simp only [enclosed, unwrapped, unwrapped_grouped, unwrapped_enclosed hP argument h.2.2.2]
  | binary loc operator left right =>
    obtain ⟨-, ⟨level, ho⟩, hl, hr⟩ := h
    simp only [enclosed_binary ho, unwrapped, unwrapped_grouped, unwrapped_enclosed hP left hl,
      unwrapped_enclosed hP right hr]
  | assignment loc left right operator =>
    simp only [enclosed, unwrapped, unwrapped_enclosed_target hP left h.2.2.1,
      unwrapped_enclosed hP right h.2.2.2]
  | conditional loc condition consequent alternate explicitThen =>
    obtain ⟨-, hc, hb⟩ := h
    have hb : consequent.enclosed.unwrapped = consequent.unwrapped ∧
        alternate.enclosed.unwrapped = alternate.unwrapped := by
      rcases hb with ⟨hq, ha⟩ | ⟨-, -, hq, ha⟩
      · exact ⟨unwrapped_enclosed hP consequent hq, unwrapped_enclosed hP alternate ha⟩
      · refine ⟨unwrapped_enclosed_statement hP consequent hq, ?_⟩
        rcases ha with ⟨-, ha⟩ | ⟨-, ha⟩
        · exact unwrapped_enclosed_statement hP alternate ha
        · exact unwrapped_enclosed hP alternate ha
    simp only [enclosed, unwrapped, unwrapped_grouped, unwrapped_enclosed hP condition hc, hb.1, hb.2]
  | identifier | numeric | string | boolean | regex => rfl
  | _ => exact h.elim

theorem allUnwrapped_enclosed (hP : ∀ n, P n → n.KeepsElse) (l : List Node) (h : ExpressionsOf P l) :
    allUnwrapped (allEnclosed l) = allUnwrapped l := by
  cases l with
  | nil => rfl
  | cons n rest =>
    simp only [allEnclosed, allUnwrapped, unwrapped_enclosed hP n h.1,
      allUnwrapped_enclosed hP rest h.2]

theorem unwrapped_enclosed_target (hP : ∀ n, P n → n.KeepsElse) (n : Node) (h : n.TargetOf P) :
    n.enclosed.unwrapped = n.unwrapped := by
  cases n with
  | identifier => rfl
  | field loc object name =>
    simp only [enclosed, unwrapped, unwrapped_grouped, unwrapped_enclosed hP object h.2.2.1]
  | index loc object i =>
    simp only [enclosed, unwrapped, unwrapped_grouped, unwrapped_enclosed hP object h.2.2.1,
      unwrapped_enclosed hP i h.2.2.2]
  | arrayPattern loc elements =>
    simp only [enclosed, unwrapped, allUnwrapped_enclosed_targets hP elements h.2]
  | _ => exact h.elim

theorem allUnwrapped_enclosed_targets (hP : ∀ n, P n → n.KeepsElse) (l : List Node)
    (h : TargetsOf P l) : allUnwrapped (allEnclosed l) = allUnwrapped l := by
  cases l with
  | nil => rfl
  | cons n rest =>
    simp only [allEnclosed, allUnwrapped, unwrapped_enclosed_target hP n h.1,
      allUnwrapped_enclosed_targets hP rest h.2]

/-- Printing adds nothing but parentheses to a statement whose every `else` is its own. -/
theorem unwrapped_enclosed_statement (hP : ∀ n, P n → n.KeepsElse) (n : Node) (h : n.StatementOf P) :
    n.enclosed.unwrapped = n.unwrapped := by
  cases n with
  | block loc body =>
    simp only [enclosed, unwrapped, allUnwrapped_enclosed_statements hP body h.2]
  | expressionStatement loc e =>
    simp only [enclosed, unwrapped, unwrapped_grouped, unwrapped_enclosed hP e h.2]
  | conditionalStatement loc condition consequent alternate =>
    have hkeeps : (alternate.isSome && consequent.dangles) = false :=
      Bool.and_eq_false_imp.mpr (hP _ h.1)
    simp only [enclosed, hkeeps, Bool.false_eq_true, if_false, unwrapped,
      unwrapped_enclosed hP condition h.2.1, unwrapped_enclosed_statement hP consequent h.2.2.1,
      unwrapped?_enclosed_statement hP alternate h.2.2.2]
  | declaration loc left type right constant mutable =>
    obtain ⟨-, -, hl, ht, hr, -⟩ := h
    simp only [enclosed, unwrapped, unwrapped_enclosed_target hP left hl,
      unwrapped?_enclosed_type hP type right.isSome ht, unwrapped?_enclosed hP right hr]
  | _ => exact h.elim

theorem allUnwrapped_enclosed_statements (hP : ∀ n, P n → n.KeepsElse) (l : List Node)
    (h : StatementsOf P l) : allUnwrapped (allEnclosed l) = allUnwrapped l := by
  cases l with
  | nil => rfl
  | cons n rest =>
    simp only [allEnclosed, allUnwrapped, unwrapped_enclosed_statement hP n h.1,
      allUnwrapped_enclosed_statements hP rest h.2]

theorem unwrapped?_enclosed_statement (hP : ∀ n, P n → n.KeepsElse) (n : Option Node)
    (h : NoneOrStatementOf P n) : unwrapped? (enclosed? n) = unwrapped? n := by
  cases n with
  | none => rfl
  | some n => simp only [enclosed?, unwrapped?, unwrapped_enclosed_statement hP n h]

theorem unwrapped?_enclosed (hP : ∀ n, P n → n.KeepsElse) (n : Option Node)
    (h : NoneOrExpressionOf P n) : unwrapped? (enclosed? n) = unwrapped? n := by
  cases n with
  | none => rfl
  | some n => simp only [enclosed?, unwrapped?, unwrapped_enclosed hP n h]

theorem unwrapped?_enclosed_type (hP : ∀ n, P n → n.KeepsElse) (n : Option Node) (followed : Bool)
    (h : NoneOrExpressionOf P n) : unwrapped? (typeEnclosed? followed n) = unwrapped? n := by
  cases n with
  | none => rfl
  | some n => simp only [typeEnclosed?, unwrapped?, unwrapped_grouped, unwrapped_enclosed hP n h]

end

end Node

end MagSyntax
