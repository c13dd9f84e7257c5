import MagSyntax.Proofs.Composed
import MagSyntax.Proofs.PrintedTrees
import MagSyntax.Proofs.Targets
import MagSyntax.Proofs.Unplaced
import MagSyntax.Proofs.Unwrapped

/-! Expressions without blocks. One that is read from a source, or that is the same as one but for parentheses and
places, is flat: it can be written down again. Parentheses and commas apart, a flat tree is written as it is without
its parentheses. -/

namespace MagSyntax

namespace Lexeme

/-- Whether the lexeme is a sign of division. Parentheses and commas are passed over. -/
def mark? (l : Lexeme) : Option Bool :=
  if l.kind ∈ [TokenKind.symbol .lparen, Symbol.rparen, Symbol.comma] then none
  else some (l.kind = Symbol.div)

/-- Which of the lexemes are signs of division, parentheses and commas passed over. -/
def marks (ls : List Lexeme) : List Bool := ls.filterMap mark?

@[simp] theorem marks_nil : marks [] = [] := rfl

@[simp] theorem marks_cons (l : Lexeme) (ls : List Lexeme) : marks (l :: ls) = l.mark?.toList ++ marks ls := by
  rw [marks, List.filterMap_cons]
  cases l.mark? <;> rfl

@[simp] theorem marks_append (a b : List Lexeme) : marks (a ++ b) = marks a ++ marks b := List.filterMap_append

theorem NamesField.mark?_eq {word : Lexeme} (h : word.NamesField) : word.mark? = some false := by
  have hs := h.kind_ne_symbol
  simp [mark?, hs]

end Lexeme

namespace Node

open Lexeme

/-- The node is an identifier that is a word, reserved or not. -/
def isWord : Node → Bool
  | .identifier _ name => name.head?.any CodePoint.startsName && name.all CodePoint.continuesName
  | _ => false

theorem isIdentifier_of_isWord {n : Node} (h : n.isWord) : n.isIdentifier := by
  cases n <;> first | rfl | cases h

theorem isName_of_isWord {n : Node} (h : n.isWord) : IsName n.nameText := by
  cases n with
  | identifier loc name =>
    simp only [isWord, Bool.and_eq_true, List.all_eq_true] at h
    obtain ⟨hhead, hall⟩ := h
    refine ⟨?_, hall⟩
    cases name with
    | nil => cases hhead
    | cons c r => exact ⟨c, r, rfl, hhead⟩
  | _ => cases h

mutual

/-- The tree is an expression or a target without blocks, whose fields are named by words. -/
def isBlockFree : Node → Bool
  | .identifier .. | .numeric .. | .string .. | .boolean .. | .regex .. => true
  | .parenthesized _ e => e.isBlockFree
  | .array _ elements | .arrayPattern _ elements => allBlockFree elements
  | .field _ object name => object.isBlockFree && name.isWord
  | .index _ object i => object.isBlockFree && i.isBlockFree
  | .call _ callee arguments => callee.isBlockFree && allBlockFree arguments
  | .unary _ _ argument _ => argument.isBlockFree
  | .binary _ _ left right => left.isBlockFree && right.isBlockFree
  | .assignment _ left right _ => left.isBlockFree && right.isBlockFree
  | .conditional _ condition consequent alternate _ =>
    condition.isBlockFree && consequent.isBlockFree && alternate.isBlockFree
  | _ => false

/-- The trees are expressions or targets without blocks. -/
def allBlockFree : List Node → Bool
  | [] => true
  | n :: rest => n.isBlockFree && allBlockFree rest

end

mutual

/-- The tree is an expression or a target without blocks, whose fields are named by words; its operators are those
of the language, and its names and literals can be read. -/
def IsFlat : Node → Prop
  | .identifier loc name => (identifier loc name).IsLegible
  | .numeric loc digits base => (numeric loc digits base).IsLegible
  | .regex loc pattern flags => (regex loc pattern flags).IsLegible
  | .string .. | .boolean .. => True
  | .parenthesized _ e => e.IsFlat
  | .array _ elements | .arrayPattern _ elements => AllFlat elements
  | .field _ object name => object.IsFlat ∧ name.isWord
  | .index _ object i => object.IsFlat ∧ i.IsFlat
  | .call _ callee arguments => callee.IsFlat ∧ AllFlat arguments
  | .unary _ operator argument _ => operator = Symbol.sub.spelling ∧ argument.IsFlat
  | .binary _ operator left right => (∃ level, Level.ofOperator operator = .ok level) ∧ left.IsFlat ∧ right.IsFlat
  | .assignment _ left right operator => operator = Symbol.assign.spelling ∧ left.IsFlat ∧ right.IsFlat
  | .conditional _ condition consequent alternate _ => condition.IsFlat ∧ consequent.IsFlat ∧ alternate.IsFlat
  | _ => False

/-- The trees are flat. -/
def AllFlat : List Node → Prop
  | [] => True
  | n :: rest => n.IsFlat ∧ AllFlat rest

end

theorem IsFlat.isBlock {n : Node} (h : n.IsFlat) : n.isBlock = false := by
  cases n <;> first | rfl | cases h

theorem isWord_of_unwrapped {n : Node} (h : n.isIdentifier) (hu : n.unwrapped.unplaced.isWord) : n.isWord := by
  cases n with
  | identifier => exact hu
  | _ => cases h

theorem isWord_unwrapped {n : Node} (h : n.isWord) : n.unwrapped.unplaced.isWord := by
  cases n with
  | identifier => exact h
  | _ => cases h

mutual

/-- A flat tree is flat without its parentheses and places. -/
theorem isFlat_unwrapped (n : Node) (h : n.IsFlat) : n.unwrapped.unplaced.IsFlat := by
  cases n with
  | identifier | numeric | string | boolean | regex => exact h
  | parenthesized loc e => exact isFlat_unwrapped e h
  | array loc elements | arrayPattern loc elements => exact allFlat_unwrapped elements h
  | field loc object name => exact ⟨isFlat_unwrapped object h.1, isWord_unwrapped h.2⟩
  | index loc object i => exact ⟨isFlat_unwrapped object h.1, isFlat_unwrapped i h.2⟩
  | call loc callee arguments => exact ⟨isFlat_unwrapped callee h.1, allFlat_unwrapped arguments h.2⟩
  | unary loc operator argument leading => exact ⟨h.1, isFlat_unwrapped argument h.2⟩
  | binary loc operator left right => exact ⟨h.1, isFlat_unwrapped left h.2.1, isFlat_unwrapped right h.2.2⟩
  | assignment loc left right operator => exact ⟨h.1, isFlat_unwrapped left h.2.1, isFlat_unwrapped right h.2.2⟩
  | conditional loc condition consequent alternate explicitThen =>
    exact ⟨isFlat_unwrapped condition h.1, isFlat_unwrapped consequent h.2.1, isFlat_unwrapped alternate h.2.2⟩
  | _ => cases h

theorem allFlat_unwrapped (l : List Node) (h : AllFlat l) : AllFlat (allUnplaced (allUnwrapped l)) := by
  cases l with
  | nil => trivial
  | cons n rest => exact ⟨isFlat_unwrapped n h.1, allFlat_unwrapped rest h.2⟩

end

mutual

/-- A tree without blocks has none without its parentheses and places. -/
theorem isBlockFree_unwrapped (n : Node) (h : n.isBlockFree) : n.unwrapped.unplaced.isBlockFree := by
  cases n with
  | identifier | numeric | string | boolean | regex => rfl
  | parenthesized loc e => exact isBlockFree_unwrapped e h
  | array loc elements | arrayPattern loc elements => exact allBlockFree_unwrapped elements h
  | unary loc operator argument leading => exact isBlockFree_unwrapped argument h
  | field loc object name =>
    simp only [unwrapped, unplaced, isBlockFree, Bool.and_eq_true] at h ⊢
    exact ⟨isBlockFree_unwrapped object h.1, isWord_unwrapped h.2⟩
  | index loc object i =>
    simp only [unwrapped, unplaced, isBlockFree, Bool.and_eq_true] at h ⊢
    exact ⟨isBlockFree_unwrapped object h.1, isBlockFree_unwrapped i h.2⟩
  | call loc callee arguments =>
    simp only [unwrapped, unplaced, isBlockFree, Bool.and_eq_true] at h ⊢
    exact ⟨isBlockFree_unwrapped callee h.1, allBlockFree_unwrapped arguments h.2⟩
  | binary loc operator left right =>
    simp only [unwrapped, unplaced, isBlockFree, Bool.and_eq_true] at h ⊢
    exact ⟨isBlockFree_unwrapped left h.1, isBlockFree_unwrapped right h.2⟩
  | assignment loc left right operator =>
    simp only [unwrapped, unplaced, isBlockFree, Bool.and_eq_true] at h ⊢
    exact ⟨isBlockFree_unwrapped left h.1, isBlockFree_unwrapped right h.2⟩
  | conditional loc condition consequent alternate explicitThen =>
    simp only [unwrapped, unplaced, isBlockFree, Bool.and_eq_true] at h ⊢
    exact ⟨⟨isBlockFree_unwrapped condition h.1.1, isBlockFree_unwrapped consequent h.1.2⟩,
      isBlockFree_unwrapped alternate h.2⟩
  | _ => cases h

theorem allBlockFree_unwrapped (l : List Node) (h : allBlockFree l) :
    allBlockFree (allUnplaced (allUnwrapped l)) := by
  cases l with
  | nil => rfl
  | cons n rest =>
    simp only [allUnwrapped, allUnplaced, allBlockFree, Bool.and_eq_true] at h ⊢
    exact ⟨isBlockFree_unwrapped n h.1, allBlockFree_unwrapped rest h.2⟩

end

mutual

/-- A tree without blocks is flat if it is without its parentheses and places. -/
theorem isFlat_of_unwrapped (n : Node) (h : n.isBlockFree) (hu : n.unwrapped.unplaced.IsFlat) : n.IsFlat := by
  cases n with
  | identifier | numeric | string | boolean | regex => exact hu
  | parenthesized loc e => exact isFlat_of_unwrapped e h hu
  | array loc elements | arrayPattern loc elements => exact allFlat_of_unwrapped elements h hu
  | unary loc operator argument leading => exact ⟨hu.1, isFlat_of_unwrapped argument h hu.2⟩
  | field loc object name =>
    simp only [isBlockFree, Bool.and_eq_true] at h
    exact ⟨isFlat_of_unwrapped object h.1 hu.1, h.2⟩
  | index loc object i =>
    simp only [isBlockFree, Bool.and_eq_true] at h
    exact ⟨isFlat_of_unwrapped object h.1 hu.1, isFlat_of_unwrapped i h.2 hu.2⟩
  | call loc callee arguments =>
    simp only [isBlockFree, Bool.and_eq_true] at h
    exact ⟨isFlat_of_unwrapped callee h.1 hu.1, allFlat_of_unwrapped arguments h.2 hu.2⟩
  | binary loc operator left right | assignment loc left right operator =>
    simp only [isBlockFree, Bool.and_eq_true] at h
    exact ⟨hu.1, isFlat_of_unwrapped left h.1 hu.2.1, isFlat_of_unwrapped right h.2 hu.2.2⟩
  | conditional loc condition consequent alternate explicitThen =>
    simp only [isBlockFree, Bool.and_eq_true] at h
    exact ⟨isFlat_of_unwrapped condition h.1.1 hu.1, isFlat_of_unwrapped consequent h.1.2 hu.2.1,
      isFlat_of_unwrapped alternate h.2 hu.2.2⟩
  | _ => cases h

theorem allFlat_of_unwrapped (l : List Node) (h : allBlockFree l) (hu : AllFlat (allUnplaced (allUnwrapped l))) :
    AllFlat l := by
  cases l with
  | nil => trivial
  | cons n rest =>
    simp only [allBlockFree, Bool.and_eq_true] at h
    exact ⟨isFlat_of_unwrapped n h.1 hu.1, allFlat_of_unwrapped rest h.2 hu.2⟩

end

mutual

/-- Whether a flat tree is canonical does not depend on places. -/
theorem IsFlat.isExpression_unplaced {n : Node} (h : n.IsFlat) : n.unplaced.isExpression = n.isExpression := by
  cases n with
  | identifier | numeric | string | boolean | regex | arrayPattern => rfl
  | parenthesized loc e => exact IsFlat.isExpression_unplaced (n := e) h
  | array loc elements => exact AllFlat.allExpressions_unplaced (l := elements) h
  | field loc object name =>
    cases name with
    | identifier =>
      simp only [unplaced, isExpression, h.1.isExpression_unplaced, standsBefore_unplaced, isIdentifier]
    | _ => cases h.2
  | index loc object i =>
    simp only [unplaced, isExpression, h.1.isExpression_unplaced, h.2.isExpression_unplaced,
      standsBefore_unplaced]
  | call loc callee arguments =>
    simp only [unplaced, isExpression, h.1.isExpression_unplaced, h.2.allExpressions_unplaced,
      standsBefore_unplaced]
  | unary loc operator argument leading =>
    simp only [unplaced, isExpression, h.2.isExpression_unplaced, bindsAt_unplaced]
  | binary loc operator left right =>
    simp only [unplaced, isExpression, h.2.1.isExpression_unplaced, h.2.2.isExpression_unplaced,
      standsBefore_unplaced, bindsAt_unplaced]
  | assignment loc left right operator =>
    simp only [unplaced, isExpression, h.2.1.isTarget_unplaced, h.2.2.isExpression_unplaced]
  | conditional loc condition consequent alternate explicitThen =>
    simp only [unplaced, isExpression, h.1.isExpression_unplaced, h.2.1.isExpression_unplaced,
      h.2.2.isExpression_unplaced, isBlock_unplaced, h.2.1.isBlock, isAssignment_unplaced, Bool.false_eq_true,
      if_false]
  | _ => cases h

theorem AllFlat.allExpressions_unplaced {l : List Node} (h : AllFlat l) :
    allExpressions (allUnplaced l) = allExpressions l := by
  cases l with
  | nil => rfl
  | cons n rest => simp only [allUnplaced, allExpressions, h.1.isExpression_unplaced, h.2.allExpressions_unplaced]

theorem IsFlat.isTarget_unplaced {n : Node} (h : n.IsFlat) : n.unplaced.isTarget = n.isTarget := by
  cases n with
  | field loc object name =>
    cases name with
    | identifier => simp only [unplaced, isTarget, isRooted_unplaced, h.1.isExpression_unplaced, isIdentifier]
    | _ => cases h.2
  | index loc object i =>
    simp only [unplaced, isTarget, isRooted_unplaced, h.1.isExpression_unplaced, h.2.isExpression_unplaced]
  | arrayPattern loc elements => exact AllFlat.allTargets_unplaced (l := elements) h
  | _ => rfl

theorem AllFlat.allTargets_unplaced {l : List Node} (h : AllFlat l) :
    allTargets (allUnplaced l) = allTargets l := by
  cases l with
  | nil => rfl
  | cons n rest => simp only [allUnplaced, allTargets, h.1.isTarget_unplaced, h.2.allTargets_unplaced]

end

section Readable

variable {P : Node → Prop}

mutual

/-- An expression whose names and literals can be read is flat if it has no blocks. -/
theorem isFlat_of_expressionOf (hP : ∀ n, P n → n.IsReadable) (n : Node) (h : n.ExpressionOf P)
    (hf : n.unwrapped.unplaced.isBlockFree) : n.IsFlat := by
  cases n with
  | identifier | numeric | regex => exact hP _ h (by simp)
  | string | boolean => trivial
  | parenthesized loc e => exact isFlat_of_expressionOf hP e h.2 hf
  | array loc elements => exact allFlat_of_expressionsOf hP elements h.2 hf
  | field loc object name =>
    simp only [unwrapped, unplaced, isBlockFree, Bool.and_eq_true] at hf
    exact ⟨isFlat_of_expressionOf hP object h.2.1 hf.1, isWord_of_unwrapped h.2.2 hf.2⟩
  | index loc object i =>
    simp only [unwrapped, unplaced, isBlockFree, Bool.and_eq_true] at hf
    exact ⟨isFlat_of_expressionOf hP object h.2.1 hf.1, isFlat_of_expressionOf hP i h.2.2 hf.2⟩
  | call loc callee arguments =>
    simp only [unwrapped, unplaced, isBlockFree, Bool.and_eq_true] at hf
    exact ⟨isFlat_of_expressionOf hP callee h.2.1 hf.1, allFlat_of_expressionsOf hP arguments h.2.2 hf.2⟩
  | unary loc operator argument leading => exact ⟨h.2.1, isFlat_of_expressionOf hP argument h.2.2.2 hf⟩
  | binary loc operator left right =>
    simp only [unwrapped, unplaced, isBlockFree, Bool.and_eq_true] at hf
    exact ⟨h.2.1, isFlat_of_expressionOf hP left h.2.2.1 hf.1, isFlat_of_expressionOf hP right h.2.2.2 hf.2⟩
  | assignment loc left right operator =>
    simp only [unwrapped, unplaced, isBlockFree, Bool.and_eq_true] at hf
    exact ⟨h.2.1, isFlat_of_targetOf hP left h.2.2.1 hf.1, isFlat_of_expressionOf hP right h.2.2.2 hf.2⟩
  | conditional loc condition consequent alternate explicitThen =>
    simp only [unwrapped, unplaced, isBlockFree, Bool.and_eq_true] at hf
    obtain ⟨-, hc, ⟨hq, ha⟩ | ⟨-, hq, -⟩⟩ := h
    · exact ⟨isFlat_of_expressionOf hP condition hc hf.1.1, isFlat_of_expressionOf hP consequent hq hf.1.2,
        isFlat_of_expressionOf hP alternate ha hf.2⟩
    · cases consequent with
      | block => cases hf.1.2
      | _ => cases hq
  | _ => exact h.elim

theorem allFlat_of_expressionsOf (hP : ∀ n, P n → n.IsReadable) (l : List Node) (h : ExpressionsOf P l)
    (hf : allBlockFree (allUnplaced (allUnwrapped l))) : AllFlat l := by
  cases l with
  | nil => trivial
  | cons n rest =>
    simp only [allUnwrapped, allUnplaced, allBlockFree, Bool.and_eq_true] at hf
    exact ⟨isFlat_of_expressionOf hP n h.1 hf.1, allFlat_of_expressionsOf hP rest h.2 hf.2⟩

theorem isFlat_of_targetOf (hP : ∀ n, P n → n.IsReadable) (n : Node) (h : n.TargetOf P)
    (hf : n.unwrapped.unplaced.isBlockFree) : n.IsFlat := by
  cases n with
  | identifier => exact hP _ h (by simp)
  | field loc object name =>
    simp only [unwrapped, unplaced, isBlockFree, Bool.and_eq_true] at hf
    exact ⟨isFlat_of_expressionOf hP object h.2.2.1 hf.1, isWord_of_unwrapped h.2.2.2 hf.2⟩
  | index loc object i =>
    simp only [unwrapped, unplaced, isBlockFree, Bool.and_eq_true] at hf
    exact ⟨isFlat_of_expressionOf hP object h.2.2.1 hf.1, isFlat_of_expressionOf hP i h.2.2.2 hf.2⟩
  | arrayPattern loc elements => exact allFlat_of_targetsOf hP elements h.2 hf
  | _ => exact h.elim

theorem allFlat_of_targetsOf (hP : ∀ n, P n → n.IsReadable) (l : List Node) (h : TargetsOf P l)
    (hf : allBlockFree (allUnplaced (allUnwrapped l))) : AllFlat l := by
  cases l with
  | nil => trivial
  | cons n rest =>
    simp only [allUnwrapped, allUnplaced, allBlockFree, Bool.and_eq_true] at hf
    exact ⟨isFlat_of_targetOf hP n h.1 hf.1, allFlat_of_targetsOf hP rest h.2 hf.2⟩

end

end Readable

section Written

variable {bare : Node → Prop}

theorem marks_conditionWords {consequent : Node} (h : consequent.isBlock = false) (explicitThen : Bool)
    (a : List Lexeme) :
    marks (conditionWords consequent explicitThen a) = false :: marks a ++ if explicitThen then [false] else [] := by
  cases explicitThen <;> simp [conditionWords, h, mark?, ofKeyword, ofSymbol]

mutual

/-- Parentheses and commas apart, a tree is written as it is without its parentheses. -/
theorem marks_of_writtenAs (n : Node) (h : n.IsFlat) {ls : List Lexeme} (hw : n.WrittenAs bare ls) :
    marks ls = marks n.unwrapped.unplaced.lexemes := by
  cases n with
  | identifier | numeric | string | boolean | regex =>
    cases hw
    rfl
  | parenthesized loc e =>
    obtain ⟨a, ha, rfl⟩ := hw
    simpa [mark?, ofSymbol, unwrapped] using marks_of_writtenAs e h ha
  | array loc elements =>
    obtain ⟨a, ha, rfl⟩ := hw
    simp only [unwrapped, unplaced, lexemes, marks_append, marks_cons, marks_of_listWrittenAs elements h ha]
  | arrayPattern loc elements =>
    obtain ⟨a, ha, rfl⟩ := hw
    simp only [unwrapped, unplaced, lexemes, marks_append, marks_cons, marks_of_listWrittenAs elements h ha]
  | field loc object name =>
    obtain ⟨a, word, ha, hword, -, rfl⟩ := hw
    simp only [unwrapped, unplaced, lexemes, marks_append, marks_cons, marks_of_writtenAs object h.1 ha,
      hword.mark?_eq, (namesField_ofWord _).mark?_eq]
  | index loc object i =>
    obtain ⟨a, b, ha, hb, rfl⟩ := hw
    simp only [unwrapped, unplaced, lexemes, marks_append, marks_cons, marks_of_writtenAs object h.1 ha,
      marks_of_writtenAs i h.2 hb]
  | call loc callee arguments =>
    obtain ⟨a, b, ha, hb, rfl⟩ := hw
    simp only [unwrapped, unplaced, lexemes, marks_append, marks_cons, marks_of_writtenAs callee h.1 ha,
      marks_of_listWrittenAs arguments h.2 hb]
  | unary loc operator argument leading =>
    obtain ⟨a, ha, rfl⟩ := hw
    simp only [unwrapped, unplaced, lexemes, marks_cons, marks_of_writtenAs argument h.2 ha]
  | binary loc operator left right =>
    obtain ⟨a, b, ha, hb, rfl⟩ := hw
    simp only [unwrapped, unplaced, lexemes, marks_append, marks_cons, marks_of_writtenAs left h.2.1 ha,
      marks_of_writtenAs right h.2.2 hb]
  | assignment loc left right operator =>
    obtain ⟨a, b, ha, hb, rfl⟩ := hw
    simp only [unwrapped, unplaced, lexemes, marks_append, marks_cons, marks_of_writtenAs left h.2.1 ha,
      marks_of_writtenAs right h.2.2 hb]
  | conditional loc condition consequent alternate explicitThen =>
    obtain ⟨a, b, d, ha, hb, hd, rfl⟩ := hw
    have hq := (isFlat_unwrapped consequent h.2.1).isBlock
    simp only [unwrapped, unplaced, lexemes, marks_append, marks_cons, marks_conditionWords hq,
      marks_conditionWords h.2.1.isBlock, marks_of_writtenAs condition h.1 ha,
      marks_of_writtenAs consequent h.2.1 hb, marks_of_writtenAs alternate h.2.2 hd]
  | _ => cases h

theorem marks_of_listWrittenAs (l : List Node) (h : AllFlat l) {ls : List Lexeme}
    (hw : ListWrittenAs bare l ls) : marks ls = marks (listLexemes (allUnplaced (allUnwrapped l))) := by
  cases l with
  | nil =>
    cases hw
    rfl
  | cons n rest =>
    obtain ⟨a, b, ha, hb, rfl⟩ := hw
    simp only [allUnwrapped, allUnplaced, listLexemes, marks_append, marks_of_writtenAs n h.1 ha,
      marks_of_restWrittenAs rest h.2 hb]

theorem marks_of_restWrittenAs (l : List Node) (h : AllFlat l) {ls : List Lexeme}
    (hw : RestWrittenAs bare l ls) : marks ls = marks (restLexemes (allUnplaced (allUnwrapped l))) := by
  cases l with
  | nil => rcases hw with rfl | rfl <;> rfl
  | cons n rest =>
    obtain ⟨a, b, ha, hb, rfl⟩ := hw
    simp only [allUnwrapped, allUnplaced, restLexemes, marks_append, marks_cons, marks_of_writtenAs n h.1 ha,
      marks_of_restWrittenAs rest h.2 hb]

end

end Written

end Node

end MagSyntax
