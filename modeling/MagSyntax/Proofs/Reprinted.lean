import MagSyntax.Proofs.PrintedTrees
import MagSyntax.Proofs.Slashes

/-! What is printed for a tree is read as the lexemes of the tree with what printing adds, and nothing
else. A sign of division must find the end of a value before it; all other slashes fall into place. -/

namespace MagSyntax

open Lexeme

namespace Lexeme

/-- The lexemes end in one that a sign of division can stand behind. -/
def EndValue (ls : List Lexeme) : Prop :=
  ∃ x, ls.getLast? = some x ∧ x.kind ∈ SlashContext.valueEnds

variable {a b : List Lexeme} {x : Lexeme}

theorem endValue_concat : EndValue (a ++ [x]) ↔ x.kind ∈ SlashContext.valueEnds := by
  simp [EndValue, List.getLast?_append]

theorem EndValue.append (h : EndValue b) : EndValue (a ++ b) := by
  obtain ⟨y, hy, hk⟩ := h
  exact ⟨y, by rw [List.getLast?_append, hy]; rfl, hk⟩

theorem EndValue.of_append (h : EndValue (a ++ b)) (hb : b ≠ []) : EndValue b := by
  obtain ⟨y, hy, hk⟩ := h
  refine ⟨y, ?_, hk⟩
  rw [List.getLast?_eq_some_getLast hb]
  rwa [List.getLast?_append, List.getLast?_eq_some_getLast hb, Option.some_or] at hy

theorem EndValue.of_cons (h : EndValue (a ++ x :: b)) (hb : b ≠ []) : EndValue b :=
  (h.of_append (List.cons_ne_nil x b)).of_append (a := [x]) hb

end Lexeme

namespace Node

/-- A sign of division can stand behind the tree. -/
def EndsValue (n : Node) : Prop := EndValue n.lexemes

/-- Trees of nodes with the property can be read back from what is printed for them. -/
structure ReadsBack (P : Node → Prop) : Prop where
  isLegible : ∀ n, P n → n.IsLegible
  endsValue : ∀ loc left right, (binary loc Symbol.div.spelling left right).ExpressionOf P →
    left.enclosed.EndsValue

theorem areValue_grouped {n : Node} (h : AreValue n.lexemes n.isParenthesized n.divides) (needed : Bool) :
    AreValue (grouped needed n).lexemes (grouped needed n).isParenthesized (grouped needed n).divides := by
  cases needed with
  | true => exact h.inner.parenthesized
  | false => exact h

theorem divides_of_isParenthesized {n : Node} (h : n.isParenthesized) : n.divides = false := by
  cases n <;> first | rfl | cases h

theorem divides_of_bindsAt {n : Node} (h : n.bindsAt .postfixChain) : n.divides = false := by
  cases n with
  | binary loc operator left right =>
    cases ho : Level.ofOperator operator with
    | error => simp [bindsAt, Node.level, ho] at h
    | ok level =>
      rw [bindsAt_binary ho] at h
      exact absurd (Nat.le_trans (of_decide_eq_true h) (Level.le_exponent ho)) (by decide)
  | _ => rfl

theorem level_of_bindsAt {n : Node} {least : Level} (h : n.bindsAt least) :
    ∃ level, n.level = .ok level := by
  unfold bindsAt at h
  split at h
  next level hl => exact ⟨level, hl⟩
  next => cases h

/-- What a link of a chain stands behind. -/
theorem areValue_object {n : Node}
    (h : AreValue n.enclosed.lexemes n.enclosed.isParenthesized n.enclosed.divides) :
    AreValue (grouped (n.needsGroup .postfixChain true) n.enclosed).lexemes
      (grouped (n.needsGroup .postfixChain true) n.enclosed).isParenthesized false := by
  have hstands : (grouped (n.needsGroup .postfixChain true) n.enclosed).standsBefore .postfixChain :=
    standsBefore_grouped (by decide)
  rw [← divides_of_bindsAt (standsBefore_iff.mp hstands).1]
  exact areValue_grouped h _

theorem endsValue_grouped {n : Node} (h : n.EndsValue) (needed : Bool) :
    (grouped needed n).EndsValue := by
  cases needed with
  | true => exact ⟨.ofSymbol .rparen, List.getLast?_concat, by decide⟩
  | false => exact h

theorem isMark_declarationWords (constant mutable : Bool) :
    ∀ l ∈ declarationWords constant mutable, l.IsMark := by
  have hconst := isMark_ofKeyword (k := .constWord) (by decide)
  have hlet := isMark_ofKeyword (k := .letWord) (by decide)
  have hmut := isMark_ofKeyword (k := .mutWord) (by decide)
  cases constant <;> cases mutable <;> simp [declarationWords, hconst, hlet, hmut]

variable {P : Node → Prop}

/-- A bare condition has no sign of division behind a group at its front. -/
theorem areValue_bare (hP : ∀ n, P n → n.IsLegible) {n : Node} (hn : n.ExpressionOf P)
    (h : AreValue n.enclosed.lexemes n.enclosed.isParenthesized n.enclosed.divides) :
    AreValue (grouped n.needsGroupBare n.enclosed).lexemes
      (grouped n.needsGroupBare n.enclosed).isParenthesized false := by
  obtain ⟨s, hs, -⟩ := text_prints hP n hn
  have hneeds := needsGroupBare_grouped hs
  rw [needsGroupBare, Bool.or_eq_false_iff] at hneeds
  rw [← hneeds.2]
  exact areValue_grouped h _

mutual

theorem areValue_enclosed (hP : ReadsBack P) (n : Node) (h : n.ExpressionOf P) :
    AreValue n.enclosed.lexemes n.enclosed.isParenthesized n.enclosed.divides := by
  cases n with
  | parenthesized loc e => exact (areValue_enclosed hP e h.2).inner.parenthesized
  | array loc elements =>
    exact (areInner_list (areInner_expressions hP elements h.2)).bracketed (by decide) (by decide)
  | field loc object name =>
    have ho := areValue_object (areValue_enclosed hP object h.2.1)
    exact ho.link (areClosed_field _)
  | index loc object i =>
    have ho := areValue_object (areValue_enclosed hP object h.2.1)
    exact ho.index (areValue_enclosed hP i h.2.2).inner
  | call loc callee arguments =>
    have ho := areValue_object (areValue_enclosed hP callee h.2.1)
    exact ho.call (areInner_list (areInner_expressions hP arguments h.2.2))
  | unary loc operator argument leading =>
    obtain ⟨-, rfl, -, ha⟩ := h
    rw [enclosed, lexemes, ofOperator_spelling]
    exact (areValue_grouped (areValue_enclosed hP argument ha) _).unary
  | binary loc operator left right =>
    have hdiv := hP.endsValue loc left right
    obtain ⟨hp, ⟨level, ho⟩, hl, hr⟩ := h
    have hbinds := standsBefore_grouped (n := left) (sides_le_primary ho).1
    obtain ⟨leftLevel, hlevel⟩ := level_of_bindsAt (standsBefore_iff.mp hbinds).1
    have hneeds := needsGroup_grouped left _ true (sides_le_primary ho).1
    have ihl := areValue_grouped (areValue_enclosed hP left hl) (left.needsGroup level.sides.1 true)
    have ihr := areValue_grouped (areValue_enclosed hP right hr) (right.needsGroup level.sides.2 false)
    rw [enclosed_binary ho, lexemes, divides_binary ho hlevel, hneeds, Bool.or_false]
    obtain ⟨s, rfl, hs⟩ := Level.symbol_of_ofOperator ho
    have hvalue := ihl.joinBy (s := s) ?_ ?_ divides_of_isParenthesized ihr
    · rw [ofOperator_spelling]
      have hspelling : decide (s = Symbol.div) = decide (s.spelling = Symbol.div.spelling) :=
        decide_eq_decide.mpr ⟨congrArg _, Symbol.spelling_injective⟩
      rw [← hspelling]
      exact hvalue
    · clear ihl ihr
      cases s <;> first | decide | cases ho
    · rintro rfl
      exact endsValue_grouped (hdiv ⟨hp, ⟨level, ho⟩, hl, hr⟩) _
  | assignment loc left right operator =>
    obtain ⟨-, rfl, hl, hr⟩ := h
    rw [enclosed, lexemes, ofOperator_spelling]
    exact (areValue_target hP left hl).joinBy (by decide) (fun h => absurd h (by decide)) (by decide)
      (areValue_enclosed hP right hr)
  | conditional loc condition consequent alternate explicitThen =>
    obtain ⟨-, hc, hb⟩ := h
    have hbare := areValue_bare hP.isLegible hc (areValue_enclosed hP condition hc)
    have hc := areValue_enclosed hP condition hc
    have helse := isMark_ofKeyword (k := .elseWord) (by decide)
    rcases hb with ⟨hq, ha⟩ | ⟨rfl, hb, hq, ha⟩
    · have hq' := (areValue_enclosed hP consequent hq).inner
      have ha' := areValue_enclosed hP alternate ha
      rw [enclosed, lexemes, conditionWords, isBlock_enclosed, hq.isBlock, Bool.or_false]
      cases explicitThen with
      | true => exact (hbare.opening_then hq').value helse ha'
      | false => exact (hc.inner.opening_group hq').value helse ha'
    · rw [enclosed, lexemes, conditionWords, isBlock_enclosed, hb, Bool.or_true, Bool.true_and]
      have hq' : AreClosed consequent.enclosed.lexemes := by
        cases consequent with
        | block loc body =>
          exact ((areStatements_all hP body hq.2).toAreInner.between .lbrace .rbrace (by decide)
            (by decide)).1
        | _ => cases hb
      have ha' : ∃ g d, AreValue alternate.enclosed.lexemes g d := by
        rcases ha with ⟨hb, ha⟩ | ⟨-, ha⟩
        · cases alternate with
          | block loc body =>
            exact ⟨_, _, (areStatements_all hP body ha.2).toAreInner.bracketed (by decide) (by decide)⟩
          | _ => cases hb
        · exact ⟨_, _, areValue_enclosed hP alternate ha⟩
      obtain ⟨g, d, ha'⟩ := ha'
      exact (hbare.opening_block hq').value helse ha'
  | boolean loc value =>
    cases value <;> exact areValue_singleton (by decide) (by decide) (by decide) (by decide)
  | identifier | numeric | string | regex => exact areValue_singleton (by simp) (by simp) (by simp) (by simp)
  | _ => exact h.elim

theorem areInner_expressions (hP : ReadsBack P) (l : List Node) (h : ExpressionsOf P l) :
    ∀ n ∈ allEnclosed l, AreInner n.lexemes := by
  cases l with
  | nil => exact List.forall_mem_nil _
  | cons n rest =>
    exact List.forall_mem_cons.mpr
      ⟨(areValue_enclosed hP n h.1).inner, areInner_expressions hP rest h.2⟩

theorem areValue_target (hP : ReadsBack P) (n : Node) (h : n.TargetOf P) :
    AreValue n.enclosed.lexemes false false := by
  cases n with
  | identifier => exact areValue_singleton (by simp) (by simp) (by simp) (by simp)
  | field loc object name =>
    have ho := areValue_object (areValue_enclosed hP object h.2.2.1)
    exact ho.link (areClosed_field _)
  | index loc object i =>
    have ho := areValue_object (areValue_enclosed hP object h.2.2.1)
    exact ho.index (areValue_enclosed hP i h.2.2.2).inner
  | arrayPattern loc elements =>
    exact (areInner_list (areInner_targets hP elements h.2)).bracketed (by decide) (by decide)
  | _ => exact h.elim

theorem areInner_targets (hP : ReadsBack P) (l : List Node) (h : TargetsOf P l) :
    ∀ n ∈ allEnclosed l, AreInner n.lexemes := by
  cases l with
  | nil => exact List.forall_mem_nil _
  | cons n rest =>
    exact List.forall_mem_cons.mpr
      ⟨(areValue_target hP n h.1).inner, areInner_targets hP rest h.2⟩

theorem areStatements_enclosed (hP : ReadsBack P) (n : Node) (h : n.StatementOf P) :
    AreStatements n.enclosed.lexemes := by
  have hsemi := isMark_ofSymbol (s := .semi) (by decide)
  cases n with
  | block loc body =>
    have hopen := isMark_ofSymbol (s := .lbrace) (by decide)
    have hclose := isMark_ofSymbol (s := .rbrace) (by decide)
    exact ((areStatements_all hP body h.2).marked hopen).toAreInner.statement hclose
  | expressionStatement loc e =>
    exact (areValue_grouped (areValue_enclosed hP e h.2) _).inner.statement hsemi
  | conditionalStatement loc condition consequent alternate =>
    obtain ⟨-, hc, hq, ha⟩ := h
    have hc := (areValue_enclosed hP condition hc).inner
    have hq := areStatements_enclosed hP consequent hq
    have hbody : AreStatements (if alternate.isSome && consequent.dangles then
        block .unknown [consequent.enclosed] else consequent.enclosed).lexemes := by
      split
      · have hopen := isMark_ofSymbol (s := .lbrace) (by decide)
        have hclose := isMark_ofSymbol (s := .rbrace) (by decide)
        simpa [lexemes, allLexemes] using (hq.marked hopen).toAreInner.statement hclose
      · exact hq
    cases alternate with
    | none =>
      simpa [enclosed, enclosed?, lexemes, markedLexemes] using hc.conditionalStatement hbody
    | some alternate =>
      have helse := isMark_ofKeyword (k := .elseWord) (by decide)
      have ha := (areStatements_enclosed hP alternate ha).marked helse
      simpa [enclosed, enclosed?, lexemes, markedLexemes] using
        hc.conditionalStatement (hbody.append ha)
  | declaration loc left type right constant mutable =>
    obtain ⟨-, -, hl, ht, hr, -⟩ := h
    have hcolon := isMark_ofSymbol (s := .colon) (by decide)
    have hassign := isMark_ofSymbol (s := .assign) (by decide)
    have htype : AreTail (markedLexemes (.ofSymbol .colon) (typeEnclosed? right.isSome type)) := by
      cases type with
      | none => exact areTail_nil
      | some type => exact (areValue_grouped (areValue_enclosed hP type ht) _).inner.marked hcolon
    have hright : AreTail (markedLexemes (.ofSymbol .assign) (enclosed? right)) := by
      cases right with
      | none => exact areTail_nil
      | some right => exact (areValue_enclosed hP right hr).inner.marked hassign
    have hrest := ((areValue_target hP left hl).inner.append htype).append hright
    have hwords := hrest.behind (isMark_declarationWords constant mutable)
    simpa [enclosed, lexemes] using hwords.statement hsemi
  | _ => exact h.elim

theorem areStatements_all (hP : ReadsBack P) (l : List Node) (h : StatementsOf P l) :
    AreStatements (allLexemes (allEnclosed l)) := by
  cases l with
  | nil => exact areStatements_nil
  | cons n rest => exact (areStatements_enclosed hP n h.1).append (areStatements_all hP rest h.2)

end

end Node

end MagSyntax
