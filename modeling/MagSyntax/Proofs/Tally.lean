import MagSyntax.Proofs.Composed
import MagSyntax.Proofs.Starts

/-! Which `if` an `else` belongs to, by counting. An expression leaves the count of open `if`s as it
found it and never lets it fall below, so no expression is another one with an `else`, a `then` or a
block behind it: this tells the forms of an `if` with a value apart. -/

namespace MagSyntax

/-- Where a count of open `if`s has got to. What stands in braces is passed over. -/
structure Tally where
  ifs : Nat
  braces : Nat
  /-- The next token is the name of a field. -/
  afterDot : Bool
  /-- The last token was an `else`. -/
  afterElse : Bool

namespace Tally

/-- The count behind a token; none if no open `if` takes the token. -/
def next (t : Tally) (kind : TokenKind) : Option Tally :=
  if 0 < t.braces then
    match kind with
    | .symbol .lbrace => some { t with braces := t.braces + 1 }
    | .symbol .rbrace => some { t with braces := t.braces - 1 }
    | _ => some t
  else if t.afterDot then some { t with afterDot := false }
  else match kind with
    | .keyword .ifWord => some { t with ifs := t.ifs + 1, afterElse := false }
    | .keyword .thenWord => if t.ifs = 0 then none else some { t with afterElse := false }
    | .keyword .elseWord =>
      if t.ifs = 0 then none else some { t with ifs := t.ifs - 1, afterElse := true }
    | .symbol .lbrace =>
      if t.ifs = 0 ∧ !t.afterElse then none else some { t with braces := 1, afterElse := false }
    | .symbol .dot => some { t with afterDot := true, afterElse := false }
    | _ => some { t with afterElse := false }

/-- The count behind some lexemes. -/
def run (t : Tally) (ls : List Lexeme) : Option Tally := ls.foldlM (fun t l => t.next l.kind) t

/-- The count between lexemes that are complete. -/
def settled (ifs braces : Nat) : Tally := ⟨ifs, braces, false, false⟩

@[simp] theorem run_nil (t : Tally) : t.run [] = some t := rfl

@[simp] theorem run_cons (t : Tally) (l : Lexeme) (ls : List Lexeme) :
    t.run (l :: ls) = (t.next l.kind).bind (·.run ls) := rfl

@[simp] theorem run_append (t : Tally) (a b : List Lexeme) :
    t.run (a ++ b) = (t.run a).bind (·.run b) := by
  simp only [run, List.foldlM_append]
  rfl

end Tally

namespace Lexeme

open Tally

/-- The lexemes leave the count inside braces as it is. -/
def PassInside (ls : List Lexeme) : Prop :=
  ∀ ifs braces, (settled ifs (braces + 1)).run ls = some (settled ifs (braces + 1))

/-- The lexemes leave every count as it is. -/
def Pass (ls : List Lexeme) : Prop :=
  ∀ ifs braces, (settled ifs braces).run ls = some (settled ifs braces)

theorem Pass.inside {ls : List Lexeme} (h : Pass ls) : PassInside ls := fun i b => h i (b + 1)

theorem pass_nil : Pass [] := fun _ _ => rfl

theorem passInside_nil : PassInside [] := fun _ _ => rfl

theorem Pass.append {a b : List Lexeme} (ha : Pass a) (hb : Pass b) : Pass (a ++ b) := by
  intro i n
  rw [run_append, ha]
  exact hb i n

theorem PassInside.append {a b : List Lexeme} (ha : PassInside a) (hb : PassInside b) :
    PassInside (a ++ b) := by
  intro i n
  rw [run_append, ha]
  exact hb i n

/-- The token means nothing to the count. -/
def isPlain (l : Lexeme) : Bool :=
  l.kind ∉ [TokenKind.keyword .ifWord, Keyword.thenWord, Keyword.elseWord, Symbol.lbrace,
    Symbol.rbrace, Symbol.dot]

theorem next_of_isPlain {l : Lexeme} (h : l.isPlain) (ifs braces : Nat) :
    (settled ifs braces).next l.kind = some (settled ifs braces) := by
  simp only [isPlain, List.mem_cons, List.not_mem_nil, or_false, not_or, decide_eq_true_eq] at h
  obtain ⟨h1, h2, h3, h4, h5, h6⟩ := h
  unfold next
  by_cases hb : 0 < (settled ifs braces).braces
  · rw [if_pos hb]
    split <;> first | contradiction | rfl
  · rw [if_neg hb]
    simp only [settled, Bool.false_eq_true, if_false]

theorem Pass.cons {l : Lexeme} {ls : List Lexeme} (h : l.isPlain) (hs : Pass ls) :
    Pass (l :: ls) := by
  intro i n
  rw [run_cons, next_of_isPlain h]
  exact hs i n

theorem PassInside.cons {l : Lexeme} {ls : List Lexeme}
    (h : l.kind ≠ Symbol.lbrace ∧ l.kind ≠ Symbol.rbrace) (hs : PassInside ls) :
    PassInside (l :: ls) := by
  intro i n
  have hn : (settled i (n + 1)).next l.kind = some (settled i (n + 1)) := by
    unfold next
    simp only [settled, Nat.zero_lt_succ, if_true]
    split
    · exact absurd ‹_› h.1
    · exact absurd ‹_› h.2
    · rfl
  rw [run_cons, hn]
  exact hs i n

/-- A field and its name. -/
theorem pass_field {word : Lexeme} (h : word.NamesField) : Pass [.ofSymbol .dot, word] := by
  intro i n
  cases n with
  | zero => rfl
  | succ n =>
    have hp := PassInside.cons ⟨h.kind_ne_symbol .lbrace, h.kind_ne_symbol .rbrace⟩ passInside_nil
    exact PassInside.cons (by simp [ofSymbol]) hp i n

theorem isPlain_ofOperator {operator : Text} {level : Level}
    (h : Level.ofOperator operator = .ok level) : (ofOperator operator).isPlain := by
  obtain ⟨s, rfl, -⟩ := Level.symbol_of_ofOperator h
  rw [ofOperator_spelling]
  cases s <;> first | rfl | cases h

theorem Pass.bracketed {s t : Symbol} {ls : List Lexeme} (h : Pass ls)
    (hs : (ofSymbol s).isPlain) (ht : (ofSymbol t).isPlain) :
    Pass (.ofSymbol s :: ls ++ [.ofSymbol t]) :=
  .cons hs (h.append (.cons ht pass_nil))

/-- The lexemes can be a branch of an `if` with a value. A block is taken only by an `if` that is open or
right behind its `else`. -/
structure PassBranch (ls : List Lexeme) : Prop where
  outside : ∀ (ifs : Nat) (afterElse : Bool), (0 < ifs ∨ afterElse) →
    (⟨ifs, 0, false, afterElse⟩ : Tally).run ls = some (settled ifs 0)
  inside : PassInside ls

theorem Pass.branch {l : Lexeme} {ls : List Lexeme} (h : Pass (l :: ls))
    (hl : l.kind ≠ Symbol.lbrace) : PassBranch (l :: ls) := by
  refine ⟨fun i e _ => ?_, h.inside⟩
  have hn : (⟨i, 0, false, e⟩ : Tally).next l.kind = (settled i 0).next l.kind := by
    unfold next
    simp only [settled, Nat.lt_irrefl, if_false, Bool.false_eq_true]
    split <;> first | contradiction | rfl
  have hi := h i 0
  rw [run_cons] at hi ⊢
  rw [hn]
  exact hi

theorem PassInside.block {ls : List Lexeme} (h : PassInside ls) :
    PassBranch (.ofSymbol .lbrace :: ls ++ [.ofSymbol .rbrace]) := by
  constructor
  · intro i e he
    have hn : (⟨i, 0, false, e⟩ : Tally).next (.symbol .lbrace) = some (settled i 1) := by
      unfold next
      simp only [Nat.lt_irrefl, if_false, Bool.false_eq_true]
      rw [if_neg]
      · rfl
      · rintro ⟨rfl, hn⟩
        simp_all
    rw [List.cons_append, run_cons, show (ofSymbol .lbrace).kind = .symbol .lbrace from rfl, hn]
    simp only [Option.bind_some]
    rw [run_append, h i 0]
    rfl
  · intro i n
    rw [List.cons_append, run_cons]
    show (some (settled i (n + 1 + 1))).bind _ = _
    simp only [Option.bind_some]
    rw [run_append, h i (n + 1)]
    rfl

theorem composes_passInside : Composes PassInside where
  nil := passInside_nil
  append ha hb := ha.append hb
  single hl := .cons (by simp only [List.mem_cons, not_or] at hl; exact ⟨hl.2.1, hl.2.2.1⟩) passInside_nil
  field hw := (pass_field hw).inside
  braced ha := ha.block.inside

/-- The words around a condition open one `if`. -/
theorem run_conditionWords {a : List Lexeme} {consequent : Node} {explicitThen : Bool}
    (ha : Pass a) (ifs : Nat) :
    (settled ifs 0).run (Node.conditionWords consequent explicitThen a) =
      some (settled (ifs + 1) 0) := by
  unfold Node.conditionWords
  rw [run_cons]
  show (some (settled (ifs + 1) 0)).bind _ = _
  simp only [Option.bind_some]
  split
  · exact ha _ _
  · split
    · rw [run_append, ha]
      rfl
    · exact ha.bracketed (s := .lparen) (t := .rparen) rfl rfl _ _

/-- An `if` with a value leaves the count as it is. -/
theorem pass_conditional {a b d : List Lexeme} {consequent : Node} {explicitThen : Bool}
    (ha : Pass a) (hb : PassBranch b) (hd : PassBranch d) :
    Pass (Node.conditionWords consequent explicitThen a ++ b ++ .ofKeyword .elseWord :: d) := by
  intro i n
  cases n with
  | zero =>
    rw [run_append, run_append, run_conditionWords ha]
    simp only [Option.bind_some]
    rw [show settled (i + 1) 0 = ⟨i + 1, 0, false, false⟩ from rfl,
      hb.outside _ _ (.inl (Nat.succ_pos i))]
    exact hd.outside i true (.inr rfl)
  | succ n =>
    exact ((composes_passInside.conditionWords ha.inside).append hb.inside).append
      (composes_passInside.keyword hd.inside) i n

end Lexeme

namespace Node

open Lexeme

variable {bare : Node → Prop}

theorem pass_of_leaf {l : Lexeme} (h : l.isPlain) : Pass [l] := .cons h pass_nil

theorem pass_of_rest {l : List Node} {ls : List Lexeme} (h : RestWrittenAs bare l ls)
    (hp : ∀ n ∈ l, ∀ a, n.WrittenAs bare a → Pass a) : Pass ls := by
  induction l generalizing ls with
  | nil =>
    rcases h with rfl | rfl
    · exact pass_nil
    · exact pass_of_leaf rfl
  | cons n rest ih =>
    obtain ⟨a, b, ha, hb, rfl⟩ := h
    rw [List.forall_mem_cons] at hp
    exact .cons rfl ((hp.1 a ha).append (ih hb hp.2))

theorem pass_of_list {l : List Node} {ls : List Lexeme} (h : ListWrittenAs bare l ls)
    (hp : ∀ n ∈ l, ∀ a, n.WrittenAs bare a → Pass a) : Pass ls := by
  cases l with
  | nil =>
    cases h
    exact pass_nil
  | cons n rest =>
    obtain ⟨a, b, ha, hb, rfl⟩ := h
    rw [List.forall_mem_cons] at hp
    exact (hp.1 a ha).append (pass_of_rest hb hp.2)

theorem passBranch_of_isExpression {n : Node} {ls : List Lexeme} (he : n.isExpression)
    (h : n.WrittenAs bare ls) (hp : Pass ls) : PassBranch ls := by
  obtain ⟨first, rest, rfl, hk, -⟩ := startsAs_of_writtenAs n he h
  exact hp.branch fun hl => by
    rw [hl] at hk
    revert hk
    decide

theorem passBranch_of_isBlock {n : Node} {ls : List Lexeme} (hb : n.isBlock) (hs : n.isStatement)
    (h : n.WrittenAs bare ls) : PassBranch ls := by
  cases n with
  | block loc body =>
    obtain ⟨a, ha, rfl⟩ := h
    exact PassInside.block (composed_of_all composes_passInside ha fun n hn a ha =>
      composed_of_isStatement composes_passInside n (allStatements_iff.mp hs n hn) ha)
  | _ => cases hb

mutual

/-- An expression leaves the count as it is. -/
theorem pass_of_isExpression (n : Node) {ls : List Lexeme} (he : n.isExpression)
    (h : n.WrittenAs bare ls) : Pass ls := by
  cases n with
  | identifier | numeric | string | regex =>
    cases h
    exact pass_of_leaf rfl
  | boolean loc value =>
    cases h
    cases value <;> exact pass_of_leaf rfl
  | parenthesized loc e =>
    obtain ⟨a, ha, rfl⟩ := h
    exact (pass_of_isExpression e he ha).bracketed rfl rfl
  | array loc elements =>
    obtain ⟨a, ha, rfl⟩ := h
    exact (pass_of_list ha fun n hn a ha =>
      pass_of_isExpression n (allExpressions_iff.mp he n hn) ha).bracketed rfl rfl
  | unary loc operator argument leading =>
    obtain ⟨a, ha, rfl⟩ := h
    simp only [isExpression, Bool.and_eq_true, decide_eq_true_eq] at he
    rw [he.1.1.1]
    exact .cons rfl (pass_of_isExpression argument he.1.2 ha)
  | field loc object name =>
    obtain ⟨a, word, ha, hw, -, rfl⟩ := h
    simp only [isExpression, Bool.and_eq_true] at he
    exact (pass_of_isExpression object he.1.1 ha).append (pass_field hw)
  | index loc object i =>
    obtain ⟨a, b, ha, hb, rfl⟩ := h
    simp only [isExpression, Bool.and_eq_true] at he
    rw [List.append_assoc]
    exact (pass_of_isExpression object he.1.1 ha).append
      ((pass_of_isExpression i he.2 hb).bracketed rfl rfl)
  | call loc callee arguments =>
    obtain ⟨a, b, ha, hb, rfl⟩ := h
    simp only [isExpression, Bool.and_eq_true] at he
    rw [List.append_assoc]
    exact (pass_of_isExpression callee he.1.1 ha).append
      ((pass_of_list hb fun n hn a ha =>
        pass_of_isExpression n (allExpressions_iff.mp he.2 n hn) ha).bracketed rfl rfl)
  | binary loc operator left right =>
    obtain ⟨a, b, ha, hb, rfl⟩ := h
    cases ho : Level.ofOperator operator with
    | error => simp [isExpression, Level.operands, ho, bind, Except.bind] at he
    | ok level =>
      rw [isExpression_binary ho] at he
      simp only [Bool.and_eq_true] at he
      exact (pass_of_isExpression left he.1.1.1 ha).append
        (.cons (isPlain_ofOperator ho) (pass_of_isExpression right he.1.2 hb))
  | assignment loc left right operator =>
    obtain ⟨a, b, ha, hb, rfl⟩ := h
    simp only [isExpression, Bool.and_eq_true, decide_eq_true_eq] at he
    rw [he.1.1]
    exact (pass_of_isTarget left he.1.2 ha).append (.cons rfl (pass_of_isExpression right he.2 hb))
  | conditional loc condition consequent alternate explicitThen =>
    obtain ⟨a, b, d, ha, hb, hd, rfl⟩ := h
    simp only [isExpression, Bool.and_eq_true] at he
    refine pass_conditional (pass_of_isExpression condition he.1 ha) ?_ ?_
    · cases hq : consequent.isBlock with
      | true =>
        simp only [hq, if_true, Bool.and_eq_true] at he
        exact passBranch_of_isBlock hq he.2.1.2 hb
      | false =>
        simp only [hq, Bool.false_eq_true, if_false, Bool.and_eq_true] at he
        exact passBranch_of_isExpression he.2.1.2 hb (pass_of_isExpression consequent he.2.1.2 hb)
    · cases hq : consequent.isBlock with
      | true =>
        simp only [hq, if_true, Bool.and_eq_true] at he
        cases hr : alternate.isBlock with
        | true =>
          simp only [hr, if_true] at he
          exact passBranch_of_isBlock hr he.2.2 hd
        | false =>
          simp only [hr, Bool.false_eq_true, if_false, Bool.and_eq_true] at he
          exact passBranch_of_isExpression he.2.2.2 hd (pass_of_isExpression alternate he.2.2.2 hd)
      | false =>
        simp only [hq, Bool.false_eq_true, if_false, Bool.and_eq_true] at he
        exact passBranch_of_isExpression he.2.2 hd (pass_of_isExpression alternate he.2.2 hd)
  | _ => cases he
termination_by n
decreasing_by all_goals
  subst_eqs
  first | (simp <;> omega) | (have hm := List.sizeOf_lt_of_mem ‹_ ∈ _›; simp; omega)

/-- A target leaves the count as it is. -/
theorem pass_of_isTarget (n : Node) {ls : List Lexeme} (ht : n.isTarget)
    (h : n.WrittenAs bare ls) : Pass ls := by
  cases n with
  | identifier =>
    cases h
    exact pass_of_leaf rfl
  | field loc object name =>
    obtain ⟨a, word, ha, hw, -, rfl⟩ := h
    simp only [isTarget, Bool.and_eq_true] at ht
    exact (pass_of_isExpression object ht.1.2 ha).append (pass_field hw)
  | index loc object i =>
    obtain ⟨a, b, ha, hb, rfl⟩ := h
    simp only [isTarget, Bool.and_eq_true] at ht
    rw [List.append_assoc]
    exact (pass_of_isExpression object ht.1.2 ha).append
      ((pass_of_isExpression i ht.2 hb).bracketed rfl rfl)
  | arrayPattern loc elements =>
    obtain ⟨a, ha, rfl⟩ := h
    exact (pass_of_list ha fun n hn a ha =>
      pass_of_isTarget n (allTargets_iff.mp ht n hn) ha).bracketed rfl rfl
  | _ => cases ht
termination_by n
decreasing_by all_goals
  subst_eqs
  first | (simp <;> omega) | (have hm := List.sizeOf_lt_of_mem ‹_ ∈ _›; simp; omega)

end

end Node

end MagSyntax
