import Mathlib.Data.List.Permutation
import MagSyntax.Proofs.LadderRules
import MagSyntax.Proofs.HandBuilt

/-! Precedence. A sequence of names and numbers with binary operators between them is read as the tree that falls
into two at its loosest operator, whatever the operators are and however many, and a second comparison
is complained about where it stands. Only powers in a row are bounded, by the budget. -/

namespace MagSyntax

open Parse Input Ladder

namespace Parse

variable {α : Type} {step : Parse α} {setup : Setup} {p q : Progress}

theorem run_nested_ok {v : α} (hfits : setup.nesting.any (· ≤ p.depth) = false)
    (h : step.run setup p.deeper = .ok v q) :
    (nested step).run setup p = .ok v { q with depth := q.depth - 1 } := by
  simp only [nested, hfits, h]
  rfl

theorem run_nested_failed {f : Failure} (hfits : setup.nesting.any (· ≤ p.depth) = false)
    (h : step.run setup p.deeper = .failed f q) :
    (nested step).run setup p = .failed f { q with depth := q.depth - 1 } := by
  simp only [nested, hfits, h]
  rfl

end Parse

namespace Grammar

variable {input : Input} {b : Nat}

/-- An operand is a comparison that is stored. -/
theorem run_operand {p : Progress} (hp : p.memo = .empty) : (parse (b + 2) 1 .operand).run { input } p =
    ((parse b 0 .comparison).run { input } p).stored ⟨.operand, p.cursor⟩ :=
  run_remembered_miss fun _ => hp ▸ Memo.find?_empty _

/-- An expression that is nothing but a comparison comes to what the comparison comes to. -/
theorem run_expression_of_ok {v : Node} {q : Progress}
    (h : (parse b 0 .comparison).run { input } (.within 0 1) = .ok v q)
    (hend : (input.get q.cursor).kind ≠ Symbol.assign) :
    ∃ p, (parse (b + 5) 2 .expression).run { input } .start = .ok v p ∧ p.cursor = q.cursor := by
  have hexpression : ∃ p, (expression fun r => parse (b + 2) r.surcharge r).run { input }
      (.within 0 1) = .ok v p ∧ p.cursor = q.cursor := by
    refine ⟨{ q with memo := q.memo.store ⟨.operand, 0⟩ (.node v q.cursor) }, ?_, rfl⟩
    change (parse (b + 2) 1 .operand >>= _).run _ _ = _
    rw [run_bind, run_operand rfl, h]
    simp [Outcome.stored, hend]
  obtain ⟨p, hp, hc⟩ := hexpression
  have hnested : (nested (expression fun r => parse (b + 2) r.surcharge r)).run { input } .start =
      .ok v { p with depth := p.depth - 1 } := run_nested_ok rfl hp
  refine ⟨{ p with depth := p.depth - 1, memo := p.memo.store ⟨.expression, 0⟩ (.node v p.cursor) }, ?_, hc⟩
  refine (run_remembered_miss fun _ => Memo.find?_empty _).trans ?_
  change Outcome.stored _ ((nested (expression fun r => parse (b + 2) r.surcharge r)).run { input } .start) = _
  rw [hnested]
  rfl

theorem run_expression_of_failed {f : Failure} {q : Progress}
    (h : (parse b 0 .comparison).run { input } (.within 0 1) = .failed f q) :
    ∃ p, (parse (b + 5) 2 .expression).run { input } .start = .failed f p ∧ p.cursor = q.cursor := by
  have hstored (o : Outcome Node) (place : Attempt) (p : Progress) (ho : o = .failed f p) :
      ∃ p', o.stored place = .failed f p' ∧ p'.cursor = p.cursor := by
    subst ho
    cases f <;> exact ⟨_, rfl, rfl⟩
  have hexpression : ∃ p, (expression fun r => parse (b + 2) r.surcharge r).run { input }
      (.within 0 1) = .failed f p ∧ p.cursor = q.cursor := by
    obtain ⟨p, hp, hc⟩ := hstored _ ⟨.operand, 0⟩ q h
    refine ⟨p, ?_, hc⟩
    change (parse (b + 2) 1 .operand >>= _).run _ _ = _
    rw [run_bind, run_operand rfl, Progress.cursor_within, hp]
  obtain ⟨p, hp, hc⟩ := hexpression
  have hnested : (nested (expression fun r => parse (b + 2) r.surcharge r)).run { input } .start =
      .failed f { p with depth := p.depth - 1 } := run_nested_failed rfl hp
  obtain ⟨p', hp', hc'⟩ := hstored _ ⟨.expression, 0⟩ _ hnested
  exact ⟨p', (run_remembered_miss fun _ => Memo.find?_empty _).trans hp', hc'.trans hc⟩

end Grammar

namespace Entry

variable {input : Input} {e : SyntaxError}

/-- A sequence of names and numbers, each with one sign at most in front of it and with a binary operator between
each two, is read as its tree, and is refused for its second comparison if it has one; unless there are
more than 9900 powers in a row and they use up the budget. -/
theorem expression_ladder (first : Atom) (rest : List Tail) (last : Token) (hfirst : first.IsProper)
    (hrest : ∀ t ∈ rest, t.IsProper) (hlast : last.kind = .eof) :
    let input := Input.ofTokens (Ladder.tokens first rest ++ [last])
    expression.ofInput input = Ladder.reading first rest ∨
      (∃ run, run <:+: rest ∧ Ladder.Within Ladder.powers run ∧ 9900 < run.length) ∧
        ∃ c, expression.ofInput input = .error (.ofToken .tooDeep (input.get c)) := by
  rw [Input.ofTokens_append hlast]
  intro input
  have hend : (input.get (Ladder.tokens first rest).length).kind = .eof := by
    rw [get_mk, List.getElem?_eq_none (Nat.le_refl _)]
    exact hlast
  have hfinds : Finds { input } (· = .empty)
      (fun f => (f = .exhausted ∧ ¬PowersUpTo 9900 rest) ∨
        ∃ e, f = .mismatch e ∧ Ladder.reading first rest = .error e)
      (Grammar.parse 9985 0 .comparison) 0
      fun v d => Ladder.reading first rest = .ok v ∧ d = (Ladder.tokens first rest).length := by
    refine Grammar.finds_reading (n := 9900) ?_ (fun e he => .inr ⟨e, rfl, he⟩) (fun t ht => (hrest t ht).operator)
      ⟨hfirst, fun t ht => (hrest t ht).atom⟩ (holds_mk _ last) (by rw [hend]; decide)
    by_cases h : PowersUpTo 9900 rest
    · exact .inl ⟨by decide, h⟩
    · exact .inr (.inl ⟨rfl, h⟩)
  have h := hfinds (.within 0 1) rfl rfl
  cases hr : (Grammar.parse 9985 0 .comparison).run { input } (.within 0 1) with
  | ok v q =>
    rw [hr] at h
    obtain ⟨-, hv, hstop⟩ := h
    obtain ⟨p, hp, hc⟩ := Grammar.run_expression_of_ok hr (by rw [hstop, hend]; nofun)
    refine .inl ?_
    rw [hv]
    exact expression.ofInput_of_ok hp (by rw [hc, hstop, hend])
  | failed f q =>
    rw [hr] at h
    obtain ⟨p, hp, hc⟩ := Grammar.run_expression_of_failed hr
    rw [expression.ofInput_of_failed hp]
    obtain ⟨-, ⟨rfl, hlong⟩ | ⟨e, rfl, he⟩⟩ := h
    · refine .inr ⟨?_, p.cursor, rfl⟩
      simp only [PowersUpTo, not_forall, Nat.not_le] at hlong
      obtain ⟨run, hin, hw, hlength⟩ := hlong
      exact ⟨run, hin, hw, hlength⟩
    · exact .inl he.symm

end Entry

namespace Ladder

/-- A name without a sign, or with one. -/
def Atom.named (name : Text) (signed : Bool := false) : Atom :=
  ⟨if signed then some (.ofLexeme (.ofSymbol .sub) ⟨0, 1, 1⟩) else none, ⟨⟨.ident, name, 10, []⟩, ⟨0, 1, 1⟩⟩⟩

/-- An operator and a name. -/
def Tail.named (operator : Symbol) (name : Text) : Tail :=
  ⟨.ofLexeme (.ofSymbol operator) ⟨0, 1, 1⟩, .named name⟩

theorem Atom.isProper_named (name : Text) (signed : Bool) : (named name signed).IsProper := by
  refine ⟨.inl rfl, fun t ht => ?_⟩
  cases signed <;> cases ht
  rfl

theorem Tail.isProper_named {operator : Symbol} (h : TokenKind.symbol operator ∈ operators) (name : Text) :
    (named operator name).IsProper :=
  ⟨decide_eq_true h, Atom.isProper_named name false⟩

end Ladder

namespace Entry

/-- The sequence `-a - b * c ** d ** e < f + g`, and one with a second comparison behind it. -/
theorem expression_ladder_mixed :
    let first := Atom.named "a" true
    let name (n : Text) : Node := .identifier ⟨1, 1⟩ n
    let rest := [Tail.named .sub "b", .named .mult "c", .named .pow "d", .named .pow "e", .named .lt "f",
      .named .plus "g"]
    let chained := rest ++ [.named .eq "h"]
    let outcome (rest : List Tail) :=
      expression.ofInput (.ofTokens (Ladder.tokens first rest ++ [.endAt ⟨0, 1, 1⟩]))
    first.IsProper ∧ (∀ t ∈ chained, t.IsProper) ∧
      outcome rest = .ok (.binary ⟨1, 1⟩ "<"
        (.binary ⟨1, 1⟩ "-" (.unary ⟨1, 1⟩ "-" (name "a") true)
          (.binary ⟨1, 1⟩ "*" (name "b")
            (.binary ⟨1, 1⟩ "**" (name "c") (.binary ⟨1, 1⟩ "**" (name "d") (name "e")))))
        (.binary ⟨1, 1⟩ "+" (name "f") (name "g"))) ∧
      outcome chained = .error (.ofToken .chainedComparison (.ofLexeme (.ofSymbol .eq) ⟨0, 1, 1⟩)) := by
  intro first name rest chained outcome
  have hfirst : first.IsProper := Atom.isProper_named "a" true
  have hchained : ∀ t ∈ chained, t.IsProper := by
    simp only [chained, rest, List.cons_append, List.nil_append, List.forall_mem_cons]
    exact ⟨Tail.isProper_named (by decide) _, Tail.isProper_named (by decide) _,
      Tail.isProper_named (by decide) _, Tail.isProper_named (by decide) _, Tail.isProper_named (by decide) _,
      Tail.isProper_named (by decide) _, Tail.isProper_named (by decide) _, List.forall_mem_nil _⟩
  have hrest : ∀ t ∈ rest, t.IsProper := fun t ht => hchained t (List.mem_append_left _ ht)
  have hshort {part : List Tail} (hp : part.length ≤ 9900) :
      ¬∃ run, run <:+: part ∧ Ladder.Within Ladder.powers run ∧ 9900 < run.length := by
    rintro ⟨run, hin, -, hlong⟩
    have := hin.length_le
    omega
  refine ⟨hfirst, hchained, ?_, ?_⟩
  · refine ((expression_ladder first rest (.endAt ⟨0, 1, 1⟩) hfirst hrest rfl).resolve_right fun h =>
      hshort (by decide) h.1).trans ?_
    cbv
  · refine ((expression_ladder first chained (.endAt ⟨0, 1, 1⟩) hfirst hchained rfl).resolve_right fun h =>
      hshort (by decide) h.1).trans ?_
    cbv

theorem writtenBy_powers (n : Nat) (place : Place) :
    (Node.powers n).WrittenBy (Ladder.tokens (.named "a") (List.replicate n (.named .pow "a")))
      (.endAt place) := by
  refine ⟨?_, rfl⟩
  induction n with
  | zero => rfl
  | succ n ih =>
    rw [Node.lexemes_powers, ← ih]
    rfl

theorem powers_rejected {n : Nat} (hn : 9980 ≤ n) (tree : Node) :
    expression.ofInput (.ofTokens (Ladder.tokens (.named "a") (List.replicate n (.named .pow "a")) ++
      [.endAt ⟨0, 1, 1⟩])) ≠ .ok tree := by
  obtain ⟨q, hr, -⟩ := (Node.expression_exhausted hn (writtenBy_powers n ⟨0, 1, 1⟩)).run_exhausted
  rw [expression.ofInput_of_failed hr]
  nofun

/-- Powers in a row that are not read as their tree. -/
theorem powers_not_tree :
    let first := Atom.named "a"
    let rest := List.replicate 12000 (Tail.named .pow "a")
    first.IsProper ∧ (∀ t ∈ rest, t.IsProper) ∧ rest.filter (Tail.isOf Grammar.comparisons) = [] ∧
      expression.ofInput (.ofTokens (Ladder.tokens first rest ++ [.endAt ⟨0, 1, 1⟩])) ≠
        .ok (Ladder.tree first rest) := by
  intro first rest
  have hmem : ∀ t ∈ rest, t = .named .pow "a" := fun t ht => List.eq_of_mem_replicate ht
  refine ⟨Atom.isProper_named "a" false, fun t ht => ?_, ?_, ?_⟩
  · rw [hmem t ht]
    exact Tail.isProper_named (by decide) "a"
  · refine List.filter_eq_nil_iff.mpr fun t ht => ?_
    rw [hmem t ht]
    decide
  · exact powers_rejected (by decide) _

end Entry

end MagSyntax
