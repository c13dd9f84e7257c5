import MagSyntax.Proofs.Powers

/-! Every canonical program is found again from its own lexemes, wherever they stand, unless the parse is
cut short: by the bound on nesting, or by the budget, which long chains of powers use up. -/

namespace MagSyntax

open Parse Input

/-- A canonical program that is written out is accepted, and the tree that is found is that program,
unless the parse is cut short. -/
theorem Entry.accepts_program {tree : Node} {tokens : List Token} {last : Token}
    (hcanonical : tree.isProgram) (hw : tree.WrittenBy tokens last) :
    let input := Input.ofTokens (tokens ++ [last])
    ((Grammar.rule .program).run { input } .start).IsCutShort ∨
      ∃ t, Entry.program.ofInput input = .ok t ∧ t.alike tree :=
  Entry.finds_canonical .program hcanonical hw

/-- The tree of `let r = if (c) - d then a else if (c)(d) {} else {};`, in which both conditions
start like one in parentheses. -/
def Node.ifForms : Node :=
  let name (s : Text) : Node := .identifier .unknown s
  let group : Node := .parenthesized .unknown (name "c")
  let blocks : Node := .conditional .unknown (.call .unknown group [name "d"]) (.block .unknown [])
    (.block .unknown []) false
  let value : Node := .conditional .unknown (.binary .unknown "-" group (name "d")) (name "a") blocks
    true
  .program .unknown [.declaration .unknown (name "r") none (some value) false false]

theorem Entry.accepts_program_ifForms :
    ∃ t, Entry.program.ofInput (.ofTokens (Node.ifForms.tokens ++ [.endAt ⟨0, 1, 1⟩])) = .ok t ∧
      t.alike .ifForms :=
  (@Entry.accepts_program .ifForms _ _ rfl (Node.writtenBy_tokens _ _)).resolve_left fun h => by
    rcases h with h | ⟨p, h⟩ <;> cases h

theorem Entry.powers_cut_short (n : Nat) (hn : 9978 ≤ n) :
    (Node.powersProgram n).isProgram ∧
      (Node.powersProgram n).WrittenBy (Node.powersProgram n).tokens (.endAt ⟨0, 1, 1⟩) ∧
      ((Grammar.rule .program).run
        { input := .ofTokens ((Node.powersProgram n).tokens ++ [.endAt ⟨0, 1, 1⟩]) }
        .start).progress.refused = false ∧
      ∀ t, Entry.program.ofInput
        (.ofTokens ((Node.powersProgram n).tokens ++ [.endAt ⟨0, 1, 1⟩])) ≠ .ok t := by
  have hw := (Node.powersProgram n).writtenBy_tokens ⟨0, 1, 1⟩
  obtain ⟨q, hr, hq⟩ := (Grammar.powersProgram_exhausted hw (by omega)).run_exhausted
  refine ⟨Node.isProgram_powersProgram n, Node.writtenBy_tokens _ _, ?_, fun t ht => ?_⟩
  · rw [hr]
    exact hq
  · simp only [ofInput, parse, Grammar.run, hr] at ht
    cases ht

/-- A canonical program that nothing refuses a rule for, and that is not accepted all the same. -/
theorem Entry.powers_not_accepted :
    (Node.powersProgram 12000).isProgram ∧
      (Node.powersProgram 12000).WrittenBy (Node.powersProgram 12000).tokens (.endAt ⟨0, 1, 1⟩) ∧
      ((Grammar.rule .program).run
        { input := .ofTokens ((Node.powersProgram 12000).tokens ++ [.endAt ⟨0, 1, 1⟩]) }
        .start).progress.refused = false ∧
      ∀ t, Entry.program.ofInput
        (.ofTokens ((Node.powersProgram 12000).tokens ++ [.endAt ⟨0, 1, 1⟩])) ≠ .ok t :=
  powers_cut_short 12000 (by decide)

end MagSyntax
