import MagSyntax.Proofs.OpenConditions
import MagSyntax.Proofs.Unwrapped

/-! Formatting. What is printed for an accepted source is accepted, as the same tree but for parentheses, and
printing that tree gives the same text again. -/

namespace MagSyntax

namespace Node

theorem IsWellPlaced.keepsElse {n : Node} (h : n.IsWellPlaced) : n.KeepsElse := by
  cases n with
  | conditionalStatement => exact h
  | _ => trivial

end Node

namespace Entry

theorem unwrapped_enclosed {P : Node → Prop} (entry : Entry) (hP : ∀ n, P n → n.KeepsElse) {n : Node}
    (h : entry.TreeOf P n) : n.enclosed.unwrapped = n.unwrapped := by
  cases entry with
  | program =>
    cases n with
    | program loc body =>
      rw [Node.enclosed, Node.unwrapped, Node.unwrapped,
        Node.allUnwrapped_enclosed_statements hP body h]
    | _ => exact h.elim
  | expression => exact Node.unwrapped_enclosed hP n h

/-- What is printed for a source that is accepted, and whose fields are named by words, is accepted as the
same tree but for parentheses and printed as the same text, unless its parse is cut short. -/
theorem format_idempotent (entry : Entry) {source : Text} {tree : Node}
    (h : entry.ofSource source = .ok tree) (hf : source.NamesFields) :
    ∃ text, entry.print tree = .ok text ∧
      (entry.CutsShort text ∨ ∃ t, entry.ofSource text = .ok t ∧
        t.unwrapped.alike tree.unwrapped ∧ entry.print t = .ok text) := by
  have htree := entry.treeOf_of_ofSource h hf
  obtain ⟨text, hprint, hagain⟩ := entry.reprint Node.readsBack htree
  refine ⟨text, hprint, hagain.imp_right ?_⟩
  rintro ⟨t, ht, halike, hsame⟩
  have hwrap := entry.unwrapped_enclosed (fun _ h => h.1.keepsElse) htree
  exact ⟨t, ht, hwrap ▸ Node.alike_unwrapped halike, hsame⟩

theorem format_idempotent_openCondition :
    let text : Text := "if (a.if < b) \x7b\n    let y = if (if c then d else e) then f else g;\n\x7d\n"
    ∃ tree, program.ofSource "if a.if < b { let y = if if c then d else e then f else g; }" = .ok tree ∧
      program.print tree = .ok text ∧ ¬program.CutsShort text ∧ ∃ t, program.ofSource text = .ok t ∧
        t.unwrapped.alike tree.unwrapped ∧ program.print t = .ok text := by
  intro text
  have hf : Text.NamesFields "if a.if < b { let y = if if c then d else e then f else g; }" := by
    decide +kernel
  have hcut : ¬program.CutsShort text := by decide +kernel
  obtain ⟨tree, h, hprint⟩ : ∃ tree, program.ofSource
      "if a.if < b { let y = if if c then d else e then f else g; }" = .ok tree ∧ program.print tree = .ok text :=
    ⟨_, rfl, by decide +kernel⟩
  obtain ⟨text', htext', hread⟩ := format_idempotent .program h hf
  cases htext'.symm.trans hprint
  exact ⟨tree, h, hprint, hcut, hread.resolve_left hcut⟩

/-- What is printed for a tree is not read if its tokens use up the budget, although no rule is refused. -/
theorem not_read_of_exhausted {P : Node → Prop} (entry : Entry) (hP : Node.ReadsBack P) {n : Node}
    (h : entry.TreeOf P n)
    (hends : ∀ tokens last, n.enclosed.WrittenBy tokens last →
      Parse.Ends (.usual (.ofTokens (tokens ++ [last]))) Parse.Course.untried Parse.Course.anything
        (Grammar.rule entry.rule) 0 0 .exhausted) :
    ∃ text tokens, entry.print n = .ok text ∧ tokenize text = .ok tokens ∧
      ((Grammar.rule entry.rule).run { input := .ofTokens tokens } .start).progress.refused = false ∧
      ∀ t, entry.ofSource text ≠ .ok t := by
  obtain ⟨text, hprint, -, hlays, ha⟩ := entry.print_of_treeOf hP h
  obtain ⟨tokens, last, ht, hw⟩ := writtenBy_of_lays hlays ha
  obtain ⟨q, hr, hq⟩ := (hends tokens last hw).run_exhausted
  refine ⟨text, _, hprint, ht, ?_, entry.ofSource_ne_of_exhausted ht hr⟩
  rw [hr]
  exact hq

/-- Open conditions that are read from a source, and printed as a text that uses up the budget. -/
theorem format_openConditions (m n : Nat) (hm : m < 254) (hread : 14 * (m + 1) + n ≤ 9968)
    (hcut : 9961 ≤ 17 * m + n) :
    let source := Text.spaced (Node.declared (.openConditions n (m + 1))).lexemes
    source.NamesFields ∧ ∃ tree text tokens, program.ofSource source = .ok tree ∧
      program.print tree = .ok text ∧ tokenize text = .ok tokens ∧
      ((Grammar.rule .program).run { input := .ofTokens tokens } .start).progress.refused = false ∧
      ∀ t, program.ofSource text ≠ .ok t := by
  intro source
  have hsimple := Node.isSimple_declared (Node.isSimple_openConditions n (m + 1))
  have hcanonical := Node.isProgram_declared (Node.isExpression_openConditions n (m + 1))
  obtain ⟨tokens, last, ht, hw⟩ := Node.writtenBy_spaced hsimple
  obtain ⟨tree, htree, halike⟩ := reads_openConditions hread hw
  have hsource : program.ofSource source = .ok tree := by
    rw [ofSource, ht]
    exact htree
  obtain ⟨text, tokens', hprint, hread'⟩ := program.not_read_of_exhausted Node.readsBack
    (program.treeOf_of_isSimple hsimple hcanonical) fun _ _ => openConditions_exhausted hm hcut
  exact ⟨Text.namesFields_spaced hsimple, tree, text, tokens', hsource,
    (program.print_eq_of_alike halike).trans hprint, hread'⟩

/-- A source with open conditions that is accepted, and its formatted text is not, although nothing in that is
nested too deeply. Printing is not bounded here: a printer on a bounded stack needs a larger one for this tree than the
parser is given. -/
theorem openConditions_not_formatted :
    let source := Text.spaced (Node.declared (.openConditions 6100 250)).lexemes
    source.NamesFields ∧ ∃ tree text tokens, program.ofSource source = .ok tree ∧
      program.print tree = .ok text ∧ tokenize text = .ok tokens ∧
      ((Grammar.rule .program).run { input := .ofTokens tokens } .start).progress.refused = false ∧
      ∀ t, program.ofSource text ≠ .ok t :=
  format_openConditions 249 6100 (by decide) (by decide) (by decide)

end Entry

end MagSyntax
