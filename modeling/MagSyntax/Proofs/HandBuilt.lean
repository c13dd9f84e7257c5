import MagSyntax.Proofs.Formatting

/-! Expressions that no source was read for. If the names and literals in it can be read and its branches are
expressions, every expression is printed as a text that is read as the same tree but for parentheses. -/

namespace MagSyntax

open Lexeme Parse Input

namespace Node

/-- A node of an expression without blocks, whose names are no reserved words and whose literals are some
that a source can have. -/
def IsWritable : Node → Prop
  | .identifier _ name => IsName name ∧ Keyword.ofSpelling? name = none
  | .field _ _ name => IsName name.nameText ∧ Keyword.ofSpelling? name.nameText = none
  | .numeric _ digits base => (Lexeme.mk .number digits base []).IsScanned
  | .regex _ pattern flags => (Lexeme.mk .regex pattern 10 flags).IsScanned
  | .conditional _ _ consequent _ _ => consequent.isBlock = false
  | .string .. | .boolean .. | .parenthesized .. | .binary .. | .unary .. | .index .. | .call ..
  | .array .. | .arrayPattern .. | .assignment .. => True
  | _ => False

theorem ofWord_of_ofSpelling? {w : Text} (h : Keyword.ofSpelling? w = none) :
    ofWord w = ⟨.ident, w, 10, []⟩ := by
  rw [ofWord, h]

theorem IsWritable.isLegible {n : Node} (h : n.IsWritable) : n.IsLegible := by
  cases n with
  | identifier loc name =>
    have hl := isLegible_ofWord h.1
    rwa [ofWord_of_ofSpelling? h.2] at hl
  | field => exact h.1
  | numeric loc digits base => exact ⟨IsScanned.isLegible h (by simp), IsScanned.numeral h rfl⟩
  | regex loc pattern flags => exact IsScanned.isLegible h (by simp)
  | _ => trivial

theorem IsWritable.keepsElse {n : Node} (h : n.IsWritable) : n.KeepsElse := by
  cases n with
  | conditionalStatement => exact h.elim
  | _ => trivial

/-- Every expression without blocks ends a value when it is printed. -/
theorem endsValue_of_isWritable (n : Node) (h : n.ExpressionOf IsWritable) : n.enclosed.EndsValue := by
  cases n with
  | identifier | numeric | string | regex => exact ⟨_, rfl, by simp [SlashContext.valueEnds]⟩
  | boolean loc value => cases value <;> exact ⟨_, rfl, by decide⟩
  | parenthesized | array | index | call => exact endValue_concat.mpr (by decide)
  | field loc object name =>
    have hend : EndValue [.ofSymbol .dot, .ofWord name.nameText] := by
      rw [ofWord_of_ofSpelling? h.1.2]
      exact ⟨_, rfl, by simp [SlashContext.valueEnds]⟩
    exact hend.append
  | unary loc operator argument leading =>
    exact (endsValue_grouped (endsValue_of_isWritable argument h.2.2.2) _).append (a := [_])
  | binary loc operator left right =>
    obtain ⟨-, ⟨level, ho⟩, -, hr⟩ := h
    rw [enclosed_binary ho]
    exact ((endsValue_grouped (endsValue_of_isWritable right hr) _).append (a := [_])).append
  | assignment loc left right operator =>
    exact ((endsValue_of_isWritable right h.2.2.2).append (a := [_])).append
  | conditional loc condition consequent alternate explicitThen =>
    obtain ⟨h, -, hb⟩ := h
    have ha : alternate.ExpressionOf IsWritable := by
      rcases hb with ⟨-, ha⟩ | ⟨-, hb, -⟩
      · exact ha
      · exact absurd (h.symm.trans hb) Bool.false_ne_true
    exact ((endsValue_of_isWritable alternate ha).append (a := [_])).append
  | _ => exact h.elim

theorem readsBack_isWritable : ReadsBack IsWritable where
  isLegible _ h := h.isLegible
  endsValue _ left _ h := endsValue_of_isWritable left h.2.2.1

/-- An expression without blocks, whose names and literals can be read, is printed as a text that is read as
the same tree but for parentheses and printed the same again, unless its parse is cut short. -/
theorem expression_roundTrip {n : Node} (h : n.ExpressionOf IsWritable) :
    ∃ text, n.text = .ok text ∧
      (Entry.expression.CutsShort text ∨ ∃ t, Entry.expression.ofSource text = .ok t ∧
        t.unwrapped.alike n.unwrapped ∧ t.text = .ok text) := by
  obtain ⟨text, hprint, hagain⟩ := Entry.expression.reprint (n := n) readsBack_isWritable h
  refine ⟨text, hprint, hagain.imp_right ?_⟩
  rintro ⟨t, ht, halike, hsame⟩
  exact ⟨t, ht, unwrapped_enclosed (fun _ h => h.keepsElse) n h ▸ alike_unwrapped halike, hsame⟩

theorem isWritable_identifier : (identifier .unknown "a").IsWritable :=
  ⟨⟨⟨_, _, rfl, by decide +kernel⟩, by decide +kernel⟩, rfl⟩

theorem expression_roundTrip_openOperand :
    let a : Node := .identifier .unknown "a"
    let n : Node := .binary .unknown "/" (.conditional .unknown a a a true)
      (.unary .unknown "-" (.assignment .unknown a (.field .unknown a a) "=") true)
    let text : Text := "(if a then a else a) / -(a = a.a)"
    n.ExpressionOf IsWritable ∧ n.text = .ok text ∧ ¬Entry.expression.CutsShort text ∧
      ∃ t, Entry.expression.ofSource text = .ok t ∧ t.unwrapped.alike n.unwrapped ∧ t.text = .ok text := by
  intro a n text
  have ha : a.IsWritable := isWritable_identifier
  have h : n.ExpressionOf IsWritable :=
    ⟨trivial, ⟨_, rfl⟩, ⟨rfl, ha, .inl ⟨ha, ha⟩⟩, trivial, rfl, rfl, trivial, rfl, ha, ha, ha, rfl⟩
  have hcut : ¬Entry.expression.CutsShort text := by decide +kernel
  have hprint : n.text = .ok text := by decide +kernel
  obtain ⟨text', htext', hread⟩ := expression_roundTrip h
  cases htext'.symm.trans hprint
  exact ⟨h, hprint, hcut, hread.resolve_left hcut⟩

theorem expressionOf_powers (n : Nat) : (powers n).ExpressionOf IsWritable := by
  induction n with
  | zero => exact isWritable_identifier
  | succ n ih => exact ⟨trivial, ⟨_, rfl⟩, isWritable_identifier, ih⟩

theorem expression_exhausted {n : Nat} (hn : 9980 ≤ n) {tokens : List Token} {last : Token}
    (hw : (powers n).WrittenBy tokens last) :
    Ends (.usual (.ofTokens (tokens ++ [last]))) Course.untried Course.anything (Grammar.rule .expression)
      0 0 .exhausted := by
  rw [hw.input_eq]
  have hr (c : Nat) := (Course.usual ⟨tokens.toArray, last⟩).recalls_untried c .exhausted
  have hpowers : Ends (.usual ⟨tokens.toArray, last⟩) Course.untried Course.anything
      (Grammar.parse 9980 0 .exponent) 0 1 .exhausted :=
    (Grammar.powers_exhausted n (by omega) hw.shows).mono (fun _ h => h) fun _ _ => trivial
  have hoperand := Grammar.ends_operand_of_exponent (hr _) hpowers nofun
  exact Grammar.ends_expression (b := 9987) (hr _) (Course.fits_usual _ (by decide)) hoperand nofun

/-- A chain of powers that is printed, and not read although nothing in it is nested too deeply. Printing is not bounded
here: on a bounded stack it takes more than the parser is given. -/
theorem powers_not_read :
    (powers 12000).ExpressionOf IsWritable ∧ ∃ text tokens, (powers 12000).text = .ok text ∧
      tokenize text = .ok tokens ∧
      ((Grammar.rule .expression).run { input := .ofTokens tokens } .start).progress.refused = false ∧
      ∀ t, Entry.expression.ofSource text ≠ .ok t := by
  have h := expressionOf_powers 12000
  obtain ⟨text, hprint, -, hlays, ha⟩ :=
    Entry.expression.print_of_treeOf (n := powers 12000) readsBack_isWritable h
  rw [enclosed_powers] at hlays ha
  obtain ⟨tokens, last, ht, hw⟩ := Entry.writtenBy_of_lays hlays ha
  obtain ⟨q, hr, hq⟩ := (expression_exhausted (by decide) hw).run_exhausted
  refine ⟨h, text, _, hprint, ht, ?_, Entry.expression.ofSource_ne_of_exhausted ht hr⟩
  rw [hr]
  exact hq

end Node

end MagSyntax
