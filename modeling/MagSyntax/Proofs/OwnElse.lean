import MagSyntax.Proofs.HandBuilt

/-! Programs that no source was read for. What printing adds to such a program are parentheses, and braces
around the branches that would catch an `else` that is not theirs. So the text is read as the same
statements in the same order, with each `else` at the `if` that it belongs to. -/

namespace MagSyntax

open Lexeme

namespace Node

/-- A node of a program whose expressions have no blocks, and whose names and literals can be read. -/
def IsBuildable : Node → Prop
  | .block .. | .expressionStatement .. | .conditionalStatement .. | .declaration .. => True
  | other => other.IsWritable

theorem IsWritable.isBuildable {n : Node} (h : n.IsWritable) : n.IsBuildable := by
  cases n with
  | block | expressionStatement | conditionalStatement | declaration => trivial
  | _ => exact h

theorem IsBuildable.isLegible {n : Node} (h : n.IsBuildable) : n.IsLegible := by
  cases n with
  | block | expressionStatement | conditionalStatement | declaration => trivial
  | _ => exact IsWritable.isLegible h

mutual

/-- No statement stands in an expression without blocks. -/
theorem ExpressionOf.isWritable {n : Node} (h : n.ExpressionOf IsBuildable) :
    n.ExpressionOf IsWritable := by
  cases n with
  | identifier | numeric | string | boolean | regex => exact h
  | parenthesized loc e => exact ⟨h.1, h.2.isWritable⟩
  | array loc elements => exact ⟨h.1, h.2.isWritable⟩
  | field loc object name => exact ⟨h.1, h.2.1.isWritable, h.2.2⟩
  | index loc object i => exact ⟨h.1, h.2.1.isWritable, h.2.2.isWritable⟩
  | call loc callee arguments => exact ⟨h.1, h.2.1.isWritable, h.2.2.isWritable⟩
  | unary loc operator argument leading => exact ⟨h.1, h.2.1, h.2.2.1, h.2.2.2.isWritable⟩
  | binary loc operator left right => exact ⟨h.1, h.2.1, h.2.2.1.isWritable, h.2.2.2.isWritable⟩
  | assignment loc left right operator =>
    exact ⟨h.1, h.2.1, h.2.2.1.isWritable, h.2.2.2.isWritable⟩
  | conditional loc condition consequent alternate explicitThen =>
    obtain ⟨hplain, hc, ⟨hq, ha⟩ | ⟨-, hblock, -⟩⟩ := h
    · exact ⟨hplain, hc.isWritable, .inl ⟨hq.isWritable, ha.isWritable⟩⟩
    · exact absurd (hplain.symm.trans hblock) Bool.false_ne_true
  | _ => exact h.elim

theorem ExpressionsOf.isWritable {l : List Node} (h : ExpressionsOf IsBuildable l) :
    ExpressionsOf IsWritable l := by
  cases l with
  | nil => trivial
  | cons n rest => exact ⟨h.1.isWritable, h.2.isWritable⟩

theorem TargetOf.isWritable {n : Node} (h : n.TargetOf IsBuildable) : n.TargetOf IsWritable := by
  cases n with
  | identifier => exact h
  | field loc object name => exact ⟨h.1, h.2.1, h.2.2.1.isWritable, h.2.2.2⟩
  | index loc object i => exact ⟨h.1, h.2.1, h.2.2.1.isWritable, h.2.2.2.isWritable⟩
  | arrayPattern loc elements => exact ⟨h.1, h.2.isWritable⟩
  | _ => exact h.elim

theorem TargetsOf.isWritable {l : List Node} (h : TargetsOf IsBuildable l) :
    TargetsOf IsWritable l := by
  cases l with
  | nil => trivial
  | cons n rest => exact ⟨h.1.isWritable, h.2.isWritable⟩

end

theorem readsBack_isBuildable : ReadsBack IsBuildable where
  isLegible _ h := h.isLegible
  endsValue _ left _ h := endsValue_of_isWritable left h.2.2.1.isWritable

mutual

/-- The tree with braces around each branch that would catch an `else` that is not its own. -/
def withOwnElse : Node → Node
  | .program loc body => .program loc (allWithOwnElse body)
  | .block loc body => .block loc (allWithOwnElse body)
  | .conditionalStatement loc condition consequent alternate =>
    .conditionalStatement loc condition
      (if alternate.isSome && consequent.dangles then .block .unknown [consequent.withOwnElse]
        else consequent.withOwnElse)
      (withOwnElse? alternate)
  | other => other

/-- The trees, each with the braces. -/
def allWithOwnElse : List Node → List Node
  | [] => []
  | n :: rest => n.withOwnElse :: allWithOwnElse rest

/-- The tree, if it is there, with the braces. -/
def withOwnElse? : Option Node → Option Node
  | none => none
  | some n => some n.withOwnElse

end

theorem unwrapped_enclosed_isBuildable {n : Node} (h : n.ExpressionOf IsBuildable) :
    n.enclosed.unwrapped = n.unwrapped :=
  unwrapped_enclosed (fun _ h => h.keepsElse) n h.isWritable

theorem unwrapped?_enclosed_isBuildable {n : Option Node} (h : NoneOrExpressionOf IsBuildable n) :
    unwrapped? (enclosed? n) = unwrapped? n := by
  cases n with
  | none => rfl
  | some n => simp only [enclosed?, unwrapped?, unwrapped_enclosed_isBuildable h]

theorem unwrapped?_enclosed_type_isBuildable {n : Option Node} (followed : Bool)
    (h : NoneOrExpressionOf IsBuildable n) : unwrapped? (typeEnclosed? followed n) = unwrapped? n := by
  cases n with
  | none => rfl
  | some n => simp only [typeEnclosed?, unwrapped?, unwrapped_grouped, unwrapped_enclosed_isBuildable h]

mutual

/-- Printing adds to a statement the braces that it needs, and parentheses. -/
theorem unwrapped_enclosed_eq_withOwnElse (n : Node) (h : n.StatementOf IsBuildable) :
    n.enclosed.unwrapped = n.withOwnElse.unwrapped := by
  cases n with
  | block loc body =>
    simp only [enclosed, withOwnElse, unwrapped, allUnwrapped_enclosed_eq_withOwnElse body h.2]
  | expressionStatement loc e =>
    simp only [enclosed, withOwnElse, unwrapped, unwrapped_grouped, unwrapped_enclosed_isBuildable h.2]
  | conditionalStatement loc condition consequent alternate =>
    obtain ⟨-, hc, hq, ha⟩ := h
    have hq := unwrapped_enclosed_eq_withOwnElse consequent hq
    simp only [enclosed, withOwnElse, unwrapped, unwrapped_enclosed_isBuildable hc,
      unwrapped?_enclosed_eq_withOwnElse alternate ha]
    congr 1
    split
    · simp only [unwrapped, allUnwrapped, hq]
    · exact hq
  | declaration loc left type right constant mutable =>
    obtain ⟨-, -, hl, ht, hr, -⟩ := h
    simp only [enclosed, withOwnElse, unwrapped,
      unwrapped_enclosed_target (fun _ h => h.keepsElse) left hl.isWritable,
      unwrapped?_enclosed_type_isBuildable right.isSome ht, unwrapped?_enclosed_isBuildable hr]
  | _ => exact h.elim

theorem allUnwrapped_enclosed_eq_withOwnElse (l : List Node) (h : StatementsOf IsBuildable l) :
    allUnwrapped (allEnclosed l) = allUnwrapped (allWithOwnElse l) := by
  cases l with
  | nil => rfl
  | cons n rest =>
    simp only [allEnclosed, allWithOwnElse, allUnwrapped, unwrapped_enclosed_eq_withOwnElse n h.1,
      allUnwrapped_enclosed_eq_withOwnElse rest h.2]

theorem unwrapped?_enclosed_eq_withOwnElse (n : Option Node) (h : NoneOrStatementOf IsBuildable n) :
    unwrapped? (enclosed? n) = unwrapped? (withOwnElse? n) := by
  cases n with
  | none => rfl
  | some n => simp only [enclosed?, withOwnElse?, unwrapped?, unwrapped_enclosed_eq_withOwnElse n h]

end

/-- A program that was built by hand is printed as a text that is read as that program with each `else` at its
own `if`, but for parentheses, unless its parse is cut short. -/
theorem program_keepsElse {n : Node} (h : Entry.program.TreeOf IsBuildable n) :
    ∃ text, n.source = .ok text ∧
      (Entry.program.CutsShort text ∨ ∃ t, Entry.program.ofSource text = .ok t ∧
        t.unwrapped.alike n.withOwnElse.unwrapped) := by
  obtain ⟨text, hprint, hagain⟩ := Entry.program.reprint readsBack_isBuildable h
  refine ⟨text, hprint, hagain.imp_right ?_⟩
  rintro ⟨t, ht, halike, -⟩
  refine ⟨t, ht, ?_⟩
  cases n with
  | program loc body =>
    have hbody := allUnwrapped_enclosed_eq_withOwnElse body h
    have halike := alike_unwrapped halike
    rwa [enclosed, unwrapped, hbody] at halike
  | _ => exact h.elim

theorem enclosed_powersProgram (n : Nat) : (powersProgram n).enclosed = powersProgram n := by
  have hplain : ((powers n).isAssignment || (powers n).startsWithIf) = false := by cases n <;> rfl
  simp only [powersProgram, enclosed, allEnclosed, hplain, grouped_false, enclosed_powers]

/-- An `if` without an `else` in front of the `else` of another gets braces, and one behind it does not. -/
theorem program_keepsElse_danglingElse :
    let a : Node := .identifier .unknown "a"
    let inner : Node := .conditionalStatement .unknown a (.expressionStatement .unknown a) none
    let n : Node := .program .unknown [.conditionalStatement .unknown a inner (some inner),
      .declaration .unknown a none (some a) true false]
    let text : Text := "if (a) \x7b\n    if (a) a;\n\x7d else if (a) a;\nconst a = a;\n"
    Entry.program.TreeOf IsBuildable n ∧
      n.withOwnElse = .program .unknown
        [.conditionalStatement .unknown a (.block .unknown [inner]) (some inner),
          .declaration .unknown a none (some a) true false] ∧
      n.source = .ok text ∧ ¬Entry.program.CutsShort text ∧
        ∃ t, Entry.program.ofSource text = .ok t ∧ t.unwrapped.alike n.withOwnElse.unwrapped := by
  intro a inner n text
  have ha : a.IsWritable := isWritable_identifier
  have hinner : inner.StatementOf IsBuildable := ⟨trivial, ha, ⟨trivial, ha⟩, trivial⟩
  have h : Entry.program.TreeOf IsBuildable n :=
    ⟨⟨trivial, ha, hinner, hinner⟩, ⟨trivial, rfl, ha, trivial, ha, rfl⟩, trivial⟩
  have hcut : ¬Entry.program.CutsShort text := by decide +kernel
  have hprint : n.source = .ok text := by decide +kernel
  obtain ⟨text', htext', hread⟩ := program_keepsElse h
  cases htext'.symm.trans hprint
  exact ⟨h, rfl, hprint, hcut, hread.resolve_left hcut⟩

theorem powersProgram_cutShort (n : Nat) (hn : 9978 ≤ n) :
    Entry.program.TreeOf IsBuildable (powersProgram n) ∧
      ∃ text tokens, (powersProgram n).source = .ok text ∧ tokenize text = .ok tokens ∧
        ((Grammar.rule .program).run { input := .ofTokens tokens } .start).progress.refused = false ∧
        ∀ t, Entry.program.ofSource text ≠ .ok t := by
  have hpowers : (powers n).ExpressionOf IsBuildable :=
    (expressionOf_powers n).both (fun _ h _ => h.isBuildable) (expressionOf_powers n)
  have h : Entry.program.TreeOf IsBuildable (powersProgram n) := ⟨⟨trivial, hpowers⟩, trivial⟩
  refine ⟨h, Entry.program.not_read_of_exhausted readsBack_isBuildable h fun tokens last hw => ?_⟩
  rw [enclosed_powersProgram] at hw
  exact Grammar.powersProgram_exhausted hw (by omega)

/-- A program that is printed, and not read although nothing in it is nested too deeply. Printing is not bounded
here: on a bounded stack it takes more than the parser is given. -/
theorem powersProgram_not_read :
    Entry.program.TreeOf IsBuildable (powersProgram 12000) ∧
      ∃ text tokens, (powersProgram 12000).source = .ok text ∧ tokenize text = .ok tokens ∧
        ((Grammar.rule .program).run { input := .ofTokens tokens } .start).progress.refused = false ∧
        ∀ t, Entry.program.ofSource text ≠ .ok t :=
  powersProgram_cutShort 12000 (by decide)

end Node

end MagSyntax
