import MagSyntax.Proofs.KeptForms
import MagSyntax.Proofs.Spaced

/-! A declaration of a name in brackets upon brackets. Each pair opens one more pattern, and nothing is tried twice, so
that it is known how many rules are open at once in what is kept. -/

namespace MagSyntax

open Parse Input

/-- A name to bind in as many brackets as given. -/
def Lexeme.patterns : Nat → List Lexeme
  | 0 => [⟨.ident, "x", 10, []⟩]
  | n + 1 => .ofSymbol .lbrack :: (patterns n ++ [.ofSymbol .rbrack])

/-- A declaration of it, without a value. -/
def Lexeme.declaredPatterns (n : Nat) : List Lexeme :=
  .ofKeyword .constWord :: (patterns n ++ [.ofSymbol .semi])

namespace Lexeme

theorem length_patterns (n : Nat) : (patterns n).length = 2 * n + 1 := by
  induction n with
  | zero => rfl
  | succ n ih =>
    rw [patterns, List.length_cons, List.length_append, ih, List.length_singleton]
    omega

theorem length_declaredPatterns (n : Nat) : (declaredPatterns n).length = 2 * n + 3 := by
  simp only [declaredPatterns, List.length_cons, List.length_append, length_patterns, List.length_nil]

theorem isSimple_patterns (n : Nat) : ∀ l ∈ patterns n, l.IsSimple := by
  induction n with
  | zero => exact List.forall_mem_singleton.mpr (.identifier ⟨⟨_, _, rfl, by decide +kernel⟩, by decide +kernel⟩ rfl)
  | succ n ih =>
    simp only [patterns, List.forall_mem_cons, List.forall_mem_append]
    exact ⟨.symbol nofun nofun, ih, .symbol nofun nofun, List.forall_mem_nil _⟩

theorem isSimple_declaredPatterns (n : Nat) : ∀ l ∈ declaredPatterns n, l.IsSimple := by
  simp only [declaredPatterns, List.forall_mem_cons, List.forall_mem_append]
  exact ⟨.keyword _, isSimple_patterns n, .symbol nofun nofun, List.forall_mem_nil _⟩

end Lexeme

theorem Input.kind_of_shows_patterns {input : Input} {c n : Nat} (h : input.Shows c (Lexeme.patterns n)) :
    (input.get c).kind = .ident ∨ (input.get c).kind = Symbol.lbrack := by
  cases n with
  | zero => exact .inl (kind_of_shows h)
  | succ n => exact .inr (kind_of_shows h)

namespace Grammar

variable {setup : Setup} {input : Input} {b c n : Nat} {p : Progress}

theorem run_bindingPattern_name (self : Rule → Parse Node) (hk : (setup.input.get p.cursor).kind = .ident) :
    (bindingPattern self).run setup p =
      .ok (.identifier (locOf (setup.input.get p.cursor)) (setup.input.get p.cursor).value)
        { p with cursor := p.cursor + 1 } := by
  have hcurrent : current.run setup p = .ok (setup.input.get p.cursor) p := rfl
  have hadvance : (discard advance).run setup p = .ok () { p with cursor := p.cursor + 1 } :=
    congrArg (Outcome.ok ()) (pastToken_of_ne (by rw [hk]; exact TokenKind.noConfusion))
  rw [bindingPattern, run_bind, hcurrent]
  dsimp only
  rw [hk]
  dsimp only
  rw [run_bind, hadvance]
  rfl

/-- A list of one pattern. -/
theorem run_bindingPattern_list {self : Rule → Parse Node} {v : Node} {q : Progress}
    (hopen : (setup.input.get p.cursor).kind = Symbol.lbrack)
    (hnonempty : (setup.input.get (p.cursor + 1)).kind ≠ Symbol.rbrack)
    (h : (self .bindingPattern).run setup { p with cursor := p.cursor + 1 } = .ok v q)
    (hclose : (setup.input.get q.cursor).kind = Symbol.rbrack) :
    (bindingPattern self).run setup p =
      .ok (.arrayPattern (locOf (setup.input.get p.cursor)) [v]) { q with cursor := q.cursor + 1 } := by
  have hcurrent : current.run setup p = .ok (setup.input.get p.cursor) p := rfl
  have hne : (setup.input.get p.cursor).kind ≠ .eof := by
    rw [hopen]
    exact TokenKind.noConfusion
  obtain ⟨bound, hlist⟩ := run_delimited rfl (self .bindingPattern) hne hnonempty
  rw [bindingPattern, run_bind, hcurrent]
  dsimp only
  rw [hopen]
  dsimp only
  rw [run_bind, hlist, run_bind, h]
  dsimp only
  rw [run_listBehind_close hclose (by decide)]
  rfl

/-- A pattern without a memo and without a bound. -/
theorem run_bindingPattern {v : Node} {q : Progress}
    (h : (bindingPattern (rulesOn b)).run ⟨input, false, none⟩ p.deeper = .ok v q) :
    (rulesOn (b + 3) .bindingPattern).run ⟨input, false, none⟩ p = .ok v { q with depth := q.depth - 1 } := by
  change (nested (bindingPattern (rulesOn b))).run ⟨input, false, none⟩ p = _
  rw [run_nested, if_neg (by simp), h]
  rfl

/-- The pattern is read without a memo, and one more rule is open at once than there are brackets. -/
theorem run_patterns (hs : input.Shows p.cursor (Lexeme.patterns n)) (hb : 3 * n + 3 ≤ b) :
    ∃ v, (rulesOn b .bindingPattern).run ⟨input, false, none⟩ p =
      .ok v { p with cursor := p.cursor + (2 * n + 1), deepest := max p.deepest (p.depth + (n + 1)) } := by
  induction n generalizing b p with
  | zero =>
    obtain ⟨b, rfl⟩ : ∃ b', b = b' + 3 := ⟨b - 3, by omega⟩
    have hk : (input.get p.deeper.cursor).kind = .ident := kind_of_shows hs
    have hname : (bindingPattern (rulesOn b)).run ⟨input, false, none⟩ p.deeper = _ := run_bindingPattern_name _ hk
    exact ⟨_, run_bindingPattern hname⟩
  | succ n ih =>
    obtain ⟨b, rfl⟩ : ∃ b', b = b' + 3 := ⟨b - 3, by omega⟩
    obtain ⟨hinner, hrest⟩ := shows_append.mp hs.2.2
    rw [Lexeme.length_patterns] at hrest
    have hopen : (input.get p.deeper.cursor).kind = Symbol.lbrack := kind_of_shows hs
    have hclose : (input.get (p.cursor + 1 + (2 * n + 1))).kind = Symbol.rbrack := kind_of_shows hrest
    obtain ⟨v, hv⟩ := ih (b := b) (p := { p.deeper with cursor := p.cursor + 1 }) hinner (by omega)
    have hnonempty : (input.get (p.cursor + 1)).kind ≠ Symbol.rbrack := by
      rcases kind_of_shows_patterns hinner with hk | hk <;> rw [hk] <;> decide
    have hlist : (bindingPattern (rulesOn b)).run ⟨input, false, none⟩ p.deeper = _ :=
      run_bindingPattern_list hopen hnonempty hv hclose
    refine ⟨.arrayPattern (locOf (input.get p.cursor)) [v], (run_bindingPattern hlist).trans (congrArg (Outcome.ok _) ?_)⟩
    simp only [Progress.deeper, Nat.add_sub_cancel, Progress.mk.injEq, true_and]
    omega

/-- A declaration of a constant without a type and without a value. -/
theorem run_declaration_bare {self : Rule → Parse Node} {v : Node} {q : Progress}
    (hword : (setup.input.get p.cursor).kind = Keyword.constWord)
    (hmut : (setup.input.get (p.cursor + 1)).kind ≠ Keyword.mutWord)
    (h : (self .bindingPattern).run setup { p with cursor := p.cursor + 1 } = .ok v q)
    (hsemi : (setup.input.get q.cursor).kind = Symbol.semi) :
    (declaration self).run setup p = .ok (.declaration (locOf (setup.input.get p.cursor)) v none none true false)
      { q with cursor := q.cursor + 1 } := by
  have hpast : p.pastToken setup.input = _ := pastToken_of_ne (by rw [hword]; exact TokenKind.noConfusion)
  have hpast' : q.pastToken setup.input = _ := pastToken_of_ne (by rw [hsemi]; decide)
  rw [declaration_eq, run_bind, expectKind, run_expectOne, if_pos (by simp [hword]), hpast]
  dsimp only
  rw [run_sees_bind, decide_eq_false hmut]
  simp only [Bool.false_eq_true, if_false, declarationRest]
  rw [run_bind, h]
  dsimp only
  rw [run_skip_false (by rw [hsemi]; decide)]
  simp only [Bool.false_eq_true, if_false, pure_bind]
  rw [run_skip_false (by rw [hsemi]; decide)]
  simp only [Bool.false_eq_true, if_false, terminate]
  rw [run_expect_bind hsemi, hpast', hword]
  rfl

/-- A program of one statement. -/
theorem run_program_one {self : Rule → Parse Node} {v : Node} {q : Progress} (hk : (setup.input.get 0).kind ≠ .eof)
    (h : (self .statement).run setup .start = .ok v q) (hend : (setup.input.get q.cursor).kind = .eof)
    (hsize : 0 < setup.input.before.size) :
    (program self).run setup .start = .ok (.program (locOf (setup.input.get 0)) [v]) q := by
  have hk : (setup.input.get Progress.start.cursor).kind ≠ .eof := hk
  have hcurrent : current.run setup .start = .ok (setup.input.get 0) .start := rfl
  obtain ⟨bound, hbound⟩ : ∃ bound, setup.input.before.size - Progress.start.cursor + 1 = bound + 2 :=
    ⟨setup.input.before.size - 1, by change _ - 0 + 1 = _; omega⟩
  rw [program, run_bind, hcurrent]
  dsimp only
  rw [run_rounds_bind, hbound, run_bind, statementsToEnd, run_sees_bind, decide_eq_false hk]
  simp only [Bool.false_eq_true, if_false]
  rw [run_bind, h]
  dsimp only
  rw [statementsToEnd, run_sees_bind, decide_eq_true hend]
  rfl

/-- A declaration of a constant as a whole program, read without a memo and without a bound. -/
theorem run_program_declaration {v : Node} {q : Progress} (hword : (input.get 0).kind = Keyword.constWord)
    (h : (declaration (rulesOn b)).run ⟨input, false, none⟩ Progress.start.deeper = .ok v q)
    (hend : (input.get q.cursor).kind = .eof) (hsize : 0 < input.before.size) :
    ∃ t q', (parse (b + 5) 0 .program).run ⟨input, false, none⟩ .start = .ok t q' ∧ q'.cursor = q.cursor ∧
      q'.deepest = q.deepest := by
  have hstatement : (statement (rulesOn (b + 1))).run ⟨input, false, none⟩ Progress.start.deeper = .ok v q := by
    have hcurrent : current.run ⟨input, false, none⟩ Progress.start.deeper = .ok (input.get 0) Progress.start.deeper :=
      rfl
    rw [statement, run_bind, hcurrent]
    dsimp only
    rw [hword]
    exact h
  have hnested : (rulesOn (b + 4) .statement).run ⟨input, false, none⟩ .start =
      .ok v { q with depth := q.depth - 1, memo := q.memo.store ⟨.statement, 0⟩ (.node v q.cursor) } := by
    change (remembered .statement (nested (statement (rulesOn (b + 1))))).run _ _ = _
    rw [run_remembered_miss (fun h => by cases h), run_nested, if_neg (by simp), hstatement]
    rfl
  have hprogram : (program (rulesOn (b + 4))).run ⟨input, false, none⟩ .start = _ :=
    run_program_one (by rw [hword]; exact TokenKind.noConfusion) hnested hend hsize
  exact ⟨_, _, hprogram, rfl, rfl⟩

/-- The declaration is a program that is read without a memo and without a bound, and two more rules are open at once
than there are brackets. -/
theorem reads_declaredPatterns (hs : input.Shows 0 (Lexeme.declaredPatterns n))
    (hend : (input.get (2 * n + 3)).kind = .eof) (hsize : input.before.size = 2 * n + 3) :
    ∃ t q, (parse (3 * n + 8) 0 .program).run ⟨input, false, none⟩ .start = .ok t q ∧
      (input.get q.cursor).kind = .eof ∧ q.deepest = n + 2 := by
  obtain ⟨hpatterns, hrest⟩ := shows_append.mp hs.2.2
  rw [Lexeme.length_patterns] at hrest
  have hword : (input.get 0).kind = Keyword.constWord := kind_of_shows hs
  have hmut : (input.get (0 + 1)).kind ≠ Keyword.mutWord := by
    rcases kind_of_shows_patterns hpatterns with hk | hk <;> rw [hk] <;> decide
  obtain ⟨v, hv⟩ := run_patterns (b := 3 * n + 3) (p := { Progress.start.deeper with cursor := 0 + 1 }) hpatterns
    (Nat.le_refl _)
  have hdeclaration : (declaration (rulesOn (3 * n + 3))).run ⟨input, false, none⟩ Progress.start.deeper = _ :=
    run_declaration_bare hword hmut hv (kind_of_shows hrest)
  rw [show 2 * n + 3 = 0 + 1 + (2 * n + 1) + 1 by omega] at hend
  obtain ⟨t, q, hrun, hcursor, hdeepest⟩ := run_program_declaration (b := 3 * n + 3) hword hdeclaration hend (by omega)
  refine ⟨t, q, hrun, by rw [hcursor]; exact hend, hdeepest.trans ?_⟩
  simp only [Progress.start, Progress.within, Progress.deeper]
  omega

end Grammar

end MagSyntax
