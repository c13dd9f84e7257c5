import MagSyntax.Proofs.Limits
import MagSyntax.Proofs.Spaced

/-! Conditions that end in an open branch, each the condition of the next. Printing puts parentheses around all
but the innermost, and to read them takes more of the budget than to read the conditions without them. -/

namespace MagSyntax

open Parse Input

namespace Node

theorem enclosed_powers (n : Nat) : (powers n).enclosed = powers n := by
  induction n with
  | zero => rfl
  | succ n ih =>
    rw [powers, enclosed_binary (show Level.ofOperator "**" = .ok Level.exponent from rfl), ih]
    have hright : (powers n).needsGroup (Level.sides Level.exponent).2 false = false :=
      needsGroup_of_bindsAt (bindsAt_powers n) (fun h => absurd h Bool.false_ne_true)
    rw [hright]
    rfl

/-- A chain of powers under as many conditions with a `then` as given, each the condition of the next. -/
def openConditions (n : Nat) : Nat → Node
  | 0 => powers n
  | m + 1 => .conditional .unknown (openConditions n m) (.identifier .unknown "b")
    (.identifier .unknown "c") true

/-- A program that gives a name a value. -/
def declared (value : Node) : Node :=
  .program .unknown [.declaration .unknown (.identifier .unknown "x") none (some value) false false]

/-- The branches of each of the open conditions. -/
def openBranches : List Lexeme :=
  [.ofKeyword .thenWord, ⟨.ident, "b", 10, []⟩, .ofKeyword .elseWord, ⟨.ident, "c", 10, []⟩]

variable (n m : Nat)

theorem lexemes_openConditions : (openConditions n (m + 1)).lexemes =
    .ofKeyword .ifWord :: ((openConditions n m).lexemes ++ openBranches) := by
  simp [openConditions, lexemes, conditionWords, isBlock, openBranches]

theorem needsGroupBare_powers : (powers n).needsGroupBare = false := by
  have ho : (powers n).endsOpen = false := by
    induction n with
    | zero => rfl
    | succ n ih => exact ih
  have hd : (powers n).divides = false := by cases n <;> rfl
  rw [needsGroupBare, hd, needsGroup_of_bindsAt (bindsAt_of_le (bindsAt_powers n) (by decide)) fun _ => ho]
  rfl

theorem lexemes_enclosed_openConditions_one : (openConditions n 1).enclosed.lexemes =
    .ofKeyword .ifWord :: ((powers n).lexemes ++ openBranches) := by
  rw [openConditions, openConditions, enclosed, needsGroupBare_powers, enclosed_powers]
  simp [enclosed, lexemes, conditionWords, isBlock, openBranches]

theorem lexemes_enclosed_openConditions : (openConditions n (m + 2)).enclosed.lexemes =
    .ofKeyword .ifWord :: .ofSymbol .lparen :: ((openConditions n (m + 1)).enclosed.lexemes ++
      .ofSymbol .rparen :: openBranches) := by
  have hg : (openConditions n (m + 1)).needsGroupBare = true := rfl
  rw [openConditions, enclosed, hg]
  simp [enclosed, lexemes, conditionWords, isBlock, openBranches]

theorem isExpression_openConditions : (openConditions n m).isExpression := by
  induction m with
  | zero => exact isExpression_powers n
  | succ m ih =>
    have ha : (openConditions n m).isAssignment = false := by
      cases m with
      | zero => cases n <;> rfl
      | succ m => rfl
    simp [openConditions, isExpression, ih, ha, isBlock]

theorem isProgram_declared {value : Node} (h : value.isExpression) : (declared value).isProgram := by
  simp [declared, isProgram, allStatements, isStatement, isBinding, noneOrType, noneOrExpression, h]

theorem lexemes_declared (value : Node) : (declared value).lexemes =
    .ofKeyword .letWord :: ⟨.ident, "x", 10, []⟩ :: .ofSymbol .assign ::
      (value.lexemes ++ [.ofSymbol .semi]) := by
  simp [declared, lexemes, allLexemes, declarationWords, markedLexemes]

theorem enclosed_declared (value : Node) : (declared value).enclosed = declared value.enclosed := rfl

theorem isSimple_openConditions : ∀ l ∈ (openConditions n m).lexemes, l.IsSimple := by
  induction m with
  | zero => exact isSimple_powers
  | succ m ih =>
    rw [lexemes_openConditions, List.forall_mem_cons, List.forall_mem_append]
    refine ⟨.keyword _, ih, ?_⟩
    simp only [openBranches, List.forall_mem_cons]
    exact ⟨.keyword _, .identifier ⟨⟨_, _, rfl, by decide +kernel⟩, by decide +kernel⟩ rfl, .keyword _,
      .identifier ⟨⟨_, _, rfl, by decide +kernel⟩, by decide +kernel⟩ rfl, List.forall_mem_nil _⟩

theorem isSimple_declared {value : Node} (h : ∀ l ∈ value.lexemes, l.IsSimple) :
    ∀ l ∈ (declared value).lexemes, l.IsSimple := by
  rw [lexemes_declared]
  simp only [List.forall_mem_cons, List.forall_mem_append]
  exact ⟨.keyword _, .identifier ⟨⟨_, _, rfl, by decide +kernel⟩, by decide +kernel⟩ rfl,
    .symbol nofun nofun, h, .symbol nofun nofun, List.forall_mem_nil _⟩

end Node

namespace Grammar

variable {k : Course} {P Q : Memo → Prop} {c d b n m : Nat}

theorem kind_of_shows_openConditions {input : Input} (h : input.Shows c (Node.openConditions n m).lexemes) :
    (input.get c).kind = .ident ∨ (input.get c).kind = Keyword.ifWord := by
  cases m with
  | zero => exact .inl (kind_of_shows_powers h)
  | succ m =>
    rw [Node.lexemes_openConditions] at h
    exact .inr (kind_of_shows h)

/-- Open conditions are read on a budget of fourteen for each of them and one for each power. -/
theorem ends_openConditions (m : Nat) (hr : ∀ c ending, k.Recalls P P c ending)
    (hfits : k.Fits d) (hb : 14 * m + n + 14 ≤ b)
    (hs : k.input.Shows c (Node.openConditions n m).lexemes)
    (hend : (k.input.get (c + (Node.openConditions n m).lexemes.length)).kind ∉
      Rule.expression.continuers) :
    ∃ v, Ends k P P (parse b 1 .operand) c d
      (.found v (c + (Node.openConditions n m).lexemes.length)) := by
  induction m generalizing b c with
  | zero =>
    have hsub : Rule.exponent.continuers ⊆ Rule.expression.continuers := by decide
    obtain ⟨b, rfl⟩ : ∃ b', b = b' + 7 := ⟨b - 7, by omega⟩
    obtain ⟨v, hv⟩ := @ends_powers k c b n (by omega) hs fun hm => hend (hsub hm)
    exact ⟨v, ends_operand_of_exponent (hr _ _) (hv P d) (.of_found fun hm => hend (List.mem_cons_of_mem _ hm))⟩
  | succ m ih =>
    obtain ⟨b, rfl⟩ : ∃ b', b = b' + 14 := ⟨b - 14, by omega⟩
    have hstop : c + (Node.openConditions n (m + 1)).lexemes.length =
        c + 1 + (Node.openConditions n m).lexemes.length + 4 := by
      rw [Node.lexemes_openConditions, List.length_cons, List.length_append]
      simp only [Node.openBranches, List.length_cons, List.length_nil]
      omega
    rw [hstop] at hend ⊢
    rw [Node.lexemes_openConditions] at hs
    have hif : (k.input.get c).kind = Keyword.ifWord := kind_of_shows hs
    obtain ⟨hcondition, hbranches⟩ := shows_append.mp hs.2.2
    have hthen := kind_of_shows hbranches
    have helse := kind_of_shows hbranches.2.2.2.2
    have hparen : (k.input.get (c + 1)).kind ≠ Symbol.lparen := by
      rcases kind_of_shows_openConditions hcondition with hk | hk <;> simp [hk]
    obtain ⟨test, htest⟩ := ih (b := b) (by omega) hcondition (by rw [hthen]; decide)
    have hconsequent := ends_expression_identifier (b := b) (hr _ _) hfits
      (kind_of_shows hbranches.2.2) (by rw [helse]; decide) (by omega)
    have halternate := ends_expression_identifier (b := b) (hr _ _) hfits
      (kind_of_shows hbranches.2.2.2.2.2.2) hend (by omega)
    have hconditional : Ends k P P (conditional fun r => parse b r.surcharge r) c d _ :=
      ends_conditional_then hif hparen htest hthen hconsequent helse halternate
    have hprimary : Ends k P P (primary fun r => parse (b + 3) r.surcharge r) c d _ :=
      ends_primary_if hif hconditional
    exact ⟨_, ends_operand_of_primary (b := b + 4) (hr _ _) hprimary (by simp [hif])
      (.of_found fun hm => hend (List.mem_cons_of_mem _ hm))⟩

/-- What printing makes of open conditions uses up seventeen of the budget for each of them but the innermost.
-/
theorem openConditions_exhausted (m : Nat) (hr : ∀ c, k.Recalls P Q c .exhausted)
    (hPQ : ∀ m, P m → Q m) (hfits : k.Fits (d + m)) (hb : b ≤ n)
    (hs : k.input.Shows c (Node.openConditions n (m + 1)).enclosed.lexemes) :
    Ends k P Q (parse (17 * m + b + 21) 1 .operand) c d .exhausted := by
  have hprimary {c d : Nat} (b : Nat) (hk : (k.input.get c).kind = Keyword.ifWord)
      (h : Ends k P Q (conditional fun r => parse b r.surcharge r) c d .exhausted) :
      Ends k P Q (parse (b + 14) 1 .operand) c d .exhausted := by
    have hprimary : Ends k P Q (primary fun r => parse (b + 3) r.surcharge r) c d .exhausted :=
      ends_primary_if hk h
    exact ends_operand_of_primary (b := b + 4) (hr c) hprimary (by simp [hk]) nofun
  induction m generalizing c d with
  | zero =>
    rw [Node.lexemes_enclosed_openConditions_one] at hs
    have hpowers := (shows_append.mp hs.2.2).1
    have hif : (k.input.get c).kind = Keyword.ifWord := kind_of_shows hs
    have hexp : Ends k P Q (parse b 0 .exponent) (c + 1) d .exhausted :=
      (powers_exhausted n (by omega) hpowers).mono (fun _ h => h) hPQ
    have hoperand := ends_operand_of_exponent (hr _) hexp nofun
    have h := hprimary (b + 7) hif (ends_conditional_of_operand hif
      (by simp [kind_of_shows_powers hpowers]) hoperand)
    rwa [show b + 7 + 14 = 17 * 0 + b + 21 by omega] at h
  | succ m ih =>
    rw [Node.lexemes_enclosed_openConditions] at hs
    have hif : (k.input.get c).kind = Keyword.ifWord := kind_of_shows hs
    have hparen : (k.input.get (c + 1)).kind = Symbol.lparen := kind_of_shows hs.2.2
    have hoperand := @ih (c + 2) (d + 1) (hfits.mono (by omega)) (shows_append.mp hs.2.2.2.2).1
    have hexpression := ends_expression (hr _) (hfits.mono (by omega)) hoperand nofun
    have h := hprimary (17 * m + b + 24) hif (ends_conditional_of_expression hif hparen hexpression)
    rwa [show 17 * m + b + 24 + 14 = 17 * (m + 1) + b + 21 by omega] at h

variable {value v : Node} {tokens : List Token} {last : Token}

/-- Where the words of a program stand that gives a name a value. -/
theorem shows_declared (hw : (Node.declared value).WrittenBy tokens last) :
    let input : Input := ⟨tokens.toArray, last⟩
    (input.get 0).kind = Keyword.letWord ∧ (input.get 1).kind = .ident ∧
      (input.get 2).kind = Symbol.assign ∧ input.Shows 3 value.lexemes ∧
        (input.get (3 + value.lexemes.length)).kind = Symbol.semi := by
  have hs := hw.shows
  rw [Node.lexemes_declared] at hs
  obtain ⟨hvalue, hsemi⟩ := shows_append.mp hs.2.2.2.2.2.2
  exact ⟨kind_of_shows hs, kind_of_shows hs.2.2, kind_of_shows hs.2.2.2.2, hvalue, kind_of_shows hsemi⟩

/-- A program that gives a name a value takes eight of the budget beyond what the value takes. -/
theorem ends_declared (hw : (Node.declared value).WrittenBy tokens last)
    (hi : k.input = ⟨tokens.toArray, last⟩) (hr : ∀ c ending, k.Recalls P P c ending)
    (hfits : k.Fits 1)
    (h : Ends k P P (parse b 1 .operand) 3 2 (.found v (3 + value.lexemes.length))) :
    ∃ w, Ends k P P (parse (b + 8) 0 .program) 0 0 (.found w tokens.length) := by
  have hlength : tokens.length = 3 + value.lexemes.length + 1 := by
    rw [← List.length_map, hw.lexemes, Node.lexemes_declared]
    simp only [List.length_cons, List.length_append, List.length_nil]
    omega
  obtain ⟨hlet, hname, hassign, -, hsemi⟩ := shows_declared hw
  have heof := hw.get_stop
  rw [hlength] at heof ⊢
  rw [← hi] at hlet hname hassign hsemi heof
  have hexpression := ends_expression (hr _ _) hfits h (.of_found (by rw [hsemi]; decide))
  obtain ⟨w, hw⟩ := ends_declaration hfits hlet hname hassign (by omega) hexpression hsemi
  have hstatement : Ends k P P (statement fun r => parse (b + 4) r.surcharge r) 0 1
      (.found w (3 + value.lexemes.length + 1)) := by
    refine .bind .current ?_
    simp only [hlet]
    exact hw
  exact ⟨_, ends_program (by simp [hlet]) (ends_statement (hr _ _) (hfits.mono (by omega)) hstatement) heof
    (by simp [hi, hlength])⟩

theorem declared_exhausted (hw : (Node.declared value).WrittenBy tokens last)
    (hi : k.input = ⟨tokens.toArray, last⟩) (hr : ∀ c, k.Recalls P Q c .exhausted) (hfits : k.Fits 1)
    (h : Ends k P Q (parse b 1 .operand) 3 2 .exhausted) :
    Ends k P Q (parse (b + 8) 0 .program) 0 0 .exhausted := by
  obtain ⟨hlet, hname, hassign, -, hsemi⟩ := shows_declared hw
  rw [← hi] at hlet hname hassign hsemi
  have hexpression := ends_expression (hr _) hfits h nofun
  have hstatement : Ends k P Q (statement fun r => parse (b + 4) r.surcharge r) 0 1 .exhausted := by
    refine .bind .current ?_
    simp only [hlet]
    exact ends_declaration_of_value hfits hlet hname hassign (by omega)
      hexpression.map_exhausted.bind_exhausted
  exact ends_program_failed (by simp [hlet]) (ends_statement (hr _) (hfits.mono (by omega)) hstatement) trivial

end Grammar

namespace Entry

variable {n m : Nat} {tokens : List Token} {last : Token}

/-- Open conditions that the budget is enough for are read. -/
theorem reads_openConditions (hread : 14 * m + n ≤ 9968)
    (hw : (Node.declared (.openConditions n m)).WrittenBy tokens last) :
    ∃ t, program.ofInput (.ofTokens (tokens ++ [last])) = .ok t ∧
      t.alike (Node.declared (.openConditions n m)) := by
  obtain ⟨-, -, -, hvalue, hsemi⟩ := Grammar.shows_declared hw
  have hr (c : Nat) (ending : Ending Node) :=
    Course.recalls_plain ⟨tokens.toArray, last⟩ [some 256] True c ending
  have hfits : (Course.plain ⟨tokens.toArray, last⟩ [some 256] True).Fits 2 := by
    simp [Course.Fits, Course.plain]
  obtain ⟨v, hv⟩ := @Grammar.ends_openConditions _ _ 3 2 9982 n m hr hfits (by omega) hvalue
    (by simp [Course.plain, hsemi, Rule.continuers]; decide)
  obtain ⟨w, hends⟩ := Grammar.ends_declared hw rfl hr (hfits.mono (by decide)) hv
  obtain ⟨p, hrun, -, hrefused, -⟩ := hends.run_plain (some 256) (List.mem_singleton_self _)
  rw [← hw.input_eq] at hrun
  refine program.finds_canonical_of_plain
    (Node.isProgram_declared (Node.isExpression_openConditions n m)) hw ?_
  change ¬((Grammar.parse (9982 + 8) 0 .program).run _ .start).IsCutShort
  rw [hrun]
  rintro (h | ⟨q, h⟩)
  · exact Bool.false_ne_true ((hrefused trivial).symm.trans h)
  · cases h

/-- What is printed for open conditions uses up the budget if it is not enough for that. -/
theorem openConditions_exhausted (hm : m < 254) (hcut : 9961 ≤ 17 * m + n)
    (hw : (Node.declared (.openConditions n (m + 1))).enclosed.WrittenBy tokens last) :
    Ends (.usual (.ofTokens (tokens ++ [last]))) Course.untried Course.anything (Grammar.rule .program) 0 0
      .exhausted := by
  obtain ⟨b, hb⟩ : ∃ b, 17 * m + b + 21 = 9982 := ⟨9961 - 17 * m, by omega⟩
  rw [hw.input_eq]
  rw [Node.enclosed_declared] at hw
  have hr (c : Nat) := (Course.usual ⟨tokens.toArray, last⟩).recalls_untried c .exhausted
  have h := @Grammar.openConditions_exhausted (.usual ⟨tokens.toArray, last⟩) Course.untried
    Course.anything 3 2 b n m hr (fun _ _ => trivial) (Course.fits_usual _ (by omega)) (by omega)
    (Grammar.shows_declared hw).2.2.2.1
  rw [hb] at h
  exact Grammar.declared_exhausted hw rfl hr (Course.fits_usual _ (by decide)) h

end Entry

end MagSyntax
