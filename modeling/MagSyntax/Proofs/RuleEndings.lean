import MagSyntax.Proofs.Endings

/-! How the rules end, from how the rules end that they run. An operand that is nothing but a primary costs ten
of the budget beyond that, and an expression three beyond its operand. -/

namespace MagSyntax

namespace Grammar

open Parse

variable {k : Course} {P Q R : Memo → Prop} {self : Rule → Parse Node} {c d s e stop b : Nat}
  {v w test : Node} {ending : Ending Node}

theorem ends_primary_identifier (hk : (k.input.get c).kind = .ident) :
    Ends k P P (primary self) c d
      (.found (.identifier (locOf (k.input.get c)) (k.input.get c).value) (c + 1)) := by
  refine .bind .current ?_
  simp only [hk]
  exact .bind (.advance (by simp [hk])) .pure

theorem ends_primary_group (hk : (k.input.get c).kind = Symbol.lparen)
    (h : Ends k P Q (self .expression) (c + 1) d (.found v s))
    (hk' : (k.input.get s).kind = Symbol.rparen) :
    Ends k P Q (primary self) c d (.found (.parenthesized (locOf (k.input.get c)) v) (s + 1)) := by
  refine .bind .current ?_
  simp only [hk]
  exact .bind (.advance (by simp [hk])) (.bind h (.bind (.expect hk' nofun) .pure))

theorem ends_primary_group_mismatch (hk : (k.input.get c).kind = Symbol.lparen)
    (h : Ends k P Q (self .expression) (c + 1) d .mismatch) :
    Ends k P Q (primary self) c d .mismatch := by
  refine .bind .current ?_
  simp only [hk]
  exact .bind (.advance (by simp [hk])) (.bind_mismatch h)

theorem ends_primary_group_exhausted (hk : (k.input.get c).kind = Symbol.lparen)
    (h : Ends k P Q (self .expression) (c + 1) d .exhausted) :
    Ends k P Q (primary self) c d .exhausted := by
  refine .bind .current ?_
  simp only [hk]
  exact .bind (.advance (by simp [hk])) (.bind_exhausted h)

theorem ends_primary_if (hk : (k.input.get c).kind = Keyword.ifWord)
    (h : Ends k P Q (self .conditional) c d ending) : Ends k P Q (primary self) c d ending := by
  refine .bind .current ?_
  simp only [hk]
  exact h

theorem ends_chain (bound : Nat) (hend : (k.input.get s).kind ∉ Rule.links) :
    Ends k P P (chain self (bound + 1) v) s d (.found v s) := by
  simp only [Rule.links, List.mem_cons, List.not_mem_nil, or_false, not_or] at hend
  refine .bind (.skip_false hend.1) (.bind (.skip_false hend.2.1) (.bind (.sees _) ?_))
  simp only [hend.2.2]
  exact .pure

theorem ends_postfixChain (h : Ends k P Q (self .primary) c d ending)
    (hend : ending.HaltsBefore k.input Rule.links) : Ends k P Q (postfixChain self) c d ending :=
  .bind_same h fun v s hr => .bind .rounds (ends_chain _ (hend v s hr))

/-- A chain with one call of one argument. -/
theorem ends_postfixChain_call (h : Ends k P P (self .primary) c d (.found v s))
    (hs : s < k.input.before.size) (hopen : (k.input.get s).kind = Symbol.lparen)
    (hnonempty : (k.input.get (s + 1)).kind ≠ Symbol.rparen)
    (hargument : Ends k P Q (self .expression) (s + 1) d (.found w e))
    (hclose : (k.input.get e).kind = Symbol.rparen) (hend : (k.input.get (e + 1)).kind ∉ Rule.links) :
    Ends k P Q (postfixChain self) c d (.found (.call v.loc v [w]) (e + 1)) := by
  obtain ⟨bound, hbound⟩ : ∃ bound, k.input.before.size - s + 1 = bound + 2 :=
    ⟨k.input.before.size - s - 1, by omega⟩
  refine .bind h (.bind .rounds ?_)
  rw [hbound]
  refine .bind (.skip_false (by simp [hopen])) (.bind (.skip_false (by simp [hopen])) (.bind (.sees _) ?_))
  simp only [hopen]
  exact .bind (.delimited (by simp [hopen]) hnonempty hargument hclose) (ends_chain bound hend)

theorem ends_postfixChain_mismatch (h : Ends k P P (self .primary) c d (.found v s))
    (hopen : (k.input.get s).kind = Symbol.lparen)
    (hnonempty : (k.input.get (s + 1)).kind ≠ Symbol.rparen)
    (hargument : Ends k P Q (self .expression) (s + 1) d .mismatch) :
    Ends k P Q (postfixChain self) c d .mismatch := by
  refine .bind h (.bind .rounds ?_)
  refine .bind (.skip_false (by simp [hopen])) (.bind (.skip_false (by simp [hopen])) (.bind (.sees _) ?_))
  simp only [hopen]
  exact .bind_mismatch (.delimited_mismatch (by simp [hopen]) hnonempty hargument)

theorem ends_unary (hk : (k.input.get c).kind ≠ Symbol.sub)
    (h : Ends k P Q (self .postfixChain) c d ending) : Ends k P Q (unary self) c d ending :=
  .bind (.accept_none (by simpa using hk)) h

theorem ends_exponent (h : Ends k P Q (self .unary) c d ending)
    (hend : ending.HaltsBefore k.input [TokenKind.symbol .pow]) :
    Ends k P Q (exponent self) c d ending :=
  .bind_same h fun v s hr => .bind (.accept_none (hend v s hr)) .pure

theorem ends_exponent_power (h : Ends k P Q (self .unary) c d (.found v s))
    (hk : (k.input.get s).kind = Symbol.pow)
    (h' : Ends k Q R (self .exponent) (s + 1) d (.found w e)) :
    Ends k P R (exponent self) c d (.found (.binary v.loc (k.input.get s).value v w) e) :=
  .bind h (.bind (.accept (by simp [hk]) (by simp [hk])) (.bind h' .pure))

theorem ends_exponent_exhausted (h : Ends k P Q (self .unary) c d (.found v s))
    (hk : (k.input.get s).kind = Symbol.pow)
    (h' : Ends k Q R (self .exponent) (s + 1) d .exhausted) :
    Ends k P R (exponent self) c d .exhausted :=
  .bind h (.bind (.accept (by simp [hk]) (by simp [hk])) (.bind_exhausted h'))

theorem ends_binaryLeft {operators : List TokenKind} {operand : Parse Node}
    (h : Ends k P Q operand c d ending) (hend : ending.HaltsBefore k.input operators) :
    Ends k P Q (binaryLeft operators operand) c d ending :=
  .bind_same h fun v s hr => .bind .rounds (.bind (.accept_none (hend v s hr)) .pure)

theorem ends_comparison (h : Ends k P Q (self .additive) c d ending)
    (hend : ending.HaltsBefore k.input comparisons) : Ends k P Q (comparison self) c d ending :=
  .bind_same h fun v s hr => .bind (.accept_none (hend v s hr)) .pure

/-- The layers between an operand that is nothing but a power and that power. -/
theorem ends_comparison_of_exponent (h : Ends k P Q (parse b 0 .exponent) c d ending)
    (hend : ending.HaltsBefore k.input Rule.operand.continuers) :
    Ends k P Q (parse (b + 5) 0 .comparison) c d ending := by
  have hmult : Ends k P Q (parse (b + 2) 1 .multiplicative) c d ending :=
    ends_binaryLeft h (hend.mono (by decide))
  have hadd : Ends k P Q (parse (b + 4) 1 .additive) c d ending :=
    ends_binaryLeft hmult (hend.mono (by decide))
  have hcomp : Ends k P Q (comparison fun r => parse (b + 4) r.surcharge r) c d ending :=
    ends_comparison hadd (hend.mono (by decide))
  exact hcomp

theorem ends_operand_of_exponent (hr : k.Recalls P Q c ending)
    (h : Ends k P Q (parse b 0 .exponent) c d ending)
    (hend : ending.HaltsBefore k.input Rule.operand.continuers) :
    Ends k P Q (parse (b + 7) 1 .operand) c d ending :=
  (ends_comparison_of_exponent h hend).recalling hr

/-- The layers between an operand that is nothing but a chain and that chain. -/
theorem ends_comparison_of_chain (h : Ends k P Q (parse b 0 .postfixChain) c d ending)
    (hk : (k.input.get c).kind ≠ Symbol.sub)
    (hend : ending.HaltsBefore k.input Rule.operand.continuers) :
    Ends k P Q (parse (b + 7) 0 .comparison) c d ending := by
  have hunary : Ends k P Q (unary fun r => parse b r.surcharge r) c d ending := ends_unary hk h
  have hexp : Ends k P Q (exponent fun r => parse (b + 1) r.surcharge r) c d ending :=
    ends_exponent hunary (hend.mono (by decide))
  exact ends_comparison_of_exponent (b := b + 2) hexp hend

theorem ends_operand_of_chain (hr : k.Recalls P Q c ending)
    (h : Ends k P Q (parse b 0 .postfixChain) c d ending) (hk : (k.input.get c).kind ≠ Symbol.sub)
    (hend : ending.HaltsBefore k.input Rule.operand.continuers) :
    Ends k P Q (parse (b + 9) 1 .operand) c d ending :=
  (ends_comparison_of_chain h hk hend).recalling hr

/-- The layers between an operand that is nothing but a primary and that primary. -/
theorem ends_comparison_of_primary (h : Ends k P Q (parse b 0 .primary) c d ending)
    (hk : (k.input.get c).kind ≠ Symbol.sub)
    (hend : ending.HaltsBefore k.input Rule.operand.continuers) :
    Ends k P Q (parse (b + 8) 0 .comparison) c d ending := by
  have hchain : Ends k P Q (postfixChain fun r => parse b r.surcharge r) c d ending :=
    ends_postfixChain h (hend.mono (by decide))
  exact ends_comparison_of_chain (b := b + 1) hchain hk hend

theorem ends_operand_of_primary (hr : k.Recalls P Q c ending)
    (h : Ends k P Q (parse b 0 .primary) c d ending) (hk : (k.input.get c).kind ≠ Symbol.sub)
    (hend : ending.HaltsBefore k.input Rule.operand.continuers) :
    Ends k P Q (parse (b + 10) 1 .operand) c d ending :=
  (ends_comparison_of_primary h hk hend).recalling hr

/-- An expression that is nothing but an operand. -/
theorem ends_expression (hr : k.Recalls P Q c ending) (hfits : k.Fits d)
    (h : Ends k P Q (parse b 1 .operand) c (d + 1) ending)
    (hend : ending.HaltsBefore k.input Rule.expression.continuers) :
    Ends k P Q (parse (b + 3) 2 .expression) c d ending :=
  .recalling hr (.nested hfits (.bind_same h fun v s hr =>
    .bind (.accept_none fun hm => hend v s hr (by rw [List.mem_singleton.mp hm]; decide)) .pure))

/-- A name is an expression. -/
theorem ends_expression_identifier (hr : k.Recalls P P c
      (.found (.identifier (locOf (k.input.get c)) (k.input.get c).value) (c + 1)))
    (hfits : k.Fits d) (hk : (k.input.get c).kind = .ident)
    (hend : (k.input.get (c + 1)).kind ∉ Rule.expression.continuers) (hb : 14 ≤ b) :
    Ends k P P (parse b 2 .expression) c d
      (.found (.identifier (locOf (k.input.get c)) (k.input.get c).value) (c + 1)) := by
  obtain ⟨b, rfl⟩ : ∃ b', b = b' + 14 := ⟨b - 14, by omega⟩
  have hprimary : Ends k P P (primary fun r => parse b r.surcharge r) c (d + 1)
      (.found (.identifier (locOf (k.input.get c)) (k.input.get c).value) (c + 1)) :=
    ends_primary_identifier hk
  have hoperand := ends_operand_of_primary (b := b + 1) hr hprimary (by simp [hk])
    (.of_found fun hm => hend (List.mem_cons_of_mem _ hm))
  exact ends_expression hr hfits hoperand (.of_found hend)

/-- An `if` with a `then`, whose condition does not start with a parenthesis. -/
theorem ends_conditional_then (hk : (k.input.get c).kind = Keyword.ifWord)
    (hk' : (k.input.get (c + 1)).kind ≠ Symbol.lparen)
    (htest : Ends k P P (self .operand) (c + 1) d (.found test s))
    (hthen : (k.input.get s).kind = Keyword.thenWord)
    (hconsequent : Ends k P P (self .expression) (s + 1) d (.found v e))
    (helse : (k.input.get e).kind = Keyword.elseWord)
    (halternate : Ends k P P (self .expression) (e + 1) d (.found w stop)) :
    Ends k P P (conditional self) c d
      (.found (.conditional (locOf (k.input.get c)) test v w true) stop) := by
  refine .bind (.expectOne (by simp [hk]) (by simp [hk])) ?_
  refine .attempt_next (.bind_mismatch (.bind_mismatch (.expect_mismatch hk')))
    fun _ => .attemptAfter ?_ nofun
  exact .bind htest (.bind (.expect hthen nofun) (.bind hconsequent (.bind (.expect helse nofun)
    (.bind halternate .pure))))

/-- An `if` that runs out of the budget in its condition, with a parenthesis in front of that. -/
theorem ends_conditional_of_expression (hk : (k.input.get c).kind = Keyword.ifWord)
    (hk' : (k.input.get (c + 1)).kind = Symbol.lparen)
    (h : Ends k P Q (self .expression) (c + 2) d .exhausted) :
    Ends k P Q (conditional self) c d .exhausted := by
  refine .bind (.expectOne (by simp [hk]) (by simp [hk])) (.attempt ?_ nofun)
  exact .bind_exhausted (.bind (.expect hk' nofun) (.bind_exhausted h))

/-- An `if` that runs out of the budget in its condition, with no parenthesis in front of that. -/
theorem ends_conditional_of_operand (hk : (k.input.get c).kind = Keyword.ifWord)
    (hk' : (k.input.get (c + 1)).kind ≠ Symbol.lparen)
    (h : Ends k P Q (self .operand) (c + 1) d .exhausted) :
    Ends k P Q (conditional self) c d .exhausted := by
  refine .bind (.expectOne (by simp [hk]) (by simp [hk])) ?_
  exact .attempt_next (.bind_mismatch (.bind_mismatch (.expect_mismatch hk')))
    fun _ => .attemptAfter (.bind_exhausted h) nofun

theorem ends_block_empty (hopen : (k.input.get c).kind = Symbol.lbrace)
    (hclose : (k.input.get (c + 1)).kind = Symbol.rbrace) :
    Ends k P P (block self) c d (.found (.block (locOf (k.input.get c)) []) (c + 2)) := by
  refine .bind (.expectOne (by simp [hopen]) (by simp [hopen])) (.bind .rounds (.bind (s := c + 1) (v := []) ?_
    (.bind (.expect hclose nofun) .pure)))
  refine .bind (.sees _) ?_
  simp only [hclose]
  exact .pure

/-- A condition in parentheses. -/
theorem ends_condition (hopen : (k.input.get c).kind = Symbol.lparen)
    (h : Ends k P Q (self .expression) (c + 1) d (.found test s))
    (hclose : (k.input.get s).kind = Symbol.rparen) :
    Ends k P Q (condition self) c d (.found test (s + 1)) :=
  .bind (.expect hopen nofun) (.bind h (.bind (.expect hclose nofun) .pure))

theorem ends_conditionAndBlock (h : Ends k P Q (self .operand) c d (.found test s))
    (hbrace : (k.input.get s).kind = Symbol.lbrace) (hblock : Ends k Q R (self .block) s d (.found v e)) :
    Ends k P R (conditionAndBlock self) c d (.found (test, v) e) := by
  refine .bind h (.bind (.sees _) ?_)
  simp only [hbrace]
  exact .bind hblock .pure

/-- An `if` between statements that is read without parentheses around its condition, and has no `else`. -/
theorem ends_conditionalStatement_bare (hk : (k.input.get c).kind = Keyword.ifWord)
    (hfirst : Ends k P Q (conditionAndStatement self) (c + 1) d .mismatch)
    (hsecond : Ends k Q R (conditionAndBlock self) (c + 1) d (.found (test, v) s))
    (helse : (k.input.get s).kind ≠ Keyword.elseWord) :
    Ends k P R (conditionalStatement self) c d
      (.found (.conditionalStatement (locOf (k.input.get c)) test v none) s) := by
  refine .bind (.expectOne (by simp [hk]) (by simp [hk])) (.bind (.attempt_next hfirst fun _ =>
    .attemptAfter hsecond nofun) ?_)
  exact .bind (.skip_false helse) (.bind .pure .pure)

/-- An `if` between statements that has neither form. -/
theorem ends_conditionalStatement_mismatch (hk : (k.input.get c).kind = Keyword.ifWord)
    (hfirst : Ends k P Q (conditionAndStatement self) (c + 1) d .mismatch)
    (hsecond : Ends k Q R (conditionAndBlock self) (c + 1) d .mismatch) :
    Ends k P R (conditionalStatement self) c d .mismatch := by
  refine .bind (.expectOne (by simp [hk]) (by simp [hk])) (.bind_mismatch ?_)
  exact .attempt_next hfirst fun _ => .attemptAfter_mismatch hsecond

theorem ends_expressionStatement (h : Ends k P Q (self .operand) c d (.found v s))
    (hk : (k.input.get s).kind = Symbol.semi) :
    Ends k P Q (expressionStatement self) c d (.found (.expressionStatement v.loc v) (s + 1)) := by
  refine .bind h (.bind (.sees _) ?_)
  simp only [hk]
  exact .bind (.expect hk nofun) .pure

/-- An operand, or none, before no semicolon is no statement. -/
theorem ends_expressionStatement_mismatch (h : Ends k P Q (self .operand) c d ending)
    (hne : ending ≠ .exhausted)
    (hend : ending.HaltsBefore k.input [TokenKind.symbol .assign, TokenKind.symbol .semi]) :
    Ends k P Q (expressionStatement self) c d .mismatch := by
  cases ending with
  | mismatch => exact .bind_mismatch h
  | exhausted => exact absurd rfl hne
  | found v s =>
    have hs := hend v s rfl
    simp only [List.mem_cons, List.not_mem_nil, or_false, not_or] at hs
    refine .bind h (.bind (.sees _) ?_)
    simp only [hs.1]
    exact .bind_mismatch (.expect_mismatch hs.2)

/-- What is read of a declaration of a name, without a type, up to its value. -/
theorem ends_declaration_of_value (hfits : k.Fits d)
    (hlet : (k.input.get c).kind = Keyword.letWord) (hname : (k.input.get (c + 1)).kind = .ident)
    (hassign : (k.input.get (c + 2)).kind = Symbol.assign) (hb : 3 ≤ b)
    (hvalue : Ends k P Q (do
      let right ← some <$> parse b 2 .expression
      terminate
      return Node.declaration (locOf (k.input.get c)) (.identifier (locOf (k.input.get (c + 1)))
        (k.input.get (c + 1)).value) none right (decide ((k.input.get c).kind = Keyword.constWord))
        false) (c + 3) d ending) :
    Ends k P Q (declaration fun r => parse b r.surcharge r) c d ending := by
  obtain ⟨b, rfl⟩ : ∃ b', b = b' + 3 := ⟨b - 3, by omega⟩
  have hleft : Ends k P P (parse (b + 3) 2 .bindingPattern) (c + 1) d (.found
      (.identifier (locOf (k.input.get (c + 1))) (k.input.get (c + 1)).value) (c + 2)) := by
    refine .nested hfits (.bind .current ?_)
    simp only [hname]
    exact .bind (.advance (by simp [hname])) .pure
  refine .bind (.expectOne (by simp [hlet]) (by simp [hlet])) (.bind (.sees _) ?_)
  simp only [hname]
  refine .bind hleft (.bind (.skip_false (by simp [hassign])) (.bind .pure ?_))
  exact .bind (.skip hassign) hvalue

theorem ends_declaration (hfits : k.Fits d)
    (hlet : (k.input.get c).kind = Keyword.letWord) (hname : (k.input.get (c + 1)).kind = .ident)
    (hassign : (k.input.get (c + 2)).kind = Symbol.assign) (hb : 3 ≤ b)
    (h : Ends k P Q (parse b 2 .expression) (c + 3) d (.found v s))
    (hsemi : (k.input.get s).kind = Symbol.semi) :
    ∃ w, Ends k P Q (declaration fun r => parse b r.surcharge r) c d (.found w (s + 1)) :=
  ⟨_, ends_declaration_of_value hfits hlet hname hassign hb
    (.bind h.map (.bind (.expect hsemi nofun) .pure))⟩

/-- A statement on a budget that its rule takes three of. -/
theorem ends_statement (hr : k.Recalls P Q c ending) (hfits : k.Fits d)
    (h : Ends k P Q (statement fun r => parse b r.surcharge r) c (d + 1) ending) :
    Ends k P Q (parse (b + 3) 2 .statement) c d ending :=
  .recalling hr (.nested hfits h)

/-- A statement that is an expression, which starts with a name or a parenthesis. -/
theorem ends_statement_of_expression (hr : k.Recalls P Q c ending) (hfits : k.Fits d)
    (hk : (k.input.get c).kind = .ident ∨ (k.input.get c).kind = Symbol.lparen)
    (h : Ends k P Q (expressionStatement fun r => parse b r.surcharge r) c (d + 1) ending) :
    Ends k P Q (parse (b + 4) 2 .statement) c d ending := by
  refine ends_statement hr hfits (.bind .current ?_)
  rcases hk with hk | hk <;> simp only [hk] <;> exact h

/-- A statement that is an `if`. -/
theorem ends_statement_of_conditional (hr : k.Recalls P Q c ending) (hfits : k.Fits d)
    (hk : (k.input.get c).kind = Keyword.ifWord)
    (h : Ends k P Q (conditionalStatement fun r => parse b r.surcharge r) c (d + 1) ending) :
    Ends k P Q (parse (b + 6) 2 .statement) c d ending := by
  refine ends_statement (b := b + 3) hr hfits (.bind .current ?_)
  simp only [hk]
  exact h

/-- A program of one statement. -/
theorem ends_program (hk : (k.input.get 0).kind ≠ .eof)
    (h : Ends k P Q (parse b 2 .statement) 0 0 (.found v s)) (hend : (k.input.get s).kind = .eof)
    (hsize : 0 < k.input.before.size) :
    Ends k P Q (parse (b + 1) 0 .program) 0 0 (.found (.program (locOf (k.input.get 0)) [v]) s) := by
  obtain ⟨size, hsize⟩ : ∃ n, k.input.before.size = n + 1 :=
    ⟨_, (Nat.succ_pred_eq_of_pos hsize).symm⟩
  refine .bind .current (.bind .rounds (.bind ?_ .pure))
  rw [hsize]
  refine .bind (.sees _) ?_
  simp only [hk]
  refine .bind h (.bind (.sees _) ?_)
  simp only [hend]
  exact .pure

/-- A program that fails in its first statement. -/
theorem ends_program_failed (hk : (k.input.get 0).kind ≠ .eof)
    (h : Ends k P Q (parse b 2 .statement) 0 0 ending) (hf : ending.FailsAs ending) :
    Ends k P Q (parse (b + 1) 0 .program) 0 0 ending := by
  cases ending with
  | found => exact hf.elim
  | mismatch =>
    refine .bind .current (.bind .rounds (.bind_mismatch (.bind (.sees _) ?_)))
    simp only [hk]
    exact .bind_mismatch h
  | exhausted =>
    refine .bind .current (.bind .rounds (.bind_exhausted (.bind (.sees _) ?_)))
    simp only [hk]
    exact .bind_exhausted h

/-- A program that starts with a parenthesis and runs out of the budget behind it. -/
theorem ends_groupProgram_exhausted (hr : k.Recalls P Q 0 .exhausted) (hfits : k.Fits 0)
    (hk : (k.input.get 0).kind = Symbol.lparen)
    (h : Ends k P Q (parse b 2 .expression) 1 1 .exhausted) :
    Ends k P Q (parse (b + 16) 0 .program) 0 0 .exhausted := by
  have hprimary : Ends k P Q (primary fun r => parse b r.surcharge r) 0 1 .exhausted :=
    ends_primary_group_exhausted hk h
  have hoperand := ends_operand_of_primary (b := b + 1) hr hprimary (by simp [hk]) nofun
  have hstatement := ends_statement_of_expression (b := b + 11) hr hfits (.inr hk) hoperand.bind_exhausted
  exact ends_program_failed (b := b + 15) (by simp [hk]) hstatement trivial

end Grammar

end MagSyntax
