import MagSyntax.Proofs.AssignmentTargets
import MagSyntax.Proofs.Refusals

/-! Expressions as statements. What is an expression on its own is one between parentheses too, unless that
program is cut short: one rule more is open there, so whatever is refused in the expression on its own
is refused between the parentheses. Without them the same rules are open, and only the budget can end
the program. -/

namespace MagSyntax

open Parse Parse.Stretch Input

namespace Rule.ReadsAll

variable {r : Rule} {tokens : List Token} {n : Node}

/-- What a rule reads to the end of the tokens is a phrase if it refuses no rule under a smaller bound. -/
theorem isPhrase_of_not_refused (h : r.ReadsAll tokens n) (hr : r.isValue ∨ r = .block) {bound b : Nat}
    (hbound : bound ≤ 256) (hb : Grammar.enough (Input.ofTokens tokens).before.size ≤ b)
    (hq : ((Grammar.parse b r.surcharge r).run ⟨.ofTokens tokens, true, some bound⟩ .start).progress.refused =
      false) : IsPhrase r tokens n := by
  have hlast := kind_last_ofTokens tokens
  have hcut : ¬((Grammar.parse b r.surcharge r).run ⟨.ofTokens tokens, true, some bound⟩ .start).IsCutShort := by
    rintro (h | ⟨p, h⟩)
    · exact Bool.false_ne_true (hq.symm.trans h)
    · exact Grammar.not_exhausted ⟨.ofTokens tokens, true, some bound⟩ rfl hlast hb p h
  have htracks : Tracks (Grammar.raised (.ofTokens tokens) true (some 256) bound True) (Grammar.rule r)
      (Grammar.parse b r.surcharge r) :=
    Grammar.tracks_raised _ true True (by simpa using hbound) (.inr trivial) r.surcharge r
  have hraised := ((htracks.agree .start .start rfl ⟨rfl, rfl⟩).sameAs Grammar.isExact_raised).resolve_left hcut
  refine ⟨hr, h.inside, h.bounds.1 ?_, b, ?_⟩
  · rintro rfl
    rcases hr with hr | hr <;> cases hr
  obtain ⟨p, hp, hc⟩ := h
  obtain ⟨q, hq, hc'⟩ := (hraised.resolve_right fun ⟨_, q, hq⟩ => by cases hp.symm.trans hq).of_ok hp
  obtain ⟨q', hq', hc''⟩ := ((Grammar.sameAs_unguarded hlast hb bound b).resolve_left hcut).of_ok hq
  exact ⟨q', hq', hc''.symm.trans (hc'.symm.trans hc)⟩

end Rule.ReadsAll

namespace Grammar

variable {tokens : List Token} {n : Node}

/-- What is refused in an expression on its own, under a bound that is one smaller, is refused between
parentheses. -/
theorem cutsFrom_of_refused (h : Rule.expression.ReadsAll tokens n) {b b' : Nat}
    (hb : enough (Input.ofTokens tokens).before.size ≤ b')
    (hq : ((parse b' 2 .expression).run ⟨.ofTokens tokens, true, some 255⟩ .start).progress.refused = true)
    {input : Input} (hcontains : input.Contains 1 tokens)
    (hclosing : (input.get (1 + tokens.length)).kind = Symbol.rparen) :
    CutsFrom input (.within 1 1) (parse b 2 .expression) := by
  have hinside := h.inside
  have hn := h.bounds.1 (by decide)
  have hbalanced : Balance.even.after tokens = some .even := by
    obtain ⟨p, hp, hc⟩ := h
    exact balanced_of_read hinside (some 256) (.inl rfl) hn rfl rfl hp hc
  have hk : (elsewhere tokens input 1 (some (255, 256))).IsFair :=
    isFair_elsewhere hinside hbalanced hcontains (by rw [hclosing]; decide)
      fun _ => by rw [hclosing]; decide
  have hkin : (elsewhere tokens input 1 (some (255, 256))).AreKin 0 .start (.within 1 1) := by
    refine .of_untried (p := .start) (q := .within 1 1) rfl rfl (fun h => h) ?_
    rintro _ ⟨⟩
    rfl
  have hagree := inStep_parse hk b' b 2 .expression (fits_start (.inl rfl) nofun hn) 0 .start
    (.within 1 1) ⟨rfl, rfl, hkin⟩
  change Agree _ _ _ _ ((parse b' 2 .expression).run ⟨.ofTokens tokens, true, some 255⟩ .start)
    ((parse b 2 .expression).run { input } (.within 1 1)) at hagree
  have hfinite (p : Progress) :
      (parse b' 2 .expression).run ⟨.ofTokens tokens, true, some 255⟩ .start ≠ .failed .exhausted p :=
    not_exhausted (r := .expression) ⟨.ofTokens tokens, true, some 255⟩ rfl (kind_last_ofTokens tokens) hb p
  unfold CutsFrom
  generalize (parse b' 2 .expression).run ⟨.ofTokens tokens, true, some 255⟩ .start = o at hagree hq hfinite
  generalize (parse b 2 .expression).run { input } (.within 1 1) = o' at hagree
  cases hagree with
  | exhausted => exact absurd rfl (hfinite _)
  | exhausted' => exact .inr ⟨_, rfl⟩
  | found hb => exact .inl ((hb.kin _ rfl).refused hq)
  | mismatch hb => exact .inl ((hb _ rfl).refused hq)
  | swallowed _ hw => cases hk.unguarded hw

/-- An expression that is no assignment is an operand, under one rule. -/
theorem operand_of_expression (h : Rule.expression.ReadsAll tokens n) (hn : n.isAssignment = false) :
    ∃ q, (parse 9987 1 .operand).run { input := .ofTokens tokens } (.within 0 1) = .ok n q ∧
      q.cursor = tokens.length := by
  obtain ⟨p, hp, hc⟩ := h
  let self (r : Rule) := parse 9987 r.surcharge r
  have hrun : (rule .expression).run { input := .ofTokens tokens } .start =
      ((nested (expression self)).run { input := .ofTokens tokens } .start).stored ⟨.expression, 0⟩ :=
    run_remembered_miss fun _ => Memo.find?_empty _
  rw [hrun] at hp
  simp only [nested, Progress.start, Progress.deeper_within] at hp
  rw [if_neg (by decide)] at hp
  obtain ⟨q, hq, hcursor⟩ : ∃ q, (expression self).run { input := .ofTokens tokens } (.within 0 1) =
      .ok n q ∧ q.cursor = tokens.length := by
    generalize (expression self).run { input := .ofTokens tokens } _ = o at hp ⊢
    rcases o with ⟨v, q⟩ | ⟨_ | _ | _, q⟩ <;> cases hp
    exact ⟨q, rfl, hc⟩
  rw [expression, run_bind] at hq
  change ∃ q, (self .operand).run _ _ = _ ∧ _
  cases ho : (self .operand).run { input := .ofTokens tokens } (.within 0 1) with
  | failed f q' => rw [ho] at hq; cases hq
  | ok left q' =>
    rw [ho] at hq
    simp only [run_bind, run_accept] at hq
    by_cases ha : ((Input.ofTokens tokens).get q'.cursor).kind ∈ [TokenKind.symbol .assign]
    · rw [if_pos ha] at hq
      simp only [run_bind] at hq
      -- an assignment would have been found
      exfalso
      generalize (toTarget left _).run _ _ = o at hq
      rcases o with ⟨target, q1⟩ | ⟨f, q1⟩
      · simp only at hq
        generalize (self .expression).run _ _ = o at hq
        rcases o with ⟨right, q2⟩ | ⟨f, q2⟩ <;> cases hq
        cases hn
      · cases hq
    · rw [if_neg ha] at hq
      cases hq
      exact ⟨q, rfl, hcursor⟩

end Grammar

namespace Parse

variable {α β : Type} {input : Input} {p q : Progress} {v : α} {w : β} {c d : Nat}

/-- From here on the step finds the value, and behind it the token, or uses up its budget. -/
def ComesTo (input : Input) (p : Progress) (step : Parse α) (v : α) (c : Nat) : Prop :=
  (∃ q, step.run { input } p = .failed .exhausted q) ∨ ∃ q, step.run { input } p = .ok v q ∧ q.cursor = c

namespace ComesTo

theorem bind {first : Parse α} {next : α → Parse β} (h : ComesTo input p first v c)
    (hn : ∀ q : Progress, q.cursor = c → ComesTo input q (next v) w d) : ComesTo input p (first >>= next) w d := by
  unfold ComesTo at h hn ⊢
  rw [run_bind]
  rcases h with ⟨q, hq⟩ | ⟨q, hq, hc⟩ <;> rw [hq]
  · exact .inl ⟨q, rfl⟩
  · exact hn q hc

theorem of_run {first : Parse α} (h : first.run { input } p = .ok v q) (hc : q.cursor = c) :
    ComesTo input p first v c :=
  .inr ⟨q, h, hc⟩

theorem bind_of_run {first : Parse α} {next : α → Parse β} (h : first.run { input } p = .ok v q)
    (hn : ComesTo input q (next v) w d) : ComesTo input p (first >>= next) w d := by
  unfold ComesTo at hn ⊢
  rw [run_bind, h]
  exact hn

theorem nested {rule : Parse α} (hd : p.depth < 256)
    (h : ComesTo input p.deeper rule v c) : ComesTo input p (nested rule) v c := by
  unfold ComesTo at h ⊢
  simp only [Parse.nested]
  rw [if_neg (by simpa using hd)]
  rcases h with ⟨q, hq⟩ | ⟨q, hq, hc⟩ <;> rw [hq]
  · exact .inl ⟨_, rfl⟩
  · exact .inr ⟨_, rfl, hc⟩

theorem remembered {r : Rule} {n : Node} {body : Parse Node} (hm : p.memo.find? ⟨r, p.cursor⟩ = none)
    (h : ComesTo input p body n c) : ComesTo input p (remembered r body) n c := by
  unfold ComesTo at h ⊢
  rw [run_remembered_miss fun _ => hm]
  rcases h with ⟨q, hq⟩ | ⟨q, hq, hc⟩ <;> rw [hq]
  · exact .inl ⟨q, rfl⟩
  · exact .inr ⟨_, rfl, hc⟩

end ComesTo

end Parse

namespace Grammar

variable {tokens : List Token} {n : Node} {input : Input} {c b : Nat}

/-- A statement that starts as an operand does, but not with an `if`, is run as an operand and a semicolon. -/
theorem run_statement_of_starter {call : Rule → Parse Node} {setup : Setup} {p : Progress}
    (hk : (setup.input.get p.cursor).kind ∈ Rule.starters)
    (hif : (setup.input.get p.cursor).kind ≠ Keyword.ifWord) :
    (statement call).run setup p = (call .expressionStatement).run setup p := by
  have hcurrent : current.run setup p = .ok (setup.input.get p.cursor) p := rfl
  simp only [statement, run_bind, hcurrent]
  generalize (setup.input.get p.cursor).kind = kind at hk hif
  split <;> first | rfl | simp_all [Rule.starters]

/-- An operand and a semicolon are a program of one statement. -/
theorem comesTo_program (hk : (input.get 0).kind ∈ Rule.starters) (hif : (input.get 0).kind ≠ Keyword.ifWord)
    (h : ComesTo input (.within 0 1) (parse b 1 .operand) n c)
    (hsemi : (input.get c).kind = Symbol.semi) (hend : (input.get (c + 1)).kind = .eof)
    (hsize : 0 < input.before.size) :
    ComesTo input .start (parse (b + 5) 0 .program)
      (.program (locOf (input.get 0)) [.expressionStatement n.loc n]) (c + 1) := by
  have hvalue : ComesTo input (.within 0 1) (parse (b + 1) 0 .expressionStatement)
      (.expressionStatement n.loc n) (c + 1) := by
    refine h.bind fun q hq => .of_run (q := { q with cursor := c + 1 }) ?_ rfl
    have hafter : q.pastToken input = { q with cursor := c + 1 } := by
      rw [pastToken_eq, hq, after_of_ne _ (by rw [hsemi]; decide)]
    simp [sees, run_expect, hq, hsemi, hafter]
  have hstatement : ComesTo input .start (parse (b + 4) 2 .statement) (.expressionStatement n.loc n) (c + 1) := by
    refine .remembered (Memo.find?_empty _) (.nested (by decide) ?_)
    unfold ComesTo at hvalue ⊢
    change (∃ q, (statement fun r => parse (b + 1) r.surcharge r).run _ _ = _) ∨
      ∃ q, (statement fun r => parse (b + 1) r.surcharge r).run _ _ = _ ∧ _
    rw [run_statement_of_starter hk hif]
    exact hvalue
  have hnot : (input.get 0).kind ≠ .eof := asked_ne_eof (List.mem_append_left _ hk)
  obtain ⟨size, hsize⟩ : ∃ m, input.before.size = m + 1 := ⟨_, (Nat.succ_pred_eq_of_pos hsize).symm⟩
  have hstatements : ComesTo input .start (statementsToEnd (parse (b + 4) 2 .statement) (size + 2) [])
      [.expressionStatement n.loc n] (c + 1) := by
    refine .bind_of_run (v := false) (q := .start) (by simp [sees, Progress.start, hnot]) ?_
    refine hstatement.bind fun q hq => .bind_of_run (v := true) (q := q) (by simp [sees, hq, hend]) ?_
    exact .of_run rfl hq
  have hrounds : rounds.run { input } .start = .ok (size + 2) .start := by
    show Outcome.ok (input.before.size - 0 + 1) _ = _
    rw [hsize]
    rfl
  refine .bind_of_run (v := input.get 0) (q := .start) rfl (.bind_of_run hrounds ?_)
  exact hstatements.bind fun q hq => .of_run rfl hq

section

variable (h : Rule.expression.ReadsAll tokens n) (hn : n.isAssignment = false)
include h hn

/-- An expression that is no assignment starts with a token that operands start with. -/
theorem starts_of_expression : ((Input.ofTokens tokens).get 0).kind ∈ Rule.starters := by
  by_contra hk
  obtain ⟨q, hq, -⟩ := operand_of_expression h hn
  let k := Course.usual (.ofTokens tokens)
  have hprimary : Ends k Course.untried Course.anything (parse 9977 0 .primary) 0 1 .mismatch := by
    refine fun bound _ p hc _ _ => ?_
    change Course.Allows _ _ _ _ ((primary _).run _ _)
    rw [primary_of_not_starter (hc ▸ hk)]
    exact Course.allows_mismatch rfl trivial (fun _ => rfl) _
  have hoperand := ends_operand_of_primary (k.recalls_untried 0 _) hprimary (fun hs => hk (hs ▸ by decide))
    .of_mismatch (some 256) (List.mem_singleton_self _) (.within 0 1) rfl rfl rfl
  have hends := hoperand.ends
  change Outcome.EndsAs ((parse 9987 1 .operand).run { input := .ofTokens tokens } _) _ at hends
  rw [hq] at hends
  cases hends

/-- Before a semicolon the operand is found that is the expression on its own. -/
theorem comesTo_operand {input : Input} (hcontains : input.Contains 0 tokens)
    (hsemi : (input.get tokens.length).kind = Symbol.semi) (b : Nat) :
    ComesTo input (.within 0 1) (parse b 1 .operand) n tokens.length := by
  have hinside := h.inside
  have hnonempty := h.bounds.1 (by decide)
  obtain ⟨q, hq, hc⟩ := operand_of_expression h hn
  have hbalanced : Balance.even.after tokens = some .even :=
    balanced_of_read (r := .operand) hinside (some 256) (.inl rfl) hnonempty rfl rfl hq hc
  have hk : (elsewhere tokens input 0 (some (256, 256))).IsFair :=
    isFair_elsewhere hinside hbalanced hcontains (by rw [Nat.zero_add, hsemi]; decide)
      fun _ => by rw [Nat.zero_add, hsemi]; decide
  have hkin : (elsewhere tokens input 0 (some (256, 256))).AreKin 1 (.within 0 1) (.within 0 1) := by
    refine .of_untried (p := .within 0 1) (q := .within 0 1) rfl rfl (fun h => h) ?_
    rintro _ ⟨⟩
    rfl
  have hagree := inStep_parse hk 9987 b 1 .operand (fits_start (.inl rfl) nofun hnonempty) 1
    (.within 0 1) (.within 0 1) ⟨rfl, rfl, hkin⟩
  change Agree _ _ _ _ ((parse 9987 1 .operand).run { input := .ofTokens tokens } _)
    ((parse b 1 .operand).run { input } _) at hagree
  rw [hq] at hagree
  unfold ComesTo
  generalize (parse b 1 .operand).run { input } _ = o at hagree ⊢
  cases hagree with
  | exhausted' => exact .inl ⟨_, rfl⟩
  | @found _ _ q' i hb _ =>
    obtain rfl : i = tokens.length := by
      have hi := hb.cursor
      rw [hc] at hi
      exact (hi.trans (Nat.zero_add i)).symm
    exact .inr ⟨q', rfl, hb.cursor'.trans (Nat.zero_add _)⟩
  | swallowed _ hw => cases hk.unguarded hw

end

end Grammar

namespace Entry

open Grammar

variable {input : Input} {tokens : List Token} {n : Node}

/-- An expression between parentheses and a semicolon are a program of one statement. -/
theorem groupStatement (h : Rule.expression.ReadsAll tokens n) (hlast : input.last.kind = .eof)
    (hopening : (input.get 0).kind = Symbol.lparen) (hcontains : input.Contains 1 tokens)
    (hclosing : (input.get (1 + tokens.length)).kind = Symbol.rparen)
    (hsemi : (input.get (1 + tokens.length + 1)).kind = Symbol.semi)
    (hend : (input.get (1 + tokens.length + 2)).kind = .eof) :
    ((Grammar.rule .program).run { input } .start).IsCutShort ∨
      program.ofInput input = .ok (.program (locOf (input.get 0)) [.expressionStatement (locOf (input.get 0))
        (.parenthesized (locOf (input.get 0)) n)]) := by
  let b := enough (Input.ofTokens tokens).before.size
  cases hq : ((Grammar.parse b 2 .expression).run ⟨.ofTokens tokens, true, some 255⟩ .start).progress.refused with
  | true =>
    exact .inl (cutsFrom_groupProgram (b := 9974) hopening
      (cutsFrom_of_refused h (Nat.le_refl _) hq hcontains hclosing))
  | false =>
    have hphrase := h.isPhrase_of_not_refused (.inl rfl) (by decide) (Nat.le_refl _) hq
    have hexpression (b : Nat) := hphrase.finds hcontains (by rw [hclosing]; decide)
      (fun ha => absurd (hclosing.symm.trans ha) (by decide)) b
    have hprogram (b : Nat) := finds_groupProgram trivial hopening hexpression (by
      rintro _ _ ⟨-, rfl⟩
      exact ⟨hclosing, hsemi, hend⟩) b
    refine (rule_of_finds (r := .program) hlast hprogram).imp_right ?_
    rintro (⟨_, p, hp, _, _, ⟨rfl, rfl⟩, hstop, rfl⟩ | ⟨_, _, _, hx⟩)
    · exact program.ofInput_of_ok hp (by rw [hstop, hend])
    · cases hx

/-- An expression that is no assignment and does not start with an `if` is a program of one statement with a
semicolon behind it, unless that uses up the budget. -/
theorem bareStatement (h : Rule.expression.ReadsAll tokens n) (hn : n.isAssignment = false)
    (hlast : input.last.kind = .eof) (hcontains : input.Contains 0 tokens)
    (hif : (input.get 0).kind ≠ Keyword.ifWord) (hsemi : (input.get tokens.length).kind = Symbol.semi)
    (hend : (input.get (tokens.length + 1)).kind = .eof) :
    (∃ p, (Grammar.rule .program).run { input } .start = .failed .exhausted p) ∨
      program.ofInput input = .ok (.program (locOf (input.get 0)) [.expressionStatement n.loc n]) := by
  have hnonempty := h.bounds.1 (by decide)
  have hstarts := starts_of_expression h hn
  rw [get_of_contains (contains_ofTokens h.inside).1 hnonempty,
    ← get_of_contains hcontains hnonempty] at hstarts
  have hsize : 0 < input.before.size := by
    refine Nat.pos_of_ne_zero fun hzero => asked_ne_eof (List.mem_append_left _ hstarts) ?_
    simp [Input.get, hzero, hlast]
  refine (comesTo_program (b := 9985) hstarts hif (comesTo_operand h hn hcontains hsemi 9985) hsemi hend
    hsize).imp_right ?_
  rintro ⟨q, hq, hc⟩
  exact program.ofInput_of_ok hq (by rw [hc, hend])

end Entry

end MagSyntax
