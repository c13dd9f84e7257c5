import MagSyntax.Proofs.LadderRules
import MagSyntax.Proofs.Phrases

/-! Programs of one statement, an expression in parentheses. What the rule of expressions finds behind the first
parenthesis decides what comes of the program. -/

namespace MagSyntax

open Parse

namespace Grammar

variable {input : Input} {may : Failure → Prop} {c : Nat} {found : Node → Nat → Prop}

/-- Without its guards a rule finds what its body does. -/
theorem finds_plain {r : Rule} (hx : may .exhausted)
    (h : ∀ n, Finds (plain input) (fun _ => True) may (body (fun s => parse n s.surcharge s) r) c found)
    (b due : Nat) : Finds (plain input) (fun _ => True) may (parse b due r) c found := by
  rw [parse_due]
  cases b - due with
  | zero => exact finds_exhausted hx
  | succ n =>
    have hcontent : Finds (plain input) (fun _ => True) may (content n r) c found := by
      simp only [content, counted]
      split
      · exact (h n).nested fun hn => absurd rfl hn
      · exact h n
    rw [parse_content]
    split
    · intro p hp _
      have h1 := hcontent p hp trivial
      rw [run_remembered_miss fun h => absurd h Bool.false_ne_true]
      generalize (content n r).run (plain input) p = o at h1 ⊢
      rcases o with ⟨v, q⟩ | ⟨_ | _ | _, q⟩ <;> exact ⟨trivial, h1.2⟩
    · exact hcontent

/-- An expression in parentheses is a primary. -/
theorem finds_group {call : Rule → Parse Node} (hk : (input.get c).kind = Symbol.lparen)
    (h : Finds (plain input) (fun _ => True) may (call .expression) (c + 1) found)
    (hend : ∀ v d, found v d → (input.get d).kind = Symbol.rparen) :
    Finds (plain input) (fun _ => True) may (primary call) c
      fun v d => ∃ inner e, found inner e ∧ v = .parenthesized (locOf (input.get c)) inner ∧ d = e + 1 := by
  simp only [primary]
  rw [finds_current_bind]
  simp only [input_plain, hk]
  rw [finds_advance_bind, input_plain, Input.after_of_ne _ (by simp [hk])]
  refine h.bind fun inner e hi => ?_
  have hr := hend inner e hi
  refine finds_expect_bind (fun _ => finds_pure ⟨inner, e, hi, rfl, ?_⟩) fun hn => absurd hr hn
  exact Input.after_of_ne _ (by rw [input_plain, hr]; decide)

/-- A primary is an operand, before a token that does not go on with it. -/
theorem finds_operand_of_primary (hx : may .exhausted) (hk : (input.get c).kind ≠ Symbol.sub)
    (h : ∀ b, Finds (plain input) (fun _ => True) may (parse b 0 .primary) c found)
    (hend : ∀ v d, found v d → (input.get d).kind ∉ Rule.operand.continuers) (b : Nat) :
    Finds (plain input) (fun _ => True) may (parse b 1 .operand) c found := by
  have accepts {kinds : List TokenKind} (hkinds : kinds ⊆ Rule.operand.continuers) {v : Node} {d : Nat}
      (hv : found v d) {next : Option Token → Parse Node}
      (hn : Finds (plain input) (fun _ => True) may (next none) d found) :
      Finds (plain input) (fun _ => True) may (accept kinds >>= next) d found := by
    rw [finds_accept_bind, input_plain, if_neg fun hm => hend v d hv (hkinds hm)]
    exact hn
  have hlinks : Rule.links ⊆ Rule.operand.continuers := by decide
  have hchain (b : Nat) : Finds (plain input) (fun _ => True) may (parse b 0 .postfixChain) c found := by
    refine finds_plain hx (fun n => (h n).bind fun v d hv => ?_) b 0
    rw [finds_rounds_bind]
    exact finds_chain_stop (fun hm => hend v d hv (hlinks hm)) hv
  have hunary (b : Nat) : Finds (plain input) (fun _ => True) may (parse b 0 .unary) c found := by
    refine finds_plain hx (fun n => ?_) b 0
    simp only [body, unary]
    rw [finds_accept_bind, input_plain, if_neg (by simpa using hk)]
    exact hchain n
  have hexponent (b : Nat) : Finds (plain input) (fun _ => True) may (parse b 0 .exponent) c found :=
    finds_plain hx (fun n => (hunary n).bind fun v d hv => accepts (by decide) hv (finds_pure hv)) b 0
  -- a loop that groups to the left takes no operator
  have hleft {operand : Parse Node} {operators : List TokenKind}
      (hops : operators ⊆ Rule.operand.continuers)
      (ho : Finds (plain input) (fun _ => True) may operand c found) :
      Finds (plain input) (fun _ => True) may (binaryLeft operators operand) c found := by
    refine ho.bind fun v d hv => ?_
    rw [finds_rounds_bind]
    exact accepts hops hv (finds_pure hv)
  have hmultiplicative (b : Nat) :
      Finds (plain input) (fun _ => True) may (parse b 1 .multiplicative) c found :=
    finds_plain hx (fun n => hleft (by decide) (hexponent n)) b 1
  have hadditive (b : Nat) : Finds (plain input) (fun _ => True) may (parse b 1 .additive) c found :=
    finds_plain hx (fun n => hleft (by decide) (hmultiplicative n)) b 1
  have hcomparison (b : Nat) : Finds (plain input) (fun _ => True) may (parse b 0 .comparison) c found :=
    finds_plain hx (fun n => (hadditive n).bind fun v d hv => accepts (by decide) hv (finds_pure hv)) b 0
  exact finds_plain hx hcomparison b 1

/-- An expression in parentheses and a semicolon are a statement. -/
theorem finds_groupStatement (hx : may .exhausted) (hk : (input.get c).kind = Symbol.lparen)
    (h : ∀ b, Finds (plain input) (fun _ => True) may (parse b 2 .expression) (c + 1) found)
    (hend : ∀ v d, found v d → (input.get d).kind = Symbol.rparen)
    (hsemi : ∀ v d, found v d → (input.get (d + 1)).kind = Symbol.semi) (b : Nat) :
    Finds (plain input) (fun _ => True) may (parse b 2 .statement) c
      fun v d => ∃ inner e, found inner e ∧ d = e + 2 ∧
        v = .expressionStatement (locOf (input.get c)) (.parenthesized (locOf (input.get c)) inner) := by
  have hprimary (b : Nat) := finds_plain hx (r := .primary) (fun n => finds_group hk (h n) hend) b 0
  have hoperand (b : Nat) := finds_operand_of_primary hx (by rw [hk]; decide) hprimary (by
    rintro v d ⟨inner, e, hi, -, rfl⟩
    rw [hsemi inner e hi]
    decide) b
  have hstatement (b : Nat) : Finds (plain input) (fun _ => True) may (parse b 0 .expressionStatement) c
      fun v d => ∃ inner e, found inner e ∧ d = e + 2 ∧
        v = .expressionStatement (locOf (input.get c)) (.parenthesized (locOf (input.get c)) inner) := by
    refine finds_plain hx (fun n => (hoperand n).bind ?_) b 0
    rintro v d ⟨inner, e, hi, rfl, rfl⟩
    have hs := hsemi inner e hi
    rw [finds_sees_bind, input_plain, hs]
    simp only [TokenKind.symbol.injEq, reduceCtorEq, decide_false, Bool.false_eq_true, if_false]
    refine finds_expect_bind (fun _ => finds_pure ⟨inner, e, hi, ?_, rfl⟩) fun hn => absurd hs hn
    exact Input.after_of_ne _ (by rw [input_plain, hs]; decide)
  refine finds_plain hx (fun n => ?_) b 2
  simp only [body, statement]
  rw [finds_current_bind]
  simp only [input_plain, hk]
  exact hstatement n

/-- A program of one statement, which takes all tokens if it is found. -/
theorem finds_oneStatement (hx : may .exhausted) (hk : (input.get 0).kind ≠ .eof)
    (h : ∀ b, Finds (plain input) (fun _ => True) may (parse b 2 .statement) 0 found)
    (hend : ∀ v d, found v d → (input.get d).kind = .eof) (b : Nat) :
    Finds (plain input) (fun _ => True) may (parse b 0 .program) 0
      fun v d => ∃ s, found s d ∧ v = .program (locOf (input.get 0)) [s] := by
  refine finds_plain hx (fun n => ?_) b 0
  have hstatements (bound : Nat) : Finds (plain input) (fun _ => True) may
      (statementsToEnd (parse n 2 .statement) bound []) 0 fun body d => ∃ s, found s d ∧ body = [s] := by
    cases bound with
    | zero => exact finds_exhausted hx
    | succ bound =>
      refine finds_statementsToEnd_succ (fun he => absurd he hk) fun _ => (h n).imp fun s d hs => ?_
      cases bound with
      | zero => exact finds_exhausted hx
      | succ bound => exact finds_statementsToEnd_succ (fun _ => ⟨s, hs, rfl⟩) fun hn => absurd (hend s d hs) hn
  simp only [body, program]
  rw [finds_current_bind, finds_rounds_bind]
  refine (hstatements _).bind ?_
  rintro _ _ ⟨s, hs, rfl⟩
  exact finds_pure ⟨s, hs, rfl⟩

/-- A program of one expression in parentheses. -/
theorem finds_groupProgram (hx : may .exhausted) (hk : (input.get 0).kind = Symbol.lparen)
    (h : ∀ b, Finds (plain input) (fun _ => True) may (parse b 2 .expression) 1 found)
    (hend : ∀ v d, found v d → (input.get d).kind = Symbol.rparen ∧ (input.get (d + 1)).kind = Symbol.semi ∧
      (input.get (d + 2)).kind = .eof) (b : Nat) :
    Finds (plain input) (fun _ => True) may (parse b 0 .program) 0 fun v d => ∃ inner e, found inner e ∧
      d = e + 2 ∧ v = .program (locOf (input.get 0)) [.expressionStatement (locOf (input.get 0))
        (.parenthesized (locOf (input.get 0)) inner)] := by
  have hstatement (b : Nat) := finds_groupStatement hx hk h (fun v d hv => (hend v d hv).1)
    (fun v d hv => (hend v d hv).2.1) b
  refine (finds_oneStatement hx (by rw [hk]; decide) hstatement ?_ b).imp ?_
  · rintro _ _ ⟨inner, e, hi, rfl, -⟩
    exact (hend inner e hi).2.2
  · rintro _ _ ⟨_, ⟨inner, e, hi, rfl, rfl⟩, rfl⟩
    exact ⟨inner, e, hi, rfl, rfl⟩

end Grammar

end MagSyntax
