import MagSyntax.Proofs.MissingElse

/-! The rules only go on. From a token each of them complains about that token or a later one, and what it finds ends at
a token that does not go on with it, whatever the tokens are and however many rules are open. What the memo gives
back does so too, as it was stored by such a rule. -/

namespace MagSyntax

open Parse

namespace Input

variable {input : Input} {r : Rule} {a c d : Nat} {e : SyntaxError}

/-- The error is about the token at an index or about one behind it. -/
def IsFrom (input : Input) (c : Nat) (e : SyntaxError) : Prop := ∃ i, c ≤ i ∧ e.place = (input.get i).place

/-- What the rule finds from a token on ends at another, which does not go on with it. -/
structure StopsAt (input : Input) (r : Rule) (c d : Nat) : Prop where
  le : c ≤ d
  kind : (input.get d).kind ∉ r.continuers

theorem isFrom_ofToken (h : a ≤ c) (complaint : Complaint) : input.IsFrom a (.ofToken complaint (input.get c)) :=
  ⟨c, h, rfl⟩

theorem IsFrom.mono (h : input.IsFrom c e) (ha : a ≤ c) : input.IsFrom a e := by
  obtain ⟨i, hi, he⟩ := h
  exact ⟨i, Nat.le_trans ha hi, he⟩

theorem le_after (input : Input) (c : Nat) : c ≤ input.after c := by
  unfold after
  split <;> omega

theorem stopsAt_of_le (hr : r.continuers = []) (h : c ≤ d) : input.StopsAt r c d := ⟨h, by simp [hr]⟩

theorem StopsAt.append {s : Rule} {kinds : List TokenKind} (hr : r.continuers = kinds ++ s.continuers)
    (h : input.StopsAt s c d) (hn : (input.get d).kind ∉ kinds) : input.StopsAt r c d := by
  refine ⟨h.le, fun hm => ?_⟩
  rw [hr] at hm
  exact (List.mem_append.mp hm).elim hn h.kind

theorem StopsAt.before (h : input.StopsAt r c d) (ha : a ≤ c) : input.StopsAt r a d :=
  ⟨Nat.le_trans ha h.le, h.kind⟩

end Input

/-- The memo holds what rules find and complain about when they only go on. -/
structure Memo.GoesOn (input : Input) (m : Memo) : Prop where
  node : ∀ r c n stop, m.find? ⟨r, c⟩ = some (.node n stop) → input.StopsAt r c stop
  error : ∀ r c e, m.find? ⟨r, c⟩ = some (.error e) → input.IsFrom c e

theorem Memo.goesOn_empty {input : Input} : Memo.empty.GoesOn input :=
  ⟨by simp, by simp⟩

theorem Memo.GoesOn.store {input : Input} {m : Memo} (h : m.GoesOn input) {r : Rule} {c : Nat} {f : Finding}
    (hn : ∀ n stop, f = .node n stop → input.StopsAt r c stop) (he : ∀ e, f = .error e → input.IsFrom c e) :
    (m.store ⟨r, c⟩ f).GoesOn input := by
  refine ⟨fun r' c' n stop hf => ?_, fun r' c' e hf => ?_⟩
  · rw [find?_store] at hf
    split at hf
    next hplace =>
      cases hplace
      exact hn n stop (Option.some.inj hf)
    next => exact h.node r' c' n stop hf
  · rw [find?_store] at hf
    split at hf
    next hplace =>
      cases hplace
      exact he e (Option.some.inj hf)
    next => exact h.error r' c' e hf

namespace Parse

variable {α : Type} {setup : Setup} {keeps : Memo → Prop} {a c : Nat} {found : α → Nat → Prop}

theorem goesOn_attemptAfter {alternatives : List (Parse α)} {e : SyntaxError} (he : setup.input.IsFrom a e)
    (h : ∀ step ∈ alternatives, Finds setup keeps (Failure.Misses (setup.input.IsFrom a)) step c found) :
    Finds setup keeps (Failure.Misses (setup.input.IsFrom a)) (attemptAfter c e alternatives) c found := by
  induction alternatives generalizing e with
  | nil => exact finds_mismatch he
  | cons first rest ih =>
    obtain ⟨hfirst, hrest⟩ := List.forall_mem_cons.mp h
    rw [attemptAfter_cons]
    refine finds_recover rfl trivial hfirst fun e' he' => ih ?_ hrest
    unfold further
    split
    · exact he'
    · exact he

theorem goesOn_attempt {first : Parse α} {others : List (Parse α)}
    (hf : Finds setup keeps (Failure.Misses (setup.input.IsFrom a)) first c found)
    (ho : ∀ step ∈ others, Finds setup keeps (Failure.Misses (setup.input.IsFrom a)) step c found) :
    Finds setup keeps (Failure.Misses (setup.input.IsFrom a)) (attempt first others) c found := by
  rw [attempt_eq]
  exact finds_recover rfl trivial hf fun e he => goesOn_attemptAfter he ho

theorem goesOn_nested {rule : Parse α} (ha : a ≤ c)
    (h : Finds setup keeps (Failure.Misses (setup.input.IsFrom a)) rule c found) :
    Finds setup keeps (Failure.Misses (setup.input.IsFrom a)) (nested rule) c found := by
  intro p hc hk
  subst hc
  simp only [Parse.nested]
  by_cases hn : setup.nesting.any (· ≤ p.depth)
  · rw [if_pos hn]
    exact ⟨hk, Input.isFrom_ofToken ha _⟩
  · rw [if_neg hn]
    have h := h p.deeper rfl hk
    cases hr : rule.run setup p.deeper with
    | ok v q => rw [hr] at h; exact h
    | failed f q => rw [hr] at h; exact h

end Parse

namespace Grammar

variable {setup : Setup} {keeps : Memo → Prop} {self : Rule → Parse Node} {a c : Nat}

/-- From whatever token, the rule complains about none before it, and ends where nothing goes on with what it has
found. -/
def GoesOn (setup : Setup) (keeps : Memo → Prop) (r : Rule) (step : Parse Node) : Prop :=
  ∀ c, Finds setup keeps (Failure.Misses (setup.input.IsFrom c)) step c fun _ => setup.input.StopsAt r c

section

variable (hself : ∀ r, GoesOn setup keeps r (self r))
include hself

/-- A rule that is run by another from a later token. -/
theorem GoesOn.call (r : Rule) (ha : a ≤ c) :
    Finds setup keeps (Failure.Misses (setup.input.IsFrom a)) (self r) c fun _ => setup.input.StopsAt r c :=
  (hself r c).mono (fun _ hf => hf.mono fun _ he => he.mono ha) fun _ _ h => h

theorem goesOn_expression : GoesOn setup keeps .expression (expression self) := by
  intro c
  refine (GoesOn.call hself .operand (Nat.le_refl c)).bind fun left d hd => ?_
  rw [finds_accept_bind]
  split
  next =>
    have hafter := Nat.le_trans hd.le (setup.input.le_after d)
    simp only [toTarget]
    split
    next =>
      rw [finds_pure_bind]
      exact (GoesOn.call hself .expression hafter).bind fun right stop hs => finds_pure (hs.before hafter)
    next => exact finds_fail_bind (Input.isFrom_ofToken hd.le _)
  next hn => exact finds_pure (hd.append rfl hn)

theorem goesOn_comparison : GoesOn setup keeps .comparison (comparison self) := by
  intro c
  refine (GoesOn.call hself .additive (Nat.le_refl c)).bind fun left d hd => ?_
  rw [finds_accept_bind]
  split
  next =>
    have hafter := Nat.le_trans hd.le (setup.input.le_after d)
    refine (GoesOn.call hself .additive hafter).bind fun right stop hs => ?_
    simp only [finds_check_bind]
    split
    next => exact finds_complain_bind_of (Input.isFrom_ofToken (Nat.le_trans hafter hs.le) _)
    next hn =>
      have hn : (setup.input.get stop).kind ∉ comparisons := by simpa using hn
      exact finds_pure ((hs.append rfl hn).before hafter)
  next hn => exact finds_pure (hd.append rfl hn)

/-- Operators that group to the left: what is found does not go on with one of them, nor with what their operands go on
with. -/
theorem goesOn_binaryLeft {r s : Rule} {operators : List TokenKind} (hr : r.continuers = operators ++ s.continuers) :
    GoesOn setup keeps r (binaryLeft operators (self s)) := by
  intro c
  refine finds_binaryLeft (fun _ => setup.input.StopsAt s c) trivial (hself s c) ?_ fun _ _ h hk => h.append hr hk
  intro left d h _
  have hafter := Nat.le_trans h.le (setup.input.le_after d)
  exact (GoesOn.call hself s hafter).imp fun right stop hs => hs.before hafter

theorem goesOn_exponent : GoesOn setup keeps .exponent (exponent self) := by
  intro c
  refine (GoesOn.call hself .unary (Nat.le_refl c)).bind fun base d hd => ?_
  rw [finds_accept_bind]
  split
  next =>
    have hafter := Nat.le_trans hd.le (setup.input.le_after d)
    exact (GoesOn.call hself .exponent hafter).bind fun power stop hs => finds_pure (hs.before hafter)
  next hn => exact finds_pure (hd.append rfl hn)

theorem goesOn_unary : GoesOn setup keeps .unary (unary self) := by
  intro c
  simp only [unary]
  rw [finds_accept_bind]
  split
  next =>
    have hafter := setup.input.le_after c
    refine (GoesOn.call hself .postfixChain hafter).bind fun argument stop hs => finds_pure ?_
    exact ⟨Nat.le_trans hafter hs.le, hs.kind⟩
  next => exact (hself .postfixChain c).imp fun _ _ hs => ⟨hs.le, hs.kind⟩

omit hself in
theorem goesOn_fieldName (ha : a ≤ c) :
    Finds setup keeps (Failure.Misses (setup.input.IsFrom a)) fieldName c fun _ d => a ≤ d := by
  simp only [fieldName]
  rw [finds_current_bind]
  split
  next => exact finds_complain_bind_of (Input.isFrom_ofToken ha _)
  next =>
    rw [finds_advance_bind]
    exact finds_pure (Nat.le_trans ha (setup.input.le_after c))

theorem goesOn_delimited {close : TokenKind} {bracket : Symbol} (hc : closingBracket? close = some bracket) (r : Rule)
    (ha : a ≤ setup.input.after c) :
    Finds setup keeps (Failure.Misses (setup.input.IsFrom a)) (delimited close (self r)) c fun _ d => a ≤ d := by
  have helements (bound : Nat) : Finds setup keeps (Failure.Misses (setup.input.IsFrom a))
      (elements close (self r) bound []) (setup.input.after c) fun _ d => a ≤ d := by
    refine finds_elements (a ≤ ·) (fun _ _ d => a ≤ d) trivial (fun _ h _ => h) ?_ bound ha
    refine fun c ha => (GoesOn.call hself r ha).imp fun next d hd => ?_
    have hd := Nat.le_trans ha hd.le
    exact ⟨fun _ => ⟨Nat.le_trans hd (setup.input.le_after d), fun _ _ h => h⟩, fun _ => hd⟩
  exact finds_delimited hc helements (fun _ d hd _ => Nat.le_trans hd (setup.input.le_after d))
    fun _ _ hd _ => Input.isFrom_ofToken hd _

theorem goesOn_postfixChain : GoesOn setup keeps .postfixChain (postfixChain self) := by
  intro c
  refine finds_postfixChain (fun _ d => c ≤ d) trivial ((hself .primary c).imp fun _ _ h => h.le) ?_ ?_ ?_
    fun _ _ h hk => ⟨h, hk⟩
  · exact fun _ d h _ => goesOn_fieldName (Nat.le_trans h (setup.input.le_after d))
  · intro node d h _
    have hafter := Nat.le_trans h (setup.input.le_after d)
    refine (GoesOn.call hself .expression hafter).imp fun index e he => ?_
    have he := Nat.le_trans hafter he.le
    exact ⟨fun _ => Nat.le_trans he (setup.input.le_after e), fun _ => Input.isFrom_ofToken he _⟩
  · exact fun _ d h _ => goesOn_delimited hself rfl .expression (Nat.le_trans h (setup.input.le_after d))

omit hself in
/-- A node that is one token long, found by a rule that nothing goes on with. -/
theorem goesOn_token {r : Rule} (hr : r.continuers = []) (n : Node) :
    Finds setup keeps (Failure.Misses (setup.input.IsFrom c)) (discard advance >>= fun _ => pure n) c
      fun _ => setup.input.StopsAt r c := by
  rw [finds_advance_bind]
  exact finds_pure (Input.stopsAt_of_le hr (setup.input.le_after c))

theorem goesOn_primary : GoesOn setup keeps .primary (primary self) := by
  intro c
  have hafter := setup.input.le_after c
  simp only [primary]
  rw [finds_current_bind]
  split
  · exact goesOn_token rfl _
  · exact goesOn_token rfl _
  · exact goesOn_token rfl _
  · exact goesOn_token rfl _
  · exact goesOn_token rfl _
  · exact goesOn_token rfl _
  · exact (goesOn_delimited hself rfl .expression hafter).bind fun items d hd =>
      finds_pure (Input.stopsAt_of_le rfl hd)
  · rw [finds_advance_bind]
    refine (GoesOn.call hself .expression hafter).bind fun inner d hd => ?_
    have hd := Nat.le_trans hafter hd.le
    refine finds_expect_bind_of (fun _ => finds_pure ?_) fun _ => Input.isFrom_ofToken hd _
    exact Input.stopsAt_of_le rfl (Nat.le_trans hd (setup.input.le_after d))
  · exact (hself .conditional c).imp fun _ _ hs => ⟨hs.le, hs.kind⟩
  · exact fun p hp hk => ⟨hk, hp ▸ Input.isFrom_ofToken (Nat.le_refl _) _⟩

theorem goesOn_condition (ha : a ≤ c) :
    Finds setup keeps (Failure.Misses (setup.input.IsFrom a)) (condition self) c fun _ d => a ≤ d := by
  refine finds_expect_bind_of (fun _ => ?_) fun _ => Input.isFrom_ofToken ha _
  have hafter := Nat.le_trans ha (setup.input.le_after c)
  refine (GoesOn.call hself .expression hafter).bind fun test d hd => ?_
  have hd := Nat.le_trans hafter hd.le
  exact finds_expect_bind_of (fun _ => finds_pure (Nat.le_trans hd (setup.input.le_after d)))
    fun _ => Input.isFrom_ofToken hd _

theorem goesOn_conditionAndBlock (ha : a ≤ c) :
    Finds setup keeps (Failure.Misses (setup.input.IsFrom a)) (conditionAndBlock self) c fun _ d => a ≤ d := by
  refine (GoesOn.call hself .operand ha).bind fun test d hd => ?_
  have hd := Nat.le_trans ha hd.le
  simp only [finds_sees_bind]
  split
  · exact finds_complain_bind_of (Input.isFrom_ofToken hd _)
  · exact (GoesOn.call hself .block hd).bind fun block stop hs => finds_pure (Nat.le_trans hd hs.le)

theorem goesOn_conditionalRest (loc : Loc) (test : Node) (explicitThen : Bool) (ha : a ≤ c) :
    Finds setup keeps (Failure.Misses (setup.input.IsFrom a)) (conditionalRest self loc test explicitThen) c
      fun _ d => a ≤ d := by
  refine (GoesOn.call hself .expression ha).bind fun consequent d hd => ?_
  have hd := Nat.le_trans ha hd.le
  refine finds_expect_bind_of (fun _ => ?_) fun _ => Input.isFrom_ofToken hd _
  have hafter := Nat.le_trans hd (setup.input.le_after d)
  exact (GoesOn.call hself .expression hafter).bind fun alternate stop hs => finds_pure (Nat.le_trans hafter hs.le)

theorem goesOn_conditionalByParentheses (loc : Loc) (ha : a ≤ c) :
    Finds setup keeps (Failure.Misses (setup.input.IsFrom a)) (conditionalByParentheses self loc) c
      fun _ d => a ≤ d := by
  rw [conditionalByParentheses_eq]
  exact (goesOn_condition hself ha).bind fun test _ hd => goesOn_conditionalRest hself loc test false hd

theorem goesOn_conditionalByThen (loc : Loc) (ha : a ≤ c) :
    Finds setup keeps (Failure.Misses (setup.input.IsFrom a)) (conditionalByThen self loc) c fun _ d => a ≤ d := by
  rw [conditionalByThen_eq]
  refine (GoesOn.call hself .operand ha).bind fun test d hd => ?_
  have hd := Nat.le_trans ha hd.le
  refine finds_expect_bind_of (fun _ => ?_) fun _ => Input.isFrom_ofToken hd _
  exact goesOn_conditionalRest hself loc test true (Nat.le_trans hd (setup.input.le_after d))

theorem goesOn_conditionalByBlocks (loc : Loc) (ha : a ≤ c) :
    Finds setup keeps (Failure.Misses (setup.input.IsFrom a)) (conditionalByBlocks self loc) c fun _ d => a ≤ d := by
  refine (goesOn_conditionAndBlock hself ha).bind fun found d hd => ?_
  refine finds_expect_bind_of (fun _ => ?_) fun _ => Input.isFrom_ofToken hd _
  have hafter := Nat.le_trans hd (setup.input.le_after d)
  rw [finds_sees_bind]
  split
  · exact (GoesOn.call hself .conditional hafter).bind fun alternate stop hs => finds_pure (Nat.le_trans hafter hs.le)
  · exact (GoesOn.call hself .block hafter).bind fun alternate stop hs => finds_pure (Nat.le_trans hafter hs.le)

theorem goesOn_conditional : GoesOn setup keeps .conditional (conditional self) := by
  intro c
  have hafter := setup.input.le_after c
  refine finds_expectOne_bind_of (fun _ => ?_) fun _ => Input.isFrom_ofToken (Nat.le_refl c) _
  suffices h : Finds setup keeps (Failure.Misses (setup.input.IsFrom c)) (attempt _ _) (setup.input.after c)
      fun _ d => c ≤ d from h.imp fun _ _ hd => Input.stopsAt_of_le rfl hd
  refine goesOn_attempt (goesOn_conditionalByParentheses hself _ hafter) ?_
  simp only [List.forall_mem_cons]
  exact ⟨goesOn_conditionalByThen hself _ hafter, goesOn_conditionalByBlocks hself _ hafter, by simp⟩

theorem goesOn_statement : GoesOn setup keeps .statement (statement self) := by
  intro c
  simp only [statement]
  rw [finds_current_bind]
  have known (r : Rule) : Finds setup keeps (Failure.Misses (setup.input.IsFrom c)) (self r) c
      fun _ => setup.input.StopsAt .statement c :=
    (hself r c).imp fun _ _ hs => Input.stopsAt_of_le rfl hs.le
  split <;> exact known _

theorem goesOn_expressionStatement : GoesOn setup keeps .expressionStatement (expressionStatement self) := by
  intro c
  refine (GoesOn.call hself .operand (Nat.le_refl c)).bind fun value d hd => ?_
  simp only [finds_sees_bind]
  split
  · exact finds_complain_bind_of (Input.isFrom_ofToken hd.le _)
  · refine finds_expect_bind_of (fun _ => finds_pure ?_) fun _ => Input.isFrom_ofToken hd.le _
    exact Input.stopsAt_of_le rfl (Nat.le_trans hd.le (setup.input.le_after d))

theorem goesOn_program : GoesOn setup keeps .program (program self) := by
  intro c
  simp only [program]
  rw [finds_current_bind, finds_rounds_bind]
  refine (finds_statementsToEnd (c ≤ ·) (fun _ _ d => c ≤ d) trivial (fun b hb => ?_) (fun _ h _ => h) _
    (Nat.le_refl c)).bind fun _ _ hd => finds_pure (Input.stopsAt_of_le rfl hd.1)
  exact (GoesOn.call hself .statement hb).imp fun _ _ hd => ⟨Nat.le_trans hb hd.le, fun _ _ h => h⟩

theorem goesOn_block : GoesOn setup keeps .block (block self) := by
  intro c
  refine finds_expectOne_bind_of (fun _ => ?_) fun _ => Input.isFrom_ofToken (Nat.le_refl c) _
  rw [finds_rounds_bind]
  refine (finds_statementsToBrace (c ≤ ·) (fun _ _ d => c ≤ d) trivial (fun b hb => ?_) (fun _ h _ => h)
    (fun _ h _ => Input.isFrom_ofToken h _) _ (setup.input.le_after c)).bind fun body d hd => ?_
  · exact (GoesOn.call hself .statement hb).imp fun _ _ hd => ⟨Nat.le_trans hb hd.le, fun _ _ h => h⟩
  · refine finds_expect_bind_of (fun _ => finds_pure ?_) fun _ => Input.isFrom_ofToken hd _
    exact Input.stopsAt_of_le rfl (Nat.le_trans hd (setup.input.le_after d))

theorem goesOn_conditionAndStatement (ha : a ≤ c) :
    Finds setup keeps (Failure.Misses (setup.input.IsFrom a)) (conditionAndStatement self) c fun _ d => a ≤ d :=
  (goesOn_condition hself ha).bind fun _ _ hd =>
    (GoesOn.call hself .statement hd).bind fun _ _ hs => finds_pure (Nat.le_trans hd hs.le)

theorem goesOn_conditionalStatement : GoesOn setup keeps .conditionalStatement (conditionalStatement self) := by
  intro c
  have hafter := setup.input.le_after c
  refine finds_expectOne_bind_of (fun _ => ?_) fun _ => Input.isFrom_ofToken (Nat.le_refl c) _
  refine (goesOn_attempt (goesOn_conditionAndStatement hself hafter) ?_).bind fun found d hd => ?_
  · exact List.forall_mem_singleton.mpr (goesOn_conditionAndBlock hself hafter)
  refine finds_marked_bind (fun _ => finds_pure (Input.stopsAt_of_le rfl hd)) fun _ => ?_
  have hd := Nat.le_trans hd (setup.input.le_after d)
  exact (GoesOn.call hself .statement hd).bind fun alternate stop hs =>
    finds_pure (Input.stopsAt_of_le rfl (Nat.le_trans hd hs.le))

theorem goesOn_declarationRest (loc : Loc) (constant mutable : Bool) (ha : a ≤ c) :
    Finds setup keeps (Failure.Misses (setup.input.IsFrom a)) (declarationRest self loc constant mutable) c
      fun _ => setup.input.StopsAt .declaration a := by
  have hcall (r : Rule) {d : Nat} (hd : a ≤ d) : Finds setup keeps (Failure.Misses (setup.input.IsFrom a)) (self r)
      (setup.input.after d) fun _ e => a ≤ e := by
    have hafter := Nat.le_trans hd (setup.input.le_after d)
    exact (GoesOn.call hself r hafter).imp fun _ _ he => Nat.le_trans hafter he.le
  refine finds_declarationRest (fun _ d => a ≤ d) (fun _ _ d => a ≤ d) (fun _ _ _ d => a ≤ d) ?_
    (fun _ _ hd _ => hd) (fun _ _ hd _ => hcall .operand hd) (fun _ _ _ hd _ => hd)
    (fun _ _ _ hd _ => hcall .expression hd) ?_ fun _ _ _ _ hd _ => Input.isFrom_ofToken hd _
  · exact (GoesOn.call hself .bindingPattern ha).imp fun _ _ hd => Nat.le_trans ha hd.le
  · exact fun _ _ _ d hd _ => Input.stopsAt_of_le rfl (Nat.le_trans hd (setup.input.le_after d))

theorem goesOn_declaration : GoesOn setup keeps .declaration (declaration self) := by
  intro c
  rw [declaration_eq]
  have hafter := setup.input.le_after c
  refine finds_expectOne_bind_of (fun _ => ?_) fun _ => Input.isFrom_ofToken (Nat.le_refl c) _
  simp only [finds_sees_bind]
  split
  · split
    · exact finds_complain_bind_of (Input.isFrom_ofToken hafter _)
    · rw [finds_advance_bind]
      exact goesOn_declarationRest hself _ _ _ (Nat.le_trans hafter (setup.input.le_after _))
  · exact goesOn_declarationRest hself _ _ _ hafter

theorem goesOn_bindingPattern : GoesOn setup keeps .bindingPattern (bindingPattern self) := by
  intro c
  simp only [bindingPattern]
  rw [finds_current_bind]
  split
  · exact goesOn_token rfl _
  · exact (goesOn_delimited hself rfl .bindingPattern (setup.input.le_after c)).bind fun items d hd =>
      finds_pure (Input.stopsAt_of_le rfl hd)
  · exact fun p hp hk => ⟨hk, hp ▸ Input.isFrom_ofToken (Nat.le_refl _) _⟩

/-- The body of a rule goes on if the rules that it runs do. -/
theorem goesOn_body (r : Rule) : GoesOn setup keeps r (body self r) := by
  cases r with
  | program => exact goesOn_program hself
  | statement => exact goesOn_statement hself
  | expressionStatement => exact goesOn_expressionStatement hself
  | block => exact goesOn_block hself
  | conditionalStatement => exact goesOn_conditionalStatement hself
  | declaration => exact goesOn_declaration hself
  | bindingPattern => exact goesOn_bindingPattern hself
  | expression => exact goesOn_expression hself
  | operand => exact fun c => (hself .comparison c).imp fun _ _ hs => ⟨hs.le, hs.kind⟩
  | comparison => exact goesOn_comparison hself
  | additive => exact goesOn_binaryLeft hself rfl
  | multiplicative => exact goesOn_binaryLeft hself rfl
  | exponent => exact goesOn_exponent hself
  | unary => exact goesOn_unary hself
  | postfixChain => exact goesOn_postfixChain hself
  | primary => exact goesOn_primary hself
  | conditional => exact goesOn_conditional hself

end

/-- Every rule goes on if the memo does, and leaves such a memo behind, however many rules are open. -/
theorem goesOn_parse (budget due : Nat) (r : Rule) :
    GoesOn setup (Memo.GoesOn setup.input) r (parse budget due r) := by
  induction budget generalizing due r with
  | zero => exact fun c => finds_exhausted trivial
  | succ budget ih =>
    cases due with
    | succ due => exact ih due r
    | zero =>
      intro c
      have hbody := goesOn_body (fun s => ih s.surcharge s) r c
      have hcontent : Finds setup (Memo.GoesOn setup.input) (Failure.Misses (setup.input.IsFrom c))
          (content budget r) c fun _ => setup.input.StopsAt r c := by
        simp only [content, counted]
        split
        · exact goesOn_nested (Nat.le_refl c) hbody
        · exact hbody
      rw [parse_content]
      split
      · refine Finds.remembered (fun m n stop hm => hm.node r c n stop) (fun m e hm => hm.error r c e)
          (fun m n stop hm hs => ?_) (fun m e hm he => ?_) hcontent
        · exact hm.store (fun n' stop' hf => by cases hf; exact hs) fun e hf => by cases hf
        · exact hm.store (fun n stop hf => by cases hf) fun e' hf => by cases hf; exact he
      · exact hcontent

end Grammar

/-- A memo that calls of rules have left behind, one after the other, each from any token and with any number of rules
open. -/
inductive Memo.LeftBehind (setup : Setup) : Memo → Prop
  | empty : LeftBehind setup .empty
  | call {p : Progress} (h : LeftBehind setup p.memo) (budget : Nat) (r : Rule) :
    LeftBehind setup ((Grammar.parse budget r.surcharge r).run setup p).progress.memo

theorem Memo.LeftBehind.within {setup : Setup} {m : Memo} (h : m.LeftBehind setup) (cursor depth budget : Nat)
    (r : Rule) :
    LeftBehind setup ((Grammar.parse budget r.surcharge r).run setup
      { Progress.within cursor depth with memo := m }).progress.memo :=
  .call (p := { Progress.within cursor depth with memo := m }) h budget r

theorem Memo.LeftBehind.goesOn {setup : Setup} {m : Memo} (h : m.LeftBehind setup) : m.GoesOn setup.input := by
  induction h with
  | empty => exact goesOn_empty
  | @call p _ budget r ih =>
    have hfinds := Grammar.goesOn_parse budget r.surcharge r p.cursor p rfl ih
    cases hr : (Grammar.parse budget r.surcharge r).run setup p with
    | ok n q =>
      rw [hr] at hfinds
      exact hfinds.1
    | failed f q =>
      rw [hr] at hfinds
      exact hfinds.1

/-- The kinds of tokens that go on with an operand: the links of a chain and the operators other than `=`. -/
def operandOperators : List TokenKind :=
  [.symbol .dot, .symbol .lbrack, .symbol .lparen, .symbol .pow, .symbol .mult, .symbol .div, .symbol .mod,
   .symbol .plus, .symbol .sub] ++ Grammar.comparisons

theorem operandOperators_subset : operandOperators ⊆ Rule.operand.continuers := by decide

/-- Whatever the tokens are, from whichever of them an operand is read, at whatever depth and with whatever earlier
calls have left in the memo, the token behind it is none that would go on with it; behind an expression it
is no `=` either. -/
theorem kind_behind_operand (tokens : List Token) {p : Progress} (hp : p.memo.LeftBehind { input := .ofTokens tokens })
    (budget due : Nat) (n : Node) (q : Progress) :
    ((Grammar.parse budget due .operand).run { input := .ofTokens tokens } p = .ok n q →
        ((Input.ofTokens tokens).get q.cursor).kind ∉ operandOperators) ∧
      ((Grammar.parse budget due .expression).run { input := .ofTokens tokens } p = .ok n q →
        ((Input.ofTokens tokens).get q.cursor).kind ∉ .symbol .assign :: operandOperators) := by
  refine ⟨fun h => ?_, fun h => ?_⟩
  · have hfinds := Grammar.goesOn_parse budget due .operand p.cursor p rfl hp.goesOn
    rw [h] at hfinds
    exact fun hm => hfinds.2.kind (operandOperators_subset hm)
  · have hfinds := Grammar.goesOn_parse budget due .expression p.cursor p rfl hp.goesOn
    rw [h] at hfinds
    exact fun hm => hfinds.2.kind (List.cons_subset_cons _ operandOperators_subset hm)

/-- The tokens of `a + b = c` and a semicolon. -/
def sumAssigned : List Token :=
  [⟨⟨.ident, "a", 10, []⟩, ⟨0, 1, 1⟩⟩, ⟨⟨.symbol .plus, "+", 10, []⟩, ⟨2, 1, 3⟩⟩,
   ⟨⟨.ident, "b", 10, []⟩, ⟨4, 1, 5⟩⟩, ⟨⟨.symbol .assign, "=", 10, []⟩, ⟨6, 1, 7⟩⟩,
   ⟨⟨.ident, "c", 10, []⟩, ⟨8, 1, 9⟩⟩, ⟨⟨.symbol .semi, ";", 10, []⟩, ⟨9, 1, 10⟩⟩]

/-- A parser that has read the sum and stands at another token, with so many rules open. -/
def behindSum (cursor depth : Nat) : Progress :=
  { ((Grammar.parse 20 1 .operand).run { input := .ofTokens sumAssigned } .start).progress with cursor, depth }

theorem leftBehind_behindSum (cursor depth : Nat) :
    (behindSum cursor depth).memo.LeftBehind { input := .ofTokens sumAssigned } :=
  .within .empty 0 0 20 .operand

/-- The memo gives back the sum at a depth at which no name could be read, and the assignment to its last name is read
from there on. -/
theorem kind_behind_operand_recalled :
    (∀ cursor depth, (behindSum cursor depth).memo.LeftBehind { input := .ofTokens sumAssigned }) ∧
      ((behindSum 0 300).memo.find? ⟨.operand, 0⟩).isSome ∧
      (∃ n q, (Grammar.parse 20 1 .operand).run { input := .ofTokens sumAssigned } (behindSum 0 300) = .ok n q ∧
        q.cursor = 3 ∧ ((Input.ofTokens sumAssigned).get q.cursor).kind ∉ operandOperators) ∧
      ∃ n q, (Grammar.parse 30 2 .expression).run { input := .ofTokens sumAssigned } (behindSum 2 0) = .ok n q ∧
        q.cursor = 5 ∧ ((Input.ofTokens sumAssigned).get q.cursor).kind ∉ .symbol .assign :: operandOperators := by
  obtain ⟨n, q, hrun, hq⟩ : ∃ n q, (Grammar.parse 20 1 .operand).run { input := .ofTokens sumAssigned }
      (behindSum 0 300) = .ok n q ∧ q.cursor = 3 := by decide +kernel
  obtain ⟨n', q', hrun', hq'⟩ : ∃ n q, (Grammar.parse 30 2 .expression).run { input := .ofTokens sumAssigned }
      (behindSum 2 0) = .ok n q ∧ q.cursor = 5 := by decide +kernel
  refine ⟨leftBehind_behindSum, by decide +kernel, ⟨n, q, hrun, hq, ?_⟩, n', q', hrun', hq', ?_⟩
  · exact (kind_behind_operand sumAssigned (leftBehind_behindSum 0 300) 20 1 n q).1 hrun
  · exact (kind_behind_operand sumAssigned (leftBehind_behindSum 2 0) 30 2 n' q').2 hrun'

end MagSyntax
