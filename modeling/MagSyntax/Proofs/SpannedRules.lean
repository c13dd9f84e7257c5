import MagSyntax.Proofs.Entries
import MagSyntax.Proofs.Spans

/-! A rule that has found a tree has put its places right. Each lemma takes this for the rules that the body
calls and says it for the rule itself, on an input whose end can be taken for nothing else. That the
tokens are a way to write the tree is known from the same rules, so what is left to follow is where
each part begins and which token a node takes its place from. -/

namespace MagSyntax

open Parse Input

namespace Grammar

variable {setup : Setup} {keeps : Memo → Prop} {self : Rule → Parse Node}

section

variable (hp : setup.input.IsProper) (hend : ∀ c, ¬setup.input.StrayEnd c)
  (hself : ∀ r, r ≠ .program → ∀ c,
    Finds setup keeps Failure.IsTame (self r) c (setup.input.Occupies c))

section

include hp hself

theorem spans_binaryLeft {s : Rule} (hs : s ≠ .program) (level : Level) {c : Nat} :
    Finds setup keeps Failure.IsTame (binaryLeft level.kinds (self s)) c (setup.input.Settles c) := by
  refine finds_binaryLeft (setup.input.Occupies c) trivial (hself s hs c) ?_ fun left d h _ => h.settles
  intro left d h hk
  obtain ⟨o, ho⟩ := Level.exists_symbol_of_mem hk
  rw [after_of_symbol ho]
  exact (hself s hs (d + 1)).imp fun right e hr => h.binary hp ho hr

/-- The elements of a list between brackets stand one behind the other, with commas between them. -/
theorem spans_delimited {r : Rule} (hr : r ≠ .program) {s : Symbol} (hs : closingBracket? s = some s)
    {c : Nat} (hc : (setup.input.get c).kind ≠ .eof) :
    Finds setup keeps Failure.IsTame (delimited s (self r)) c fun items stop =>
      ∃ d, setup.input.AllSpan (c + 1) items d ∧
        setup.input.ListWrites (fun _ => True) (c + 1) items d ∧
          (setup.input.get d).kind = s ∧ stop = d + 1 := by
  have helements (bound : Nat) : Finds setup keeps Failure.IsTame (elements s (self r) bound []) (c + 1)
      fun items d => setup.input.AllSpan (c + 1) items d ∧
        setup.input.ListWrites (fun _ => True) (c + 1) items d := by
    refine finds_elements (fun _ => True) (fun c items d => setup.input.AllSpan c items d ∧
      setup.input.ListWrites (fun _ => True) c items d) trivial ?_ ?_ bound trivial
    · exact fun c _ _ => ⟨.nil (Nat.le_refl c), ListWrites.nil⟩
    · refine fun c _ => (hself r hr c).imp fun next d hn => ⟨fun hk => ⟨trivial, ?_⟩, fun _ => ?_⟩
      · rw [after_of_symbol hk]
        rintro rest stop ⟨hspan, hw⟩
        constructor
        · exact .cons (Nat.le_refl c) hn.spans (hspan.before (Nat.le_succ d))
        · exact ListWrites.cons hp hn.spans.writes hk hw
      · exact ⟨.single hn.spans (Nat.le_refl c) (Nat.le_refl d), .singleton hn.spans.writes⟩
  refine finds_delimited hs (by rw [setup.input.after_of_ne hc]; exact helements) ?_ fun _ _ _ _ => trivial
  exact fun items d h hk => ⟨d, h.1, h.2, hk, after_of_symbol hk⟩

include hend in
theorem spans_postfixChain {c : Nat} :
    Finds setup keeps Failure.IsTame (postfixChain self) c (setup.input.Settles c) := by
  refine finds_postfixChain (setup.input.Occupies c) trivial (hself .primary (by decide) c) ?_ ?_ ?_
    fun node d h _ => h.settles
  · intro node d h hk
    rw [after_of_symbol hk]
    refine (sound_fieldName hp).imp fun name e hfound => ?_
    obtain ⟨hn, rfl⟩ := hfound.2.resolve_left fun hf => hend _ hf.1
    rw [hfound.1]
    exact h.field hp hk hn
  · intro node d h hk
    rw [after_of_symbol hk]
    refine (hself .expression (by decide) (d + 1)).imp fun i e hi => ⟨fun hc => ?_, fun _ => trivial⟩
    rw [after_of_symbol hc]
    exact h.index hp hk hi hc
  · intro node d h hk
    refine (spans_delimited hp hself (r := .expression) (by decide) (s := .rparen) rfl
      (by simp [hk])).imp fun items e hfound => ?_
    obtain ⟨d', hi, hw, hc, rfl⟩ := hfound
    exact h.call hp hk hi hw hc

omit hp hself in
/-- A node that is one token long. -/
theorem spans_token {c : Nat} {n : Node} (hk : (setup.input.get c).kind ≠ .eof)
    (hloc : n.loc = locOf (setup.input.get c)) (hparts : n.parts = []) :
    Finds setup keeps Failure.IsTame (discard advance >>= fun _ => pure n) c (setup.input.Settles c) := by
  rw [finds_advance_bind, setup.input.after_of_ne hk]
  refine finds_pure (settles_of_parts (Nat.lt_succ_self c) hloc ?_)
  rw [hparts]
  exact .nil (Nat.le_succ c)

/-- A node that is a list between brackets. -/
theorem spans_bracketed {r : Rule} (hr : r ≠ .program) {c : Nat}
    (hc : (setup.input.get c).kind = Symbol.lbrack) (node : List Node → Node)
    (hloc : ∀ items, (node items).loc = locOf (setup.input.get c))
    (hparts : ∀ items, (node items).parts = items) :
    Finds setup keeps Failure.IsTame (do return node (← delimited Symbol.rbrack (self r))) c
      (setup.input.Settles c) := by
  refine (spans_delimited hp hself hr (s := .rbrack) rfl (by simp [hc])).bind
    fun items e hfound => finds_pure ?_
  obtain ⟨d, hi, -, -, rfl⟩ := hfound
  refine settles_of_parts (Nat.lt_succ_of_lt hi.le) (hloc items) ?_
  rw [hparts]
  exact (hi.before (Nat.le_succ c)).behind (Nat.le_succ d)

theorem spans_bindingPattern {c : Nat} :
    Finds setup keeps Failure.IsTame (bindingPattern self) c (setup.input.Settles c) := by
  simp only [bindingPattern]
  rw [finds_current_bind]
  split
  next hk => exact spans_token (by simp [hk]) rfl rfl
  next hk =>
    exact spans_bracketed hp hself (r := .bindingPattern) (by decide) hk _ (fun _ => rfl) fun _ => rfl
  next => exact finds_complain fun _ => trivial

theorem spans_primary {c : Nat} :
    Finds setup keeps Failure.IsTame (primary self) c (setup.input.Settles c) := by
  simp only [primary]
  rw [finds_current_bind]
  split
  next hk => exact spans_token (by simp [hk]) rfl rfl
  next hk => exact spans_token (by simp [hk]) rfl rfl
  next hk => exact spans_token (by simp [hk]) rfl rfl
  next hk => exact spans_token (by simp [hk]) rfl rfl
  next hk => exact spans_token (by simp [hk]) rfl rfl
  next hk => exact spans_token (by simp [hk]) rfl rfl
  next hk => exact spans_bracketed hp hself (r := .expression) (by decide) hk _ (fun _ => rfl) fun _ => rfl
  next hk =>
    rw [finds_advance_bind, after_of_symbol hk]
    refine (hself .expression (by decide) (c + 1)).bind fun inner d hi => ?_
    refine finds_expect_bind (fun hc => finds_pure ?_) fun _ _ => trivial
    rw [after_of_symbol hc]
    exact settles_of_parts (Nat.lt_succ_of_lt (Nat.lt_of_succ_lt hi.lt)) rfl
      (.single hi.spans (Nat.le_succ c) (Nat.le_succ d))
  next => exact (hself .conditional (by decide) c).imp fun n stop h => h.settles
  next => exact finds_complain fun _ => trivial

end

include hself

theorem spans_comparison {c : Nat} :
    Finds setup keeps Failure.IsTame (comparison self) c (setup.input.Settles c) := by
  refine (hself .additive (by decide) c).bind fun left d hl => ?_
  rw [finds_accept_bind]
  split
  next hk =>
    rw [← Level.kinds_comparison] at hk
    obtain ⟨o, ho⟩ := Level.exists_symbol_of_mem hk
    rw [after_of_symbol ho]
    refine (hself .additive (by decide) (d + 1)).bind fun right e hr => ?_
    simp only [finds_check_bind]
    split
    · exact finds_complain_bind fun _ => trivial
    · exact finds_pure (hl.operands hr rfl rfl)
  next => exact finds_pure hl.settles

theorem spans_exponent {c : Nat} :
    Finds setup keeps Failure.IsTame (exponent self) c (setup.input.Settles c) := by
  refine (hself .unary (by decide) c).bind fun base d hl => ?_
  rw [finds_accept_bind]
  split
  next hk =>
    rw [after_of_symbol (List.mem_singleton.mp hk)]
    exact (hself .exponent (by decide) (d + 1)).bind fun power e hr => finds_pure (hl.operands hr rfl rfl)
  next => exact finds_pure hl.settles

theorem spans_unary {c : Nat} :
    Finds setup keeps Failure.IsTame (unary self) c (setup.input.Settles c) := by
  simp only [unary]
  rw [finds_accept_bind]
  split
  next hk =>
    rw [after_of_symbol (List.mem_singleton.mp hk)]
    refine (hself .postfixChain (by decide) (c + 1)).bind fun argument e ha => finds_pure ?_
    exact settles_of_parts (Nat.lt_of_succ_lt ha.lt) rfl
      (.single ha.spans (Nat.le_succ c) (Nat.le_refl e))
  next => exact (hself .postfixChain (by decide) c).imp fun n stop h => h.settles

/-- The target of an assignment stands where the expression does that it is read from. -/
theorem spans_expression {c : Nat} :
    Finds setup keeps Failure.IsTame (expression self) c (setup.input.Settles c) := by
  refine (hself .operand (by decide) c).bind fun left d hl => ?_
  rw [finds_accept_bind]
  split
  next hk =>
    rw [after_of_symbol (List.mem_singleton.mp hk)]
    simp only [toTarget]
    split
    next target ht =>
      rw [finds_pure_bind]
      have htarget : setup.input.Occupies c target d := ⟨hl.lt, Spans.asTarget left hl.spans ht⟩
      have hloc : left.loc = target.loc := hl.spans.loc.trans htarget.spans.loc.symm
      exact (hself .expression (by decide) (d + 1)).bind fun right e hr =>
        finds_pure (htarget.operands hr hloc rfl)
    next => exact finds_fail_bind trivial
  next => exact finds_pure hl.settles

theorem spans_condition {c : Nat} :
    Finds setup keeps Failure.IsTame (condition self) c fun test stop =>
      setup.input.AllSpan c [test] stop := by
  refine finds_expect_bind (fun ho => ?_) fun _ _ => trivial
  rw [after_of_symbol ho]
  refine (hself .expression (by decide) (c + 1)).bind fun test d h => ?_
  refine finds_expect_bind (fun hc => finds_pure ?_) fun _ _ => trivial
  rw [after_of_symbol hc]
  exact .single h.spans (Nat.le_succ c) (Nat.le_succ d)

theorem spans_conditionAndBlock {c : Nat} :
    Finds setup keeps Failure.IsTame (conditionAndBlock self) c fun found stop =>
      setup.input.AllSpan c [found.1, found.2] stop := by
  refine (hself .operand (by decide) c).bind fun test d h => ?_
  simp only [finds_sees_bind]
  split
  · exact finds_complain_bind fun _ => trivial
  · exact (hself .block (by decide) d).bind fun block e hb => finds_pure
      (.cons (Nat.le_refl c) h.spans (.single hb.spans (Nat.le_refl d) (Nat.le_refl e)))

omit hself in
/-- An `if` with a value stands where its first word does. -/
theorem settles_conditional {c stop : Nat} {test consequent alternate : Node} {explicitThen : Bool}
    (h : setup.input.AllSpan (c + 1) [test, consequent, alternate] stop) :
    setup.input.Settles c (.conditional (locOf (setup.input.get c)) test consequent alternate explicitThen)
      stop :=
  settles_of_parts h.le rfl (h.before (Nat.le_succ c))

theorem spans_conditionalRest {test : Node} (explicitThen : Bool) {c d : Nat}
    (ht : setup.input.AllSpan (c + 1) [test] d) :
    Finds setup keeps Failure.IsTame (conditionalRest self (locOf (setup.input.get c)) test explicitThen) d
      (setup.input.Settles c) := by
  refine (hself .expression (by decide) d).bind fun consequent e hq => ?_
  refine finds_expect_bind (fun hk => ?_) fun _ _ => trivial
  rw [after_of_keyword hk]
  refine (hself .expression (by decide) (e + 1)).bind fun alternate stop ha => finds_pure ?_
  exact settles_conditional (ht.append (.cons (Nat.le_refl d) hq.spans
    (.single ha.spans (Nat.le_succ e) (Nat.le_refl stop))))

theorem spans_conditional {c : Nat} :
    Finds setup keeps Failure.IsTame (conditional self) c (setup.input.Settles c) := by
  refine finds_expectOne_bind (fun hk => ?_) fun _ _ => trivial
  rw [after_of_keyword (List.mem_singleton.mp hk)]
  refine finds_attempt (fun _ h => h.isTame) ?_ fun _ =>
    finds_attemptAfter_cons (fun _ h => h.isTame) ?_ fun _ =>
      finds_attemptAfter_cons (fun _ h => h.isTame) ?_ fun _ => finds_attemptAfter_nil fun _ => trivial
  · rw [conditionalByParentheses_eq]
    exact (spans_condition hself).bind fun test d ht => spans_conditionalRest hself false ht
  · rw [conditionalByThen_eq]
    refine (hself .operand (by decide) (c + 1)).bind fun test d ht => ?_
    refine finds_expect_bind (fun hk => ?_) fun _ _ => trivial
    rw [after_of_keyword hk]
    exact spans_conditionalRest hself true (.single ht.spans (Nat.le_refl _) (Nat.le_succ d))
  · refine (spans_conditionAndBlock hself).bind fun found d hfound => ?_
    refine finds_expect_bind (fun hk => ?_) fun _ _ => trivial
    rw [after_of_keyword hk]
    have last (r : Rule) (hr : r ≠ .program) :
        Finds setup keeps Failure.IsTame (self r >>= fun alternate => pure (Node.conditional
          (locOf (setup.input.get c)) found.1 found.2 alternate false)) (d + 1)
          (setup.input.Settles c) :=
      (hself r hr (d + 1)).bind fun alternate stop ha => finds_pure (settles_conditional
        (hfound.append (.single ha.spans (Nat.le_succ d) (Nat.le_refl stop))))
    rw [finds_sees_bind]
    split
    · exact last .conditional (by decide)
    · exact last .block (by decide)

theorem spans_statement {c : Nat} :
    Finds setup keeps Failure.IsTame (statement self) c (setup.input.Settles c) := by
  simp only [statement]
  rw [finds_current_bind]
  have known {r : Rule} (hr : r ≠ .program) :
      Finds setup keeps Failure.IsTame (self r) c (setup.input.Settles c) :=
    (hself r hr c).imp fun n stop h => h.settles
  split <;> exact known (by decide)

theorem spans_expressionStatement {c : Nat} :
    Finds setup keeps Failure.IsTame (expressionStatement self) c (setup.input.Settles c) := by
  refine (hself .operand (by decide) c).bind fun value d hv => ?_
  simp only [finds_sees_bind]
  split
  · exact finds_complain_bind fun _ => trivial
  next =>
    refine finds_expect_bind (fun hk => finds_pure ?_) fun _ _ => trivial
    rw [after_of_symbol hk]
    exact settles_of_parts (Nat.lt_succ_of_lt hv.lt) hv.spans.loc
      (.single hv.spans (Nat.le_refl c) (Nat.le_succ d))

/-- A program stands where its first token does, which is the end of the input if it has none. -/
theorem spans_program {c : Nat} :
    Finds setup keeps Failure.IsTame (program self) c fun n stop =>
      n.loc = locOf (setup.input.get c) ∧ setup.input.AllSpan c n.parts stop ∧
        (c < stop ∨ n = .program n.loc []) := by
  simp only [program]
  rw [finds_current_bind, finds_rounds_bind]
  refine (finds_statementsToEnd (fun _ => True)
    (fun c items stop => setup.input.AllSpan c items stop ∧ (c < stop ∨ items = [])) trivial ?_ ?_ _
    trivial).bind fun items stop hfound => finds_pure ?_
  · refine fun c _ => (hself .statement (by decide) c).imp fun next d hn => ⟨trivial, ?_⟩
    rintro rest stop ⟨hs, -⟩
    exact ⟨.cons (Nat.le_refl c) hn.spans hs, .inl (Nat.lt_of_lt_of_le hn.lt hs.le)⟩
  · exact fun c _ _ => ⟨.nil (Nat.le_refl c), .inr rfl⟩
  · obtain ⟨⟨hs, hlt⟩, -⟩ := hfound
    exact ⟨rfl, hs, hlt.imp_right fun h => by rw [h]; rfl⟩

theorem spans_block {c : Nat} :
    Finds setup keeps Failure.IsTame (block self) c (setup.input.Settles c) := by
  refine finds_expectOne_bind (fun ho => ?_) fun _ _ => trivial
  rw [after_of_symbol (List.mem_singleton.mp ho), finds_rounds_bind]
  refine (finds_statementsToBrace (fun _ => True) setup.input.AllSpan trivial ?_ ?_ (fun _ _ _ => trivial) _
    trivial).bind fun body d hs => ?_
  · exact fun c _ => (hself .statement (by decide) c).imp fun next d hn =>
      ⟨trivial, fun rest stop hs => .cons (Nat.le_refl c) hn.spans hs⟩
  · exact fun c _ _ => .nil (Nat.le_refl c)
  · refine finds_expect_bind (fun hc => finds_pure ?_) fun _ _ => trivial
    rw [after_of_symbol hc]
    exact settles_of_parts (Nat.lt_succ_of_lt hs.le) rfl
      ((hs.before (Nat.le_succ c)).behind (Nat.le_succ d))

theorem spans_conditionalStatement {c : Nat} :
    Finds setup keeps Failure.IsTame (conditionalStatement self) c (setup.input.Settles c) := by
  refine finds_expectOne_bind (fun hif => ?_) fun _ _ => trivial
  rw [after_of_keyword (List.mem_singleton.mp hif)]
  have hbranch : Finds setup keeps Failure.IsTame
      (attempt (conditionAndStatement self) [conditionAndBlock self]) (c + 1) fun found stop =>
        setup.input.AllSpan (c + 1) [found.1, found.2] stop := by
    refine finds_attempt (fun _ h => h.isTame) ?_ fun _ =>
      finds_attemptAfter_cons (fun _ h => h.isTame) (spans_conditionAndBlock hself) fun _ =>
        finds_attemptAfter_nil fun _ => trivial
    refine (spans_condition hself).bind fun test d ht => ?_
    exact (hself .statement (by decide) d).bind fun consequent e hq => finds_pure
      (ht.append (.single hq.spans (Nat.le_refl d) (Nat.le_refl e)))
  refine hbranch.bind fun found d hfound => finds_marked_bind (fun _ => finds_pure ?_) fun hk => ?_
  · exact settles_of_parts hfound.le rfl (hfound.before (Nat.le_succ c))
  · rw [after_of_keyword hk]
    refine (hself .statement (by decide) (d + 1)).bind fun alternate stop ha => finds_pure ?_
    have hall := hfound.append (.single ha.spans (Nat.le_succ d) (Nat.le_refl stop))
    exact settles_of_parts hall.le rfl (hall.before (Nat.le_succ c))

/-- What is declared, behind the words that open the declaration. -/
theorem spans_declarationRest {constant mutable : Bool} {a c : Nat} (hac : a < c) :
    Finds setup keeps Failure.IsTame (declarationRest self (locOf (setup.input.get a)) constant mutable) c
      (setup.input.Settles a) := by
  refine finds_declarationRest (fun left => setup.input.AllSpan c [left])
    (fun left type => setup.input.AllSpan c ([left] ++ type.toList))
    (fun left type value => setup.input.AllSpan c ([left] ++ type.toList ++ value.toList)) ?_ ?_ ?_ ?_ ?_ ?_
    fun _ _ _ _ _ _ => trivial
  · exact (hself .bindingPattern (by decide) c).imp fun left d hl =>
      .single hl.spans (Nat.le_refl c) (Nat.le_refl d)
  · exact fun left d hl _ => hl
  · intro left d hl hk
    rw [after_of_symbol hk]
    exact (hself .operand (by decide) (d + 1)).imp fun type e ht =>
      hl.append (.single ht.spans (Nat.le_succ d) (Nat.le_refl e))
  · intro left type e ht _
    exact ht.append (.nil (Nat.le_refl e))
  · intro left type e ht hk
    rw [after_of_symbol hk]
    exact (hself .expression (by decide) (e + 1)).imp fun value f hr =>
      ht.append (.single hr.spans (Nat.le_succ e) (Nat.le_refl f))
  · intro left type value f h hk
    rw [after_of_symbol hk]
    refine settles_of_parts (Nat.lt_succ_of_lt (Nat.lt_of_lt_of_le hac h.le)) rfl ?_
    rw [List.append_assoc] at h
    exact (h.before (Nat.le_of_lt hac)).behind (Nat.le_succ f)

theorem spans_declaration {c : Nat} :
    Finds setup keeps Failure.IsTame (declaration self) c (setup.input.Settles c) := by
  rw [declaration_eq]
  refine finds_expectOne_bind (fun hk => ?_) fun _ _ => trivial
  have hk : (setup.input.get c).kind = Keyword.letWord ∨
      (setup.input.get c).kind = Keyword.constWord := by simpa using hk
  rw [hk.elim after_of_keyword after_of_keyword]
  simp only [finds_sees_bind]
  by_cases hm : (setup.input.get (c + 1)).kind = Keyword.mutWord
  · rw [if_pos (decide_eq_true hm)]
    split
    · exact finds_complain_bind fun _ => trivial
    · rw [finds_advance_bind, after_of_keyword hm]
      exact spans_declarationRest hself (by omega)
  · rw [if_neg (by simpa using hm)]
    exact spans_declarationRest hself (Nat.lt_succ_self c)

include hp hend in
/-- What the body of a rule finds is read from its tokens, each part of it from tokens of its own. -/
theorem spans_body (r : Rule) (hr : r ≠ .program) (c : Nat) :
    Finds setup keeps Failure.IsTame (body self r) c (setup.input.Settles c) := by
  cases r with
  | program => exact absurd rfl hr
  | statement => exact spans_statement hself
  | expressionStatement => exact spans_expressionStatement hself
  | block => exact spans_block hself
  | conditionalStatement => exact spans_conditionalStatement hself
  | declaration => exact spans_declaration hself
  | bindingPattern => exact spans_bindingPattern hp hself
  | expression => exact spans_expression hself
  | operand => exact (hself .comparison (by decide) c).imp fun n stop h => h.settles
  | comparison => exact spans_comparison hself
  | additive =>
    rw [body, ← Level.kinds_additive]
    exact spans_binaryLeft hp hself (by decide) .additive
  | multiplicative =>
    rw [body, ← Level.kinds_multiplicative]
    exact spans_binaryLeft hp hself (by decide) .multiplicative
  | exponent => exact spans_exponent hself
  | unary => exact spans_unary hself
  | postfixChain => exact spans_postfixChain hp hend hself
  | primary => exact spans_primary hp hself
  | conditional => exact spans_conditional hself

end

end Grammar

/-- What a rule may find: what its tokens read as, at its places. -/
def Input.FoundAt (input : Input) (r : Rule) (c : Nat) (n : Node) (stop : Nat) : Prop :=
  input.Found (fun _ => True) r c n stop ∧ (r ≠ .program → input.Occupies c n stop)

namespace Grammar

variable {setup : Setup}

theorem spans_parse (hp : setup.input.IsProper) (hend : ∀ c, ¬setup.input.StrayEnd c)
    (budget due : Nat) (r : Rule) (c : Nat) :
    Finds setup (Memo.Tells setup.input.FoundAt) Failure.IsTame (parse budget due r) c
      (setup.input.FoundAt r c) := by
  induction budget generalizing due r c with
  | zero =>
    rw [parse]
    exact finds_exhausted trivial
  | succ budget ih =>
    cases due with
    | succ due => exact ih due r c
    | zero =>
      refine finds_guarded ?_
      have hsound := sound_body hp (fun r c => (ih r.surcharge r c).imp fun n stop h => h.1) r c
      by_cases hr : r = .program
      · exact hsound.imp fun n stop h => ⟨h, fun hne => absurd hr hne⟩
      have hspans := spans_body hp hend
        (fun r hr c => (ih r.surcharge r c).imp fun n stop h => h.2 hr) r hr c
      exact (hsound.and hspans).imp fun n stop h =>
        ⟨h.1, fun _ => h.2.occupies (h.1.resolve_left fun hs => hend stop hs.2).written⟩

end Grammar

/-- What an entry accepts is read from all tokens, each part of it from tokens of its own. -/
theorem Entry.spans_of_ofInput (entry : Entry) {input : Input} {tree : Node} (hp : input.IsProper)
    (hend : ∀ c, ¬input.StrayEnd c) (h : entry.ofInput input = .ok tree) :
    ∃ stop, input.Spans 0 tree stop ∧ (input.get stop).kind = .eof := by
  obtain ⟨p, hr, he⟩ := entry.run_of_ofInput h
  cases entry with
  | program =>
    have hself (r : Rule) (c : Nat) := @Grammar.spans_parse { input } hp hend (Grammar.budget - 1)
      r.surcharge r c
    have hfound := ((Grammar.sound_program fun r c => (hself r c).imp fun n stop h => h.1).and
      (Grammar.spans_program fun r hr c => (hself r c).imp fun n stop h => h.2 hr)) .start rfl
        Memo.tells_empty
    rw [← Grammar.rule_program, ← rule, hr] at hfound
    obtain ⟨-, ⟨hreads, hstop⟩, hloc, hparts, hlt⟩ := hfound
    exact ⟨p.cursor, .node hreads.written hlt hloc hparts, hstop⟩
  | expression =>
    have hfound := @Grammar.spans_parse { input } hp hend Grammar.budget Rule.expression.surcharge
      .expression 0 .start rfl Memo.tells_empty
    rw [← Grammar.rule, ← rule, hr] at hfound
    exact ⟨p.cursor, (hfound.2.2 (by decide)).spans, he rfl⟩

end MagSyntax
