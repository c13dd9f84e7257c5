import MagSyntax.Proofs.RuleEndings
import MagSyntax.Proofs.Spaced

/-! A call as the condition of an `if`, whose argument is in parentheses upon parentheses. What is called
might be a condition and its argument a statement: there the argument stands one level further down, where it
may be nested too deeply. With the memo it still is when it is met again as an argument. -/

namespace MagSyntax

open Parse Input

/-- A name in as many parentheses as given. -/
def Lexeme.groups : Nat → List Lexeme
  | 0 => [⟨.ident, "x", 10, []⟩]
  | n + 1 => .ofSymbol .lparen :: (groups n ++ [.ofSymbol .rparen])

/-- An `if` with an empty block, whose condition is the call of a name in parentheses with one argument. -/
def Lexeme.calledGroups (n : Nat) : List Lexeme :=
  .ofKeyword .ifWord :: .ofSymbol .lparen :: ⟨.ident, "c", 10, []⟩ :: .ofSymbol .rparen ::
    .ofSymbol .lparen :: (groups n ++ [.ofSymbol .rparen, .ofSymbol .lbrace, .ofSymbol .rbrace])

namespace Lexeme

theorem length_groups (n : Nat) : (groups n).length = 2 * n + 1 := by
  induction n with
  | zero => rfl
  | succ n ih =>
    rw [groups, List.length_cons, List.length_append, ih]
    simp only [List.length_cons, List.length_nil]
    omega

theorem length_calledGroups (n : Nat) : (calledGroups n).length = 2 * n + 9 := by
  simp only [calledGroups, List.length_cons, List.length_append, length_groups, List.length_nil]

theorem isSimple_groups (n : Nat) : ∀ l ∈ groups n, l.IsSimple := by
  induction n with
  | zero =>
    exact List.forall_mem_singleton.mpr (.identifier ⟨⟨_, _, rfl, by decide +kernel⟩, by decide +kernel⟩ rfl)
  | succ n ih =>
    simp only [groups, List.forall_mem_cons, List.forall_mem_append]
    exact ⟨.symbol nofun nofun, ih, .symbol nofun nofun, List.forall_mem_nil _⟩

theorem isSimple_calledGroups (n : Nat) : ∀ l ∈ calledGroups n, l.IsSimple := by
  simp only [calledGroups, List.forall_mem_cons, List.forall_mem_append]
  exact ⟨.keyword _, .symbol nofun nofun,
    .identifier ⟨⟨_, _, rfl, by decide +kernel⟩, by decide +kernel⟩ rfl, .symbol nofun nofun,
    .symbol nofun nofun, isSimple_groups n, .symbol nofun nofun, .symbol nofun nofun, .symbol nofun nofun,
    List.forall_mem_nil _⟩

end Lexeme

/-- Where the tokens of such a program stand. -/
structure Input.CallsGroups (input : Input) (n : Nat) : Prop where
  word : (input.get 0).kind = Keyword.ifWord
  testOpens : (input.get 1).kind = Symbol.lparen
  test : (input.get 2).kind = .ident
  testCloses : (input.get 3).kind = Symbol.rparen
  callOpens : (input.get 4).kind = Symbol.lparen
  argument : input.Shows 5 (Lexeme.groups n)
  callCloses : (input.get (2 * n + 6)).kind = Symbol.rparen
  blockOpens : (input.get (2 * n + 7)).kind = Symbol.lbrace
  blockCloses : (input.get (2 * n + 8)).kind = Symbol.rbrace
  eof : (input.get (2 * n + 9)).kind = .eof
  size : input.before.size = 2 * n + 9

theorem Input.callsGroups {n : Nat} {tokens : List Token} {last : Token} (hlast : last.kind = .eof)
    (hlength : tokens.length = (Lexeme.calledGroups n).length)
    (hs : (Input.mk tokens.toArray last).Shows 0 (Lexeme.calledGroups n)) :
    (Input.mk tokens.toArray last).CallsGroups n := by
  rw [Lexeme.length_calledGroups] at hlength
  have h1 := hs.2.2
  have h2 := h1.2.2
  have h3 := h2.2.2
  have h4 := h3.2.2
  obtain ⟨hgroups, hrest⟩ := shows_append.mp h4.2.2
  rw [Lexeme.length_groups, show 0 + 1 + 1 + 1 + 1 + 1 + (2 * n + 1) = 2 * n + 6 by omega] at hrest
  have heof : (Input.mk tokens.toArray last).get (2 * n + 9) = last := by
    rw [get_mk, List.getElem?_eq_none (by omega), Option.getD_none]
  exact ⟨kind_of_shows hs, kind_of_shows h1, kind_of_shows h2, kind_of_shows h3, kind_of_shows h4, hgroups,
    kind_of_shows hrest, kind_of_shows hrest.2.2, kind_of_shows hrest.2.2.2.2, by rw [heof, hlast],
    hlength⟩

theorem Input.ne_rparen_of_shows_groups {input : Input} {c n : Nat} (h : input.Shows c (Lexeme.groups n)) :
    (input.get c).kind ≠ Symbol.rparen := by
  cases n with
  | zero =>
    rw [kind_of_shows h]
    nofun
  | succ n =>
    rw [kind_of_shows h]
    nofun

namespace Grammar

variable {k : Course} {P Q R : Memo → Prop} {b c d n : Nat}

/-- The name in parentheses is read on a budget of fourteen for each pair of them. -/
theorem ends_groups (n : Nat) (hr : ∀ c ending, k.Recalls P P c ending) (hfits : k.Fits (d + n))
    (hb : 14 * n + 14 ≤ b) (hs : k.input.Shows c (Lexeme.groups n))
    (hend : (k.input.get (c + (2 * n + 1))).kind ∉ Rule.expression.continuers) :
    ∃ v, Ends k P P (parse b 2 .expression) c d (.found v (c + (2 * n + 1))) := by
  induction n generalizing b c d with
  | zero => exact ⟨_, ends_expression_identifier (hr _ _) hfits (kind_of_shows hs) hend (by omega)⟩
  | succ n ih =>
    obtain ⟨b, rfl⟩ : ∃ b', b = b' + 14 := ⟨b - 14, by omega⟩
    obtain ⟨hinner, hclose⟩ := shows_append.mp hs.2.2
    rw [Lexeme.length_groups] at hclose
    rw [show c + (2 * (n + 1) + 1) = c + 1 + (2 * n + 1) + 1 by omega] at hend ⊢
    obtain ⟨v, hv⟩ := ih (b := b) (d := d + 1) (hfits.mono (by omega)) (by omega) hinner
      (by rw [kind_of_shows hclose]; decide)
    have hprimary : Ends k P P (primary fun r => parse b r.surcharge r) c (d + 1) _ :=
      ends_primary_group (kind_of_shows hs) hv (kind_of_shows hclose)
    have hoperand := ends_operand_of_primary (b := b + 1) (hr _ _) hprimary
      (by rw [kind_of_shows hs]; nofun)
      (.of_found fun hm => hend (List.mem_cons_of_mem _ hm))
    exact ⟨_, ends_expression (hr _ _) (hfits.mono (by omega)) hoperand (.of_found hend)⟩

/-- It is not, with more parentheses than may be nested. -/
theorem ends_groups_refused (n : Nat) {limit : Nat} (hbounds : k.bounds = [some limit])
    (hquiet : ¬k.quiet) (hr : ∀ c' ≥ c, k.Recalls P P c' .mismatch) (hlimit : limit ≤ d + n)
    (hb : 14 * (limit - d) ≤ b) (hs : k.input.Shows c (Lexeme.groups n)) :
    Ends k P P (content b .expression) c d .mismatch := by
  induction n generalizing b c d with
  | zero => exact .nested_refused hquiet (by simpa [hbounds] using hlimit)
  | succ n ih =>
    by_cases hd : limit ≤ d
    · exact .nested_refused hquiet (by simpa [hbounds] using hd)
    obtain ⟨b, rfl⟩ : ∃ b', b = b' + 14 := ⟨b - 14, by omega⟩
    have hcontent : Ends k P P (content b .expression) (c + 1) (d + 1) .mismatch :=
      ih (fun c' hc => hr c' (by omega)) (by omega) (by omega) (shows_append.mp hs.2.2).1
    have hexpression : Ends k P P (parse (b + 3) 2 .expression) (c + 1) (d + 1) .mismatch :=
      hcontent.recalling (hr _ (by omega))
    have hprimary : Ends k P P (primary fun r => parse (b + 3) r.surcharge r) c (d + 1) .mismatch :=
      ends_primary_group_mismatch (kind_of_shows hs) hexpression
    have hoperand := ends_operand_of_primary (b := b + 4) (hr _ (Nat.le_refl _)) hprimary
      (by rw [kind_of_shows hs]; nofun) nofun
    exact .nested (by simpa [Course.Fits, hbounds] using hd) hoperand.bind_mismatch

/-- What is in the parentheses of the condition. -/
def calledName (input : Input) : Node := .identifier (locOf (input.get 2)) (input.get 2).value

section

variable (h : k.input.CallsGroups n)
include h

theorem ends_calledName (hr : k.Recalls P P 2 (.found (calledName k.input) 3)) (hfits : k.Fits d)
    (hb : 14 ≤ b) : Ends k P P (parse b 2 .expression) 2 d (.found (calledName k.input) 3) :=
  ends_expression_identifier hr hfits h.test (by rw [h.testCloses]; decide) hb

/-- What is called is a condition, and its argument would have to be a statement. -/
theorem ends_conditionAndStatement (hr : k.Recalls P P 2 (.found (calledName k.input) 3))
    (hr' : k.Recalls P Q 4 .mismatch) (hfits : k.Fits 1)
    {ending : Ending Node} (harguments : Ends k P Q (parse b 1 .operand) 4 2 ending)
    (hne : ending ≠ .exhausted)
    (hend : ending.HaltsBefore k.input [TokenKind.symbol .assign, TokenKind.symbol .semi]) (hb : 14 ≤ b) :
    Ends k P Q (conditionAndStatement fun r => parse (b + 4) r.surcharge r) 1 1 .mismatch := by
  have hcondition : Ends k P P (condition fun r => parse (b + 4) r.surcharge r) 1 1 _ :=
    ends_condition h.testOpens (ends_calledName h hr hfits (by omega)) h.testCloses
  have hstatement := ends_statement_of_expression (b := b) hr' hfits (.inr h.callOpens)
    (ends_expressionStatement_mismatch harguments hne hend)
  exact .bind hcondition (.bind_mismatch hstatement)

/-- The parenthesis of the call with the argument in it is an operand if it is no call. -/
theorem ends_arguments {v : Node}
    (hr : k.Recalls P Q 4 (.found (.parenthesized (locOf (k.input.get 4)) v) (2 * n + 7)))
    (hargument : Ends k P Q (parse b 2 .expression) 5 d (.found v (2 * n + 6))) :
    Ends k P Q (parse (b + 11) 1 .operand) 4 d
      (.found (.parenthesized (locOf (k.input.get 4)) v) (2 * n + 7)) := by
  have hprimary : Ends k P Q (primary fun r => parse b r.surcharge r) 4 d _ :=
    ends_primary_group h.callOpens hargument h.callCloses
  exact ends_operand_of_primary (b := b + 1) hr hprimary (by simp [h.callOpens])
    (.of_found (by rw [h.blockOpens]; decide))

theorem ends_arguments_mismatch (hr : k.Recalls P Q 4 .mismatch)
    (hargument : Ends k P Q (parse b 2 .expression) 5 d .mismatch) :
    Ends k P Q (parse (b + 11) 1 .operand) 4 d .mismatch := by
  have hprimary : Ends k P Q (primary fun r => parse b r.surcharge r) 4 d .mismatch :=
    ends_primary_group_mismatch h.callOpens hargument
  exact ends_operand_of_primary (b := b + 1) hr hprimary (by simp [h.callOpens]) nofun

/-- The name in its parentheses, and the call of it. -/
theorem ends_call {v : Node} (hr : ∀ c ending, k.Recalls P P c ending) (hfits : k.Fits d) (hb : 14 ≤ b)
    (hargument : Ends k P P (parse (b + 1) 2 .expression) 5 d (.found v (2 * n + 6))) :
    ∃ w, Ends k P P (parse (b + 11) 1 .operand) 1 d (.found w (2 * n + 7)) := by
  have hprimary : Ends k P P (primary fun r => parse b r.surcharge r) 1 d _ :=
    ends_primary_group h.testOpens (ends_calledName h (hr _ _) hfits hb) h.testCloses
  have hchain : Ends k P P (postfixChain fun r => parse (b + 1) r.surcharge r) 1 d _ :=
    ends_postfixChain_call hprimary (by rw [h.size]; omega) h.callOpens
      (ne_rparen_of_shows_groups h.argument) hargument h.callCloses (by rw [h.blockOpens]; decide)
  exact ⟨_, ends_operand_of_chain (b := b + 2) (hr _ _) hchain (by simp [h.testOpens])
    (.of_found (by rw [h.blockOpens]; decide))⟩

theorem ends_call_mismatch (hr : k.Recalls P P 2 (.found (calledName k.input) 3))
    (hr' : k.Recalls P Q 1 .mismatch) (hPQ : ∀ m, P m → Q m) (hfits : k.Fits d) (hb : 14 ≤ b)
    (hargument : Ends k P P (parse (b + 1) 2 .expression) 5 d .mismatch) :
    Ends k P Q (parse (b + 11) 1 .operand) 1 d .mismatch := by
  have hprimary : Ends k P P (primary fun r => parse b r.surcharge r) 1 d _ :=
    ends_primary_group h.testOpens (ends_calledName h hr hfits hb) h.testCloses
  have hchain : Ends k P P (postfixChain fun r => parse (b + 1) r.surcharge r) 1 d .mismatch :=
    ends_postfixChain_mismatch hprimary h.callOpens (ne_rparen_of_shows_groups h.argument) hargument
  exact ends_operand_of_chain (b := b + 2) hr' (hchain.mono (fun _ h => h) hPQ) (by simp [h.testOpens]) nofun

end

section Plain

variable {input : Input} {bounds : List (Option Nat)} (h : input.CallsGroups n)
include h

/-- Without a memo the first form never matches: either there is no semicolon behind the argument, or it is
nested too deeply. -/
theorem ends_conditionAndStatement_plain (hfits : (Course.plain input bounds False).Fits 1)
    (hb : 14 * n + 14 ≤ b) :
    Ends (.plain input bounds False) Course.anything Course.anything
      (conditionAndStatement fun r => parse (b + 15) r.surcharge r) 1 1 .mismatch := by
  refine .of_bounds fun bound hbound => ?_
  change Ends (.plain input [bound] False) _ _ _ _ _ _
  have hr (c : Nat) (ending : Ending Node) := Course.recalls_plain input [bound] False c ending
  have hfits1 : (Course.plain input [bound] False).Fits 1 := fun b hb =>
    hfits b (List.mem_singleton.mp hb ▸ hbound)
  by_cases hdeep : (Course.plain input [bound] False).Fits (2 + n)
  · obtain ⟨v, hv⟩ := @ends_groups (.plain input [bound] False) Course.anything b 5 2 n hr hdeep hb
      h.argument (by rw [Nat.add_comm 5, Course.plain, h.callCloses]; decide)
    rw [show 5 + (2 * n + 1) = 2 * n + 6 by omega] at hv
    exact ends_conditionAndStatement h (hr _ _) (hr _ _) hfits1 (ends_arguments h (hr _ _) hv) (by simp)
      (.of_found (by rw [Course.plain, h.blockOpens]; decide)) (by omega)
  · obtain ⟨limit, rfl, hlimit⟩ : ∃ limit, bound = some limit ∧ limit ≤ 2 + n := by
      cases bound with
      | none => exact absurd (by simp [Course.Fits, Course.plain]) hdeep
      | some limit => exact ⟨limit, rfl, by simpa [Course.Fits, Course.plain] using hdeep⟩
    obtain ⟨b, rfl⟩ : ∃ b', b = b' + 3 := ⟨b - 3, by omega⟩
    have hcontent := @ends_groups_refused (.plain input [some limit] False) Course.anything b 5 2 n limit rfl
      id (fun _ _ => hr _ _) hlimit (by omega) h.argument
    have hexpression : Ends (.plain input [some limit] False) Course.anything Course.anything
        (parse (b + 3) 2 .expression) 5 2 .mismatch := hcontent.recalling (hr _ _)
    exact ends_conditionAndStatement h (hr _ _) (hr _ _) hfits1
      (ends_arguments_mismatch h (hr _ _) hexpression) (by simp) Ending.HaltsBefore.of_mismatch (by omega)

/-- Without a memo the second form matches if its own argument may be nested as deep as it is. -/
theorem ends_calledGroups_plain (hfits : (Course.plain input bounds False).Fits (n + 1))
    (hb : 14 * n + 14 ≤ b) :
    ∃ t, Ends (.plain input bounds False) Course.anything Course.anything
      (parse (b + 22) 0 .program) 0 0 (.found t (2 * n + 9)) := by
  have hr (c : Nat) (ending : Ending Node) := Course.recalls_plain input bounds False c ending
  have hfits1 : (Course.plain input bounds False).Fits 1 := hfits.mono (by omega)
  obtain ⟨v, hv⟩ := @ends_groups (.plain input bounds False) Course.anything (b + 5) 5 1 n hr
    (hfits.mono (by omega)) (by omega) h.argument (by rw [Nat.add_comm 5, Course.plain, h.callCloses]; decide)
  rw [show 5 + (2 * n + 1) = 2 * n + 6 by omega] at hv
  obtain ⟨call, hcall⟩ := ends_call (b := b + 4) h hr hfits1 (by omega) hv
  have hblock : Ends (.plain input bounds False) Course.anything Course.anything (parse (b + 15) 1 .block)
      (2 * n + 7) 1 _ := (ends_block_empty h.blockOpens h.blockCloses).recalling (hr _ _)
  have hsecond : Ends (.plain input bounds False) Course.anything Course.anything
      (conditionAndBlock fun r => parse (b + 15) r.surcharge r) 1 1 _ :=
    ends_conditionAndBlock hcall h.blockOpens hblock
  have hconditional := ends_conditionalStatement_bare h.word (ends_conditionAndStatement_plain h hfits1 hb)
    hsecond (by rw [Course.plain, h.eof]; nofun)
  exact ⟨_, ends_program (by simp [Course.plain, h.word])
    (ends_statement_of_conditional (hr _ _) (hfits.mono (by omega)) h.word hconditional) h.eof
    (by rw [Course.plain, h.size]; omega)⟩

end Plain

section Remembering

variable {input : Input}

/-- The parse with the memo. -/
def recallingCourse (input : Input) : Course := ⟨input, true, [some 256], False⟩

/-- Nothing is stored but that the name of the condition was found. -/
def OnlyName (input : Input) : Memo → Prop :=
  Course.Holds fun c ending => c = 2 ∧ ending = .found (calledName input) 3

/-- Besides that only rules are stored that did not match from the call on. -/
def NameOrMismatch (input : Input) : Memo → Prop :=
  Course.Holds fun c ending =>
    (c = 2 ∧ ending = .found (calledName input) 3) ∨ (4 ≤ c ∧ ending = .mismatch)

/-- And the argument is one of them. -/
structure RefusedArgument (input : Input) (m : Memo) : Prop where
  holds : NameOrMismatch input m
  argument : ∃ e, m.find? ⟨.expression, 5⟩ = some (.error e)

theorem RefusedArgument.store {m : Memo} (h : RefusedArgument input m) {r : Rule} {c : Nat} {f : Finding}
    (hne : c ≠ 5) (hf : (c = 2 ∧ Ending.ofFinding f = .found (calledName input) 3) ∨
      (4 ≤ c ∧ Ending.ofFinding f = .mismatch)) : RefusedArgument input (m.store ⟨r, c⟩ f) := by
  refine ⟨h.holds.store hf, ?_⟩
  rw [Memo.find?_store, if_neg fun he => hne (Attempt.mk.inj he).2]
  exact h.argument

theorem recalls_onlyName : (recallingCourse input).Recalls (OnlyName input) (OnlyName input) 2
    (.found (calledName input) 3) :=
  Course.recalls_holds _ ⟨rfl, rfl⟩ fun _ h => h.2

theorem recalls_nameOrMismatch (hc : 5 ≤ c) :
    (recallingCourse input).Recalls (NameOrMismatch input) (NameOrMismatch input) c .mismatch :=
  Course.recalls_holds _ (.inr ⟨by omega, rfl⟩) fun _ h => (h.resolve_left fun h => by omega).2

theorem recalls_refusedArgument : (recallingCourse input).Recalls (RefusedArgument input)
    (RefusedArgument input) 2 (.found (calledName input) 3) where
  recalled _ r m f hm hf :=
    ⟨((hm.holds _ _ hf).resolve_right fun h => absurd h.1 (by decide : ¬4 ≤ 2)).2, hm⟩
  stored _ _ _ hm hf := hm.store (by decide) (.inl ⟨rfl, hf⟩)

/-- At the call nothing has been tried. -/
theorem recalls_call : (recallingCourse input).Recalls (OnlyName input) (RefusedArgument input) 4
    .mismatch where
  recalled _ _ _ _ hm hf := absurd (hm _ _ hf).1 (by decide : ¬4 = 2)
  stored _ _ _ hm hf := hm.store (by decide) (.inr ⟨Nat.le_refl 4, hf⟩)

/-- In front of the condition nothing has been tried. -/
theorem recalls_test : (recallingCourse input).Recalls (RefusedArgument input) Course.anything 1
    .mismatch where
  recalled _ _ _ _ hm hf :=
    (hm.holds _ _ hf).elim (fun h => absurd h.1 (by decide : ¬1 = 2)) fun h => absurd h.1 (by decide : ¬4 ≤ 1)
  stored _ _ _ _ _ := trivial

variable (h : input.CallsGroups n)
include h

/-- The argument is nested too deeply when it is tried as a part of a statement, and that is stored. -/
theorem ends_argument_refused (hn : 254 ≤ n) (hb : 14 * 254 ≤ b) :
    Ends (recallingCourse input) (OnlyName input) (RefusedArgument input) (parse (b + 3) 2 .expression) 5 2
      .mismatch := by
  have hcontent := @ends_groups_refused (recallingCourse input) (NameOrMismatch input) b 5 2 n 256 rfl id
    (fun _ hc => recalls_nameOrMismatch hc) (by omega) hb h.argument
  refine .remembered (fun _ m f hm hf => absurd (hm _ _ hf).1 (by decide : ¬5 = 2))
    (hcontent.mono (fun _ hm => hm.1.mono fun _ _ => .inl) fun _ hm => hm) (fun m f hm hf => ?_) nofun
  refine ⟨hm.store (.inr ⟨(by decide : 4 ≤ 5), hf⟩), ?_⟩
  rw [Memo.find?_store, if_pos rfl]
  cases f with
  | node => cases hf
  | error e => exact ⟨e, rfl⟩

/-- With the memo neither form matches: the argument that was too deep in the first is not tried again. -/
theorem ends_calledGroups_mismatch (hn : 254 ≤ n) (hb : 14 * 255 ≤ b) :
    Ends (recallingCourse input) Course.untried Course.anything (parse (b + 22) 0 .program) 0 0
      .mismatch := by
  have hfits : (recallingCourse input).Fits 1 := by simp [Course.Fits, recallingCourse]
  obtain ⟨b, rfl⟩ : ∃ b', b = b' + 3 := ⟨b - 3, by omega⟩
  have hfirst := ends_conditionAndStatement (k := recallingCourse input) h recalls_onlyName recalls_call hfits
    (ends_arguments_mismatch h recalls_call (ends_argument_refused h (b := b) hn (by omega))) (by simp)
    .of_mismatch (by omega)
  have hargument : Ends (recallingCourse input) (RefusedArgument input) (RefusedArgument input)
      (parse (b + 8) 2 .expression) 5 1 .mismatch :=
    .of_stored rfl fun _ hm => hm.argument.elim fun e he => ⟨.error e, he, rfl⟩
  have hsecond : Ends (recallingCourse input) (RefusedArgument input) Course.anything
      (conditionAndBlock fun r => parse (b + 18) r.surcharge r) 1 1 .mismatch :=
    .bind_mismatch (ends_call_mismatch (b := b + 7) h recalls_refusedArgument recalls_test
      (fun _ _ => trivial) hfits (by omega) hargument)
  have hconditional := ends_conditionalStatement_mismatch h.word hfirst hsecond
  have hstatement := ends_statement_of_conditional (Course.recalls_untried (recallingCourse input) 0 .mismatch)
    (hfits.mono (by omega)) h.word
    (hconditional.mono (fun m hm => hm ▸ Course.holds_empty) fun _ hm => hm)
  exact ends_program_failed (by simp [recallingCourse, h.word]) hstatement trivial

end Remembering

end Grammar

variable {input : Input} {n : Nat}

/-- Without a memo such a program is read as the same tree under no bound on nesting and under the one that
there is, if the argument is just not too deep; and no more rules than that are open in what is kept. -/
theorem Grammar.reads_calledGroups (h : input.CallsGroups n) (hn : n ≤ 254) :
    ∃ t, ∀ bound ∈ [none, some 256], ∃ q, (rule .program).run ⟨input, false, bound⟩ .start = .ok t q ∧
      (input.get q.cursor).kind = .eof ∧ q.deepest ≤ 256 := by
  have hfits : (Course.plain input [none, some 256] False).Fits (n + 1) := by
    simp only [Course.Fits, Course.plain, List.forall_mem_cons, Option.any_none, Option.any_some,
      decide_eq_true_eq, Bool.false_eq_true, not_false_eq_true, true_and]
    exact ⟨by omega, List.forall_mem_nil _⟩
  obtain ⟨t, ht⟩ := ends_calledGroups_plain (b := 9968) h hfits (by omega)
  refine ⟨t, fun bound hbound => ?_⟩
  obtain ⟨q, hrun, hstop, -, hdeepest⟩ := ht.run_plain bound hbound
  exact ⟨q, hrun, by rw [hstop, h.eof], hdeepest 256 (by simp)⟩

/-- With the memo it is rejected as soon as the argument would be too deep as a part of a statement. -/
theorem Entry.calledGroups_rejected (h : input.CallsGroups n) (hn : 254 ≤ n) :
    ∃ e, program.ofInput input = .error e := by
  obtain ⟨e, q, hrun⟩ := (Grammar.ends_calledGroups_mismatch (b := 9968) h hn (by decide)).run_mismatch
  change (Grammar.rule .program).run { input } .start = _ at hrun
  refine ⟨e, ?_⟩
  simp only [ofInput, parse, Grammar.run, hrun]
  rfl

end MagSyntax
