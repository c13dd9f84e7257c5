import MagSyntax.Proofs.Tracking

/-! Every error of the grammar is a complaint of its own about a token. None is in the words of a caller, a target that
is refused is named by the type of its node, and a memo gives back only what a rule has complained of. -/

namespace MagSyntax

/-- The grammar makes such a complaint. -/
def Complaint.IsOwn : Complaint → Prop
  | .assignmentTarget type => ∃ n : Node, type = n.typeName
  | .oneOf kinds => ∀ kind ∈ kinds, kind ∈ TokenKind.all
  | .stated _ => False
  | _ => True

/-- The error is a complaint of the grammar. -/
def SyntaxError.IsOwn (e : SyntaxError) : Prop :=
  ∃ complaint found, e.cause = .grammatical complaint found ∧ complaint.IsOwn

theorem SyntaxError.isOwn_ofToken {complaint : Complaint} (h : complaint.IsOwn) (token : Token) :
    (SyntaxError.ofToken complaint token).IsOwn :=
  ⟨complaint, _, rfl, h⟩

/-- The memo holds no other errors. -/
def Memo.IsOwn (m : Memo) : Prop := ∀ a e, m.find? a = some (.error e) → e.IsOwn

theorem Memo.isOwn_store {m : Memo} (h : m.IsOwn) {f : Finding} (hf : ∀ e, f = .error e → e.IsOwn) (a : Attempt) :
    (m.store a f).IsOwn := by
  intro b e hb
  rw [find?_store] at hb
  split at hb
  · exact hf e (Option.some.inj hb)
  · exact h b e hb

namespace Parse

variable {α β : Type}

/-- The memo holds complaints of the grammar, and the step has failed to match with such a complaint if it has. -/
def Outcome.IsOwn : Outcome α → Prop
  | .ok _ p => p.memo.IsOwn
  | .failed (.mismatch e) p => p.memo.IsOwn ∧ e.IsOwn
  | .failed _ p => p.memo.IsOwn

/-- The step complains only as the grammar does. -/
def Owns (step : Parse α) : Prop := ∀ setup p, p.memo.IsOwn → (step.run setup p).IsOwn

namespace Owns

theorem pure (v : α) : Owns (Pure.pure v : Parse α) := fun _ _ h => h

theorem exhausted : Owns (Parse.fail .exhausted : Parse α) := fun _ _ h => h

theorem mismatch {e : SyntaxError} (h : e.IsOwn) : Owns (Parse.fail (.mismatch e) : Parse α) := fun _ _ hm => ⟨hm, h⟩

theorem bind {first : Parse α} {next : α → Parse β} (hf : Owns first) (hn : ∀ v, Owns (next v)) :
    Owns (first >>= next) := by
  intro setup p hm
  have h := hf setup p hm
  rw [run_bind]
  cases hr : first.run setup p with
  | ok v q =>
    rw [hr] at h
    exact hn v setup q h
  | failed f q =>
    rw [hr] at h
    cases f <;> exact h

theorem map {first : Parse α} (f : α → β) (h : Owns first) : Owns (f <$> first) := h.bind fun _ => pure _

theorem discard {first : Parse α} (h : Owns first) : Owns (discard first) := h.bind fun _ => pure ()

theorem current : Owns current := fun _ _ h => h

theorem rounds : Owns rounds := fun _ _ h => h

theorem advance : Owns advance := by
  intro setup p h
  simp only [Parse.advance, Outcome.IsOwn, Progress.pastToken]
  split <;> exact h

theorem check (kinds : List TokenKind) : Owns (check kinds) := fun _ _ h => h

theorem sees (kind : TokenKind) : Owns (sees kind) := check [kind]

theorem accept (kinds : List TokenKind) : Owns (accept kinds) := by
  refine (check kinds).bind fun b => ?_
  cases b with
  | true => exact advance.bind fun _ => pure _
  | false => exact pure _

theorem skip (kind : TokenKind) : Owns (skip kind) := (accept [kind]).bind fun _ => pure _

theorem complain {complaint : Complaint} (h : complaint.IsOwn) : Owns (complain complaint : Parse α) :=
  current.bind fun token => mismatch (SyntaxError.isOwn_ofToken h token)

theorem expectOne (kinds : List TokenKind) {complaint : Complaint} (h : complaint.IsOwn) :
    Owns (expectOne kinds complaint) := by
  refine (accept kinds).bind fun o => ?_
  cases o with
  | none => exact complain h
  | some token => exact pure _

theorem expect (kind : TokenKind) {complaint : Complaint} (h : complaint.IsOwn) : Owns (expect kind complaint) :=
  (expectOne [kind] h).discard

/-- A step behind one that has failed to match, which got an error of its kind. -/
theorem recover {first : Parse α} {target : Nat → Nat} {next : Nat → SyntaxError → Parse α} (hf : Owns first)
    (hn : ∀ c e, e.IsOwn → Owns (next c e)) : Owns (recover first target next) := by
  intro setup p hm
  have h := hf setup p hm
  simp only [Parse.recover]
  cases hr : first.run setup p with
  | ok v q => rwa [hr] at h
  | failed f q =>
    rw [hr] at h
    cases f with
    | mismatch e => exact hn _ e h.2 setup _ h.1
    | unclosable | exhausted => exact h

theorem attemptAfter {alternatives : List (Parse α)} (h : ∀ step ∈ alternatives, Owns step) (start : Nat)
    {furthest : SyntaxError} (he : furthest.IsOwn) : Owns (attemptAfter start furthest alternatives) := by
  induction alternatives generalizing furthest with
  | nil => exact mismatch he
  | cons first rest ih =>
    obtain ⟨hfirst, hrest⟩ := List.forall_mem_cons.mp h
    rw [attemptAfter_cons]
    refine hfirst.recover fun _ e he' => ih hrest ?_
    unfold further
    split
    · exact he'
    · exact he

theorem attempt {first : Parse α} {others : List (Parse α)} (hf : Owns first) (ho : ∀ step ∈ others, Owns step) :
    Owns (attempt first others) := by
  rw [attempt_eq]
  exact hf.recover fun c _ he => attemptAfter ho c he

theorem nested {rule : Parse α} (h : Owns rule) : Owns (nested rule) := by
  intro setup p hm
  simp only [Parse.nested]
  split
  · exact (complain (by trivial) : Owns (Parse.complain .tooDeep : Parse α)) setup _ hm
  · have h := h setup p.deeper hm
    cases hr : rule.run setup p.deeper with
    | ok v q => rwa [hr] at h
    | failed f q =>
      rw [hr] at h
      cases f <;> exact h

theorem remembered (r : Rule) {body : Parse Node} (h : Owns body) : Owns (remembered r body) := by
  intro setup p hm
  simp only [Parse.remembered]
  cases hf : (if setup.remembers then p.memo.find? ⟨r, p.cursor⟩ else none) with
  | some finding =>
    cases finding with
    | node n stop => exact hm
    | error e =>
      refine ⟨hm, hm ⟨r, p.cursor⟩ e ?_⟩
      split at hf
      · exact hf
      · cases hf
  | none =>
    have h := h setup p hm
    cases hr : body.run setup p with
    | ok n q =>
      rw [hr] at h
      exact Memo.isOwn_store h (fun _ he => Finding.noConfusion he) _
    | failed f q =>
      rw [hr] at h
      cases f with
      | mismatch e =>
        refine ⟨Memo.isOwn_store h.1 (fun e' he => ?_) _, h.2⟩
        cases he
        exact h.2
      | unclosable | exhausted => exact h

theorem marked {kind : TokenKind} {part : Parse α} {next : Option α → Parse β} (hp : Owns part)
    (hn : ∀ o, Owns (next o)) :
    Owns (Parse.skip kind >>= fun b => if b then some <$> part >>= next else Pure.pure none >>= next) := by
  refine (skip kind).bind fun b => ?_
  cases b with
  | true => exact (hp.map some).bind hn
  | false => exact (pure none).bind hn

theorem statementsToEnd {statement : Parse Node} (h : Owns statement) (bound : Nat) (sofar : List Node) :
    Owns (statementsToEnd statement bound sofar) := by
  induction bound generalizing sofar with
  | zero => exact exhausted
  | succ bound ih =>
    refine (sees .eof).bind fun b => ?_
    cases b with
    | true => exact pure _
    | false => exact h.bind fun _ => ih _

theorem statementsToBrace {statement : Parse Node} (h : Owns statement) (bound : Nat) (sofar : List Node) :
    Owns (statementsToBrace statement bound sofar) := by
  induction bound generalizing sofar with
  | zero => exact exhausted
  | succ bound ih =>
    refine (sees _).bind fun b => ?_
    cases b with
    | true => exact pure _
    | false =>
      refine (sees .eof).bind fun b => ?_
      cases b with
      | true => exact (complain (by trivial)).bind fun _ => h.bind fun _ => ih _
      | false => exact h.bind fun _ => ih _

theorem elements (close : TokenKind) {element : Parse Node} (h : Owns element) (bound : Nat) (sofar : List Node) :
    Owns (elements close element bound sofar) := by
  induction bound generalizing sofar with
  | zero => exact exhausted
  | succ bound ih =>
    refine (sees close).bind fun b => ?_
    cases b with
    | true => exact pure _
    | false =>
      refine h.bind fun next => (skip _).bind fun b => ?_
      cases b with
      | true => exact ih _
      | false => exact pure _

theorem delimited (close : TokenKind) {element : Parse Node} (h : Owns element) : Owns (delimited close element) := by
  refine advance.discard.bind fun _ => rounds.bind fun bound => (elements close h bound []).bind fun items => ?_
  cases closingBracket? close with
  | none => exact fun _ _ hm => hm
  | some bracket => exact (expect close (by trivial)).bind fun _ => pure _

theorem binaryLeft (operators : List TokenKind) {operand : Parse Node} (h : Owns operand) :
    Owns (binaryLeft operators operand) := by
  refine h.bind fun left => rounds.bind fun bound => ?_
  induction bound generalizing left with
  | zero => exact exhausted
  | succ bound ih =>
    refine (accept operators).bind fun o => ?_
    cases o with
    | none => exact pure _
    | some operator => exact h.bind fun right => ih _

end Owns

end Parse

namespace Grammar

open Parse

theorem isOwn_assignmentTarget (n : Node) : (Complaint.assignmentTarget n.typeName).IsOwn := ⟨n, rfl⟩

theorem isOwn_oneOf {kinds : List TokenKind} (h : ∀ kind ∈ kinds, kind ∈ TokenKind.all) :
    (Complaint.oneOf kinds).IsOwn := h

variable {self : Rule → Parse Node} (h : ∀ r, Owns (self r))
include h

theorem owns_expression : Owns (expression self) := by
  refine (h .operand).bind fun left => (Owns.accept _).bind fun o => ?_
  cases o with
  | none => exact Owns.pure _
  | some assign =>
    refine Owns.bind ?_ fun target => (h .expression).bind fun right => Owns.pure _
    unfold toTarget
    split
    · exact Owns.pure _
    · next part _ => exact Owns.mismatch (SyntaxError.isOwn_ofToken (isOwn_assignmentTarget part) _)

theorem owns_comparison : Owns (comparison self) := by
  refine (h .additive).bind fun left => (Owns.accept _).bind fun o => ?_
  cases o with
  | none => exact Owns.pure _
  | some operator =>
    refine (h .additive).bind fun right => (Owns.check _).bind fun b => ?_
    cases b with
    | true => exact (Owns.complain (by trivial)).bind fun _ => Owns.pure _
    | false => exact Owns.pure _

theorem owns_exponent : Owns (exponent self) := by
  refine (h .unary).bind fun base => (Owns.accept _).bind fun o => ?_
  cases o with
  | none => exact Owns.pure _
  | some operator => exact (h .exponent).bind fun power => Owns.pure _

theorem owns_unary : Owns (unary self) := by
  refine (Owns.accept _).bind fun o => ?_
  cases o with
  | none => exact h .postfixChain
  | some operator => exact (h .postfixChain).bind fun argument => Owns.pure _

omit h in
theorem owns_fieldName : Owns fieldName := by
  refine Owns.current.bind fun token => ?_
  split
  · exact (Owns.complain (by trivial)).bind fun _ => Owns.advance.discard.bind fun _ => Owns.pure _
  · exact Owns.advance.discard.bind fun _ => Owns.pure _

theorem owns_chain (bound : Nat) (node : Node) : Owns (chain self bound node) := by
  induction bound generalizing node with
  | zero => exact Owns.exhausted
  | succ bound ih =>
    refine (Owns.skip _).bind fun b => ?_
    cases b with
    | true => exact owns_fieldName.bind fun name => ih _
    | false =>
      refine (Owns.skip _).bind fun b => ?_
      cases b with
      | true => exact (h .expression).bind fun i => (Owns.expect _ (by trivial)).bind fun _ => ih _
      | false =>
        refine (Owns.sees _).bind fun b => ?_
        cases b with
        | true => exact (Owns.delimited _ (h .expression)).bind fun arguments => ih _
        | false => exact Owns.pure _

theorem owns_primary : Owns (primary self) := by
  refine Owns.current.bind fun token => ?_
  have word (n : Node) : Owns (do discard advance; return n) := Owns.advance.discard.bind fun _ => Owns.pure n
  dsimp only
  cases token.kind with
  | ident | number | string | regex => exact word _
  | keyword w =>
    cases w with
    | trueWord | falseWord => exact word _
    | ifWord => exact h .conditional
    | _ => exact Owns.complain (by trivial)
  | symbol s =>
    cases s with
    | lbrack => exact (Owns.delimited _ (h .expression)).bind fun _ => Owns.pure _
    | lparen =>
      exact Owns.advance.discard.bind fun _ => (h .expression).bind fun inner =>
        (Owns.expect _ (by trivial)).bind fun _ => Owns.pure _
    | _ => exact Owns.complain (by trivial)
  | _ => exact Owns.complain (by trivial)

theorem owns_condition : Owns (condition self) :=
  (Owns.expect _ (by trivial)).bind fun _ => (h .expression).bind fun _ => (Owns.expect _ (by trivial)).bind fun _ =>
    Owns.pure _

theorem owns_conditionAndBlock : Owns (conditionAndBlock self) := by
  refine (h .operand).bind fun test => (Owns.sees _).bind fun b => ?_
  cases b with
  | true => exact (h .block).bind fun block => Owns.pure _
  | false => exact (Owns.complain (by trivial)).bind fun _ => (h .block).bind fun block => Owns.pure _

theorem owns_conditionalRest (loc : Loc) (test : Node) (explicitThen : Bool) :
    Owns (conditionalRest self loc test explicitThen) :=
  (h .expression).bind fun _ => (Owns.expect _ (by trivial)).bind fun _ => (h .expression).bind fun _ => Owns.pure _

theorem owns_conditionalByParentheses (loc : Loc) : Owns (conditionalByParentheses self loc) := by
  rw [conditionalByParentheses_eq]
  exact (owns_condition h).bind fun test => owns_conditionalRest h loc test false

theorem owns_conditionalByThen (loc : Loc) : Owns (conditionalByThen self loc) := by
  rw [conditionalByThen_eq]
  exact (h .operand).bind fun test => (Owns.expect _ (by trivial)).bind fun _ => owns_conditionalRest h loc test true

theorem owns_conditionalByBlocks (loc : Loc) : Owns (conditionalByBlocks self loc) := by
  refine (owns_conditionAndBlock h).bind fun found => (Owns.expect _ (by trivial)).bind fun _ =>
    (Owns.sees _).bind fun b => ?_
  cases b with
  | true => exact (h .conditional).bind fun alternate => Owns.pure _
  | false => exact (h .block).bind fun alternate => Owns.pure _

theorem owns_conditional : Owns (conditional self) := by
  refine (Owns.expectOne _ (isOwn_oneOf (by decide))).bind fun word =>
    Owns.attempt (owns_conditionalByParentheses h _) ?_
  simp only [List.forall_mem_cons]
  exact ⟨owns_conditionalByThen h _, owns_conditionalByBlocks h _, fun _ hm => nomatch hm⟩

theorem owns_statement : Owns (statement self) := by
  refine Owns.current.bind fun token => ?_
  split <;> exact h _

theorem owns_expressionStatement : Owns (expressionStatement self) := by
  refine (h .operand).bind fun value => (Owns.sees _).bind fun b => ?_
  cases b with
  | true => exact (Owns.complain (by trivial)).bind fun _ => (Owns.expect _ (by trivial)).bind fun _ => Owns.pure _
  | false => exact (Owns.expect _ (by trivial)).bind fun _ => Owns.pure _

theorem owns_block : Owns (block self) :=
  (Owns.expectOne _ (by trivial)).bind fun _ => Owns.rounds.bind fun bound =>
    (Owns.statementsToBrace (h .statement) bound []).bind fun _ =>
      (Owns.expectOne _ (isOwn_oneOf (by decide))).discard.bind fun _ => Owns.pure _

theorem owns_conditionalStatement : Owns (conditionalStatement self) := by
  refine (Owns.expectOne _ (isOwn_oneOf (by decide))).bind fun word => ?_
  refine (Owns.attempt ?_ (List.forall_mem_singleton.mpr (owns_conditionAndBlock h))).bind fun found =>
    Owns.marked (h .statement) fun _ => Owns.pure _
  exact (owns_condition h).bind fun test => (h .statement).bind fun consequent => Owns.pure _

theorem owns_declarationRest (loc : Loc) (constant mutable : Bool) :
    Owns (declarationRest self loc constant mutable) :=
  (h .bindingPattern).bind fun _ => Owns.marked (h .operand) fun _ => Owns.marked (h .expression) fun _ =>
    (Owns.expect _ (by trivial)).bind fun _ => Owns.pure _

theorem owns_declaration : Owns (declaration self) := by
  rw [declaration_eq]
  refine (Owns.expectOne _ (isOwn_oneOf (by decide))).bind fun word => (Owns.sees _).bind fun b => ?_
  cases b with
  | false => exact owns_declarationRest h _ _ _
  | true =>
    dsimp only
    cases decide (word.kind = Keyword.constWord) with
    | true => exact (Owns.complain (by trivial)).bind fun _ => Owns.advance.discard.bind fun _ => owns_declarationRest h _ _ _
    | false => exact Owns.advance.discard.bind fun _ => owns_declarationRest h _ _ _

theorem owns_bindingPattern : Owns (bindingPattern self) := by
  refine Owns.current.bind fun token => ?_
  split
  · exact Owns.advance.discard.bind fun _ => Owns.pure _
  · exact (Owns.delimited _ (h .bindingPattern)).bind fun _ => Owns.pure _
  · exact Owns.complain (by trivial)

/-- The body of a rule complains as the grammar does if the rules that it runs do. -/
theorem owns_body (r : Rule) : Owns (body self r) := by
  cases r with
  | program =>
    exact Owns.current.bind fun first => Owns.rounds.bind fun bound =>
      (Owns.statementsToEnd (h .statement) bound []).bind fun _ => Owns.pure _
  | statement => exact owns_statement h
  | expressionStatement => exact owns_expressionStatement h
  | block => exact owns_block h
  | conditionalStatement => exact owns_conditionalStatement h
  | declaration => exact owns_declaration h
  | bindingPattern => exact owns_bindingPattern h
  | expression => exact owns_expression h
  | operand => exact h .comparison
  | comparison => exact owns_comparison h
  | additive => exact Owns.binaryLeft _ (h .multiplicative)
  | multiplicative => exact Owns.binaryLeft _ (h .exponent)
  | exponent => exact owns_exponent h
  | unary => exact owns_unary h
  | postfixChain =>
    exact (h .primary).bind fun node => Owns.rounds.bind fun bound => owns_chain h bound node
  | primary => exact owns_primary h
  | conditional => exact owns_conditional h

omit h

theorem owns_parse (budget due : Nat) (r : Rule) : Owns (parse budget due r) := by
  induction budget generalizing due r with
  | zero => exact Owns.exhausted
  | succ budget ih =>
    cases due with
    | succ due => exact ih due r
    | zero =>
      have hbody := owns_body (fun s => ih s.surcharge s) r
      have hcontent : Owns (content budget r) := by
        simp only [content, counted]
        split
        · exact hbody.nested
        · exact hbody
      rw [parse_content]
      split
      · exact hcontent.remembered r
      · exact hcontent

theorem owns_run {step : Parse Node} (h : Owns step) : Owns (run step) := by
  intro setup p hm
  have h := h setup p hm
  simp only [run]
  cases hr : step.run setup p with
  | ok v q => rwa [hr] at h
  | failed f q =>
    rw [hr] at h
    cases f with
    | mismatch e => exact h
    | unclosable => exact h
    | exhausted => exact (Owns.complain (by trivial) : Owns (Parse.complain .tooDeep : Parse Node)) setup q h

end Grammar

/-- What an entry refuses it refuses with a complaint of the grammar. -/
theorem Entry.isOwn_of_ofInput (entry : Entry) {input : Input} {e : SyntaxError}
    (h : entry.ofInput input = .error e) : e.IsOwn := by
  have howns : Parse.Owns entry.parse := by
    cases entry with
    | program => exact Grammar.owns_run (Grammar.owns_parse _ _ _)
    | expression =>
      refine (Grammar.owns_run (Grammar.owns_parse _ _ _)).bind fun node =>
        Parse.Owns.bind ?_ fun _ => Parse.Owns.pure _
      refine (Parse.Owns.sees _).bind fun b => ?_
      cases b with
      | true => exact Parse.Owns.pure _
      | false => exact Parse.Owns.complain (by trivial)
  have hm : Progress.start.memo.IsOwn := fun a e h => by
    change Memo.empty.find? a = _ at h
    rw [Memo.find?_empty] at h
    cases h
  have h' := howns { input } .start hm
  rw [ofInput] at h
  cases hr : entry.parse.run { input } .start with
  | ok node p =>
    rw [hr] at h
    cases h
  | failed f p =>
    rw [hr] at h h'
    cases h
    cases f with
    | mismatch e => exact h'.2
    | unclosable | exhausted => exact SyntaxError.isOwn_ofToken (by trivial) _

end MagSyntax
