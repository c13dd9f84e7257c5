import MagSyntax.Proofs.Soundness

/-! The same for the rules of statements, which never end at a stray end of the input: every one of them
takes a token that closes it. -/

namespace MagSyntax

open Parse Input

namespace Input

variable {input : Input} {bare : Node → Prop}

theorem Found.reads_of_not_isValue {r : Rule} {c stop : Nat} {n : Node}
    (h : input.Found bare r c n stop) (hr : r.isValue = false) : input.Reads bare r c n stop :=
  h.resolve_left (by simp [hr])

/-- What a rule for one kind of statement reads is a statement, if it does not start like an `if` with a
value. -/
theorem Reads.statement {r : Rule} {c stop : Nat} {n : Node} (h : input.Reads bare r c n stop)
    (ha : n.isStatement) : input.Reads bare .statement c n stop :=
  ⟨ha, h.written, by simp [Rule.continuers], h.ended.branch, h.ended.elseless⟩

/-- What has been found of a declaration behind its type: the pattern, and the type with its colon unless a stray end
cuts it off. Before the mark of a value the type is one that a value may follow. -/
def TypesSoFar (input : Input) (c : Nat) (left : Node) (type : Option Node) (e : Nat) : Prop :=
  ∃ d, input.Reads (fun _ => True) .bindingPattern c left d ∧
    (input.StrayEnd e ∨ input.MarkedWrites (fun _ => True) (.ofSymbol .colon) d type e ∧
      Node.noneOrType false type ∧ ((input.get e).kind = Symbol.assign → Node.noneOrType true type))

/-- What has been found of a declaration behind its value. -/
def DeclaresSoFar (input : Input) (c : Nat) (left : Node) (type value : Option Node) (f : Nat) : Prop :=
  ∃ d e, input.Reads (fun _ => True) .bindingPattern c left d ∧
    (input.StrayEnd f ∨ input.MarkedWrites (fun _ => True) (.ofSymbol .colon) d type e ∧
      input.MarkedWrites (fun _ => True) (.ofSymbol .assign) e value f ∧
      Node.noneOrType value.isSome type ∧ Node.noneOrExpression value)

end Input

namespace Grammar

variable {setup : Setup} {keeps : Memo → Prop} {self : Rule → Parse Node}

section

variable (hp : setup.input.IsProper) (hself : ∀ r, Sound setup keeps r (self r))
include hp hself

theorem sound_expressionStatement :
    Sound setup keeps .expressionStatement (expressionStatement self) := by
  intro c
  refine (hself .operand c).bind fun value d hv => ?_
  simp only [finds_sees_bind]
  split
  · exact finds_complain_bind fun _ => trivial
  next =>
    refine finds_expect_bind (fun hk => finds_pure (.inr ?_)) fun _ _ => trivial
    have hv := hv.reads (by simp [hk])
    have ha := (Rule.admits_iff rfl (by decide)).mp hv.admitted
    rw [after_of_symbol hk]
    refine ⟨?_, hv.written.expressionStatement hp hk, ?_⟩
    · simp only [Rule.admits, Node.isOperandStatement, Bool.and_eq_true]
      exact ha
    · exact ⟨by simp [Rule.continuers], by simp [Node.endsOpen], by simp [Node.dangles]⟩

omit hp in
theorem sound_statement : Sound setup keeps .statement (statement self) := by
  intro c
  simp only [statement]
  rw [finds_current_bind]
  have known {r : Rule} (hr : r.isValue = false)
      (ha : ∀ n, r.admits n → n.isStatement) :
      Finds setup keeps Failure.IsTame (self r) c
        (setup.input.Found (fun _ => True) .statement c) :=
    (hself r c).imp fun n stop h =>
      have h := h.reads_of_not_isValue hr
      .inr (h.statement (ha n h.admitted))
  split
  next => exact known rfl fun n h => by simp_all [Rule.admits]
  next => exact known rfl fun n h => by simp_all [Rule.admits]
  next => exact known rfl fun n h => by simp_all [Rule.admits]
  next => exact known rfl fun n h => by simp_all [Rule.admits]
  next hif _ _ _ =>
    refine (hself .expressionStatement c).imp fun n stop h => .inr ?_
    have h := h.reads_of_not_isValue rfl
    refine h.statement ?_
    have ha := h.admitted
    obtain ⟨ls, hw, hs, -⟩ := h.written
    cases n with
    | expressionStatement loc e =>
      simp only [Rule.admits, Node.isOperandStatement, Bool.and_eq_true] at ha
      obtain ⟨a, he, rfl⟩ := hw
      obtain ⟨first, rest, rfl, -, hi⟩ := Node.startsAs_of_writtenAs e ha.1 he
      have hk := kind_of_shows hs
      simp only [Node.isStatement, ha.1, Node.not_isAssignment_of_bindsAt ha.2]
      cases hsi : e.startsWithIf with
      | false => rfl
      | true => exact absurd (hk.trans (hi.mpr hsi)) hif
    | _ => cases ha

omit hp in
/-- One more statement in front of others. -/
theorem sound_nextStatement (c : Nat) :
    Finds setup keeps Failure.IsTame (self .statement) c fun next d => True ∧ ∀ rest stop,
      Node.allStatements rest ∧ setup.input.AllWrites (fun _ => True) d rest stop →
        Node.allStatements (next :: rest) ∧ setup.input.AllWrites (fun _ => True) c (next :: rest) stop := by
  refine (hself .statement c).imp fun next d hn => ⟨trivial, fun rest stop h => ?_⟩
  have hn := hn.reads_of_not_isValue rfl
  refine ⟨?_, AllWrites.cons hn.written h.2⟩
  simp only [Node.allStatements, Bool.and_eq_true]
  exact ⟨hn.admitted, h.1⟩

omit hp in
/-- A program reaches the end of the input. -/
theorem sound_program {c : Nat} :
    Finds setup keeps Failure.IsTame (program self) c fun n stop =>
      setup.input.Reads (fun _ => True) .program c n stop ∧ (setup.input.get stop).kind = .eof := by
  simp only [program]
  rw [finds_current_bind, finds_rounds_bind]
  refine (finds_statementsToEnd (fun _ => True)
    (fun c items stop => Node.allStatements items ∧ setup.input.AllWrites (fun _ => True) c items stop)
    trivial (fun c _ => sound_nextStatement hself c) (fun _ _ _ => ⟨rfl, .nil⟩) _ trivial).bind
      fun items stop h => finds_pure ⟨⟨h.1.1, h.1.2, ?_⟩, h.2⟩
  exact ⟨by simp [Rule.continuers], by simp [Node.endsOpen], by simp [Node.dangles]⟩

theorem sound_block : Sound setup keeps .block (block self) := by
  intro c
  refine finds_expectOne_bind (fun ho => ?_) fun _ _ => trivial
  have ho := List.mem_singleton.mp ho
  rw [after_of_symbol ho, finds_rounds_bind]
  refine (finds_statementsToBrace (fun _ => True)
    (fun c items stop => Node.allStatements items ∧ setup.input.AllWrites (fun _ => True) c items stop)
    trivial (fun c _ => sound_nextStatement hself c) (fun _ _ _ => ⟨rfl, .nil⟩) (fun _ _ _ => trivial) _
    trivial).bind fun body d h => ?_
  obtain ⟨ha, hw⟩ := h
  refine finds_expect_bind (fun hc => finds_pure (.inr ?_)) fun _ _ => trivial
  rw [after_of_symbol hc]
  refine ⟨?_, .block hp ho hw hc, ?_⟩
  · simp only [Rule.admits, Node.isStatement, ha, Node.statementRule]
    rfl
  · exact ⟨by simp [Rule.continuers], by simp [Node.endsOpen], by simp [Node.dangles]⟩

/-- The condition of an `if` between statements and the branch behind it, whatever follows them. -/
theorem sound_conditionAndBranch (loc : Loc) {c : Nat}
    (hif : (setup.input.get c).kind = Keyword.ifWord) :
    Finds setup keeps Failure.IsTame
      (attempt (conditionAndStatement self) [conditionAndBlock self]) (c + 1) fun found d =>
        found.1.isExpression ∧ (∃ e, setup.input.Reads (fun _ => True) .statement e found.2 d) ∧
          ∀ alternate stop,
            setup.input.MarkedWrites (fun _ => True) (.ofKeyword .elseWord) d alternate stop →
            setup.input.Writes (fun _ => True) c
              (.conditionalStatement loc found.1 found.2 alternate) stop := by
  refine finds_attempt (fun _ h => h.isTame) ?_ fun _ =>
    finds_attemptAfter_cons (fun _ h => h.isTame) ?_ fun _ => finds_attemptAfter_nil fun _ => trivial
  · refine (sound_condition hself).bind fun test d ⟨e, ho, ht, hw, hc, hd⟩ => ?_
    subst hd
    refine (hself .statement (e + 1)).bind fun consequent stop hq => finds_pure ?_
    have hq := hq.reads_of_not_isValue rfl
    exact ⟨ht, ⟨_, hq⟩, fun alternate stop ha => .conditionalStatement hp hif ho hw hc hq.written ha⟩
  · refine (sound_conditionAndBlock hself).imp fun ⟨test, consequent⟩ d ⟨e, ht, hq⟩ => ?_
    have ha := (Rule.admits_iff rfl (by decide)).mp ht.admitted
    have hb := hq.admitted
    simp only [Rule.admits, Bool.and_eq_true, decide_eq_true_eq] at hb
    exact ⟨ha.1, ⟨_, hq.statement hb.1⟩, fun alternate stop hm => .conditionalStatement_bare hp hif
      ht.written ha.2 trivial (Node.isBlock_of_statementRule hb.2) hq.written hm⟩

theorem sound_conditionalStatement :
    Sound setup keeps .conditionalStatement (conditionalStatement self) := by
  intro c
  refine finds_expectOne_bind (fun hif => ?_) fun _ _ => trivial
  have hif := List.mem_singleton.mp hif
  rw [after_of_keyword hif]
  refine (sound_conditionAndBranch hp hself (locOf (setup.input.get c)) hif).bind
    fun ⟨test, consequent⟩ d ⟨ht, ⟨e, hq⟩, hw⟩ => ?_
  have hs : consequent.isStatement := hq.admitted
  rw [finds_skip_bind]
  split
  next hk =>
    have hd : consequent.dangles = false := by
      cases h : consequent.dangles with
      | false => rfl
      | true => exact absurd hk (hq.ended.elseless h)
    simp only [if_true]
    rw [after_of_keyword hk, map_bind]
    refine (hself .statement (d + 1)).bind fun alternate stop hn => finds_pure (.inr ?_)
    have hn := hn.reads_of_not_isValue rfl
    have ha : alternate.isStatement := hn.admitted
    refine ⟨?_, hw _ _ (.keyword hp hk hn.written), ?_⟩
    · simp [Rule.admits, Node.isStatement, Node.statementRule, Node.noneOrStatement, ht, hs, ha, hd]
    · exact ⟨by simp [Rule.continuers], by simp [Node.endsOpen], hn.ended.elseless⟩
  next hk =>
    refine finds_pure (.inr ⟨?_, hw _ _ .none, ?_⟩)
    · simp [Rule.admits, Node.isStatement, Node.statementRule, Node.noneOrStatement, ht, hs]
    · exact ⟨by simp [Rule.continuers], by simp [Node.endsOpen], fun _ => hk⟩

theorem sound_bindingPattern : Sound setup keeps .bindingPattern (bindingPattern self) := by
  intro c
  simp only [bindingPattern]
  rw [finds_current_bind]
  split
  next hk =>
    rw [finds_advance_bind, setup.input.after_of_ne (by simp [hk])]
    refine finds_pure (.inr ⟨rfl, .token (by simp [hk]) ?_, ?_⟩)
    · simp [Node.WrittenAs, Token.essence, hk]
    · exact ⟨by simp [Rule.continuers], by simp [Node.endsOpen], by simp [Node.dangles]⟩
  next hk =>
    refine (sound_delimited hp hself (r := .bindingPattern) (s := .rbrack) rfl (by simp [hk])).bind
      fun items e hfound => finds_pure (.inr ?_)
    obtain ⟨d, hi, hc, rfl, ha⟩ := hfound
    refine ⟨Node.allBindings_iff.mpr ha, .arrayPattern hp hk hi hc, ?_⟩
    exact ⟨by simp [Rule.continuers], by simp [Node.endsOpen], by simp [Node.dangles]⟩
  next => exact finds_complain fun _ => trivial

/-- What is declared, behind the words that open the declaration. -/
theorem sound_declarationRest {loc : Loc} {a c : Nat} {constant mutable : Bool}
    (hn : (constant && mutable) = false)
    (hw : setup.input.Shows a (Node.declarationWords constant mutable))
    (hc : c = a + (Node.declarationWords constant mutable).length) :
    Finds setup keeps Failure.IsTame (declarationRest self loc constant mutable) c
      (setup.input.Found (fun _ => True) .declaration a) := by
  refine finds_declarationRest (setup.input.Reads (fun _ => True) .bindingPattern c)
    (setup.input.TypesSoFar c) (setup.input.DeclaresSoFar c) ?_ ?_ ?_ ?_ ?_ ?_ fun _ _ _ _ _ _ => trivial
  · exact (hself .bindingPattern c).imp fun left d hl => hl.reads_of_not_isValue rfl
  · exact fun left d hl _ => ⟨d, hl, .inr ⟨.none, rfl, fun _ => rfl⟩⟩
  · intro left d hl hk
    rw [after_of_symbol hk]
    refine (hself .operand (d + 1)).imp fun type e ht => ⟨d, hl, ht.imp And.right fun ht => ?_⟩
    have ha := (Rule.admits_iff rfl (by decide)).mp ht.admitted
    have hb := Node.not_isAssignment_of_bindsAt ha.2
    refine ⟨.symbol hp hk ht.written, by simp [Node.noneOrType, ha.1, hb], fun hk => ?_⟩
    simp [Node.noneOrType, ha.1, hb, ht.ended.not_endsOpen (by rw [hk]; decide)]
  · rintro left type e ⟨d, hl, ht⟩ -
    exact ⟨d, e, hl, ht.imp id fun ht => ⟨ht.1, .none, ht.2.1, rfl⟩⟩
  · rintro left type e ⟨d, hl, ht⟩ hk
    obtain ⟨hm, -, ht⟩ := ht.resolve_left (not_strayEnd (by simp [hk]))
    rw [after_of_symbol hk]
    refine (hself .expression (e + 1)).imp fun value f hr => ⟨d, e, hl, hr.imp And.right fun hr => ?_⟩
    exact ⟨hm, .symbol hp hk hr.written, ht hk, Rule.isExpression_of_admits rfl hr.admitted⟩
  · rintro left type value f ⟨d, e, hl, h⟩ hk
    -- What closes the declaration shows that no part of it was cut off by a stray end.
    obtain ⟨ht, hr, ht', hr'⟩ := h.resolve_left (not_strayEnd (by simp [hk]))
    rw [after_of_symbol hk]
    refine .inr ⟨?_, .declaration hp hw hc hl.written ht hr hk, ?_⟩
    · have hb : left.isBinding := hl.admitted
      simp only [Rule.admits, Node.isStatement, Node.statementRule, hb, ht', hr', hn]
      rfl
    · exact ⟨by simp [Rule.continuers], by simp [Node.endsOpen], by simp [Node.dangles]⟩

theorem sound_declaration : Sound setup keeps .declaration (declaration self) := by
  intro c
  rw [declaration_eq]
  refine finds_expectOne_bind (fun hk => ?_) fun _ _ => trivial
  have hk : (setup.input.get c).kind = Keyword.letWord ∨
      (setup.input.get c).kind = Keyword.constWord := by simpa using hk
  have hafter : setup.input.after c = c + 1 := hk.elim after_of_keyword after_of_keyword
  rw [hafter]
  simp only [finds_sees_bind]
  by_cases hm : (setup.input.get (c + 1)).kind = Keyword.mutWord
  · rw [if_pos (decide_eq_true hm)]
    split
    next => exact finds_complain_bind fun _ => trivial
    next hc =>
      have hl := hk.resolve_right fun h => hc (decide_eq_true h)
      rw [finds_advance_bind, after_of_keyword hm]
      rw [decide_eq_true hm, decide_eq_false (by simp [hl])]
      exact sound_declarationRest hp hself rfl
        (hp.shows_keyword_cons hl (hp.shows_keyword hm)) rfl
  · rw [if_neg (by simpa using hm), decide_eq_false hm]
    rcases hk with hl | hl
    · rw [decide_eq_false (by simp [hl])]
      exact sound_declarationRest hp hself rfl (hp.shows_keyword hl) rfl
    · rw [decide_eq_true hl]
      exact sound_declarationRest hp hself rfl (hp.shows_keyword hl) rfl

/-- Every rule finds only what its tokens read as. -/
theorem sound_body (r : Rule) : Sound setup keeps r (body self r) := by
  cases r with
  | program => exact fun c => (sound_program hself).imp fun n stop h => .inr h.1
  | statement => exact sound_statement hself
  | expressionStatement => exact sound_expressionStatement hp hself
  | block => exact sound_block hp hself
  | conditionalStatement => exact sound_conditionalStatement hp hself
  | declaration => exact sound_declaration hp hself
  | bindingPattern => exact sound_bindingPattern hp hself
  | expression => exact sound_expression hp hself
  | operand =>
    exact fun c => (hself .comparison c).imp fun n stop h =>
      h.value rfl (by decide) rfl (by decide) (by decide) id
  | comparison => exact sound_comparison hp hself
  | additive =>
    rw [body, ← Level.kinds_additive]
    exact sound_binaryLeft hp hself Rule.additive_isLeftLayer
  | multiplicative =>
    rw [body, ← Level.kinds_multiplicative]
    exact sound_binaryLeft hp hself Rule.multiplicative_isLeftLayer
  | exponent => exact sound_exponent hp hself
  | unary => exact sound_unary hp hself
  | postfixChain => exact sound_postfixChain hp hself
  | primary => exact sound_primary hp hself
  | conditional => exact sound_conditional hp hself

end

end Grammar

namespace Memo

/-- What the memo remembers of a rule at a token is what the relation says. -/
def Tells (found : Rule → Nat → Node → Nat → Prop) (m : Memo) : Prop :=
  ∀ r c n stop, m.find? ⟨r, c⟩ = some (.node n stop) → found r c n stop

variable {found : Rule → Nat → Node → Nat → Prop}

theorem tells_empty : empty.Tells found := by
  intro r c n stop h
  simp at h

theorem Tells.store {m : Memo} {r : Rule} {c : Nat} {f : Finding} (h : m.Tells found)
    (hf : ∀ n stop, f = .node n stop → found r c n stop) : (m.store ⟨r, c⟩ f).Tells found := by
  intro r' c' n stop hs
  rw [find?_store] at hs
  split at hs
  next he =>
    cases he
    exact hf n stop (Option.some.inj hs)
  next => exact h r' c' n stop hs

/-- What the memo remembers is what the tokens read as. -/
def IsSound (input : Input) (m : Memo) : Prop :=
  ∀ r c n stop, m.find? ⟨r, c⟩ = some (.node n stop) → input.Found (fun _ => True) r c n stop

theorem isSound_empty {input : Input} : empty.IsSound input := tells_empty

theorem IsSound.store {input : Input} {m : Memo} {r : Rule} {c : Nat} {f : Finding}
    (h : m.IsSound input)
    (hf : ∀ n stop, f = .node n stop → input.Found (fun _ => True) r c n stop) :
    (m.store ⟨r, c⟩ f).IsSound input :=
  Tells.store h hf

end Memo

namespace Grammar

variable {setup : Setup}

/-- A rule finds what its body finds, as long as the memo remembers nothing else. -/
theorem finds_guarded {found : Rule → Nat → Node → Nat → Prop} {r : Rule} {content : Parse Node} {c : Nat}
    (h : Finds setup (Memo.Tells found) Failure.IsTame content c (found r c)) :
    Finds setup (Memo.Tells found) Failure.IsTame (guarded r content) c (found r c) := by
  have counted : Finds setup (Memo.Tells found) Failure.IsTame
      (if r.isNested then Parse.nested content else content) c (found r c) := by
    split
    · exact h.nested fun _ _ => trivial
    · exact h
  simp only [guarded]
  split
  · refine Finds.remembered (fun m n stop hm => hm r c n stop) (fun _ _ _ _ => trivial) ?_ ?_ counted
    · exact fun m n stop hm hf => hm.store fun n' stop' h => by cases h; exact hf
    · exact fun m e hm _ => hm.store fun n' stop' h => by cases h
  · exact counted

/-- Every rule finds only what its tokens read as, whatever it is given of the budget. -/
theorem sound_parse (hp : setup.input.IsProper) (budget due : Nat) (r : Rule) :
    Sound setup (Memo.IsSound setup.input) r (parse budget due r) := by
  induction budget generalizing due r with
  | zero =>
    intro c
    rw [parse]
    exact finds_exhausted trivial
  | succ budget ih =>
    cases due with
    | succ due => exact ih due r
    | zero => exact fun c => finds_guarded (sound_body hp (fun r => ih r.surcharge r) r c)

end Grammar

end MagSyntax
