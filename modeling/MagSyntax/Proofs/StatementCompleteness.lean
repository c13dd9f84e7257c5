import MagSyntax.Proofs.Completeness
import MagSyntax.Proofs.StatementSoundness

/-! The same for the rules of statements, where the first token decides. -/

namespace MagSyntax

open Parse Input

namespace Input

variable {input : Input} {bare : Node → Prop} {c stop : Nat} {n : Node}

theorem kind_mem_openers (hs : n.isStatement) (h : input.Writes bare c n stop) :
    (input.get c).kind ∈ Rule.openers := by
  obtain ⟨ls, hw, hsh, -⟩ := h
  obtain ⟨first, rest, rfl, hk⟩ := Node.head_of_isStatement hs hw
  rw [kind_of_shows hsh]
  exact hk

/-- Before statements and what closes them stands no `else`. -/
theorem AllWrites.kind_ne_else {body : List Node} {k : TokenKind} (h : input.AllWrites bare c body stop)
    (hs : Node.allStatements body) (hk : (input.get stop).kind = k)
    (hne : k ≠ Keyword.elseWord) : (input.get c).kind ≠ Keyword.elseWord := by
  cases body with
  | nil =>
    rw [← h.of_nil, hk]
    exact hne
  | cons n rest =>
    obtain ⟨d, hw, -⟩ := h.of_cons
    simp only [Node.allStatements, Bool.and_eq_true] at hs
    have hm := kind_mem_openers hs.1 hw
    intro he
    rw [he] at hm
    revert hm
    decide

theorem endsBefore_of_isBinding {k : TokenKind} (hb : n.isBinding) :
    Rule.bindingPattern.EndsBefore n k := by
  cases n with
  | identifier | arrayPattern =>
    exact ⟨by simp [Rule.continuers], by simp [Node.endsOpen], by simp [Node.dangles]⟩
  | _ => cases hb

theorem kind_of_declarationWords {constant mutable : Bool}
    (h : input.Shows c (Node.declarationWords constant mutable)) :
    (input.get c).kind = Keyword.letWord ∨ (input.get c).kind = Keyword.constWord := by
  cases constant <;> cases mutable <;>
    first
    | exact .inl (kind_of_shows_keyword h)
    | exact .inr (kind_of_shows_keyword h)

/-- A statement reads as what it is, with no `else` behind it. -/
theorem Reads.of_isStatement (hs : n.isStatement) (hw : input.Writes bare c n stop)
    (hk : (input.get stop).kind ≠ Keyword.elseWord) : input.Reads bare .statement c n stop :=
  ⟨hs, hw, by simp [Rule.continuers], by simp [Node.not_endsOpen_of_isStatement hs], fun _ => hk⟩

theorem kind_of_isBinding (hb : n.isBinding) (h : input.Writes bare c n stop) :
    (input.get c).kind = .ident ∨ (input.get c).kind = Symbol.lbrack := by
  cases n with
  | identifier =>
    obtain ⟨hs, -⟩ := h.of_token rfl
    exact .inl (kind_of_shows hs)
  | arrayPattern =>
    obtain ⟨d, hk, -⟩ := h.of_arrayPattern
    exact .inr hk
  | _ => cases hb

end Input

namespace Grammar

variable {setup : Setup} {keeps : Memo → Prop} {self : Rule → Parse Node}

section

variable (hself : ∀ r, r ≠ .program → Complete setup keeps r (self r))
include hself

theorem complete_expressionStatement :
    Complete setup keeps .expressionStatement (expressionStatement self) := by
  intro c n stop h
  have had := h.admitted
  cases n with
  | expressionStatement loc e =>
    simp only [Rule.admits, Node.isOperandStatement, Bool.and_eq_true] at had
    obtain ⟨d, hw, hk, rfl⟩ := h.written.of_expressionStatement
    refine (complete_bareCondition hself had.1 (Node.not_isAssignment_of_bindsAt had.2) hw
      (by rw [hk]; decide)).bind fun m hm => ?_
    simp only [finds_sees_bind]
    rw [if_neg (by simp [hk])]
    refine finds_expect_bind (fun _ => finds_pure ?_) fun hn => absurd hk hn
    exact ⟨by simp [Node.unplaced, hm], after_of_symbol hk⟩
  | _ => cases had

theorem complete_statement : Complete setup keeps .statement (statement self) := by
  intro c n stop h
  have hs : n.isStatement := h.admitted
  have known {r : Rule} (hne : r ≠ .program) (hr : r.admits n) (hc : r.continuers = []) :
      Reaches setup keeps (self r) c n stop :=
    hself r hne c n stop ⟨hr, h.written, by simp [hc], h.ended.branch, h.ended.elseless⟩
  simp only [statement]
  rw [Reaches, finds_current_bind]
  cases n with
  | block =>
    simp only [kind_of_isBlock h.written rfl]
    exact known (by decide) (by simp only [Rule.admits, hs, Node.statementRule]; rfl) rfl
  | conditionalStatement =>
    obtain ⟨d, e, hk, -⟩ := h.written.of_conditionalStatement
    simp only [hk]
    exact known (by decide) (by simp only [Rule.admits, hs, Node.statementRule]; rfl) rfl
  | declaration loc left type right constant mutable =>
    obtain ⟨d, e, f, hsh, -⟩ := h.written.of_declaration
    have hd := known (r := .declaration) (by decide) (by
      simp only [Rule.admits, hs, Node.statementRule]; rfl) rfl
    rcases kind_of_declarationWords hsh with hk | hk
    · simp only [hk]
      exact hd
    · simp only [hk]
      exact hd
  | expressionStatement loc e =>
    obtain ⟨ls, ⟨a, ha, rfl⟩, hsh, -⟩ := h.written
    have hs' := hs
    simp only [Node.isStatement, Bool.and_eq_true, Bool.not_eq_true'] at hs'
    obtain ⟨⟨hs1, hs2⟩, hs3⟩ := hs'
    obtain ⟨first, rest, rfl, hk, hi⟩ := Node.startsAs_of_writtenAs e hs1 ha
    rw [hs3] at hi
    rw [← kind_of_shows hsh] at hk hi
    have rest := known (r := .expressionStatement) (by decide) (by
      simp only [Rule.admits, Node.isOperandStatement, hs1,
        Node.bindsAt_of_not_isAssignment hs1 hs2, Bool.and_self]) rfl
    split <;> first | exact rest | simp_all [Rule.starters]
  | _ => cases hs

/-- The first of several statements before a token that is no `else`. -/
theorem complete_nextStatement {k : TokenKind} {c d : Nat} {n : Node} {rest : List Node}
    (hk : (setup.input.get d).kind = k) (hne : k ≠ Keyword.elseWord) (hs : Node.allStatements (n :: rest))
    (hw : setup.input.AllWrites (fun _ => False) c (n :: rest) d) :
    ∃ e, (setup.input.get c).kind ∈ Rule.openers ∧ Reaches setup keeps (self .statement) c n e ∧
      Node.allStatements rest ∧ setup.input.AllWrites (fun _ => False) e rest d := by
  obtain ⟨e, hn, hr⟩ := hw.of_cons
  simp only [Node.allStatements, Bool.and_eq_true] at hs
  refine ⟨e, kind_mem_openers hs.1 hn, ?_, hs.2, hr⟩
  exact hself .statement (by decide) c n e (Reads.of_isStatement hs.1 hn (hr.kind_ne_else hs.2 hk hne))

theorem complete_statementsToEnd {d : Nat} (hk : (setup.input.get d).kind = .eof)
    (body : List Node) (hs : Node.allStatements body) (bound : Nat) (sofar : List Node) (c : Nat)
    (hw : setup.input.AllWrites (fun _ => False) c body d) :
    Finds setup keeps Failure.IsExhausted (statementsToEnd (self .statement) bound sofar) c
      fun found stop => found.map Node.unplaced = (sofar.reverse ++ body).map Node.unplaced ∧
        stop = d := by
  induction bound generalizing body sofar c with
  | zero => exact finds_exhausted trivial
  | succ bound ih =>
    cases body with
    | nil =>
      obtain rfl := hw.of_nil
      exact finds_statementsToEnd_succ (fun _ => ⟨by simp, rfl⟩) fun hn => absurd hk hn
    | cons n rest =>
      obtain ⟨e, hopener, hn, hs, hw⟩ := complete_nextStatement hself hk (by decide) hs hw
      refine finds_statementsToEnd_succ (fun he => absurd (he ▸ hopener) (by decide)) fun _ => ?_
      refine hn.imp fun m hm => (ih rest hs (m :: sofar) e hw).imp fun found stop h => ?_
      exact ⟨by simpa [hm] using h.1, h.2⟩

theorem complete_statementsToBrace {d : Nat} (hk : (setup.input.get d).kind = Symbol.rbrace)
    (body : List Node) (hs : Node.allStatements body) (bound : Nat) (sofar : List Node) (c : Nat)
    (hw : setup.input.AllWrites (fun _ => False) c body d) :
    Finds setup keeps Failure.IsExhausted (statementsToBrace (self .statement) bound sofar) c
      fun found stop => found.map Node.unplaced = (sofar.reverse ++ body).map Node.unplaced ∧
        stop = d := by
  induction bound generalizing body sofar c with
  | zero => exact finds_exhausted trivial
  | succ bound ih =>
    cases body with
    | nil =>
      obtain rfl := hw.of_nil
      refine finds_statementsToBrace_succ (fun _ => ⟨by simp, rfl⟩) (fun he => ?_) fun hn => absurd hk hn
      rw [hk] at he
      cases he
    | cons n rest =>
      obtain ⟨e, hopener, hn, hs, hw⟩ := complete_nextStatement hself hk (by decide) hs hw
      refine finds_statementsToBrace_succ (fun he => absurd (he ▸ hopener) (by decide))
        (fun he => absurd (he ▸ hopener) (by decide)) fun _ _ => ?_
      refine hn.imp fun m hm => (ih rest hs (m :: sofar) e hw).imp fun found stop h => ?_
      exact ⟨by simpa [hm] using h.1, h.2⟩

/-- A program is found up to the end of the input. -/
theorem complete_program {c stop : Nat} {n : Node} (h : n.isProgram)
    (hw : setup.input.Writes (fun _ => False) c n stop) (hk : (setup.input.get stop).kind = .eof) :
    Reaches setup keeps (program self) c n stop := by
  cases n with
  | program loc body =>
    simp only [program]
    rw [Reaches, finds_current_bind, finds_rounds_bind]
    refine (complete_statementsToEnd hself hk body h _ [] c hw).bind
      fun found e hf => finds_pure ⟨?_, hf.2⟩
    simpa [Node.unplaced, Node.allUnplaced_eq_map] using hf.1
  | _ => cases h

theorem complete_block : Complete setup keeps .block (block self) := by
  intro c n stop h
  have had := h.admitted
  simp only [Rule.admits, Bool.and_eq_true, decide_eq_true_eq] at had
  have hb := Node.isBlock_of_statementRule had.2
  cases n with
  | block loc body =>
    obtain ⟨d, ho, hw, hc, rfl⟩ := h.written.of_block
    refine finds_expectOne_bind (fun _ => ?_) fun hn => absurd (List.mem_singleton.mpr ho) hn
    rw [after_of_symbol ho, finds_rounds_bind]
    refine (complete_statementsToBrace hself hc body had.1 _ [] _ hw).bind
      fun found e hfound => ?_
    obtain ⟨hf, rfl⟩ := hfound
    refine finds_expect_bind (fun _ => finds_pure ⟨?_, after_of_symbol hc⟩) fun hn => absurd hc hn
    simpa [Node.unplaced, Node.allUnplaced_eq_map] using hf
  | _ => cases hb

/-- A part behind its mark, or none where the mark does not stand. -/
theorem complete_marked {β : Type} {r : Rule} {mark : Lexeme} {kind : TokenKind} {part : Option Node} {c d : Nat}
    {next : Option Node → Parse β} {found : β → Nat → Prop} (hr : r ≠ .program) (hmark : mark.kind = kind)
    (hw : setup.input.MarkedWrites (fun _ => False) mark c part d)
    (hnone : part = none → (setup.input.get c).kind ≠ kind)
    (hsome : ∀ n, part = some n → setup.input.Writes (fun _ => False) (c + 1) n d →
      setup.input.Reads (fun _ => False) r (c + 1) n d)
    (hnext : ∀ v, Node.unplaced? v = Node.unplaced? part →
      Finds setup keeps Failure.IsExhausted (next v) d found) :
    Finds setup keeps Failure.IsExhausted
      (skip kind >>= fun b => if b then some <$> self r >>= next else pure none >>= next) c found := by
  subst hmark
  cases part with
  | none =>
    obtain rfl := hw.of_none
    exact finds_marked_bind (fun _ => hnext none rfl) fun hk => absurd hk (hnone rfl)
  | some n =>
    obtain ⟨hk, hn⟩ := hw.of_some
    refine finds_marked_bind (fun hne => absurd hk hne) fun _ => ?_
    rw [hw.after_of_some]
    refine (hself r hr (c + 1) n d (hsome n rfl hn)).bind fun m hm => hnext (some m) ?_
    simp [Node.unplaced?, hm]

theorem complete_conditionalStatement :
    Complete setup keeps .conditionalStatement (conditionalStatement self) := by
  intro c n stop h
  have had := h.admitted
  simp only [Rule.admits, Bool.and_eq_true, decide_eq_true_eq] at had
  cases n with
  | conditionalStatement loc test consequent alternate =>
    obtain ⟨d, e, hif, ho, hwt, hc, hwc, hwa⟩ := h.written.of_conditionalStatement
    have hs := had.1
    simp only [Node.isStatement, Bool.and_eq_true, Bool.not_eq_true'] at hs
    obtain ⟨⟨⟨ht, hsc⟩, hsa⟩, hd⟩ := hs
    refine finds_expectOne_bind (fun _ => ?_) fun hn => absurd (List.mem_singleton.mpr hif) hn
    rw [after_of_keyword hif]
    have hrc : setup.input.Reads (fun _ => False) .statement (d + 1) consequent e := by
      refine ⟨hsc, hwc, by simp [Rule.continuers], by simp [Node.not_endsOpen_of_isStatement hsc],
        fun hdangles => ?_⟩
      cases alternate with
      | some a => simp [hdangles] at hd
      | none =>
        obtain rfl := hwa.of_none
        exact h.ended.elseless rfl
    have hpair : Finds setup keeps Failure.IsExhausted
        (attempt (conditionAndStatement self) [conditionAndBlock self]) (c + 1) fun found stop =>
          (found.1.unplaced = test.unplaced ∧ found.2.unplaced = consequent.unplaced) ∧ stop = e := by
      refine Finds.attempt ?_
      refine (complete_condition hself ht ho hwt hc).bind fun m hm => ?_
      exact (hself .statement (by decide) (d + 1) consequent e hrc).bind fun q hq => finds_pure ⟨⟨hm, hq⟩, rfl⟩
    refine hpair.bind fun pair e hfound => ?_
    obtain ⟨m, q⟩ := pair
    obtain ⟨⟨hm, hq⟩, rfl⟩ := hfound
    refine complete_marked hself (r := .statement) (by decide) rfl hwa (fun ha => ?_) (fun a ha hw => ?_)
      fun v hv => finds_pure ⟨?_, rfl⟩
    · subst ha
      obtain rfl := hwa.of_none
      exact h.ended.elseless rfl
    · subst ha
      exact ⟨hsa, hw, by simp [Rule.continuers], by simp [Node.not_endsOpen_of_isStatement hsa],
        h.ended.elseless⟩
    · simp only [Node.unplaced, hm, hq, hv]
  | _ => cases had.2

theorem complete_bindingPattern : Complete setup keeps .bindingPattern (bindingPattern self) := by
  intro c n stop h
  have hb : n.isBinding := h.admitted
  have hw := h.written
  simp only [bindingPattern]
  rw [Reaches, finds_current_bind]
  cases n with
  | identifier loc name =>
    obtain ⟨hs, rfl⟩ := hw.of_token rfl
    have hk := kind_of_shows hs
    have hv := value_of_shows hs
    simp only [hk]
    exact reaches_token (by simp [Node.unplaced, hv]) (after_of_shows hs)
  | arrayPattern loc elements =>
    obtain ⟨d, hk, hwe, hk', rfl⟩ := hw.of_arrayPattern
    simp only [hk]
    refine (complete_delimited hself (r := .bindingPattern) (s := .rbrack) (by decide) rfl (by simp [hk])
      hk' (fun n hn => ?_) hwe).bind fun q stop hq => finds_pure ?_
    · have hn := Node.allBindings_iff.mp hb n hn
      refine ⟨hn, fun k _ => ?_, fun c stop hw => ?_⟩
      · exact endsBefore_of_isBinding hn
      · rcases kind_of_isBinding hn hw with hk | hk <;> simp [hk]
    · exact ⟨by simp [Node.unplaced, hq.1], hq.2⟩
  | _ => cases hb

/-- What is declared, behind the words that open the declaration. -/
theorem complete_declarationRest (loc loc' : Loc) (constant mutable : Bool) {left : Node}
    {type right : Option Node} {c d e f : Nat} (hl : left.isBinding)
    (hwl : setup.input.Writes (fun _ => False) c left d)
    (ht : Node.noneOrType right.isSome type)
    (hwt : setup.input.MarkedWrites (fun _ => False) (.ofSymbol .colon) d type e)
    (hr : Node.noneOrExpression right)
    (hwr : setup.input.MarkedWrites (fun _ => False) (.ofSymbol .assign) e right f)
    (hk : (setup.input.get f).kind = Symbol.semi) :
    Reaches setup keeps (declarationRest self loc' constant mutable) c
      (.declaration loc left type right constant mutable) (f + 1) := by
  have hrl : setup.input.Reads (fun _ => False) .bindingPattern c left d :=
    ⟨hl, hwl, endsBefore_of_isBinding hl⟩
  refine (hself .bindingPattern nofun c left d hrl).bind fun l hl => ?_
  -- Behind the type stands the mark of a value, or the semicolon.
  have hbehind : right.isSome ∧ (setup.input.get e).kind = Symbol.assign ∨
      right = none ∧ (setup.input.get e).kind = Symbol.semi := by
    cases right with
    | none => exact .inr ⟨rfl, hwr.of_none ▸ hk⟩
    | some r => exact .inl ⟨rfl, hwr.of_some.1⟩
  refine complete_marked hself (r := .operand) (by decide) rfl hwt (fun hnone => ?_) (fun t hsome hw => ?_)
    fun t' hut => ?_
  · subst hnone
    obtain rfl := hwt.of_none
    rcases hbehind with ⟨-, hk⟩ | ⟨-, hk⟩ <;> simp [hk]
  · subst hsome
    simp only [Node.noneOrType, Bool.and_eq_true, Bool.not_eq_true', Bool.and_eq_false_iff] at ht
    obtain ⟨⟨het, hat⟩, hot⟩ := ht
    have hbt := Node.bindsAt_of_not_isAssignment het hat
    rcases hbehind with ⟨hright, hk⟩ | ⟨-, hk⟩
    · have hopen := hot.resolve_left (by simp [hright])
      exact .of_standsBefore rfl (by decide) het (Node.standsBefore_iff.mpr ⟨hbt, hopen⟩) hw
        (by rw [hk]; decide)
    · exact .of_not_continuer rfl (by decide) het hbt hw (by rw [hk]; decide) (List.subset_cons_self ..)
  refine complete_marked hself (r := .expression) (by decide) rfl hwr (fun hnone => ?_) (fun r hsome hw => ?_)
    fun r' hur => ?_
  · subst hnone
    obtain rfl := hwr.of_none
    simp [hk]
  · subst hsome
    have her : r.isExpression := hr
    exact .of_not_continuer rfl (by decide) her (Node.bindsAt_assignment her) hw (by rw [hk]; decide)
      (List.Subset.refl _)
  · refine finds_expect_bind (fun _ => finds_pure ⟨?_, after_of_symbol hk⟩) fun hn => absurd hk hn
    simp only [Node.unplaced, hl, hut, hur]

theorem complete_declaration : Complete setup keeps .declaration (declaration self) := by
  intro c n stop h
  have had := h.admitted
  simp only [Rule.admits, Bool.and_eq_true, decide_eq_true_eq] at had
  cases n with
  | declaration loc left type right constant mutable =>
    obtain ⟨d, e, f, hs, hwl, hwt, hwr, hk, rfl⟩ := h.written.of_declaration
    have hst := had.1
    simp only [Node.isStatement, Bool.and_eq_true, Bool.not_eq_true'] at hst
    obtain ⟨⟨⟨hl, ht⟩, hr⟩, hcm⟩ := hst
    have declared := complete_declarationRest hself loc (locOf (setup.input.get c)) constant mutable
      hl hwl ht hwt hr hwr hk
    have hword := kind_of_declarationWords hs
    rw [declaration_eq]
    refine finds_expectOne_bind (fun _ => ?_) fun hn => absurd (by simpa using hword) hn
    rw [hword.elim after_of_keyword after_of_keyword]
    simp only [finds_sees_bind]
    have hmut : constant = true ∨ mutable = false →
        (setup.input.get (c + 1)).kind ≠ Keyword.mutWord := by
      intro hcm
      have hlen : (Node.declarationWords constant mutable).length = 1 := by
        rcases hcm with rfl | rfl
        · rfl
        · cases constant <;> rfl
      rw [hlen] at hwl
      rcases kind_of_isBinding hl hwl with hk | hk <;> simp [hk]
    cases constant with
    | true =>
      have hc : (setup.input.get c).kind = Keyword.constWord := kind_of_shows_keyword hs
      obtain rfl : mutable = false := by simpa using hcm
      rw [if_neg (by simpa using hmut (.inl rfl)), decide_eq_false (hmut (.inl rfl)),
        decide_eq_true hc]
      exact declared
    | false =>
      cases mutable with
      | false =>
        have hc : (setup.input.get c).kind = Keyword.letWord := kind_of_shows_keyword hs
        rw [if_neg (by simpa using hmut (.inr rfl)), decide_eq_false (hmut (.inr rfl)),
          decide_eq_false (by simp [hc])]
        exact declared
      | true =>
        have hc : (setup.input.get c).kind = Keyword.letWord := kind_of_shows_keyword hs
        have hm : (setup.input.get (c + 1)).kind = Keyword.mutWord := kind_of_shows_keyword hs.2.2
        rw [if_pos (decide_eq_true hm), if_neg (by simp [hc]), finds_advance_bind,
          after_of_keyword hm, decide_eq_true hm, decide_eq_false (by simp [hc])]
        exact declared
  | _ => cases had.2

end

/-- Every rule finds whatever tree its tokens read as. -/
theorem complete_body (hp : setup.input.IsProper)
    (hsound : ∀ r, Sound setup keeps r (self r)) (hself : ∀ r, r ≠ .program → Complete setup keeps r (self r))
    (r : Rule) (hr : r ≠ .program) : Complete setup keeps r (body self r) := by
  cases r with
  | program => exact absurd rfl hr
  | statement => exact complete_statement hself
  | expressionStatement => exact complete_expressionStatement hself
  | block => exact complete_block hself
  | conditionalStatement => exact complete_conditionalStatement hself
  | declaration => exact complete_declaration hself
  | bindingPattern => exact complete_bindingPattern hself
  | expression => exact complete_expression hself
  | operand =>
    intro c n stop h
    obtain ⟨he, hb⟩ := (Rule.admits_iff rfl (by decide)).mp h.admitted
    exact hself .comparison nofun c n stop (h.tighten .comparison rfl rfl (by decide) hb (List.Subset.refl _))
  | comparison => exact complete_comparison hp hself
  | additive =>
    rw [body, ← Level.kinds_additive]
    exact complete_binaryLeft hp hself Rule.additive_isLeftLayer
  | multiplicative =>
    rw [body, ← Level.kinds_multiplicative]
    exact complete_binaryLeft hp hself Rule.multiplicative_isLeftLayer
  | exponent => exact complete_exponent hp hself
  | unary => exact complete_unary hp hself
  | postfixChain => exact complete_postfixChain hself
  | primary => exact complete_primary hself
  | conditional => exact complete_conditional hp hsound hself

end Grammar

end MagSyntax
