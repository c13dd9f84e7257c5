import MagSyntax.Proofs.Complaints
import MagSyntax.Proofs.Stretches

/-! The body of a rule keeps two parses of the same tokens in step if the rules that it calls do, and leaves the
count of brackets and `if`s as it found it. So it is behind the last of the tokens only where
nothing is open, and there it does not go on. -/

namespace MagSyntax

open Parse Stretch Balance

namespace Parse.Stretch

/-- A rule may be called behind these tokens, with this count: a statement stands between brackets, and a block
where something is open or where it is the whole of the tokens. -/
structure Fits (k : Stretch) (r : Rule) (i : Nat) (s : Balance) : Prop where
  counted : k.At i s
  behind : s.behind ≠ .dot
  inside : r ∈ [Rule.statement, .expressionStatement, .conditionalStatement, .declaration,
    .bindingPattern] → s.brackets ≠ 0
  block : r = .block → s ≠ .even ∨ i < k.tokens.length
  notProgram : r ≠ .program

variable {k : Stretch} {i : Nat} {s : Balance} {r : Rule} {α β : Type} {opens : α → Prop}

theorem asks_of_subset {kinds : List TokenKind} (h : kinds ⊆ asked) :
    ∀ kind ∈ kinds, k.Asks i s kind :=
  fun _ hm => asks_of_mem (h hm)

theorem asks_symbol (hs : s ≠ .even) {x : Symbol} : k.Asks i s x := asks_of_ne hs nofun

theorem asks_keyword (hs : s ≠ .even) {w : Keyword} : k.Asks i s w := asks_of_ne hs nofun

theorem settle_behind_ne (s : Balance) : s.settle.behind ≠ .dot := by simp [settle]

theorem ne_even_of_brackets (h : s.brackets ≠ 0) : s ≠ .even := by
  rintro rfl
  exact h rfl

theorem not_opens_of_brackets (h : s.brackets ≠ 0) (v : Node) : ¬Opens r s v :=
  fun ho => ne_even_of_brackets (s := s.settle) h ho.1

/-- What ends with something open is open at its end itself. -/
theorem Opens.operand {r' : Rule} {v w : Node} (ho : Opens r s v) (hr : r ≠ .expression)
    (hvw : v.endsOpen → w.endsOpen) : Opens r' s w :=
  ⟨ho.1, .inr (hvw (ho.2.resolve_left hr))⟩

/-- Tokens that do not count leave the count as it is. -/
theorem step_of_uncounted {kinds : List TokenKind} (hd : s.behind ≠ .dot)
    (h : ∀ kind ∈ kinds, kind ∉ Balance.counted) :
    ∀ t : Token, t.kind ∈ kinds → s.step t = some s.settle :=
  fun _ ht => step_uncounted hd (h _ ht)

/-- Where an assignment is swallowed the left parse has nothing to go on with. -/
theorem IsFair.left_of_swallows (hk : k.IsFair) (hw : k.Swallows) :
    (k.left.get (k.start + k.tokens.length)).kind ∉ TokenKind.symbol .assign :: asked := by
  have hassign := hw.2
  cases hk.halts _ hw.1 with
  | ended h h' => rw [h'] at hassign; cases hassign
  | even hs h => exact h
  | dot hs => cases hs

theorem stays_pure {v : α} (h : opens v) : k.Stays (pure v) opens := finds_pure ⟨rfl, h⟩

theorem stays_rounds_bind {next : Nat → Parse α} (h : ∀ bound, k.Stays (next bound) opens) :
    k.Stays (rounds >>= next) opens :=
  finds_rounds_bind.mpr (h _)

theorem stays_accept_bind (hk : k.IsFair) (hw : k.Swallows) {kinds : List TokenKind}
    (hkinds : kinds ⊆ TokenKind.symbol .assign :: asked) {next : Option Token → Parse α}
    (h : k.Stays (next none) opens) : k.Stays (accept kinds >>= next) opens := by
  rw [Stays, finds_accept_bind, input_setup, if_neg fun hm => hk.left_of_swallows hw (hkinds hm)]
  exact h

theorem stays_skip_bind (hk : k.IsFair) (hw : k.Swallows) {kind : TokenKind}
    (hkind : kind ∈ TokenKind.symbol .assign :: asked) {next : Bool → Parse α}
    (h : k.Stays (next false) opens) : k.Stays (skip kind >>= next) opens := by
  rw [Stays, finds_skip_bind, input_setup, if_neg]
  · exact h
  · rintro rfl
    exact hk.left_of_swallows hw hkind

theorem stays_check_bind (hk : k.IsFair) (hw : k.Swallows) {kinds : List TokenKind}
    (hkinds : kinds ⊆ TokenKind.symbol .assign :: asked) {next : Bool → Parse α}
    (h : k.Stays (next false) opens) : k.Stays (check kinds >>= next) opens := by
  rw [Stays, finds_check_bind, input_setup,
    decide_eq_false fun hm => hk.left_of_swallows hw (hkinds hm)]
  exact h

theorem stays_sees_bind (hk : k.IsFair) (hw : k.Swallows) {kind : TokenKind}
    (hkind : kind ∈ TokenKind.symbol .assign :: asked) {next : Bool → Parse α}
    (h : k.Stays (next false) opens) : k.Stays (sees kind >>= next) opens :=
  stays_check_bind hk hw (by simpa using hkind) h

/-- The left parse ends behind the tokens, whatever the right one does. -/
theorem inStep_of_swallows {found : α → Nat → Prop} {step step' : Parse α} (hw : k.Swallows)
    (h : k.Stays step opens) : InStep k k.tokens.length step step' found opens := by
  intro depth p q hb
  have h := h p hb.cursor trivial
  cases hr : step.run k.setup p with
  | ok v p' =>
    rw [hr] at h
    exact .swallowed h.2.1 hw h.2.2
  | failed f p' =>
    rw [hr] at h
    cases f with
    | exhausted => exact .exhausted
    | mismatch | unclosable => exact h.2.elim

end Parse.Stretch

namespace Grammar

variable {k : Stretch} {i : Nat} {s : Balance} {self self' : Rule → Parse Node}

/-- The rules that a rule calls keep in step. -/
def CallsInStep (k : Stretch) (self self' : Rule → Parse Node) : Prop :=
  ∀ r i s, k.Fits r i s → InStep k i (self r) (self' r) (k.Found r s) (Opens r s)

/-- A rule of values can be called wherever no name of a field has to follow. -/
theorem CallsInStep.value (h : CallsInStep k self self') (r : Rule) (hat : k.At i s)
    (hd : s.behind ≠ .dot) (hr : r.isValue) :
    InStep k i (self r) (self' r) (k.Found r s) (Opens r s) := by
  refine h r i s ⟨hat, hd, fun hm => ?_, fun hb => ?_, fun hp => ?_⟩
  · cases r <;> simp at hm <;> cases hr
  · subst hb; cases hr
  · subst hp; cases hr

/-- A rule of statements is called between brackets. -/
theorem CallsInStep.statement (h : CallsInStep k self self') (r : Rule) (hat : k.At i s)
    (hd : s.behind ≠ .dot) (hs : s.brackets ≠ 0) (hr : r ≠ .program) :
    InStep k i (self r) (self' r) (k.Found r s) (Opens r s) :=
  h r i s ⟨hat, hd, fun _ => hs, fun _ => .inl (ne_even_of_brackets hs), hr⟩

section

variable (hk : k.IsFair) (h : CallsInStep k self self')
include hk h

omit hk h in
theorem inStep_toTarget {j : Nat} (hat : k.At j s) (hd : s.behind ≠ .dot) (node : Node)
    (hsame : k.right.get (k.start' + j) = k.left.get (k.start + j)) :
    InStep k (j + 1) (toTarget node (k.left.get (k.start + j))) (toTarget node (k.left.get (k.start + j)))
      (fun _ d => d = j + 1) fun _ => False := by
  unfold toTarget
  split
  · exact inStep_pure rfl
  next part _ =>
    have hreach := hat.reaches hd (.assignmentTarget part.typeName)
    rw [hsame] at hreach
    exact inStep_mismatch hreach

theorem inStep_expression (hat : k.At i s) (hd : s.behind ≠ .dot) :
    InStep k i (expression self) (expression self') (k.Found .expression s) (Opens .expression s) := by
  have hd' := settle_behind_ne s
  refine (h.value .operand hat hd rfl).bind (fun left j hl => ?_) fun hw left hl =>
    stays_accept_bind hk hw (by simp) (stays_pure ⟨hl.1, .inl rfl⟩)
  have hleft : k.Found .expression s left j := ⟨hl.counted, fun _ => hl.value rfl⟩
  obtain ⟨-, hsame, hne, hat⟩ | ⟨rfl, hstop⟩ := hk.token hl.counted
  · by_cases hm : (k.left.get (k.start + j)).kind ∈ [TokenKind.symbol .assign]
    · refine inStep_accept_same hsame hne hm ?_
      have hat := hat _ (step_uncounted hd' (by rw [List.mem_singleton.mp hm]; decide))
      refine (inStep_toTarget hl.counted hd' left hsame).bind_inside (fun _ => id) fun target d hd => ?_
      subst hd
      exact (h.value .expression hat hd' rfl).bind
        (fun right d hr => inStep_pure ⟨hr.counted, fun _ => rfl⟩)
        fun _ right hr => stays_pure ⟨hr.1, .inl rfl⟩
    · exact inStep_accept_none hm (hsame ▸ hm) (inStep_pure hleft)
  -- behind the tokens the right parse may go on with an assignment, the left one does not
  · cases hstop with
    | ended hl hr => exact inStep_accept_none (by simp [hl]) (by simp [hr]) (inStep_pure hleft)
    | even hs hl' _ =>
      have hn : (k.left.get (k.start + k.tokens.length)).kind ∉ [TokenKind.symbol .assign] :=
        fun hm => hl' (List.mem_singleton.mp hm ▸ List.mem_cons_self)
      by_cases hr : (k.right.get (k.start' + k.tokens.length)).kind ∈ [TokenKind.symbol .assign]
      · have hw : k.Swallows := ⟨hs ▸ hl.counted, List.mem_singleton.mp hr⟩
        exact inStep_of_swallows hw (stays_accept_bind hk hw (by simp) (stays_pure ⟨hs, .inl rfl⟩))
      · exact inStep_accept_none hn hr (inStep_pure hleft)
    | dot hs => exact absurd hs hd'

theorem inStep_comparison (hat : k.At i s) (hd : s.behind ≠ .dot) :
    InStep k i (comparison self) (comparison self') (k.Found .comparison s) (Opens .comparison s) := by
  have hd' := settle_behind_ne s
  have hasks {j : Nat} : ∀ kind ∈ comparisons, k.Asks j s.settle kind := asks_of_subset (by decide)
  have hops : comparisons ⊆ TokenKind.symbol .assign :: asked := by decide
  refine (h.value .additive hat hd rfl).bind (fun left j hl => ?_) fun hw left hl =>
    stays_accept_bind hk hw hops (stays_pure (hl.operand (by decide) id))
  refine inStep_accept_bind hk hl.counted hd' hasks (step_of_uncounted hd' (by decide))
    (fun t ht hat => ?_) (inStep_pure ⟨hl.counted, fun _ => hl.value rfl⟩)
  refine (h.value .additive hat hd' rfl).bind (fun right j hr => ?_) fun hw right hr =>
    stays_check_bind hk hw hops (stays_pure (hr.operand (by decide) id))
  exact inStep_check_bind hk hr.counted hd' hasks (fun _ => inStep_complain_bind hr.counted hd')
    (inStep_pure ⟨hr.counted, fun _ => rfl⟩)

theorem inStep_exponent (hat : k.At i s) (hd : s.behind ≠ .dot) :
    InStep k i (exponent self) (exponent self') (k.Found .exponent s) (Opens .exponent s) := by
  have hd' := settle_behind_ne s
  refine (h.value .unary hat hd rfl).bind (fun base j hl => ?_) fun hw base hl =>
    stays_accept_bind hk hw (by decide) (stays_pure (hl.operand (by decide) id))
  refine inStep_accept_bind hk hl.counted hd' (asks_of_subset (by decide))
    (step_of_uncounted hd' (by decide)) (fun t ht hat => ?_)
    (inStep_pure ⟨hl.counted, fun _ => hl.value rfl⟩)
  exact (h.value .exponent hat hd' rfl).bind
    (fun power j hr => inStep_pure ⟨hr.counted, fun _ => rfl⟩)
    fun _ power hr => stays_pure (hr.operand (by decide) id)

theorem inStep_unary (hat : k.At i s) (hd : s.behind ≠ .dot) :
    InStep k i (unary self) (unary self') (k.Found .unary s) (Opens .unary s) := by
  refine inStep_accept_bind hk hat hd (asks_of_subset (by decide)) (step_of_uncounted hd (by decide))
    (fun t ht hat => ?_) ?_
  · exact (h.value .postfixChain hat (settle_behind_ne s) rfl).bind
      (fun argument j hr => inStep_pure ⟨hr.counted, fun _ => rfl⟩)
      fun _ argument hr => stays_pure (hr.operand (by decide) id)
  · exact (h.value .postfixChain hat hd rfl).imp (fun v j hv => ⟨hv.counted, fun _ => hv.value rfl⟩)
      fun v hv => hv.operand (by decide) id

omit h in
theorem stays_operatorsLeft {operators : List TokenKind} (hasked : operators ⊆ asked) (hw : k.Swallows)
    {operand : Parse Node} {opens : Node → Prop} (bound : Nat) {v : Node} (hv : opens v) :
    k.Stays (operatorsLeft operators operand bound v) opens := by
  cases bound with
  | zero => exact finds_exhausted trivial
  | succ bound =>
    exact stays_accept_bind hk hw (fun _ hm => List.mem_cons_of_mem _ (hasked hm)) (stays_pure hv)

/-- Operators that group to the left, on bounds of any size. -/
theorem inStep_operatorsLeft {r r' : Rule} {operators : List TokenKind} (hr : r.isValue)
    (hne : r ≠ .expression) (hasked : operators ⊆ asked)
    (hplain : ∀ kind ∈ operators, kind ∉ Balance.counted) (bound bound' : Nat) (left : Node) {j : Nat}
    (hl : k.Found r s left j) :
    InStep k j (operatorsLeft operators (self r) bound left)
      (operatorsLeft operators (self' r) bound' left) (k.Found r' s) (Opens r' s) := by
  have hd' := settle_behind_ne s
  induction bound generalizing bound' left j with
  | zero => exact inStep_exhausted
  | succ bound ih =>
    cases bound' with
    | zero => exact inStep_exhausted'
    | succ bound' =>
      refine inStep_accept_bind hk hl.counted hd' (asks_of_subset hasked) (step_of_uncounted hd' hplain)
        (fun t ht hat => ?_) (inStep_pure ⟨hl.counted, fun _ => hl.value hr⟩)
      refine (h.value r hat hd' hr).bind (fun right j hr => ih _ _ ⟨hr.counted, fun _ => rfl⟩)
        fun hw right hr => stays_operatorsLeft hk hasked hw bound (hr.operand hne id)

theorem inStep_binaryLeft {r r' : Rule} {operators : List TokenKind} (hr : r.isValue)
    (hne : r ≠ .expression) (hasked : operators ⊆ asked)
    (hplain : ∀ kind ∈ operators, kind ∉ Balance.counted) (hat : k.At i s) (hd : s.behind ≠ .dot) :
    InStep k i (binaryLeft operators (self r)) (binaryLeft operators (self' r)) (k.Found r' s)
      (Opens r' s) := by
  refine (h.value r hat hd hr).bind (fun left j hl => ?_) fun hw left hl =>
    stays_rounds_bind fun bound => stays_operatorsLeft hk hasked hw bound (hl.operand hne id)
  exact inStep_rounds_bind fun bound bound' =>
    inStep_operatorsLeft hk h hr hne hasked hplain bound bound' left hl

omit h in
/-- Behind a dot both read the name of a field, or both complain that it is missing. -/
theorem inStep_fieldName (hat : k.At i s) (hd : s.behind = .dot) :
    InStep k i fieldName fieldName (fun _ j => k.At j s.settle) fun _ => False := by
  have hreach : k.Reaches (.ofToken .fieldName (k.right.get (k.start' + i))) :=
    ⟨i, s, .fieldName, hat, rfl, fun _ => rfl⟩
  have hcomplain {next next' : Unit → Parse Node} :
      InStep k i (complain .fieldName >>= next) (complain .fieldName >>= next')
        (fun _ j => k.At j s.settle) fun _ => False := by
    intro depth p q hb
    rw [run_bind, run_bind, run_complain, run_complain, input_setup', hb.cursor']
    exact .mismatch hb.kin hreach
  have hmissing (hn : (k.left.get (k.start + i)).namesField = false)
      (hn' : (k.right.get (k.start' + i)).namesField = false) :
      InStep k i fieldName fieldName (fun _ j => k.At j s.settle) fun _ => False := by
    refine inStep_current_bind ?_
    rw [if_pos (Token.namesField_eq_false_iff.mp hn), if_pos (Token.namesField_eq_false_iff.mp hn')]
    exact hcomplain
  obtain ⟨-, hsame, hne, hstep⟩ | ⟨-, hstop⟩ := hk.token hat
  · cases hn : (k.left.get (k.start + i)).namesField with
    | false => exact hmissing hn (hsame ▸ hn)
    | true =>
      refine inStep_current_bind ?_
      rw [hsame, if_neg fun hc => by simp [Token.namesField_eq_false_iff.mpr hc] at hn]
      exact inStep_advance_bind hsame hne (inStep_pure (hstep _ (step_name hd hn)))
  · cases hstop with
    | ended _ _ hn hn' => exact hmissing hn hn'
    | even hs => cases hs; cases hd
    | dot _ hn hn' => exact hmissing hn hn'

omit hk h in
theorem inStep_elements (hk : k.IsFair) {close : TokenKind} (hclose : close ≠ .eof)
    {element element' : Parse Node} (hs : s.brackets ≠ 0)
    (helement : ∀ j, k.At j s.settle → InStep k j element element' (fun _ d => k.At d s.settle) fun _ => False)
    (bound bound' : Nat) (sofar : List Node) {j : Nat} (hat : k.At j s.settle) :
    InStep k j (elements close element bound sofar) (elements close element' bound' sofar)
      (fun _ d => k.At d s.settle) fun _ => False := by
  have hd := settle_behind_ne s
  have hne : s.settle ≠ .even := ne_even_of_brackets hs
  induction bound generalizing bound' sofar j with
  | zero => exact inStep_exhausted
  | succ bound ih =>
    cases bound' with
    | zero => exact inStep_exhausted'
    | succ bound' =>
      refine inStep_sees_bind hk hat hd (asks_of_ne hne hclose) (fun _ => inStep_pure hat) ?_
      refine (helement j hat).bind_inside (fun _ => id) fun next d hat => ?_
      exact inStep_skip_bind hk hat hd (asks_symbol hne) (fun t ht => step_uncounted hd (by rw [ht]; decide))
        (fun hat => ih _ _ hat) (inStep_pure hat)

/-- A list between brackets, whose opening bracket both stand on. -/
theorem inStep_delimited {r : Rule} {close bracket : Symbol} (hclose : closingBracket? close = some bracket)
    (hclosing : TokenKind.symbol close ∈ [TokenKind.symbol .rparen, Symbol.rbrack, Symbol.rbrace])
    (hr : r = .expression ∨ r = .bindingPattern) (hat : k.At i s) (hd : s.behind ≠ .dot)
    (hopening : (k.left.get (k.start + i)).kind ∈ [TokenKind.symbol .lparen, Symbol.lbrack, Symbol.lbrace])
    (hi : i < k.tokens.length) :
    InStep k i (delimited close (self r)) (delimited close (self' r)) (fun _ j => k.At j s.settle)
      fun _ => False := by
  obtain ⟨-, hsame, hne, hstep⟩ | ⟨rfl, -⟩ := hk.token hat
  · have hat := hstep _ (step_opening hd hopening)
    have hb : s.opened.brackets ≠ 0 := Nat.succ_ne_zero _
    have ho : s.opened.behind ≠ .dot := settle_behind_ne s.opened
    refine inStep_advance_bind hsame hne (inStep_rounds_bind fun bound bound' => ?_)
    refine (inStep_elements (s := s.opened) hk (by simp) hb (fun j hat => ?_) bound bound' [] hat).bind_inside
      (fun _ => id) fun items j hat => ?_
    · refine (h.statement r hat ho hb ?_).imp (fun v d hv => hv.counted) (not_opens_of_brackets hb)
      rintro rfl
      simp at hr
    · rw [hclose]
      refine inStep_expect_bind hk hat ho (asks_symbol (opened_ne_even s)) (fun t ht => ?_)
        fun hat => inStep_pure hat
      exact step_closing ho (by rw [ht]; exact hclosing) hb
  · exact absurd hi (Nat.lt_irrefl _)

/-- Fields, elements and calls behind a node, on bounds of any size. -/
theorem inStep_chain (bound bound' : Nat) (node : Node) {j : Nat} (hat : k.At j s.settle)
    (hn : node.isBlock = false) :
    InStep k j (chain self bound node) (chain self' bound' node) (k.Found .postfixChain s)
      (Opens .postfixChain s) := by
  have hd := settle_behind_ne s
  induction bound generalizing bound' node j with
  | zero => exact inStep_exhausted
  | succ bound ih =>
    cases bound' with
    | zero => exact inStep_exhausted'
    | succ bound' =>
      refine inStep_skip_bind hk hat hd (asks_of_mem (by decide)) (fun t ht => step_dot hd ht) (fun hat => ?_) ?_
      · exact (inStep_fieldName hk hat rfl).bind_inside (fun _ => id) fun name d hat => ih _ _ hat rfl
      refine inStep_skip_bind hk hat hd (asks_of_mem (by decide))
        (fun t ht => step_opening hd (by rw [ht]; decide)) (fun hat => ?_) ?_
      · have hb : s.settle.opened.brackets ≠ 0 := Nat.succ_ne_zero _
        have ho := settle_behind_ne s.settle.opened
        refine (h.value .expression hat ho rfl).bind_inside (not_opens_of_brackets hb) fun index d hi => ?_
        exact inStep_expect_bind hk hi.counted ho (asks_symbol (opened_ne_even _))
          (fun t ht => step_closing ho (by rw [ht]; decide) hb) fun hat => ih _ _ hat rfl
      refine inStep_sees_bind hk hat hd (asks_of_mem (by decide)) (fun hl => ?_) ?_
      · obtain ⟨hj, -⟩ := hk.taken hat hd (asks_of_mem (by decide)) (.inl hl)
        exact (inStep_delimited hk h rfl (by decide) (.inl rfl) hat hd (by rw [hl]; decide) hj).bind_inside
          (fun _ => id) fun arguments d hat => ih _ _ hat rfl
      · exact inStep_pure ⟨hat, fun _ => hn⟩

omit h in
theorem stays_chain {call : Rule → Parse Node} (hw : k.Swallows) {opens : Node → Prop} (bound : Nat) {v : Node}
    (hv : opens v) : k.Stays (chain call bound v) opens := by
  cases bound with
  | zero => exact finds_exhausted trivial
  | succ bound =>
    refine stays_skip_bind hk hw (by decide) (stays_skip_bind hk hw (by decide) ?_)
    exact stays_sees_bind hk hw (by decide) (stays_pure hv)

theorem inStep_postfixChain (hat : k.At i s) (hd : s.behind ≠ .dot) :
    InStep k i (postfixChain self) (postfixChain self') (k.Found .postfixChain s)
      (Opens .postfixChain s) := by
  refine (h.value .primary hat hd rfl).bind (fun node j hn => ?_) fun hw node hn =>
    stays_rounds_bind fun bound => stays_chain hk hw bound (hn.operand (by decide) id)
  exact inStep_rounds_bind fun bound bound' =>
    inStep_chain hk h bound bound' node hn.counted (hn.value rfl)

theorem inStep_primary (hat : k.At i s) (hd : s.behind ≠ .dot) :
    InStep k i (primary self) (primary self') (k.Found .primary s) (Opens .primary s) := by
  obtain ⟨hi, hsame, hne, hstep⟩ | ⟨rfl, hstop⟩ := hk.token hat
  · refine inStep_current_bind ?_
    rw [hsame]
    have word {n : Node} (hn : n.isBlock = false)
        (hk : (k.left.get (k.start + i)).kind ∉ Balance.counted) :
        InStep k i (do discard advance; return n) (do discard advance; return n) (k.Found .primary s)
          (Opens .primary s) :=
      inStep_advance_bind hsame hne (inStep_pure ⟨hstep _ (step_uncounted hd hk), fun _ => hn⟩)
    dsimp only
    cases hkind : (k.left.get (k.start + i)).kind with
    | ident | number | string | regex => exact word rfl (by rw [hkind]; decide)
    | keyword w =>
      cases w with
      | trueWord | falseWord => exact word rfl (by rw [hkind]; decide)
      | ifWord =>
        exact (h.value .conditional hat hd rfl).imp (fun v j hv => ⟨hv.counted, fun _ => hv.value rfl⟩)
          fun v hv => hv.operand (by decide) id
      | _ => exact inStep_complain hat hd
    | symbol x =>
      cases x with
      | lbrack =>
        exact (inStep_delimited hk h rfl (by decide) (.inl rfl) hat hd (by rw [hkind]; decide) hi).bind_inside
          (fun _ => id) fun elements d hat => inStep_pure ⟨hat, fun _ => rfl⟩
      | lparen =>
        have hat := hstep _ (step_opening hd (by rw [hkind]; decide))
        have ho := settle_behind_ne s.opened
        have hb : s.opened.brackets ≠ 0 := Nat.succ_ne_zero _
        refine inStep_advance_bind hsame hne ?_
        refine (h.value .expression hat ho rfl).bind_inside (not_opens_of_brackets hb) fun inner d hi => ?_
        exact inStep_expect_bind hk hi.counted ho (asks_symbol (opened_ne_even s))
          (fun t ht => step_closing ho (by rw [ht]; decide) hb) fun hat => inStep_pure ⟨hat, fun _ => rfl⟩
      | _ => exact inStep_complain hat hd
    | _ => exact inStep_complain hat hd
  · intro depth p q hb
    have hn {kind : TokenKind} (hm : kind ∈ Rule.starters) :=
      hstop.not_asked (k := k) hd (asks_of_mem (List.mem_append_left _ hm))
    rw [primary_of_not_starter (by rw [input_setup, hb.cursor]; exact fun hm => (hn hm).1 rfl),
      primary_of_not_starter (by rw [input_setup', hb.cursor']; exact fun hm => (hn hm).2 rfl), input_setup,
      input_setup', hb.cursor']
    exact .mismatch hb.kin (hat.reaches hd _)

/-- A condition in parentheses, behind an `if`. -/
theorem inStep_condition (hat : k.At i s) (hd : s.behind ≠ .dot) (hs : s ≠ .even) :
    InStep k i (condition self) (condition self') (fun _ j => k.At j s.settle) fun _ => False := by
  have ho := settle_behind_ne s.opened
  have hb : s.opened.brackets ≠ 0 := Nat.succ_ne_zero _
  refine inStep_expect_bind hk hat hd (asks_symbol hs) (fun t ht => step_opening hd (by rw [ht]; decide))
    fun hat => ?_
  refine (h.value .expression hat ho rfl).bind_inside (not_opens_of_brackets hb) fun test d ht => ?_
  exact inStep_expect_bind hk ht.counted ho (asks_symbol (opened_ne_even s))
    (fun t ht => step_closing ho (by rw [ht]; decide) hb) fun hat => inStep_pure hat

/-- A condition without parentheses and the block behind it. -/
theorem inStep_conditionAndBlock (hat : k.At i s) (hd : s.behind ≠ .dot) (hs : s.settle ≠ .even) :
    InStep k i (conditionAndBlock self) (conditionAndBlock self') (fun _ j => k.At j s.settle)
      fun _ => False := by
  have hd' := settle_behind_ne s
  refine (h.value .operand hat hd rfl).bind_inside (fun _ ho => hs ho.1) fun test j ht => ?_
  refine inStep_sees_bind hk ht.counted hd' (asks_symbol hs) (fun _ => ?_)
    (inStep_complain_bind ht.counted hd')
  refine (h .block j s.settle ⟨ht.counted, hd', fun hm => ?_, fun _ => .inl hs, by decide⟩).bind_inside
    (fun _ ho => hs ho.1) fun block j hb => inStep_pure hb.counted
  exact absurd hm (by decide)

/-- The two branches of an `if` with a value, when they are expressions. -/
theorem inStep_conditionalRest {loc : Loc} {test : Node} {explicitThen : Bool} (hat : k.At i s.branched) :
    InStep k i (conditionalRest self loc test explicitThen) (conditionalRest self' loc test explicitThen)
      (k.Found .conditional s) (Opens .conditional s) := by
  have hb := settle_behind_ne s.branched
  refine (h.value .expression hat hb rfl).bind_inside (fun _ ho => branched_ne_even s ho.1)
    fun consequent j hc => ?_
  refine inStep_expect_bind hk hc.counted hb (asks_keyword (branched_ne_even s))
    (fun t ht => step_else_branched (s := s) ht) fun hat => ?_
  refine (h.value .expression hat (by simp [answered]) rfl).bind (fun alternate j ha => ?_)
    fun _ alternate ha => stays_pure ?_
  · have hat := ha.counted
    rw [settle_answered_branched] at hat
    exact inStep_pure ⟨hat, fun _ => rfl⟩
  · refine ⟨settle_answered_branched s ▸ ha.1, .inr ?_⟩
    simp [Node.endsOpen, hc.value rfl]

theorem inStep_conditionalByBlocks {loc : Loc} (hat : k.At i s.branched) :
    InStep k i (conditionalByBlocks self loc) (conditionalByBlocks self' loc) (k.Found .conditional s)
      (Opens .conditional s) := by
  have hb := settle_behind_ne s.branched
  refine (inStep_conditionAndBlock hk h hat hb (branched_ne_even s)).bind_inside (fun _ => id) ?_
  rintro ⟨test, consequent⟩ j hat
  refine inStep_expect_bind hk hat hb (asks_keyword (branched_ne_even s))
    (fun t ht => step_else_branched (s := s) ht) fun hat => ?_
  have hd : s.branched.answered.behind ≠ .dot := by simp [answered]
  have hne := answered_ne_even s.branched
  have last (r : Rule) (hr : r = .conditional ∨ r = .block) : InStep k (j + 1)
      (self r >>= fun alternate => pure (Node.conditional loc test consequent alternate false))
      (self' r >>= fun alternate => pure (Node.conditional loc test consequent alternate false))
      (k.Found .conditional s) (Opens .conditional s) := by
    have hfits : k.Fits r (j + 1) s.branched.answered :=
      ⟨hat, hd, fun hm => by rcases hr with rfl | rfl <;> exact absurd hm (by decide), fun _ => .inl hne,
        by rcases hr with rfl | rfl <;> decide⟩
    refine (h r _ _ hfits).bind (fun alternate d ha => ?_) fun _ alternate ha => stays_pure ?_
    · have hat := ha.counted
      rw [settle_answered_branched] at hat
      exact inStep_pure ⟨hat, fun _ => rfl⟩
    · have hopen : alternate.endsOpen := ha.2.resolve_left (by rcases hr with rfl | rfl <;> decide)
      refine ⟨settle_answered_branched s ▸ ha.1, .inr ?_⟩
      cases alternate <;> simp_all [Node.endsOpen, Node.isBlock]
  exact inStep_sees_bind hk hat hd (asks_keyword hne) (fun _ => last .conditional (.inl rfl))
    (last .block (.inr rfl))

theorem inStep_conditional (hat : k.At i s) (hd : s.behind ≠ .dot) :
    InStep k i (conditional self) (conditional self') (k.Found .conditional s)
      (Opens .conditional s) := by
  have hb := settle_behind_ne s.branched
  have hne := branched_ne_even s
  refine inStep_expectOne_bind hk hat hd (asks_of_subset (by decide))
    (fun t ht => step_if hd (List.mem_singleton.mp ht)) fun word hword hat => ?_
  refine inStep_attempt ?_ (.cons ?_ (.cons (inStep_conditionalByBlocks hk h hat) .nil))
  · rw [conditionalByParentheses_eq, conditionalByParentheses_eq]
    exact (inStep_condition hk h hat hb hne).bind_inside (fun _ => id)
      fun test j hat => inStep_conditionalRest hk h hat
  · rw [conditionalByThen_eq, conditionalByThen_eq]
    refine (h.value .operand hat hb rfl).bind_inside (fun _ ho => hne ho.1) fun test j ht => ?_
    exact inStep_expect_bind hk ht.counted hb (asks_keyword hne)
      (fun t ht => step_uncounted hb (by rw [ht]; decide)) fun hat => inStep_conditionalRest hk h hat

theorem inStep_statement (hat : k.At i s) (hd : s.behind ≠ .dot) (hs : s.brackets ≠ 0) :
    InStep k i (statement self) (statement self') (k.Found .statement s) (Opens .statement s) := by
  refine inStep_current_bind ?_
  rw [hk.kind_eq hat hd (ne_even_of_brackets hs)]
  have call (r : Rule) (hr : r ≠ .program) :
      InStep k i (self r) (self' r) (k.Found .statement s) (Opens .statement s) :=
    (h.statement r hat hd hs hr).imp (fun v j hv => ⟨hv.counted, fun hv => absurd hv (by decide)⟩)
      fun v hv => absurd hv (not_opens_of_brackets hs v)
  split
  · exact call .conditionalStatement (by decide)
  · exact call .declaration (by decide)
  · exact call .declaration (by decide)
  · exact call .block (by decide)
  · exact call .expressionStatement (by decide)

theorem inStep_expressionStatement (hat : k.At i s) (hd : s.behind ≠ .dot) (hs : s.brackets ≠ 0) :
    InStep k i (expressionStatement self) (expressionStatement self') (k.Found .expressionStatement s)
      (Opens .expressionStatement s) := by
  have hd' := settle_behind_ne s
  have hne : s.settle ≠ .even := ne_even_of_brackets hs
  refine (h.value .operand hat hd rfl).bind_inside (not_opens_of_brackets hs) fun value j hv => ?_
  refine inStep_sees_bind hk hv.counted hd' (asks_symbol hne)
    (fun _ => inStep_complain_bind hv.counted hd') ?_
  exact inStep_expect_bind hk hv.counted hd' (asks_symbol hne)
    (fun t ht => step_uncounted hd' (by rw [ht]; decide))
    fun hat => inStep_pure ⟨hat, fun hv => absurd hv (by decide)⟩

/-- Statements before a closing brace, on bounds of any size. -/
theorem inStep_statementsToBrace (hs : s.brackets ≠ 0) (bound bound' : Nat) (sofar : List Node) {j : Nat}
    (hat : k.At j s.settle) :
    InStep k j (statementsToBrace (self .statement) bound sofar)
      (statementsToBrace (self' .statement) bound' sofar) (fun _ d => k.At d s.settle)
      fun _ => False := by
  have hd := settle_behind_ne s
  have hne : s.settle ≠ .even := ne_even_of_brackets hs
  induction bound generalizing bound' sofar j with
  | zero => exact inStep_exhausted
  | succ bound ih =>
    cases bound' with
    | zero => exact inStep_exhausted'
    | succ bound' =>
      refine inStep_sees_bind hk hat hd (asks_symbol hne) (fun _ => inStep_pure hat) ?_
      refine inStep_check_same (by rw [hk.kind_eq hat hd hne]) (fun _ => inStep_complain_bind hat hd) ?_
      exact (h.statement .statement hat hd hs (by decide)).bind_inside (not_opens_of_brackets hs)
        fun next d hv => ih _ _ hv.counted

theorem inStep_block (hat : k.At i s) (hd : s.behind ≠ .dot) (hb : s ≠ .even ∨ i < k.tokens.length) :
    InStep k i (block self) (block self') (k.Found .block s) (Opens .block s) := by
  have ho := settle_behind_ne s.opened
  have hn : s.opened.brackets ≠ 0 := Nat.succ_ne_zero _
  refine inStep_expectOne_bind hk hat hd (fun kind hm => ?_)
    (fun t ht => step_opening hd (by rw [List.mem_singleton.mp ht]; decide)) fun brace hbrace hat => ?_
  · rw [List.mem_singleton.mp hm]
    exact ⟨nofun, .inr hb⟩
  refine inStep_rounds_bind fun bound bound' => ?_
  refine (inStep_statementsToBrace hk h hn bound bound' [] hat).bind_inside (fun _ => id) fun body j hat => ?_
  exact inStep_expect_bind hk hat ho (asks_symbol (opened_ne_even s))
    (fun t ht => step_closing ho (by rw [ht]; decide) hn)
    fun hat => inStep_pure ⟨hat, fun hv => absurd hv (by decide)⟩

theorem inStep_conditionalStatement (hat : k.At i s) (hd : s.behind ≠ .dot) (hs : s.brackets ≠ 0) :
    InStep k i (conditionalStatement self) (conditionalStatement self') (k.Found .conditionalStatement s)
      (Opens .conditionalStatement s) := by
  have hd' := settle_behind_ne s
  have hne : s.settle ≠ .even := ne_even_of_brackets hs
  have hstep {t : Token} (ht : t.kind = Keyword.ifWord) : s.step t = some s.settle := by
    rw [step_if hd ht]
    simp [branched, settle, hs]
  refine inStep_expectOne_bind hk hat hd (asks_of_subset (by decide))
    (fun t ht => hstep (List.mem_singleton.mp ht)) fun word hword hat => ?_
  have hchoice : InStep k (i + 1) (attempt (conditionAndStatement self) [conditionAndBlock self])
      (attempt (conditionAndStatement self') [conditionAndBlock self']) (fun _ j => k.At j s.settle)
      fun _ => False := by
    refine inStep_attempt ?_ (.cons (inStep_conditionAndBlock (s := s.settle) hk h hat hd' hne) .nil)
    refine (inStep_condition (s := s.settle) hk h hat hd' hne).bind_inside (fun _ => id) fun test j hat => ?_
    exact (h.statement .statement hat hd' hs (by decide)).bind_inside (not_opens_of_brackets hs)
      fun consequent j hc => inStep_pure hc.counted
  refine hchoice.bind_inside (fun _ => id) ?_
  rintro ⟨test, consequent⟩ j hat
  refine inStep_marked_bind hk hat hd' (asks_keyword hne)
    (fun t ht => by rw [step_else hd' ht, if_neg fun hz => hs hz.1]) (fun hat => ?_)
    fun alternate j hat => inStep_pure ⟨hat, fun hv => absurd hv (by decide)⟩
  refine (h.statement .statement hat (by simp [answered]) hs (by decide)).imp (fun alternate d ha => ?_)
    (not_opens_of_brackets hs)
  have hcounted := ha.counted
  simpa [settle, answered, hs] using hcounted

/-- What is declared, behind the words that open the declaration. -/
theorem inStep_declarationRest {loc : Loc} {constant mutable : Bool} (hat : k.At i s.settle)
    (hs : s.brackets ≠ 0) :
    InStep k i (declarationRest self loc constant mutable) (declarationRest self' loc constant mutable)
      (k.Found .declaration s) (Opens .declaration s) := by
  have hd := settle_behind_ne s
  have hne : s.settle ≠ .even := ne_even_of_brackets hs
  have hplain {kind : TokenKind} (hkind : kind ∉ Balance.counted) (t : Token) (ht : t.kind = kind) :
      s.settle.step t = some s.settle := step_uncounted hd (ht ▸ hkind)
  refine (h.statement .bindingPattern hat hd hs (by decide)).bind_inside (not_opens_of_brackets hs)
    fun left j hl => ?_
  refine inStep_marked_bind hk hl.counted hd (asks_symbol hne) (hplain (by decide)) (fun hat => ?_)
    fun type j hat => ?_
  · exact (h.value .operand hat hd rfl).imp (fun _ _ ht => ht.counted) (not_opens_of_brackets hs)
  refine inStep_marked_bind hk hat hd (asks_symbol hne) (hplain (by decide)) (fun hat => ?_)
    fun right j hat => ?_
  · exact (h.value .expression hat hd rfl).imp (fun _ _ hr => hr.counted) (not_opens_of_brackets hs)
  exact inStep_expect_bind hk hat hd (asks_symbol hne) (hplain (by decide))
    fun hat => inStep_pure ⟨hat, fun hv => absurd hv (by decide)⟩

theorem inStep_declaration (hat : k.At i s) (hd : s.behind ≠ .dot) (hs : s.brackets ≠ 0) :
    InStep k i (declaration self) (declaration self') (k.Found .declaration s)
      (Opens .declaration s) := by
  have hd' := settle_behind_ne s
  have hne : s.settle ≠ .even := ne_even_of_brackets hs
  rw [declaration_eq, declaration_eq]
  refine inStep_expectOne_bind hk hat hd
    (fun kind hm => asks_of_ne (ne_even_of_brackets hs) (by rintro rfl; revert hm; decide))
    (step_of_uncounted hd (by decide)) fun word hword hat => ?_
  refine inStep_sees_bind hk hat hd' (asks_keyword hne) (fun hmut => ?_) (inStep_declarationRest hk h hat hs)
  dsimp only
  cases decide (word.kind = Keyword.constWord) with
  | true => exact inStep_complain_bind hat hd'
  | false =>
    obtain ⟨-, hsame, hne, hstep⟩ := hk.taken hat hd' (asks_keyword hne) (.inl hmut)
    have hat := hstep _ (step_uncounted hd' (by rw [hmut]; decide))
    exact inStep_advance_bind hsame hne (inStep_declarationRest hk h hat hs)

theorem inStep_bindingPattern (hat : k.At i s) (hd : s.behind ≠ .dot) (hs : s.brackets ≠ 0) :
    InStep k i (bindingPattern self) (bindingPattern self') (k.Found .bindingPattern s)
      (Opens .bindingPattern s) := by
  have hne := ne_even_of_brackets hs
  refine inStep_current_bind ?_
  rw [hk.kind_eq hat hd hne]
  split
  next hkind =>
    obtain ⟨-, hsame, hne, hstep⟩ := hk.taken hat hd (asks_of_mem (by decide)) (.inl hkind)
    rw [hsame]
    exact inStep_advance_bind hsame hne (inStep_pure
      ⟨hstep _ (step_uncounted hd (by rw [hkind]; decide)), fun hv => absurd hv (by decide)⟩)
  next hkind =>
    obtain ⟨hi, hsame, -⟩ := hk.taken hat hd (asks_of_mem (by decide)) (.inl hkind)
    rw [hsame]
    exact (inStep_delimited hk h rfl (by decide) (.inr rfl) hat hd (by rw [hkind]; decide) hi).bind_inside
      (fun _ => id) fun elements d hat => inStep_pure ⟨hat, fun hv => absurd hv (by decide)⟩
  next => exact inStep_complain hat hd

/-- The body of a rule keeps in step. -/
theorem inStep_body {r : Rule} (hf : k.Fits r i s) :
    InStep k i (body self r) (body self' r) (k.Found r s) (Opens r s) := by
  obtain ⟨hat, hd, hs, hb, hp⟩ := hf
  cases r with
  | program => exact absurd rfl hp
  | statement => exact inStep_statement hk h hat hd (hs (by decide))
  | expressionStatement => exact inStep_expressionStatement hk h hat hd (hs (by decide))
  | block => exact inStep_block hk h hat hd (hb rfl)
  | conditionalStatement => exact inStep_conditionalStatement hk h hat hd (hs (by decide))
  | declaration => exact inStep_declaration hk h hat hd (hs (by decide))
  | bindingPattern => exact inStep_bindingPattern hk h hat hd (hs (by decide))
  | expression => exact inStep_expression hk h hat hd
  | operand =>
    exact (h.value .comparison hat hd rfl).imp (fun v j hv => ⟨hv.counted, fun _ => hv.value rfl⟩)
      fun v hv => hv.operand (by decide) id
  | comparison => exact inStep_comparison hk h hat hd
  | additive =>
    exact inStep_binaryLeft hk h (r := .multiplicative) rfl (by decide) (by decide) (by decide) hat hd
  | multiplicative =>
    exact inStep_binaryLeft hk h (r := .exponent) rfl (by decide) (by decide) (by decide) hat hd
  | exponent => exact inStep_exponent hk h hat hd
  | unary => exact inStep_unary hk h hat hd
  | postfixChain => exact inStep_postfixChain hk h hat hd
  | primary => exact inStep_primary hk h hat hd
  | conditional => exact inStep_conditional hk h hat hd

end

/-- Every rule keeps in step with itself, whatever the budgets are. -/
theorem inStep_parse (hk : k.IsFair) (b b' due : Nat) (r : Rule) (hf : k.Fits r i s) :
    InStep k i (parse b due r) (parse b' due r) (k.Found r s) (Opens r s) := by
  induction b generalizing b' due r i s with
  | zero => exact inStep_exhausted
  | succ b ih =>
    cases b' with
    | zero => exact inStep_exhausted'
    | succ b' =>
      cases due with
      | succ due => exact ih b' due r hf
      | zero =>
        have hbody := inStep_body hk (fun r i s hf => ih b' r.surcharge r hf) hf
        have hcontent : InStep k i (content b r) (content b' r) (k.Found r s) (Opens r s) := by
          simp only [content, counted]
          split
          · exact hbody.nested hf.counted hf.behind
          · exact hbody
        rw [parse_content, parse_content]
        split
        · exact hcontent.remembered hf.counted
        · exact hcontent

end Grammar

end MagSyntax
