import MagSyntax.Proofs.OperandParts

/-! The first tokens of an operand, one at a time. From a token of a known kind an operand comes to what is left of it
behind that token, and so does what is behind a node. -/

namespace MagSyntax

open Parse

namespace Parse

variable {α β : Type} {setup : Setup} {p : Progress}

theorem run_congr {step step' : Parse α} (h : step = step') : step.run setup p = step'.run setup p := by rw [h]

/-- What a step comes to only matters for what follows it as far as it is run. -/
theorem run_bind_congr {first first' : Parse α} {p' : Progress} (h : first.run setup p = first'.run setup p')
    (next : α → Parse β) : (first >>= next).run setup p = (first' >>= next).run setup p' := by
  rw [run_bind, run_bind, h]

theorem pastToken_of_ne (hk : (setup.input.get p.cursor).kind ≠ .eof) :
    p.pastToken setup.input = { p with cursor := p.cursor + 1 } := by
  rw [pastToken_eq, setup.input.after_of_ne hk]

theorem run_rounds_bind (next : Nat → Parse β) :
    (rounds >>= next).run setup p = (next (setup.input.before.size - p.cursor + 1)).run setup p := rfl

theorem run_accept_some {kinds : List TokenKind} (hk : (setup.input.get p.cursor).kind ∈ kinds)
    (next : Option Token → Parse β) : (accept kinds >>= next).run setup p =
      (next (some (setup.input.get p.cursor))).run setup (p.pastToken setup.input) := by
  rw [run_bind, run_accept, if_pos hk]

theorem run_accept_none {kinds : List TokenKind} (hk : (setup.input.get p.cursor).kind ∉ kinds)
    (next : Option Token → Parse β) : (accept kinds >>= next).run setup p = (next none).run setup p := by
  rw [run_bind, run_accept, if_neg hk]

theorem run_skip_true {kind : TokenKind} (hk : (setup.input.get p.cursor).kind = kind) (next : Bool → Parse β) :
    (skip kind >>= next).run setup p = (next true).run setup (p.pastToken setup.input) := by
  simp [skip, hk]

theorem run_skip_false {kind : TokenKind} (hk : (setup.input.get p.cursor).kind ≠ kind) (next : Bool → Parse β) :
    (skip kind >>= next).run setup p = (next false).run setup p := by
  simp [skip, hk]

theorem run_sees_bind (kind : TokenKind) (next : Bool → Parse β) : (sees kind >>= next).run setup p =
    (next (decide ((setup.input.get p.cursor).kind = kind))).run setup p := by
  simp [sees]

theorem run_expect_bind {kind : TokenKind} (hk : (setup.input.get p.cursor).kind = kind) (complaint : Complaint)
    (next : Unit → Parse β) :
    (expect kind complaint >>= next).run setup p = (next ()).run setup (p.pastToken setup.input) := by
  rw [run_bind, run_expect, if_pos hk]

theorem run_expect_symbol {symbol : Symbol} (hk : (setup.input.get p.cursor).kind = symbol) (complaint : Complaint)
    (next : Unit → Parse β) : (expect symbol complaint >>= next).run setup p =
      (next ()).run setup { p with cursor := p.cursor + 1 } := by
  rw [run_expect_bind hk, pastToken_of_ne (by rw [hk]; exact TokenKind.noConfusion)]

theorem run_expect_miss {kind : TokenKind} (hk : (setup.input.get p.cursor).kind ≠ kind) (complaint : Complaint)
    (next : Unit → Parse β) : (expect kind complaint >>= next).run setup p =
      .failed (.mismatch (.ofToken complaint (setup.input.get p.cursor))) p := by
  rw [run_bind, run_expect, if_neg hk]

/-- What is left of a list between brackets behind its first element. -/
def listBehind (close : Symbol) (element : Parse Node) (bound : Nat) (first : Node) : Parse (List Node) := do
  let items ← if ← skip Symbol.comma then elements close element bound [first] else pure [first]
  expect close (.listEnd close)
  return items

/-- A list with an element in it. -/
theorem run_delimited {close : Symbol} (hc : closingBracket? close = some close) (element : Parse Node)
    (hk : (setup.input.get p.cursor).kind ≠ .eof) (hk' : (setup.input.get (p.cursor + 1)).kind ≠ close) :
    ∃ bound, (delimited close element).run setup p =
      (element >>= fun first => listBehind close element bound first).run setup { p with cursor := p.cursor + 1 } := by
  refine ⟨setup.input.before.size - (p.cursor + 1), ?_⟩
  have hadvance : (discard advance).run setup p = .ok () { p with cursor := p.cursor + 1 } :=
    congrArg (Outcome.ok ()) (pastToken_of_ne hk)
  simp only [delimited, hc]
  rw [run_bind, hadvance]
  dsimp only
  rw [run_rounds_bind, elements, bind_assoc, run_sees_bind, decide_eq_false hk']
  simp only [Bool.false_eq_true, if_false, bind_assoc, listBehind]
  refine run_congr (bind_congr_right _ fun first => bind_congr_right _ fun b => ?_)
  cases b <;> rfl

theorem run_listBehind_close {close : Symbol} (hk : (setup.input.get p.cursor).kind = close) (hc : close ≠ .comma)
    (element : Parse Node) (bound : Nat) (first : Node) :
    (listBehind close element bound first).run setup p = .ok [first] { p with cursor := p.cursor + 1 } := by
  have hcomma : (setup.input.get p.cursor).kind ≠ Symbol.comma := by
    rw [hk]
    exact fun h => hc (TokenKind.symbol.inj h)
  rw [listBehind, run_skip_false hcomma]
  simp only [Bool.false_eq_true, if_false]
  rw [pure_bind, run_expect_symbol hk]
  rfl

theorem run_listBehind_miss {close : Symbol} (hk : (setup.input.get p.cursor).kind ≠ close)
    (hcomma : (setup.input.get p.cursor).kind ≠ Symbol.comma) (element : Parse Node) (bound : Nat) (first : Node) :
    (listBehind close element bound first).run setup p =
      .failed (.mismatch (.ofToken (.listEnd close) (setup.input.get p.cursor))) p := by
  rw [listBehind, run_skip_false hcomma]
  simp only [Bool.false_eq_true, if_false]
  rw [pure_bind, run_expect_miss hk]

/-- A list without elements. -/
theorem run_delimited_nil {close : Symbol} (hc : closingBracket? close = some close) (element : Parse Node)
    (hk : (setup.input.get p.cursor).kind ≠ .eof) (hk' : (setup.input.get (p.cursor + 1)).kind = close) :
    (delimited close element).run setup p = .ok [] { p with cursor := p.cursor + 2 } := by
  have hadvance : (discard advance).run setup p = .ok () { p with cursor := p.cursor + 1 } :=
    congrArg (Outcome.ok ()) (pastToken_of_ne hk)
  simp only [delimited, hc]
  rw [run_bind, hadvance]
  dsimp only
  rw [run_rounds_bind, elements, bind_assoc, run_sees_bind, decide_eq_true hk']
  simp only [if_true, pure_bind]
  have hne : (setup.input.get (p.cursor + 1)).kind ≠ .eof := by
    rw [hk']
    exact TokenKind.noConfusion
  rw [run_expect_bind hk', pastToken_of_ne (by exact hne)]
  rfl

end Parse

namespace Grammar

variable {setup : Setup} {p : Progress}

namespace Layers

variable (l : Layers)

/-- What is behind the primary that an operand starts with, links of its chain first. -/
def behind (links : Parse (Node → Node)) : Parse (Node → Node) := do
  let more ← links
  let factors ← l.factorsBehind
  let terms ← l.termsBehind l.summands
  return fun node => terms (factors (more node))

/-- A chain, with what is behind it. -/
def chained (chain : Parse Node) (summands : Parse (Node → Node)) : Parse (Node × (Node → Node) × (Node → Node)) := do
  let node ← chain
  let factors ← l.factorsBehind
  let terms ← l.termsBehind summands
  return (node, factors, terms)

end Layers

/-- An operand without a sign is a primary and what is behind it. -/
theorem run_operand_unsigned (b : Nat) (hk : (setup.input.get p.cursor).kind ≠ Symbol.sub) :
    (∃ q, (content b .operand).run setup p = .failed .exhausted q) ∨
      ∃ l : Layers, l.Within b ∧ ∃ u ≤ b, ∃ v ≤ b, (content b .operand).run setup p =
        (primary (rulesOn v) >>= fun node => l.behind (rounds >>= links (rulesOn u)) >>= fun more =>
          pure (more node)).run setup p := by
  obtain h | ⟨l, hl, h⟩ := operand_parts b
  · exact .inl ⟨p, by rw [h, run_fail]⟩
  have hnone : (setup.input.get p.cursor).kind ∉ [TokenKind.symbol .sub] := fun h => hk (List.mem_singleton.mp h)
  have hproduct (next : Node → Parse Node) : (l.product >>= next).run setup p = (rulesOn l.unary .postfixChain >>=
      fun node => l.factorsBehind >>= fun more => next (more node)).run setup p := by
    rw [Layers.product, bind_assoc, run_accept_none hnone]
    simp only [bind_assoc, pure_bind, signed]
  rw [h, Layers.operand, hproduct]
  obtain h | ⟨u, hu, h⟩ := rulesOn_open (r := .postfixChain) rfl rfl l.unary
  · exact .inl ⟨p, by rw [h, fail_bind, run_fail]⟩
  have hu := Nat.le_trans hu hl.unary
  rw [h, body, postfixChain_eq]
  obtain h | ⟨v, hv, h⟩ := rulesOn_open (r := .primary) rfl rfl u
  · exact .inl ⟨p, by rw [h, fail_bind, fail_bind, run_fail]⟩
  refine .inr ⟨l, hl, u, hu, v, Nat.le_trans hv hu, ?_⟩
  rw [h, body]
  simp only [Layers.behind, bind_assoc, pure_bind]

/-- An operand that starts with a parenthesis. -/
theorem run_operand_group (b : Nat) (hk : (setup.input.get p.cursor).kind = Symbol.lparen) :
    (∃ q, (content b .operand).run setup p = .failed .exhausted q) ∨
      ∃ l : Layers, l.Within b ∧ ∃ u ≤ b, ∃ v ≤ b, (content b .operand).run setup p =
        (rulesOn v .expression >>= fun inner => expect Symbol.rparen .groupEnd >>= fun _ =>
          l.behind (rounds >>= links (rulesOn u)) >>= fun more =>
            pure (more (.parenthesized (locOf (setup.input.get p.cursor)) inner))).run setup
              { p with cursor := p.cursor + 1 } := by
  refine (run_operand_unsigned b (by rw [hk]; decide)).imp_right ?_
  rintro ⟨l, hl, u, hu, v, hv, h⟩
  refine ⟨l, hl, u, hu, v, hv, h.trans ?_⟩
  have hcurrent : current.run setup p = .ok (setup.input.get p.cursor) p := rfl
  have hadvance : (discard advance).run setup p = .ok () { p with cursor := p.cursor + 1 } :=
    congrArg (Outcome.ok ()) (pastToken_of_ne (by rw [hk]; exact TokenKind.noConfusion))
  rw [primary, bind_assoc, run_bind, hcurrent]
  dsimp only
  rw [hk]
  dsimp only
  rw [bind_assoc, run_bind, hadvance]
  simp only [bind_assoc, pure_bind]

/-- An operand that starts with a bracket. -/
theorem run_operand_list (b : Nat) (hk : (setup.input.get p.cursor).kind = Symbol.lbrack) :
    (∃ q, (content b .operand).run setup p = .failed .exhausted q) ∨
      ∃ l : Layers, l.Within b ∧ ∃ u ≤ b, ∃ v ≤ b, (content b .operand).run setup p =
        (delimited Symbol.rbrack (rulesOn v .expression) >>= fun items =>
          l.behind (rounds >>= links (rulesOn u)) >>= fun more =>
            pure (more (.array (locOf (setup.input.get p.cursor)) items))).run setup p := by
  refine (run_operand_unsigned b (by rw [hk]; decide)).imp_right ?_
  rintro ⟨l, hl, u, hu, v, hv, h⟩
  refine ⟨l, hl, u, hu, v, hv, h.trans ?_⟩
  have hcurrent : current.run setup p = .ok (setup.input.get p.cursor) p := rfl
  rw [primary, bind_assoc, run_bind, hcurrent]
  dsimp only
  rw [hk]
  simp only [bind_assoc, pure_bind]

/-- An operand with a sign is a chain behind that and what is behind the chain. -/
theorem run_operand_signed (b : Nat) (hk : (setup.input.get p.cursor).kind = Symbol.sub) :
    (∃ q, (content b .operand).run setup p = .failed .exhausted q) ∨
      ∃ l : Layers, l.Within b ∧ (content b .operand).run setup p =
        (l.chained (rulesOn l.unary .postfixChain) l.summands >>= fun (node, factors, terms) =>
          pure (terms (factors (signed (some (setup.input.get p.cursor)) node)))).run setup
            { p with cursor := p.cursor + 1 } := by
  obtain h | ⟨l, hl, h⟩ := operand_parts b
  · exact .inl ⟨p, by rw [h, run_fail]⟩
  refine .inr ⟨l, hl, ?_⟩
  rw [h, Layers.operand, Layers.product, bind_assoc, run_accept_some (List.mem_singleton.mpr hk),
    pastToken_of_ne (by rw [hk]; exact TokenKind.noConfusion)]
  simp only [Layers.chained, bind_assoc, pure_bind]

section

variable {self : Rule → Parse Node} {l : Layers}

theorem run_links_stop (hk : (setup.input.get p.cursor).kind ∉ Rule.links) (bound : Nat) :
    (links self (bound + 1)).run setup p = .ok id p := by
  simp only [Rule.links, List.mem_cons, List.not_mem_nil, or_false, not_or] at hk
  rw [links, run_skip_false hk.1]
  simp only [Bool.false_eq_true, if_false]
  rw [run_skip_false hk.2.1]
  simp only [Bool.false_eq_true, if_false]
  rw [run_sees_bind, decide_eq_false hk.2.2]
  rfl

theorem run_powerBehind_stop (hk : (setup.input.get p.cursor).kind ≠ Symbol.pow) :
    (powerBehind self).run setup p = .ok id p := by
  rw [powerBehind, run_accept_none fun h => hk (List.mem_singleton.mp h)]
  rfl

theorem run_operatorsBehind_stop {operators : List TokenKind} (hk : (setup.input.get p.cursor).kind ∉ operators)
    (operand : Parse Node) (bound : Nat) : (operatorsBehind operators operand (bound + 1)).run setup p = .ok id p := by
  rw [operatorsBehind, run_accept_none hk]
  rfl

theorem run_comparisonBehind_stop (hk : (setup.input.get p.cursor).kind ∉ comparisons) :
    (comparisonBehind self).run setup p = .ok id p := by
  rw [comparisonBehind, run_accept_none hk]
  rfl

theorem run_factorsBehind_stop (hk : (setup.input.get p.cursor).kind ∉ Rule.multiplicative.continuers) :
    l.factorsBehind.run setup p = .ok id p := by
  simp only [Rule.continuers, List.mem_append, List.mem_cons, not_or] at hk
  rw [Layers.factorsBehind, run_bind, run_powerBehind_stop hk.2.1]
  dsimp only
  rw [bind_assoc, run_rounds_bind, run_bind, run_operatorsBehind_stop hk.1]
  rfl

/-- Nothing goes on with the first primary, nor with a chain. -/
theorem run_behind_factors (hk : (setup.input.get p.cursor).kind ∉ Rule.multiplicative.continuers) :
    (l.behind (rounds >>= links self)).run setup p = (l.termsBehind l.summands).run setup p := by
  have hlinks : (setup.input.get p.cursor).kind ∉ Rule.links := fun h =>
    hk (List.mem_append_right _ (List.mem_cons_of_mem _ h))
  rw [Layers.behind, bind_assoc, run_rounds_bind, run_bind, run_links_stop hlinks]
  dsimp only
  rw [run_bind, run_factorsBehind_stop hk]
  exact run_congr (Parse.bind_pure _)

/-- Nothing goes on with an operand. -/
theorem run_behind_stop (hk : (setup.input.get p.cursor).kind ∉ Rule.operand.continuers) :
    (l.behind (rounds >>= links self)).run setup p = .ok id p := by
  simp only [Rule.continuers, List.mem_append, not_or] at hk
  have hfactors : (setup.input.get p.cursor).kind ∉ Rule.multiplicative.continuers := by
    simp only [Rule.continuers, List.mem_append, not_or]
    exact hk.2.2
  rw [run_behind_factors hfactors, Layers.termsBehind, Layers.summands, bind_assoc, run_rounds_bind, run_bind,
    run_operatorsBehind_stop hk.2.1]
  dsimp only
  rw [run_bind, run_comparisonBehind_stop hk.1]
  rfl

/-- An element of the node in front. -/
theorem run_behind_index (hk : (setup.input.get p.cursor).kind = Symbol.lbrack) :
    ∃ bound, (l.behind (rounds >>= links self)).run setup p =
      (self .expression >>= fun index => expect Symbol.rbrack .indexEnd >>= fun _ =>
        l.behind (links self bound) >>= fun more => pure fun node => more (.index node.loc node index)).run setup
          { p with cursor := p.cursor + 1 } := by
  refine ⟨setup.input.before.size - p.cursor, ?_⟩
  rw [Layers.behind, bind_assoc, run_rounds_bind, links, bind_assoc, run_skip_false (by rw [hk]; decide)]
  simp only [Bool.false_eq_true, if_false]
  rw [bind_assoc, run_skip_true hk, pastToken_of_ne (by rw [hk]; exact TokenKind.noConfusion)]
  simp only [if_true, bind_assoc, pure_bind, Layers.behind]

/-- A call of the node in front. -/
theorem run_behind_call (hk : (setup.input.get p.cursor).kind = Symbol.lparen) :
    ∃ bound, (l.behind (rounds >>= links self)).run setup p =
      (delimited Symbol.rparen (self .expression) >>= fun arguments =>
        l.behind (links self bound) >>= fun more => pure fun node => more (.call node.loc node arguments)).run setup p := by
  refine ⟨setup.input.before.size - p.cursor, ?_⟩
  rw [Layers.behind, bind_assoc, run_rounds_bind, links, bind_assoc, run_skip_false (by rw [hk]; decide)]
  simp only [Bool.false_eq_true, if_false]
  rw [bind_assoc, run_skip_false (by rw [hk]; decide)]
  simp only [Bool.false_eq_true, if_false]
  rw [bind_assoc, run_sees_bind, decide_eq_true hk]
  simp only [if_true, bind_assoc, pure_bind, Layers.behind]

end

/-- A difference from the node in front. -/
theorem run_behind_minus {u : Nat} {l : Layers} (hk : (setup.input.get p.cursor).kind = Symbol.sub) :
    ∃ bound, (l.behind (rounds >>= links (rulesOn u))).run setup p =
      (rulesOn l.additive .multiplicative >>= fun right =>
        l.termsBehind (operatorsBehind additives (rulesOn l.additive .multiplicative) bound) >>= fun terms =>
          pure fun node => terms (.binary node.loc (setup.input.get p.cursor).value node right)).run setup
            { p with cursor := p.cursor + 1 } := by
  have hfactors : (setup.input.get p.cursor).kind ∉ Rule.multiplicative.continuers := by
    rw [hk]
    decide
  refine ⟨setup.input.before.size - p.cursor, ?_⟩
  rw [run_behind_factors hfactors, Layers.termsBehind, Layers.summands, bind_assoc, run_rounds_bind, operatorsBehind,
    bind_assoc, run_accept_some (by rw [hk]; decide), pastToken_of_ne (by rw [hk]; exact TokenKind.noConfusion)]
  simp only [Layers.termsBehind, bind_assoc, pure_bind]

/-- A product without a sign, with further summands behind it, is a chain and what is behind that. -/
theorem run_difference {β : Type} {l : Layers} (hk : (setup.input.get p.cursor).kind ≠ Symbol.sub)
    (summands : Parse (Node → Node)) (f : Node → (Node → Node) → β) :
    (∃ q, (rulesOn l.additive .multiplicative >>= fun right => l.termsBehind summands >>= fun terms =>
        pure (f right terms)).run setup p = .failed .exhausted q) ∨
      ∃ l' : Layers, (∀ b, l.Within b → l'.Within b) ∧
        (rulesOn l.additive .multiplicative >>= fun right => l.termsBehind summands >>= fun terms =>
            pure (f right terms)).run setup p =
          (l'.chained (rulesOn l'.unary .postfixChain) summands >>= fun (right, factors, terms) =>
            pure (f (factors right) terms)).run setup p := by
  obtain h | ⟨m, hm, e, he, u, hu, h⟩ := multiplicative_parts l.additive l.comparison l.additive
  · exact .inl ⟨p, by rw [h, fail_bind, run_fail]⟩
  refine .inr ⟨⟨l.comparison, l.additive, m, e, u⟩, fun b hl => ⟨hl.comparison, hl.additive,
    Nat.le_trans hm hl.additive, Nat.le_trans he hl.additive, Nat.le_trans hu hl.additive⟩, ?_⟩
  rw [h, Layers.product, bind_assoc, run_accept_none fun h => hk (List.mem_singleton.mp h)]
  simp only [Layers.chained, Layers.termsBehind, bind_assoc, pure_bind, signed]

section

variable {k : Comparison} {b : Nat} (hv : ReadsValues k b)
include hv

theorem tracks_elements {close : TokenKind} {element element' : Parse Node} (h : Tracks k element element')
    (bound bound' : Nat) (sofar : List Node) :
    Tracks k (elements close element bound sofar) (elements close element' bound' sofar) := by
  induction bound' generalizing bound sofar with
  | zero => exact Tracks.exhausted
  | succ bound' ih =>
    have hsucc (bound : Nat) : Tracks k (elements close element (bound + 1) sofar)
        (elements close element' (bound' + 1) sofar) := by
      refine (Tracks.sees hv.fair close).bind fun b => ?_
      cases b with
      | true => exact Tracks.pure _
      | false =>
        refine h.bind fun next => (Tracks.skip hv.fair _).bind fun b => ?_
        cases b with
        | true => exact ih bound _
        | false => exact Tracks.pure _
    cases bound with
    | zero => exact Tracks.exhausts hv.mayExhaust (hsucc 0).toSteady
    | succ bound => exact hsucc bound

theorem tracks_listBehind {close : Symbol} {element element' : Parse Node} (h : Tracks k element element')
    (bound bound' : Nat) (first : Node) :
    Tracks k (listBehind close element bound first) (listBehind close element' bound' first) := by
  refine (Tracks.skip hv.fair _).bind fun b => ?_
  cases b with
  | true =>
    exact (tracks_elements hv h bound bound' [first]).bind fun _ => (Tracks.expect hv.fair _ _).bind fun _ =>
      Tracks.pure _
  | false => exact (Tracks.expect hv.fair _ _).bind fun _ => Tracks.pure _

theorem Layers.tracks_behind {l l' : Layers} (hl : l'.Within b) {links links' : Parse (Node → Node)}
    (h : Tracks k links links') : Tracks k (l.behind links) (l'.behind links') :=
  h.bind fun _ => (tracks_factorsBehind hv hl).bind fun _ =>
    (tracks_termsBehind hv hl (tracks_summands hv hl)).bind fun _ => Tracks.pure _

theorem Layers.tracks_chained {l l' : Layers} (hl : l'.Within b) {chain chain' : Parse Node}
    {summands summands' : Parse (Node → Node)} (hc : Tracks k chain chain') (hs : Tracks k summands summands') :
    Tracks k (l.chained chain summands) (l'.chained chain' summands') :=
  hc.bind fun _ => (tracks_factorsBehind hv hl).bind fun _ => (tracks_termsBehind hv hl hs).bind fun _ => Tracks.pure _

end

section

variable {c : Nat}

theorem Layers.continues_behind (l : Layers) {links : Parse (Node → Node)}
    (h : Continues setup (Memo.GoesOn setup.input) c links) :
    Continues setup (Memo.GoesOn setup.input) c (l.behind links) :=
  h.bind fun _ _ => l.continues_factorsBehind.bind fun _ _ =>
    (l.continues_termsBehind fun _ => l.continues_summands).bind fun _ _ => continues_pure _

variable {keeps : Memo → Prop} {self : Rule → Parse Node} (hself : ∀ r, GoesOn setup keeps r (self r))
include hself

theorem goesOn_elements {a : Nat} (close : TokenKind) (r : Rule) (bound : Nat) (sofar : List Node) (ha : a ≤ c) :
    Finds setup keeps (Failure.Misses (setup.input.IsFrom a)) (elements close (self r) bound sofar) c
      fun _ d => a ≤ d := by
  induction bound generalizing c sofar with
  | zero => exact finds_exhausted trivial
  | succ bound ih =>
    refine finds_elements_succ (fun _ => ha) fun _ => (GoesOn.call hself r ha).imp fun next d hd => ?_
    have hd := Nat.le_trans ha hd.le
    exact ⟨fun _ => ih _ (Nat.le_trans hd (setup.input.le_after d)), fun _ => hd⟩

theorem goesOn_listBehind {a : Nat} (close : Symbol) (r : Rule) (bound : Nat) (first : Node) (ha : a ≤ c) :
    Finds setup keeps (Failure.Misses (setup.input.IsFrom a)) (listBehind close (self r) bound first) c
      fun _ d => a ≤ d := by
  have hclose {d : Nat} (hd : a ≤ d) (items : List Node) : Finds setup keeps (Failure.Misses (setup.input.IsFrom a))
      (expect close (.listEnd close) >>= fun _ => pure items) d fun _ d => a ≤ d :=
    finds_expect_bind_of (fun _ => finds_pure (Nat.le_trans hd (setup.input.le_after d)))
      fun _ => Input.isFrom_ofToken hd _
  unfold listBehind
  rw [finds_skip_bind]
  split
  next =>
    have hafter := Nat.le_trans ha (setup.input.le_after c)
    exact (goesOn_elements hself close r bound [first] hafter).bind fun items d hd => hclose hd items
  next => exact hclose ha [first]

theorem continues_listBehind (close : Symbol) (r : Rule) (hk : (setup.input.get c).kind = Symbol.comma) (bound : Nat)
    (first : Node) : Continues setup keeps c (listBehind close (self r) bound first) := by
  unfold Continues listBehind
  rw [finds_skip_bind, if_pos hk, setup.input.after_of_ne (by rw [hk]; exact TokenKind.noConfusion)]
  refine (goesOn_elements hself close r bound [first] (Nat.le_refl _)).bind fun items d hd => ?_
  refine finds_expect_bind_of (fun _ => finds_pure ?_) fun _ => Input.isFrom_ofToken hd _
  exact Nat.le_trans (Nat.le_of_succ_le hd) (setup.input.le_after d)

end

end Grammar

end MagSyntax
