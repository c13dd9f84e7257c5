import MagSyntax.Proofs.Mirrors
import MagSyntax.Proofs.Targets

/-! The body of a rule keeps two parses in step if the rules that it calls do. It calls a rule behind a token
that it has taken, or one of a lower rank at its own token; so the calls of rules end, whatever the
tokens are, and every round of a loop but the last takes a token. -/

namespace MagSyntax

namespace Node

mutual

/-- What an expression is as a target does not depend on its places. -/
theorem asTarget_unplaced (n : Node) :
    n.unplaced.asTarget = (n.asTarget.map unplaced).mapError unplaced := by
  cases n with
  | field loc object name =>
    simp only [unplaced, asTarget, isRooted_unplaced]
    split <;> rfl
  | index loc object i =>
    simp only [unplaced, asTarget, isRooted_unplaced]
    split <;> rfl
  | array loc elements =>
    simp only [unplaced, asTarget, asTargets_unplaced elements]
    cases asTargets elements <;> rfl
  | _ => rfl

theorem asTargets_unplaced (l : List Node) :
    asTargets (allUnplaced l) = ((asTargets l).map allUnplaced).mapError unplaced := by
  cases l with
  | nil => rfl
  | cons n rest =>
    simp only [allUnplaced, asTargets, asTarget_unplaced n, asTargets_unplaced rest]
    cases n.asTarget with
    | error part => rfl
    | ok target => cases asTargets rest <;> rfl

end

theorem typeName_eq_of_unplaced {n n' : Node} (h : n.unplaced = n'.unplaced) :
    n.typeName = n'.typeName := by
  have hn (n : Node) : n.unplaced.typeName = n.typeName := by cases n <;> rfl
  rw [← hn n, h, hn]

end Node

namespace Rule

/-- A rule calls only rules of a lower rank before it has taken a token. -/
def rank : Rule → Nat
  | .block | .conditionalStatement | .declaration | .bindingPattern | .conditional => 0
  | .primary => 1
  | .postfixChain => 2
  | .unary => 3
  | .exponent => 4
  | .multiplicative => 5
  | .additive => 6
  | .comparison => 7
  | .operand => 8
  | .expression | .expressionStatement => 9
  | .statement => 10
  | .program => 11

end Rule

open Parse

namespace Parse.Mirror

/-- The lists hold trees that differ in places at most. -/
structure SameNodes (m : Mirror) (ns ns' : List Node) : Prop where
  alike : Node.allUnplaced ns = Node.allUnplaced ns'
  same : m.placed → ns = ns'

/-- Both trees are missing, or both are there and differ in places at most. -/
structure SameNode? (m : Mirror) (n n' : Option Node) : Prop where
  alike : Node.unplaced? n = Node.unplaced? n'
  same : m.placed → n = n'

variable {m : Mirror}

theorem sameNodes_nil : m.SameNodes [] [] := ⟨rfl, fun _ => rfl⟩

theorem SameNodes.cons {n n' : Node} {ns ns' : List Node} (hn : m.SameNode n n')
    (h : m.SameNodes ns ns') : m.SameNodes (n :: ns) (n' :: ns') :=
  ⟨by simp only [Node.allUnplaced, hn.alike, h.alike], fun hp => by rw [hn.same hp, h.same hp]⟩

theorem SameNodes.reverse {ns ns' : List Node} (h : m.SameNodes ns ns') :
    m.SameNodes ns.reverse ns'.reverse := by
  have halike := h.alike
  rw [Node.allUnplaced_eq_map, Node.allUnplaced_eq_map] at halike
  refine ⟨?_, fun hp => by rw [h.same hp]⟩
  rw [Node.allUnplaced_eq_map, Node.allUnplaced_eq_map, List.map_reverse, List.map_reverse, halike]

theorem sameNode?_none : m.SameNode? none none := ⟨rfl, fun _ => rfl⟩

theorem SameNode.some {n n' : Node} (h : m.SameNode n n') : m.SameNode? (some n) (some n') :=
  ⟨congrArg Option.some h.alike, fun hp => congrArg Option.some (h.same hp)⟩

/-- Both trees are read as targets, or neither is for a part of the same type. -/
theorem SameNode.asTarget {n n' : Node} (h : m.SameNode n n') :
    (∃ t t', n.asTarget = .ok t ∧ n'.asTarget = .ok t' ∧ m.SameNode t t') ∨
      ∃ part part', n.asTarget = .error part ∧ n'.asTarget = .error part' ∧
        part.typeName = part'.typeName := by
  have hn := n.asTarget_unplaced
  rw [h.alike, n'.asTarget_unplaced] at hn
  have hsame (hp : m.placed) : n.asTarget = n'.asTarget := congrArg _ (h.same hp)
  cases ht : n.asTarget with
  | ok t =>
    cases ht' : n'.asTarget with
    | ok t' =>
      rw [ht, ht'] at hn hsame
      exact .inl ⟨t, t', rfl, rfl, (Except.ok.inj hn).symm, fun hp => Except.ok.inj (hsame hp)⟩
    | error part' =>
      rw [ht, ht'] at hn
      cases hn
  | error part =>
    cases ht' : n'.asTarget with
    | ok t' =>
      rw [ht, ht'] at hn
      cases hn
    | error part' =>
      rw [ht, ht'] at hn
      exact .inr ⟨part, part', rfl, rfl, Node.typeName_eq_of_unplaced (Except.error.inj hn).symm⟩

end Parse.Mirror

namespace Parse

open Mirror

variable {m : Mirror} {mayExhaust : Prop} (hm : m.IsFair)
include hm

/-- Up to a closing bracket the elements are the same, and the bounds on the rounds are never reached. -/
theorem mirrors_elements {close : TokenKind} {element element' : Parse Node} {c : Nat}
    (h : ∀ d, c ≤ d → Mirrors m mayExhaust d element element' (m.Takes d)) {bound bound' : Nat}
    {sofar sofar' : List Node} (hs : m.SameNodes sofar sofar') (hb : m.stop - c < bound)
    (hb' : m.stop - c < bound') :
    Mirrors m mayExhaust c (elements close element bound sofar) (elements close element' bound' sofar')
      fun ns ns' d => m.SameNodes ns ns' ∧ c ≤ d := by
  induction bound generalizing bound' c sofar sofar' with
  | zero => exact absurd hb (Nat.not_lt_zero _)
  | succ bound ih =>
    cases bound' with
    | zero => exact absurd hb' (Nat.not_lt_zero _)
    | succ bound' =>
      refine mirrors_sees_bind hm (fun _ => mirrors_pure ⟨hs.reverse, Nat.le_refl c⟩) fun _ => ?_
      refine (h c (Nat.le_refl c)).bind fun n n' d hn => ?_
      refine mirrors_skip_bind hm (by decide) (fun _ hlt => ?_) fun _ => ?_
      · have hd := hn.2
        refine (ih (fun e he => h e (by omega)) (hs.cons hn.1) (by omega) (by omega)).imp ?_
        exact fun ns ns' e he => ⟨he.1, by omega⟩
      · exact mirrors_pure ⟨(hs.cons hn.1).reverse, Nat.le_of_lt hn.2⟩

theorem mirrors_delimited {close : TokenKind} {bracket : Symbol}
    (hclose : closingBracket? close = some bracket) (hne : close ≠ .eof) {element element' : Parse Node}
    {c : Nat} (hc : (m.left.input.get c).kind ≠ .eof)
    (h : ∀ d, c < d → Mirrors m mayExhaust d element element' (m.Takes d)) :
    Mirrors m mayExhaust c (delimited close element) (delimited close element')
      fun ns ns' d => m.SameNodes ns ns' ∧ c < d := by
  refine mirrors_advance_bind hm ?_
  rw [Input.after_of_ne _ hc]
  refine mirrors_rounds_bind hm fun bound bound' hb hb' => ?_
  refine (mirrors_elements hm (fun d hd => h d hd) sameNodes_nil hb hb').bind fun ns ns' d hns => ?_
  simp only [hclose]
  refine mirrors_expect_bind hm hne fun _ _ => mirrors_pure ⟨hns.1, ?_⟩
  have hd := hns.2
  omega

theorem mirrors_statementsToEnd {statement statement' : Parse Node} {c : Nat}
    (h : ∀ d, c ≤ d → Mirrors m mayExhaust d statement statement' (m.Takes d)) {bound bound' : Nat}
    {sofar sofar' : List Node} (hs : m.SameNodes sofar sofar') (hb : m.stop - c < bound)
    (hb' : m.stop - c < bound') :
    Mirrors m mayExhaust c (statementsToEnd statement bound sofar)
      (statementsToEnd statement' bound' sofar') fun ns ns' _ => m.SameNodes ns ns' := by
  induction bound generalizing bound' c sofar sofar' with
  | zero => exact absurd hb (Nat.not_lt_zero _)
  | succ bound ih =>
    cases bound' with
    | zero => exact absurd hb' (Nat.not_lt_zero _)
    | succ bound' =>
      refine mirrors_sees_bind hm (fun _ => mirrors_pure hs.reverse) fun _ => ?_
      refine (h c (Nat.le_refl c)).bind fun n n' d hn => mirrors_of_le fun hd => ?_
      have hlt := hn.2
      exact ih (fun e he => h e (by omega)) (hs.cons hn.1) (by omega) (by omega)

theorem mirrors_statementsToBrace {statement statement' : Parse Node} {c : Nat}
    (h : ∀ d, c ≤ d → Mirrors m mayExhaust d statement statement' (m.Takes d)) {bound bound' : Nat}
    {sofar sofar' : List Node} (hs : m.SameNodes sofar sofar') (hb : m.stop - c < bound)
    (hb' : m.stop - c < bound') :
    Mirrors m mayExhaust c (statementsToBrace statement bound sofar)
      (statementsToBrace statement' bound' sofar') fun ns ns' d => m.SameNodes ns ns' ∧ c ≤ d := by
  induction bound generalizing bound' c sofar sofar' with
  | zero => exact absurd hb (Nat.not_lt_zero _)
  | succ bound ih =>
    cases bound' with
    | zero => exact absurd hb' (Nat.not_lt_zero _)
    | succ bound' =>
      refine mirrors_sees_bind hm (fun _ => mirrors_pure ⟨hs.reverse, Nat.le_refl c⟩) fun _ => ?_
      refine mirrors_sees_bind hm (fun _ => mirrors_complain_bind hm) fun _ => ?_
      refine (h c (Nat.le_refl c)).bind fun n n' d hn => mirrors_of_le fun hd => ?_
      have hlt := hn.2
      refine (ih (fun e he => h e (by omega)) (hs.cons hn.1) (by omega) (by omega)).imp ?_
      exact fun ns ns' e he => ⟨he.1, by omega⟩

theorem mirrors_operatorsLeft {operators : List TokenKind} (hops : .eof ∉ operators)
    {operand operand' : Parse Node} {c : Nat}
    (h : ∀ d, c < d → Mirrors m mayExhaust d operand operand' (m.Takes d)) {bound bound' : Nat}
    {left left' : Node} (hl : m.SameNode left left') (hb : m.stop - c < bound)
    (hb' : m.stop - c < bound') :
    Mirrors m mayExhaust c (operatorsLeft operators operand bound left)
      (operatorsLeft operators operand' bound' left') fun n n' d => m.SameNode n n' ∧ c ≤ d := by
  induction bound generalizing bound' c left left' with
  | zero => exact absurd hb (Nat.not_lt_zero _)
  | succ bound ih =>
    cases bound' with
    | zero => exact absurd hb' (Nat.not_lt_zero _)
    | succ bound' =>
      refine mirrors_accept_bind hm hops (fun _ hlt => ?_) fun _ => mirrors_pure ⟨hl, Nat.le_refl c⟩
      refine (h (c + 1) (Nat.lt_succ_self c)).bind fun right right' d hr => mirrors_of_le fun hd => ?_
      have hd' := hr.2
      rw [hm.value (Nat.le_of_lt hlt)]
      refine (ih (fun e he => h e (by omega)) ⟨?_, fun hp => ?_⟩ (by omega) (by omega)).imp ?_
      · simp only [Node.unplaced, hl.alike, hr.1.alike]
      · rw [hl.same hp, hr.1.same hp]
      · exact fun n n' e he => ⟨he.1, by omega⟩

theorem mirrors_binaryLeft {operators : List TokenKind} (hops : .eof ∉ operators)
    {operand operand' : Parse Node} {c : Nat}
    (h : ∀ d, c ≤ d → Mirrors m mayExhaust d operand operand' (m.Takes d)) :
    Mirrors m mayExhaust c (binaryLeft operators operand) (binaryLeft operators operand')
      (m.Takes c) := by
  refine (h c (Nat.le_refl c)).bind fun left left' d hl => ?_
  have hd := hl.2
  refine mirrors_rounds_bind hm fun bound bound' hb hb' => ?_
  refine (mirrors_operatorsLeft hm hops (fun e he => h e (by omega)) hl.1 hb hb').imp ?_
  exact fun n n' e he => ⟨he.1, by omega⟩

/-- A part that a mark announces and that may be missing. -/
theorem mirrors_marked_bind {β : Type} {kind : TokenKind} (hkind : kind ≠ .eof) {part part' : Parse Node}
    {next next' : Option Node → Parse β} {c : Nat} {found : β → β → Nat → Prop}
    (hpart : Mirrors m mayExhaust (c + 1) part part' (m.Takes (c + 1)))
    (h : ∀ n n' d, m.SameNode? n n' → c ≤ d → Mirrors m mayExhaust d (next n) (next' n') found) :
    Mirrors m mayExhaust c
      (skip kind >>= fun b => if b then some <$> part >>= next else pure none >>= next)
      (skip kind >>= fun b => if b then some <$> part' >>= next' else pure none >>= next') found := by
  refine mirrors_skip_bind hm hkind (fun _ _ => ?_) fun _ => h _ _ c sameNode?_none (Nat.le_refl c)
  simp only [if_true, map_bind]
  refine hpart.bind fun n n' d hn => h _ _ d hn.1.some ?_
  have hd := hn.2
  omega

end Parse

namespace Grammar

open Mirror

variable {m : Mirror} {mayExhaust : Prop}

/-- The rules keep in step that a rule of the rank may call from the token. -/
def CallsMirror (m : Mirror) (mayExhaust : Prop) (self self' : Rule → Parse Node) (rank c : Nat) :
    Prop :=
  ∀ s d, s ≠ .program → c < d ∨ d = c ∧ s.rank < rank →
    Mirrors m mayExhaust d (self s) (self' s) (m.Takes d)

section

variable {self self' : Rule → Parse Node} {rank c : Nat}

theorem CallsMirror.here (h : CallsMirror m mayExhaust self self' rank c) (s : Rule)
    (hs : s.rank < rank) (hne : s ≠ .program) :
    Mirrors m mayExhaust c (self s) (self' s) (m.Takes c) :=
  h s c hne (.inr ⟨rfl, hs⟩)

theorem CallsMirror.later (h : CallsMirror m mayExhaust self self' rank c) (s : Rule) {d : Nat}
    (hd : c < d) (hne : s ≠ .program) : Mirrors m mayExhaust d (self s) (self' s) (m.Takes d) :=
  h s d hne (.inl hd)

theorem CallsMirror.from (h : CallsMirror m mayExhaust self self' rank c) (s : Rule)
    (hs : s.rank < rank) (hne : s ≠ .program) (d : Nat) (hd : c ≤ d) :
    Mirrors m mayExhaust d (self s) (self' s) (m.Takes d) :=
  h s d hne ((Nat.lt_or_eq_of_le hd).imp id fun he => ⟨he.symm, hs⟩)

variable (hm : m.IsFair) (h : CallsMirror m mayExhaust self self' rank c)
include hm h

theorem mirrors_expression (hr : Rule.expression.rank ≤ rank) :
    Mirrors m mayExhaust c (expression self) (expression self') (m.Takes c) := by
  refine (h.here .operand hr (by decide)).bind fun left left' d hl => ?_
  have hd := hl.2
  refine mirrors_accept_bind hm (by decide) (fun hk hlt => ?_) fun _ => mirrors_pure hl
  rcases hl.1.asTarget with ⟨t, t', ht, ht', hts⟩ | ⟨part, part', ht, ht', htype⟩
  · simp only [toTarget, ht, ht']
    refine (h.later .expression (d := d + 1) (by omega) (by decide)).bind fun right right' e hright => ?_
    have he := hright.2
    refine mirrors_pure ⟨⟨?_, fun hp => ?_⟩, by omega⟩
    · simp only [Node.unplaced, hts.alike, hright.1.alike]
    · rw [hl.1.same hp, hts.same hp, hright.1.same hp]
  · simp only [toTarget, ht, ht', complainAt, htype]
    exact mirrors_bind_mismatch (hm.sameError (Nat.le_of_lt hlt) _)

theorem mirrors_comparison (hr : Rule.comparison.rank ≤ rank) :
    Mirrors m mayExhaust c (comparison self) (comparison self') (m.Takes c) := by
  refine (h.here .additive hr (by decide)).bind fun left left' d hl => ?_
  have hd := hl.2
  refine mirrors_accept_bind hm (by decide) (fun _ hlt => ?_) fun _ => mirrors_pure hl
  refine (h.later .additive (d := d + 1) (by omega) (by decide)).bind fun right right' e hright => ?_
  have he := hright.2
  refine mirrors_check_bind hm (fun _ => mirrors_complain_bind hm) fun _ => ?_
  refine mirrors_pure ⟨⟨?_, fun hp => ?_⟩, by omega⟩
  · simp only [Node.unplaced, hl.1.alike, hright.1.alike, hm.value (Nat.le_of_lt hlt)]
  · rw [hl.1.same hp, hright.1.same hp, hm.value (Nat.le_of_lt hlt)]

theorem mirrors_exponent (hr : Rule.exponent.rank ≤ rank) :
    Mirrors m mayExhaust c (exponent self) (exponent self') (m.Takes c) := by
  refine (h.here .unary hr (by decide)).bind fun base base' d hl => ?_
  have hd := hl.2
  refine mirrors_accept_bind hm (by decide) (fun _ hlt => ?_) fun _ => mirrors_pure hl
  refine (h.later .exponent (d := d + 1) (by omega) (by decide)).bind fun power power' e hright => ?_
  have he := hright.2
  refine mirrors_pure ⟨⟨?_, fun hp => ?_⟩, by omega⟩
  · simp only [Node.unplaced, hl.1.alike, hright.1.alike, hm.value (Nat.le_of_lt hlt)]
  · rw [hl.1.same hp, hright.1.same hp, hm.value (Nat.le_of_lt hlt)]

theorem mirrors_unary (hr : Rule.unary.rank ≤ rank) :
    Mirrors m mayExhaust c (unary self) (unary self') (m.Takes c) := by
  refine mirrors_accept_bind hm (by decide) (fun _ hlt => ?_) fun _ =>
    h.here .postfixChain hr (by decide)
  refine (h.later .postfixChain (Nat.lt_succ_self c) (by decide)).bind fun a a' d ha => ?_
  refine mirrors_pure ⟨⟨?_, fun hp => ?_⟩, Nat.lt_of_succ_lt ha.2⟩
  · simp only [Node.unplaced, ha.1.alike, hm.value (Nat.le_of_lt hlt)]
  · rw [ha.1.same hp, hm.value (Nat.le_of_lt hlt), hm.locOf hp (Nat.le_of_lt hlt)]

omit h in
theorem mirrors_fieldName {c : Nat} :
    Mirrors m mayExhaust c fieldName fieldName fun n n' d => m.SameNode n n' ∧ c ≤ d := by
  refine mirrors_of_le fun hc => mirrors_current_bind ?_
  rw [hm.kind hc, hm.value hc]
  split
  · exact mirrors_complain_bind hm
  · refine mirrors_advance_bind hm (mirrors_pure ⟨⟨rfl, fun hp => by rw [hm.locOf hp hc]⟩, ?_⟩)
    unfold Input.after
    split <;> omega

theorem mirrors_chain {d : Nat} (hd : c ≤ d) {bound bound' : Nat} {n n' : Node} (hn : m.SameNode n n')
    (hb : m.stop - d < bound) (hb' : m.stop - d < bound') :
    Mirrors m mayExhaust d (chain self bound n) (chain self' bound' n')
      fun n n' e => m.SameNode n n' ∧ d ≤ e := by
  induction bound generalizing bound' d n n' with
  | zero => exact absurd hb (Nat.not_lt_zero _)
  | succ bound ih =>
    cases bound' with
    | zero => exact absurd hb' (Nat.not_lt_zero _)
    | succ bound' =>
      -- a link that ends behind the token is followed by others, with a round less for them
      have linked {e : Nat} {n n' : Node} (hn : m.SameNode n n') (he : d < e) :
          Mirrors m mayExhaust e (chain self bound n) (chain self' bound' n')
            fun n n' e => m.SameNode n n' ∧ d ≤ e :=
        mirrors_of_le fun hstop => (ih (d := e) (by omega) hn (by omega) (by omega)).imp
          fun n n' f hf => ⟨hf.1, by omega⟩
      refine mirrors_skip_bind hm (by decide) (fun _ _ => ?_) fun _ => ?_
      · refine (mirrors_fieldName hm).bind fun name name' e hname => linked ⟨?_, fun hp => ?_⟩ hname.2
        · simp only [Node.unplaced, hn.alike, hname.1.alike]
        · rw [hn.same hp, hname.1.same hp]
      refine mirrors_skip_bind hm (by decide) (fun _ _ => ?_) fun _ => ?_
      · refine (h.later .expression (d := d + 1) (by omega) (by decide)).bind fun i i' e hi => ?_
        have he := hi.2
        refine mirrors_expect_bind hm (by decide) fun _ _ => linked ⟨?_, fun hp => ?_⟩ (by omega)
        · simp only [Node.unplaced, hn.alike, hi.1.alike]
        · rw [hn.same hp, hi.1.same hp]
      refine mirrors_sees_bind hm (fun hk => ?_) fun _ => mirrors_pure ⟨hn, Nat.le_refl d⟩
      refine (mirrors_delimited hm rfl (by decide) (by simp [hk]) fun e he =>
        h.later .expression (by omega) (by decide)).bind fun args args' e hargs =>
          linked ⟨?_, fun hp => ?_⟩ hargs.2
      · simp only [Node.unplaced, hn.alike, hargs.1.alike]
      · rw [hn.same hp, hargs.1.same hp]

theorem mirrors_postfixChain (hr : Rule.postfixChain.rank ≤ rank) :
    Mirrors m mayExhaust c (postfixChain self) (postfixChain self') (m.Takes c) := by
  refine (h.here .primary hr (by decide)).bind fun n n' d hn => ?_
  have hd := hn.2
  refine mirrors_rounds_bind hm fun bound bound' hb hb' => ?_
  exact (mirrors_chain hm h (Nat.le_of_lt hd) hn.1 hb hb').imp fun n n' e he => ⟨he.1, by omega⟩

omit h in
/-- A node that is one token long. -/
theorem mirrors_word {c : Nat} (hk : (m.left.input.get c).kind ≠ .eof) {n n' : Node}
    (hn : m.SameNode n n') :
    Mirrors m mayExhaust c (do discard advance; return n) (do discard advance; return n')
      (m.Takes c) := by
  refine mirrors_advance_bind hm (mirrors_pure ⟨hn, ?_⟩)
  rw [Input.after_of_ne _ hk]
  exact Nat.lt_succ_self c

theorem mirrors_primary (hr : Rule.primary.rank ≤ rank) :
    Mirrors m mayExhaust c (primary self) (primary self') (m.Takes c) := by
  refine mirrors_of_le fun hc => mirrors_current_bind ?_
  have hloc (hp : m.placed) := hm.locOf hp hc
  have hlexeme := hm.lexeme c hc
  have hvalue := congrArg Lexeme.value hlexeme
  dsimp only
  rw [hm.kind hc]
  cases hk : (m.left.input.get c).kind with
  | ident | string =>
    exact mirrors_word hm (by simp [hk]) ⟨by simp only [Node.unplaced, hvalue],
      fun hp => by rw [hvalue, hloc hp]⟩
  | number =>
    have hbase := congrArg Lexeme.base hlexeme
    exact mirrors_word hm (by simp [hk]) ⟨by simp only [Node.unplaced, hvalue, hbase],
      fun hp => by rw [hvalue, hbase, hloc hp]⟩
  | regex =>
    have hflags := congrArg Lexeme.flags hlexeme
    exact mirrors_word hm (by simp [hk]) ⟨by simp only [Node.unplaced, hvalue, hflags],
      fun hp => by rw [hvalue, hflags, hloc hp]⟩
  | keyword w =>
    cases w with
    | trueWord | falseWord =>
      exact mirrors_word hm (by simp [hk]) ⟨rfl, fun hp => by rw [hloc hp]⟩
    | ifWord => exact h.here .conditional hr (by decide)
    | _ => exact mirrors_complain hm
  | symbol s =>
    cases s with
    | lbrack =>
      refine (mirrors_delimited hm rfl (by decide) (by simp [hk]) fun e he =>
        h.later .expression he (by decide)).bind fun ns ns' d hns => mirrors_pure ⟨⟨?_, fun hp => ?_⟩, hns.2⟩
      · simp only [Node.unplaced, hns.1.alike]
      · rw [hns.1.same hp, hloc hp]
    | lparen =>
      refine mirrors_advance_bind hm ?_
      rw [Input.after_of_ne _ (by simp [hk])]
      refine (h.later .expression (Nat.lt_succ_self c) (by decide)).bind fun n n' d hn => ?_
      have hd := hn.2
      refine mirrors_expect_bind hm (by decide) fun _ _ =>
        mirrors_pure ⟨⟨?_, fun hp => ?_⟩, by omega⟩
      · simp only [Node.unplaced, hn.1.alike]
      · rw [hn.1.same hp, hloc hp]
    | _ => exact mirrors_complain hm
  | _ => exact mirrors_complain hm

/-- A condition in parentheses. -/
theorem mirrors_condition {d : Nat} (hd : c ≤ d) :
    Mirrors m mayExhaust d (condition self) (condition self') fun n n' e => m.SameNode n n' ∧ d < e := by
  refine mirrors_expect_bind hm (by decide) fun _ _ => ?_
  refine (h.later .expression (d := d + 1) (by omega) (by decide)).bind fun n n' e hn => ?_
  have he := hn.2
  exact mirrors_expect_bind hm (by decide) fun _ _ => mirrors_pure ⟨hn.1, by omega⟩

/-- A condition without parentheses and the block behind it. -/
theorem mirrors_conditionAndBlock {d : Nat} (hd : c < d) :
    Mirrors m mayExhaust d (conditionAndBlock self) (conditionAndBlock self')
      fun v v' e => (m.SameNode v.1 v'.1 ∧ m.SameNode v.2 v'.2) ∧ d < e := by
  refine (h.later .operand hd (by decide)).bind fun n n' e hn => ?_
  have he := hn.2
  refine mirrors_sees_bind hm (fun _ => ?_) fun _ => mirrors_complain_bind hm
  refine (h.later .block (d := e) (by omega) (by decide)).bind fun b b' f hb => ?_
  have hf := hb.2
  exact mirrors_pure ⟨⟨hn.1, hb.1⟩, by omega⟩

/-- The two branches of an `if` with a value, when they are expressions. -/
theorem mirrors_conditionalRest {loc loc' : Loc} (hloc : m.placed → loc = loc') {test test' : Node}
    (ht : m.SameNode test test') (explicitThen : Bool) {d : Nat} (hd : c < d) :
    Mirrors m mayExhaust d (conditionalRest self loc test explicitThen)
      (conditionalRest self' loc' test' explicitThen) fun n n' e => m.SameNode n n' ∧ d < e := by
  refine (h.later .expression hd (by decide)).bind fun q q' e hq => ?_
  have he := hq.2
  refine mirrors_expect_bind hm (by decide) fun _ _ => ?_
  refine (h.later .expression (d := e + 1) (by omega) (by decide)).bind fun a a' f ha => ?_
  have hf := ha.2
  refine mirrors_pure ⟨⟨?_, fun hp => ?_⟩, by omega⟩
  · simp only [Node.unplaced, ht.alike, hq.1.alike, ha.1.alike]
  · rw [hloc hp, ht.same hp, hq.1.same hp, ha.1.same hp]

theorem mirrors_conditional :
    Mirrors m mayExhaust c (conditional self) (conditional self') (m.Takes c) := by
  refine mirrors_expectOne_bind hm (by decide) fun _ hlt => ?_
  have hloc (hp : m.placed) := hm.locOf hp (Nat.le_of_lt hlt)
  refine (mirrors_attempt hm (fun n n' e => m.SameNode n n' ∧ c + 1 < e) ?_
    (.cons ?_ (.cons ?_ .nil))).imp fun n n' e hn => ⟨hn.1, Nat.lt_of_succ_lt hn.2⟩
  · rw [conditionalByParentheses_eq, conditionalByParentheses_eq]
    refine (mirrors_condition hm h (Nat.le_succ c)).bind fun t t' d ht => ?_
    have hd := ht.2
    exact (mirrors_conditionalRest hm h hloc ht.1 false (d := d) (by omega)).imp
      fun n n' e hn => ⟨hn.1, Nat.lt_trans hd hn.2⟩
  · rw [conditionalByThen_eq, conditionalByThen_eq]
    refine (h.later .operand (Nat.lt_succ_self c) (by decide)).bind fun t t' d ht => ?_
    have hd := ht.2
    refine mirrors_expect_bind hm (by decide) fun _ _ => ?_
    exact (mirrors_conditionalRest hm h hloc ht.1 true (d := d + 1) (by omega)).imp
      fun n n' e hn => ⟨hn.1, Nat.lt_trans (Nat.lt_succ_of_lt hd) hn.2⟩
  · refine (mirrors_conditionAndBlock hm h (Nat.lt_succ_self c)).bind fun v v' d hv => ?_
    have hd := hv.2
    refine mirrors_expect_bind hm (by decide) fun _ _ => ?_
    have last (s : Rule) (hs : s ≠ .program) : Mirrors m mayExhaust (d + 1)
        (self s >>= fun a => pure (Node.conditional (locOf (m.left.input.get c)) v.1 v.2 a false))
        (self' s >>= fun a => pure (Node.conditional (locOf (m.right.input.get c)) v'.1 v'.2 a false))
        fun n n' e => m.SameNode n n' ∧ c + 1 < e := by
      refine (h.later s (d := d + 1) (by omega) hs).bind fun a a' e ha => ?_
      have he := ha.2
      refine mirrors_pure ⟨⟨?_, fun hp => ?_⟩, by omega⟩
      · simp only [Node.unplaced, hv.1.1.alike, hv.1.2.alike, ha.1.alike]
      · rw [hloc hp, hv.1.1.same hp, hv.1.2.same hp, ha.1.same hp]
    exact mirrors_sees_bind hm (fun _ => last .conditional (by decide)) fun _ => last .block (by decide)

omit hm in
theorem mirrors_statement (hm : m.IsFair) (hr : Rule.statement.rank ≤ rank) :
    Mirrors m mayExhaust c (statement self) (statement self') (m.Takes c) := by
  refine mirrors_of_le fun hc => mirrors_current_bind ?_
  rw [hm.kind hc]
  have call (s : Rule) (hs : s.rank < Rule.statement.rank) (hne : s ≠ .program) :=
    h.here s (Nat.lt_of_lt_of_le hs hr) hne
  split
  · exact call .conditionalStatement (by decide) (by decide)
  · exact call .declaration (by decide) (by decide)
  · exact call .declaration (by decide) (by decide)
  · exact call .block (by decide) (by decide)
  · exact call .expressionStatement (by decide) (by decide)

theorem mirrors_expressionStatement (hr : Rule.expressionStatement.rank ≤ rank) :
    Mirrors m mayExhaust c (expressionStatement self) (expressionStatement self') (m.Takes c) := by
  refine (h.here .operand hr (by decide)).bind fun n n' d hn => ?_
  have hd := hn.2
  refine mirrors_sees_bind hm (fun _ => mirrors_complain_bind hm) fun _ => ?_
  refine mirrors_expect_bind hm (by decide) fun _ _ => mirrors_pure ⟨⟨?_, fun hp => ?_⟩, by omega⟩
  · simp only [Node.unplaced, hn.1.alike]
  · rw [hn.1.same hp]

theorem mirrors_block : Mirrors m mayExhaust c (block self) (block self') (m.Takes c) := by
  refine mirrors_expectOne_bind hm (by decide) fun _ hlt => mirrors_rounds_bind hm fun _ _ hb hb' => ?_
  refine (mirrors_statementsToBrace hm (fun d hd => h.later .statement hd (by decide)) sameNodes_nil
    hb hb').bind fun ns ns' d hns => ?_
  have hd := hns.2
  refine mirrors_expect_bind hm (by decide) fun _ _ => mirrors_pure ⟨⟨?_, fun hp => ?_⟩, by omega⟩
  · simp only [Node.unplaced, hns.1.alike]
  · rw [hns.1.same hp, hm.locOf hp (Nat.le_of_lt hlt)]

theorem mirrors_conditionalStatement :
    Mirrors m mayExhaust c (conditionalStatement self) (conditionalStatement self') (m.Takes c) := by
  refine mirrors_expectOne_bind hm (by decide) fun _ hlt => ?_
  refine (mirrors_attempt hm (fun v v' e => (m.SameNode v.1 v'.1 ∧ m.SameNode v.2 v'.2) ∧
    c + 1 < e) ?_ (.cons (mirrors_conditionAndBlock hm h (Nat.lt_succ_self c)) .nil)).bind
      fun v v' d hv => ?_
  · refine (mirrors_condition hm h (Nat.le_succ c)).bind fun t t' d ht => ?_
    have hd := ht.2
    refine (h.later .statement (d := d) (by omega) (by decide)).bind fun q q' e hq => ?_
    exact mirrors_pure ⟨⟨ht.1, hq.1⟩, Nat.lt_trans hd hq.2⟩
  · have hd := hv.2
    refine mirrors_marked_bind hm (by decide) (h.later .statement (by omega) (by decide))
      fun a a' e ha he => mirrors_pure ⟨⟨?_, fun hp => ?_⟩, by omega⟩
    · simp only [Node.unplaced, hv.1.1.alike, hv.1.2.alike, ha.alike]
    · rw [hm.locOf hp (Nat.le_of_lt hlt), hv.1.1.same hp, hv.1.2.same hp, ha.same hp]

/-- What is declared, behind the words that open the declaration. -/
theorem mirrors_declarationRest {loc loc' : Loc} (hloc : m.placed → loc = loc') (constant mutable : Bool)
    {d : Nat} (hd : c < d) :
    Mirrors m mayExhaust d (declarationRest self loc constant mutable)
      (declarationRest self' loc' constant mutable) (m.Takes c) := by
  refine (h.later .bindingPattern hd (by decide)).bind fun l l' e hl => ?_
  have he := hl.2
  refine mirrors_marked_bind hm (by decide) (h.later .operand (by omega) (by decide))
    fun t t' f ht hf => ?_
  refine mirrors_marked_bind hm (by decide) (h.later .expression (by omega) (by decide))
    fun r r' g hright hg => ?_
  refine mirrors_expect_bind hm (by decide) fun _ _ => mirrors_pure ⟨⟨?_, fun hp => ?_⟩, by omega⟩
  · simp only [Node.unplaced, hl.1.alike, ht.alike, hright.alike]
  · rw [hloc hp, hl.1.same hp, ht.same hp, hright.same hp]

theorem mirrors_declaration :
    Mirrors m mayExhaust c (declaration self) (declaration self') (m.Takes c) := by
  rw [declaration_eq, declaration_eq]
  refine mirrors_expectOne_bind hm (by decide) fun _ hlt => ?_
  have hloc (hp : m.placed) := hm.locOf hp (Nat.le_of_lt hlt)
  dsimp only
  rw [hm.kind (Nat.le_of_lt hlt)]
  refine mirrors_sees_bind hm (fun hk => ?_) fun _ =>
    mirrors_declarationRest hm h hloc _ _ (Nat.lt_succ_self c)
  cases decide ((m.left.input.get c).kind = Keyword.constWord) with
  | true => exact mirrors_complain_bind hm
  | false =>
    refine mirrors_advance_bind hm ?_
    rw [Input.after_of_ne _ (by simp [hk])]
    exact mirrors_declarationRest hm h hloc _ _ (by omega)

theorem mirrors_bindingPattern :
    Mirrors m mayExhaust c (bindingPattern self) (bindingPattern self') (m.Takes c) := by
  refine mirrors_of_le fun hc => mirrors_current_bind ?_
  have hloc (hp : m.placed) := hm.locOf hp hc
  rw [hm.kind hc, hm.value hc]
  split
  next hk => exact mirrors_word hm (by simp [hk]) ⟨rfl, fun hp => by rw [hloc hp]⟩
  next hk =>
    refine (mirrors_delimited hm rfl (by decide) (by simp [hk]) fun e he =>
      h.later .bindingPattern he (by decide)).bind fun ns ns' d hns =>
        mirrors_pure ⟨⟨?_, fun hp => ?_⟩, hns.2⟩
    · simp only [Node.unplaced, hns.1.alike]
    · rw [hns.1.same hp, hloc hp]
  next => exact mirrors_complain hm

/-- All statements up to the end, if there are any. -/
theorem mirrors_program (hr : Rule.program.rank ≤ rank) :
    Mirrors m mayExhaust c (program self) (program self') fun n n' _ => m.SameNode n n' := by
  refine mirrors_of_le fun hc => mirrors_current_bind (mirrors_rounds_bind hm fun _ _ hb hb' => ?_)
  refine (mirrors_statementsToEnd hm (h.from .statement hr (by decide)) sameNodes_nil hb hb').bind
    fun ns ns' d hns => mirrors_pure ⟨?_, fun hp => ?_⟩
  · simp only [Node.unplaced, hns.alike]
  · rw [hns.same hp, hm.locOf hp hc]

/-- Every rule but that of a program takes a token. -/
theorem mirrors_body {r : Rule} (hr : r ≠ .program) (hrank : r.rank ≤ rank) :
    Mirrors m mayExhaust c (body self r) (body self' r) (m.Takes c) := by
  cases r with
  | program => exact absurd rfl hr
  | statement => exact mirrors_statement h hm hrank
  | expressionStatement => exact mirrors_expressionStatement hm h hrank
  | block => exact mirrors_block hm h
  | conditionalStatement => exact mirrors_conditionalStatement hm h
  | declaration => exact mirrors_declaration hm h
  | bindingPattern => exact mirrors_bindingPattern hm h
  | expression => exact mirrors_expression hm h hrank
  | operand => exact h.here .comparison hrank (by decide)
  | comparison => exact mirrors_comparison hm h hrank
  | additive => exact mirrors_binaryLeft hm (by decide) (h.from .multiplicative hrank (by decide))
  | multiplicative => exact mirrors_binaryLeft hm (by decide) (h.from .exponent hrank (by decide))
  | exponent => exact mirrors_exponent hm h hrank
  | unary => exact mirrors_unary hm h hrank
  | postfixChain => exact mirrors_postfixChain hm h hrank
  | primary => exact mirrors_primary hm h hrank
  | conditional => exact mirrors_conditional hm h

end

end Grammar

end MagSyntax
