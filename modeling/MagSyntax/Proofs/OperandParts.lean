import MagSyntax.Proofs.Footprints
import MagSyntax.Proofs.Furthest

/-! An operand as its first chain and what is behind that. What is behind a node does not depend on it: links of a
chain, a power, factors, summands and a comparison are read as functions of the node that they go on with. So two
operands can be compared from a token on that they share, whatever each of them has found before it. -/

namespace MagSyntax

open Parse

namespace Parse

variable {α β γ : Type}

theorem ext_run {step step' : Parse α} (h : ∀ setup p, step.run setup p = step'.run setup p) : step = step' := by
  cases step
  cases step'
  congr
  funext setup p
  exact h setup p

theorem bind_congr_right (first : Parse α) {next next' : α → Parse β} (h : ∀ v, next v = next' v) :
    first >>= next = first >>= next' :=
  congrArg (first >>= ·) (funext h)

theorem pure_bind (v : α) (next : α → Parse β) : pure v >>= next = next v := rfl

theorem fail_bind (f : Failure) (next : α → Parse β) : fail f >>= next = fail f := rfl

theorem bind_pure (first : Parse α) : first >>= pure = first := by
  refine ext_run fun setup p => ?_
  rw [run_bind]
  cases first.run setup p <;> rfl

end Parse

namespace Grammar

variable (self : Rule → Parse Node)

/-- Up to `bound` fields, elements and calls. -/
def links : (bound : Nat) → Parse (Node → Node)
  | 0 => fail .exhausted
  | bound + 1 => do
    if ← skip Symbol.dot then
      let name ← fieldName
      let more ← links bound
      return fun node => more (.field node.loc node name)
    else if ← skip Symbol.lbrack then
      let index ← self .expression
      expect Symbol.rbrack .indexEnd
      let more ← links bound
      return fun node => more (.index node.loc node index)
    else if ← sees Symbol.lparen then
      let arguments ← delimited Symbol.rparen (self .expression)
      let more ← links bound
      return fun node => more (.call node.loc node arguments)
    else return id

/-- The power behind a base, if there is one. -/
def powerBehind : Parse (Node → Node) := do
  match ← accept [Symbol.pow] with
  | none => return id
  | some operator =>
    let power ← self .exponent
    return fun base => .binary base.loc operator.value base power

/-- Up to `bound` operators of a level, with the operands behind them. -/
def operatorsBehind (operators : List TokenKind) (operand : Parse Node) : (bound : Nat) → Parse (Node → Node)
  | 0 => fail .exhausted
  | bound + 1 => do
    match ← accept operators with
    | none => return id
    | some operator =>
      let right ← operand
      let more ← operatorsBehind operators operand bound
      return fun left => more (.binary left.loc operator.value left right)

/-- The comparison behind a sum, if there is one. -/
def comparisonBehind : Parse (Node → Node) := do
  match ← accept comparisons with
  | none => return id
  | some operator =>
    let right ← self .additive
    if ← check comparisons then complain .chainedComparison
    return fun left => .binary left.loc operator.value left right

/-- The sign in front of a chain, if there is one. -/
def signed : Option Token → Node → Node
  | none, node => node
  | some operator, node => .unary (locOf operator) operator.value node true

theorem chain_eq (bound : Nat) (node : Node) :
    chain self bound node = links self bound >>= fun more => pure (more node) := by
  induction bound generalizing node with
  | zero => rfl
  | succ bound ih =>
    simp only [chain, links, ih]
    rw [bind_assoc]
    refine bind_congr_right _ fun b => ?_
    cases b with
    | true => simp only [if_true, bind_assoc, pure_bind]
    | false =>
      simp only [Bool.false_eq_true, if_false]
      rw [bind_assoc]
      refine bind_congr_right _ fun b => ?_
      cases b with
      | true => simp only [if_true, bind_assoc, pure_bind]
      | false =>
        simp only [Bool.false_eq_true, if_false]
        rw [bind_assoc]
        refine bind_congr_right _ fun b => ?_
        cases b with
        | true => simp only [if_true, bind_assoc, pure_bind]
        | false => rfl

theorem postfixChain_eq : postfixChain self =
    self .primary >>= fun node => rounds >>= fun bound => links self bound >>= fun more => pure (more node) :=
  bind_congr_right _ fun node => bind_congr_right _ fun bound => chain_eq self bound node

theorem unary_eq : unary self =
    accept [Symbol.sub] >>= fun sign => self .postfixChain >>= fun node => pure (signed sign node) := by
  refine bind_congr_right _ fun sign => ?_
  cases sign with
  | none => exact (bind_pure _).symm
  | some operator => rfl

theorem exponent_eq : exponent self =
    self .unary >>= fun base => powerBehind self >>= fun more => pure (more base) := by
  refine bind_congr_right _ fun base => ?_
  rw [powerBehind, bind_assoc]
  refine bind_congr_right _ fun operator => ?_
  cases operator with
  | none => rfl
  | some operator => simp only [bind_assoc, pure_bind]

theorem operatorsLeft_eq (operators : List TokenKind) (operand : Parse Node) (bound : Nat) (left : Node) :
    operatorsLeft operators operand bound left =
      operatorsBehind operators operand bound >>= fun more => pure (more left) := by
  induction bound generalizing left with
  | zero => rfl
  | succ bound ih =>
    rw [operatorsLeft, operatorsBehind, bind_assoc]
    refine bind_congr_right _ fun operator => ?_
    cases operator with
    | none => rfl
    | some operator => simp only [ih, bind_assoc, pure_bind]

theorem binaryLeft_eq (operators : List TokenKind) (operand : Parse Node) : binaryLeft operators operand =
    operand >>= fun left => (rounds >>= operatorsBehind operators operand) >>= fun more => pure (more left) := by
  refine bind_congr_right _ fun left => ?_
  rw [bind_assoc]
  exact bind_congr_right _ fun bound => operatorsLeft_eq operators operand bound left

theorem comparison_eq : comparison self =
    self .additive >>= fun left => comparisonBehind self >>= fun more => pure (more left) := by
  refine bind_congr_right _ fun left => ?_
  rw [comparisonBehind, bind_assoc]
  refine bind_congr_right _ fun operator => ?_
  cases operator with
  | none => rfl
  | some operator =>
    simp only [bind_assoc]
    refine bind_congr_right _ fun right => bind_congr_right _ fun b => ?_
    cases b <;> rfl

/-- A rule without guards that does not use its budget up at once is its body on a smaller one. -/
theorem rulesOn_open {r : Rule} (hn : r.isNested = false) (hr : r.isRemembered = false) (b : Nat) :
    rulesOn b r = fail .exhausted ∨ ∃ n ≤ b, rulesOn b r = body (rulesOn n) r := by
  rw [rulesOn, parse_due]
  cases hd : b - r.surcharge with
  | zero => exact .inl rfl
  | succ n =>
    refine .inr ⟨n, by omega, ?_⟩
    rw [parse_content, if_neg (by simp [hr]), content, counted, if_neg (by simp [hn])]
    rfl

/-- The budgets of the layers of an operand. -/
structure Layers where
  comparison : Nat
  additive : Nat
  multiplicative : Nat
  exponent : Nat
  unary : Nat

namespace Layers

/-- None of the budgets is larger. -/
structure Within (l : Layers) (b : Nat) : Prop where
  comparison : l.comparison ≤ b
  additive : l.additive ≤ b
  multiplicative : l.multiplicative ≤ b
  exponent : l.exponent ≤ b
  unary : l.unary ≤ b

theorem Within.mono {l : Layers} {b b' : Nat} (h : l.Within b) (hb : b ≤ b') : l.Within b' :=
  ⟨Nat.le_trans h.comparison hb, Nat.le_trans h.additive hb, Nat.le_trans h.multiplicative hb,
    Nat.le_trans h.exponent hb, Nat.le_trans h.unary hb⟩

variable (l : Layers)

/-- A power and factors. -/
def factorsBehind : Parse (Node → Node) := do
  let power ← powerBehind (rulesOn l.exponent)
  let factors ← rounds >>= operatorsBehind multiplicatives (rulesOn l.multiplicative .exponent)
  return fun node => factors (power node)

/-- A chain, which may have a sign, with its power and factors. -/
def product : Parse Node := do
  let sign ← accept [Symbol.sub]
  let node ← rulesOn l.unary .postfixChain
  let more ← l.factorsBehind
  return more (signed sign node)

/-- Summands and a comparison. -/
def termsBehind (summands : Parse (Node → Node)) : Parse (Node → Node) := do
  let terms ← summands
  let compared ← comparisonBehind (rulesOn l.comparison)
  return fun node => compared (terms node)

/-- As many summands as there are tokens. -/
def summands : Parse (Node → Node) := rounds >>= operatorsBehind additives (rulesOn l.additive .multiplicative)

def operand : Parse Node := do
  let left ← l.product
  let more ← l.termsBehind l.summands
  return more left

end Layers

theorem multiplicative_parts (b : Nat) (c a : Nat) :
    rulesOn b .multiplicative = fail .exhausted ∨
      ∃ m ≤ b, ∃ e ≤ b, ∃ u ≤ b, rulesOn b .multiplicative = Layers.product ⟨c, a, m, e, u⟩ := by
  obtain h | ⟨m, hm, h⟩ := rulesOn_open (r := .multiplicative) rfl rfl b
  · exact .inl h
  obtain h' | ⟨e, he, h'⟩ := rulesOn_open (r := .exponent) rfl rfl m
  · refine .inl ?_
    rw [h, body, binaryLeft, h', fail_bind]
  obtain h'' | ⟨u, hu, h''⟩ := rulesOn_open (r := .unary) rfl rfl e
  · refine .inl ?_
    rw [h, body, binaryLeft, h', body, exponent, h'', fail_bind, fail_bind]
  refine .inr ⟨m, hm, e, Nat.le_trans he hm, u, Nat.le_trans hu (Nat.le_trans he hm), ?_⟩
  have hexponent : rulesOn m .exponent =
      accept [Symbol.sub] >>= fun sign => rulesOn u .postfixChain >>= fun node =>
        powerBehind (rulesOn e) >>= fun more => pure (more (signed sign node)) := by
    rw [h', body, exponent_eq, h'', body, unary_eq]
    simp only [bind_assoc, pure_bind]
  rw [h, body, binaryLeft_eq]
  refine (congrArg (· >>= _) hexponent).trans ?_
  simp only [Layers.product, Layers.factorsBehind, bind_assoc, pure_bind]

/-- An operand is its parts, unless its budget is used up at once. -/
theorem operand_parts (b : Nat) :
    content b .operand = fail .exhausted ∨ ∃ l : Layers, l.Within b ∧ content b .operand = l.operand := by
  have hcontent : content b .operand = rulesOn b .comparison := rfl
  obtain h | ⟨c, hc, h⟩ := rulesOn_open (r := .comparison) rfl rfl b
  · exact .inl (hcontent.trans h)
  obtain h' | ⟨a, ha, h'⟩ := rulesOn_open (r := .additive) rfl rfl c
  · refine .inl ?_
    rw [hcontent, h, body, comparison_eq, h', fail_bind]
  obtain h'' | ⟨m, hm, e, he, u, hu, h''⟩ := multiplicative_parts a c a
  · refine .inl ?_
    rw [hcontent, h, body, comparison_eq, h', body, binaryLeft, h'', fail_bind, fail_bind]
  have hac := Nat.le_trans ha hc
  refine .inr ⟨⟨c, a, m, e, u⟩, ⟨hc, hac, Nat.le_trans hm hac, Nat.le_trans he hac, Nat.le_trans hu hac⟩, ?_⟩
  have hadditive : rulesOn c .additive =
      Layers.product ⟨c, a, m, e, u⟩ >>= fun left => Layers.summands ⟨c, a, m, e, u⟩ >>= fun more =>
        pure (more left) := by
    rw [h', body, binaryLeft_eq]
    exact congrArg (· >>= _) h''
  rw [hcontent, h, body, comparison_eq]
  refine (congrArg (· >>= _) hadditive).trans ?_
  simp only [Layers.operand, Layers.termsBehind, bind_assoc, pure_bind]

end Grammar

namespace Parse.Tracks

variable {k : Comparison} {α β : Type}

/-- A subject that has used up its budget, where it may do so first. -/
theorem exhausts {step : Parse α} (hm : k.mayExhaust) (h : Steady k step) : Tracks k (fail .exhausted) step :=
  ⟨h, fun _ _ _ _ => .exhausts hm⟩

/-- The number of rounds that a loop may take is found without a step. -/
theorem rounds_left {next : Nat → Parse α} {step : Parse α} (h : ∀ n, Tracks k (next n) step) :
    Tracks k (Parse.rounds >>= next) step :=
  ⟨(h 0).toSteady, fun p q hc hr => (h _).agree p q hc hr⟩

theorem rounds_right {step : Parse α} {next : Nat → Parse α} (h : ∀ n, Tracks k step (next n)) :
    Tracks k step (Parse.rounds >>= next) :=
  ⟨⟨fun q hq => (h _).stays q hq, fun q => (h _).level q⟩, fun p q hc hr => (h _).agree p q hc hr⟩

end Parse.Tracks

namespace Grammar

section

variable {k : Comparison} (hk : k.IsFair) (hm : k.mayExhaust) {self self' : Rule → Parse Node}
include hk

include hm in
theorem tracks_links (h : Tracks k (self .expression) (self' .expression)) (bound bound' : Nat) :
    Tracks k (links self bound) (links self' bound') := by
  induction bound' generalizing bound with
  | zero => exact Tracks.exhausted
  | succ bound' ih =>
    have hsucc (bound : Nat) : Tracks k (links self (bound + 1)) (links self' (bound' + 1)) := by
      refine (Tracks.skip hk _).bind fun b => ?_
      cases b with
      | true => exact (tracks_fieldName hk).bind fun name => (ih bound).bind fun more => Tracks.pure _
      | false =>
        refine (Tracks.skip hk _).bind fun b => ?_
        cases b with
        | true =>
          exact h.bind fun index => (Tracks.expect hk _ _).bind fun _ => (ih bound).bind fun more => Tracks.pure _
        | false =>
          refine (Tracks.sees hk _).bind fun b => ?_
          cases b with
          | true => exact (Tracks.delimited hk rfl h).bind fun arguments => (ih bound).bind fun more => Tracks.pure _
          | false => exact Tracks.pure _
    cases bound with
    | zero => exact Tracks.exhausts hm (hsucc 0).toSteady
    | succ bound => exact hsucc bound

theorem tracks_powerBehind (h : Tracks k (self .exponent) (self' .exponent)) :
    Tracks k (powerBehind self) (powerBehind self') := by
  refine (Tracks.accept hk _).bind fun operator => ?_
  cases operator with
  | none => exact Tracks.pure _
  | some operator => exact h.bind fun power => Tracks.pure _

include hm in
theorem tracks_operatorsBehind {operators : List TokenKind} {operand operand' : Parse Node}
    (h : Tracks k operand operand') (bound bound' : Nat) :
    Tracks k (operatorsBehind operators operand bound) (operatorsBehind operators operand' bound') := by
  induction bound' generalizing bound with
  | zero => exact Tracks.exhausted
  | succ bound' ih =>
    have hsucc (bound : Nat) : Tracks k (operatorsBehind operators operand (bound + 1))
        (operatorsBehind operators operand' (bound' + 1)) := by
      refine (Tracks.accept hk _).bind fun operator => ?_
      cases operator with
      | none => exact Tracks.pure _
      | some operator => exact h.bind fun right => (ih bound).bind fun more => Tracks.pure _
    cases bound with
    | zero => exact Tracks.exhausts hm (hsucc 0).toSteady
    | succ bound => exact hsucc bound

theorem tracks_comparisonBehind (h : Tracks k (self .additive) (self' .additive)) :
    Tracks k (comparisonBehind self) (comparisonBehind self') := by
  refine (Tracks.accept hk _).bind fun operator => ?_
  cases operator with
  | none => exact Tracks.pure _
  | some operator =>
    refine h.bind fun right => (Tracks.check hk _).bind fun b => ?_
    cases b with
    | true => exact (Tracks.complain hk _).bind fun _ => Tracks.pure _
    | false => exact Tracks.pure _

end

/-- The rules of expressions track themselves on whatever budgets, as long as that of the reference is not larger. -/
structure ReadsValues (k : Comparison) (b : Nat) : Prop where
  fair : k.IsFair
  mayExhaust : k.mayExhaust
  rule : ∀ n n' (r : Rule), n' ≤ b → r.isValue → Tracks k (rulesOn n r) (rulesOn n' r)

namespace Layers

variable {k : Comparison} {l l' : Layers} {b : Nat} (hv : ReadsValues k b) (hl : l'.Within b)
include hv hl

theorem tracks_factorsBehind : Tracks k l.factorsBehind l'.factorsBehind :=
  (tracks_powerBehind hv.fair (hv.rule _ _ _ hl.exponent rfl)).bind fun _ =>
    (Tracks.rounds_left fun n => Tracks.rounds_right fun n' =>
      tracks_operatorsBehind hv.fair hv.mayExhaust (hv.rule _ _ _ hl.multiplicative rfl) n n').bind
        fun _ => Tracks.pure _

theorem tracks_summands : Tracks k l.summands l'.summands :=
  Tracks.rounds_left fun n => Tracks.rounds_right fun n' =>
    tracks_operatorsBehind hv.fair hv.mayExhaust (hv.rule _ _ _ hl.additive rfl) n n'

theorem tracks_termsBehind {summands summands' : Parse (Node → Node)} (hs : Tracks k summands summands') :
    Tracks k (l.termsBehind summands) (l'.termsBehind summands') :=
  hs.bind fun _ => (tracks_comparisonBehind hv.fair (hv.rule _ _ _ hl.comparison rfl)).bind fun _ => Tracks.pure _

end Layers

section

variable {setup : Setup} {keeps : Memo → Prop} {α β : Type} {c d : Nat}

/-- From a token on the step complains about none before the one behind it, and does not go back. -/
def Continues (setup : Setup) (keeps : Memo → Prop) (c : Nat) (step : Parse α) : Prop :=
  Finds setup keeps (Failure.Misses (setup.input.IsFrom (c + 1))) step c fun _ d => c ≤ d

theorem Continues.behind {step : Parse α} (h : Continues setup keeps d step) (hd : c ≤ d) :
    Finds setup keeps (Failure.Misses (setup.input.IsFrom (c + 1))) step d fun _ e => c ≤ e :=
  h.mono (fun _ hf => hf.mono fun _ he => he.mono (Nat.succ_le_succ hd)) fun _ _ he => Nat.le_trans hd he

theorem Continues.finds {step : Parse α} (h : Continues setup keeps c step) :
    Finds setup keeps (Failure.Misses (setup.input.IsFrom c)) step c fun _ d => c ≤ d :=
  h.mono (fun _ hf => hf.mono fun _ he => he.mono (Nat.le_succ c)) fun _ _ hd => hd

theorem Continues.bind {first : Parse α} {next : α → Parse β} (h : Continues setup keeps c first)
    (hn : ∀ v d, Continues setup keeps d (next v)) : Continues setup keeps c (first >>= next) :=
  Finds.bind h fun v d hd => (hn v d).behind hd

theorem continues_pure (v : α) : Continues setup keeps c (pure v) := finds_pure (Nat.le_refl c)

variable {self : Rule → Parse Node} (hself : ∀ r, GoesOn setup keeps r (self r))
include hself

theorem continues_links (bound : Nat) : Continues setup keeps c (links self bound) := by
  induction bound generalizing c with
  | zero => exact finds_exhausted trivial
  | succ bound ih =>
    have hmore {d : Nat} (hd : c + 1 ≤ d) (f : (Node → Node) → Node → Node) :
        Finds setup keeps (Failure.Misses (setup.input.IsFrom (c + 1)))
          (links self bound >>= fun more => pure (f more)) d fun _ e => c ≤ e :=
      (ih.bind fun _ _ => continues_pure _ : Continues setup keeps d _).behind (Nat.le_of_succ_le hd)
    unfold Continues links
    rw [finds_skip_bind]
    split
    next hk =>
      rw [setup.input.after_of_ne (by rw [hk]; exact TokenKind.noConfusion)]
      exact (goesOn_fieldName (Nat.le_refl _)).bind fun name d hd => hmore hd _
    next =>
      simp only [Bool.false_eq_true, if_false]
      rw [finds_skip_bind]
      split
      next hk =>
        rw [setup.input.after_of_ne (by rw [hk]; exact TokenKind.noConfusion)]
        refine (GoesOn.call hself .expression (Nat.le_refl _)).bind fun index d hd => ?_
        refine finds_expect_bind_of (fun _ => ?_) fun _ => Input.isFrom_ofToken hd.le _
        exact hmore (Nat.le_trans hd.le (setup.input.le_after d)) _
      next =>
        simp only [Bool.false_eq_true, if_false]
        rw [finds_sees_bind]
        split
        next hk =>
          have hafter := setup.input.after_of_ne (c := c) (by rw [of_decide_eq_true hk]; exact TokenKind.noConfusion)
          exact (goesOn_delimited hself rfl .expression (Nat.le_of_eq hafter.symm)).bind fun arguments d hd => hmore hd _
        next => exact finds_pure (Nat.le_refl c)

theorem continues_powerBehind : Continues setup keeps c (powerBehind self) := by
  unfold Continues powerBehind
  rw [finds_accept_bind]
  split
  next hk =>
    rw [setup.input.after_of_ne (by rw [List.mem_singleton.mp hk]; exact TokenKind.noConfusion)]
    exact (GoesOn.call hself .exponent (Nat.le_refl _)).bind fun power d hd => finds_pure (Nat.le_of_succ_le hd.le)
  next => exact finds_pure (Nat.le_refl c)

theorem continues_operatorsBehind {operators : List TokenKind} (hne : .eof ∉ operators) (r : Rule) (bound : Nat) :
    Continues setup keeps c (operatorsBehind operators (self r) bound) := by
  induction bound generalizing c with
  | zero => exact finds_exhausted trivial
  | succ bound ih =>
    unfold Continues operatorsBehind
    rw [finds_accept_bind]
    split
    next hk =>
      rw [setup.input.after_of_ne fun he => hne (he ▸ hk)]
      refine (GoesOn.call hself r (Nat.le_refl _)).bind fun right d hd => ?_
      exact (ih.bind fun _ _ => continues_pure _ : Continues setup keeps d _).behind (Nat.le_of_succ_le hd.le)
    next => exact finds_pure (Nat.le_refl c)

theorem continues_comparisonBehind : Continues setup keeps c (comparisonBehind self) := by
  unfold Continues comparisonBehind
  rw [finds_accept_bind]
  split
  next hk =>
    rw [setup.input.after_of_ne fun he => absurd (he ▸ hk) (by decide)]
    refine (GoesOn.call hself .additive (Nat.le_refl _)).bind fun right d hd => ?_
    simp only [finds_check_bind]
    split
    next => exact finds_complain_bind_of (Input.isFrom_ofToken hd.le _)
    next => exact finds_pure (Nat.le_of_succ_le hd.le)
  next => exact finds_pure (Nat.le_refl c)

omit hself in
theorem continues_rounds {next : Nat → Parse β} (h : ∀ n, Continues setup keeps c (next n)) :
    Continues setup keeps c (rounds >>= next) := by
  unfold Continues
  rw [finds_rounds_bind]
  exact h _

end

namespace Layers

variable {setup : Setup} {c : Nat} (l : Layers)

theorem continues_factorsBehind : Continues setup (Memo.GoesOn setup.input) c l.factorsBehind :=
  (continues_powerBehind (fun r => goesOn_parse _ _ r)).bind fun _ _ =>
    (continues_rounds fun n => continues_operatorsBehind (fun r => goesOn_parse l.multiplicative r.surcharge r)
      (by decide) .exponent n).bind fun _ _ => continues_pure _

theorem continues_summands : Continues setup (Memo.GoesOn setup.input) c l.summands :=
  continues_rounds fun n => continues_operatorsBehind (fun r => goesOn_parse l.additive r.surcharge r)
    (by decide) .multiplicative n

theorem continues_termsBehind {summands : Parse (Node → Node)}
    (h : ∀ c, Continues setup (Memo.GoesOn setup.input) c summands) :
    Continues setup (Memo.GoesOn setup.input) c (l.termsBehind summands) :=
  (h c).bind fun _ _ => (continues_comparisonBehind (fun r => goesOn_parse _ _ r)).bind fun _ _ => continues_pure _

end Layers

variable {setup : Setup} {c : Nat}

/-- An `if` with a value complains about none of its tokens before the one behind the word. -/
theorem continues_conditional {self : Rule → Parse Node} {keeps : Memo → Prop}
    (hself : ∀ r, GoesOn setup keeps r (self r)) (hk : (setup.input.get c).kind = Keyword.ifWord) :
    Continues setup keeps c (conditional self) := by
  have hafter := setup.input.after_of_ne (c := c) (by rw [hk]; exact TokenKind.noConfusion)
  refine finds_expectOne_bind_of (fun _ => ?_) fun hn => absurd (List.mem_singleton.mpr hk) hn
  rw [hafter]
  suffices h : Finds setup keeps (Failure.Misses (setup.input.IsFrom (c + 1))) (attempt _ _) (c + 1)
      fun _ d => c + 1 ≤ d from h.imp fun _ _ hd => Nat.le_of_succ_le hd
  refine goesOn_attempt (goesOn_conditionalByParentheses hself _ (Nat.le_refl _)) ?_
  simp only [List.forall_mem_cons]
  exact ⟨goesOn_conditionalByThen hself _ (Nat.le_refl _), goesOn_conditionalByBlocks hself _ (Nat.le_refl _), by simp⟩

/-- A primary that its first token can start complains about none before the one behind that. -/
theorem continues_primary (hk : (setup.input.get c).kind ∈ Rule.starters) (hsub : (setup.input.get c).kind ≠ Symbol.sub)
    (b : Nat) : Continues setup (Memo.GoesOn setup.input) c (rulesOn b .primary) := by
  obtain h | ⟨n, -, h⟩ := rulesOn_open (r := .primary) rfl rfl b
  · rw [h]
    exact finds_exhausted trivial
  have hself (r : Rule) : GoesOn setup (Memo.GoesOn setup.input) r (rulesOn n r) := goesOn_parse _ _ r
  have hne : (setup.input.get c).kind ≠ .eof := fun he => absurd (he ▸ hk) (by decide)
  have hafter : c ≤ setup.input.after c := setup.input.le_after c
  rw [h]
  show Finds _ _ _ (primary _) _ _
  have word (m : Node) : Finds setup (Memo.GoesOn setup.input) (Failure.Misses (setup.input.IsFrom (c + 1)))
      (discard advance >>= fun _ => pure m) c fun _ d => c ≤ d := by
    rw [finds_advance_bind]
    exact finds_pure hafter
  simp only [primary]
  rw [finds_current_bind]
  split
  · exact word _
  · exact word _
  · exact word _
  · exact word _
  · exact word _
  · exact word _
  · refine (goesOn_delimited hself rfl .expression (Nat.le_of_eq (setup.input.after_of_ne hne).symm)).bind
      fun items d hd => finds_pure (Nat.le_of_succ_le hd)
  · rw [finds_advance_bind, setup.input.after_of_ne hne]
    refine (GoesOn.call hself .expression (Nat.le_refl _)).bind fun inner d hd => ?_
    refine finds_expect_bind_of (fun _ => finds_pure ?_) fun _ => Input.isFrom_ofToken hd.le _
    exact Nat.le_trans (Nat.le_of_succ_le hd.le) (setup.input.le_after d)
  next hword =>
    obtain h | ⟨n', -, h⟩ := rulesOn_open (r := .conditional) rfl rfl n
    · rw [h]
      exact finds_exhausted trivial
    · rw [h]
      exact continues_conditional (fun r => goesOn_parse _ _ r) hword
  next =>
    simp only [Rule.starters, List.mem_cons, List.not_mem_nil, or_false] at hk
    exact absurd hk (by simp_all)

/-- A chain with its sign, power and factors complains about none of its tokens before the second, if the first can
start it. -/
theorem Layers.continues_product (l : Layers) (hk : (setup.input.get c).kind ∈ Rule.starters) :
    Continues setup (Memo.GoesOn setup.input) c l.product := by
  have hself (n : Nat) (r : Rule) : GoesOn setup (Memo.GoesOn setup.input) r (rulesOn n r) := goesOn_parse _ _ r
  have hbehind (sign : Option Token) (node : Node) {d : Nat} : Continues setup (Memo.GoesOn setup.input) d
      (l.factorsBehind >>= fun more => pure (more (signed sign node))) :=
    l.continues_factorsBehind.bind fun _ _ => continues_pure _
  unfold Continues Layers.product
  rw [finds_accept_bind]
  split
  next hsub =>
    rw [setup.input.after_of_ne (by rw [List.mem_singleton.mp hsub]; exact TokenKind.noConfusion)]
    refine (GoesOn.call (hself l.unary) .postfixChain (Nat.le_refl _)).bind fun node d hd => ?_
    exact (hbehind _ node).behind (Nat.le_of_succ_le hd.le)
  next hsub =>
    suffices h : Continues setup (Memo.GoesOn setup.input) c (rulesOn l.unary .postfixChain) from
      h.bind fun node d => hbehind _ node
    obtain h | ⟨n, -, h⟩ := rulesOn_open (r := .postfixChain) rfl rfl l.unary
    · rw [h]
      exact finds_exhausted trivial
    · rw [h, body, postfixChain_eq]
      refine (continues_primary hk (fun he => hsub (List.mem_singleton.mpr he)) n).bind fun node d => ?_
      exact continues_rounds fun bound => (continues_links (hself n) bound).bind fun _ _ => continues_pure _

theorem continues_multiplicative (hk : (setup.input.get c).kind ∈ Rule.starters) (b : Nat) :
    Continues setup (Memo.GoesOn setup.input) c (rulesOn b .multiplicative) := by
  obtain h | ⟨m, -, e, -, u, -, h⟩ := multiplicative_parts b b b
  · rw [h]
    exact finds_exhausted trivial
  · rw [h]
    exact Layers.continues_product _ hk

/-- An operand that its first token can start complains about none before the one behind that. -/
theorem Layers.continues_operand (l : Layers) (hk : (setup.input.get c).kind ∈ Rule.starters) :
    Continues setup (Memo.GoesOn setup.input) c l.operand :=
  (l.continues_product hk).bind fun _ _ =>
    (l.continues_termsBehind fun _ => l.continues_summands).bind fun _ _ => continues_pure _

end Grammar

end MagSyntax
