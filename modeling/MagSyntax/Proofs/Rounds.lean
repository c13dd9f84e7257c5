import MagSyntax.Proofs.Reading
import MagSyntax.Proofs.Segments

/-! The loops of the grammar: what one round of each comes to, and what the whole of it finds. What holds before the
first round and is kept by each round holds where the loop ends, so a pass over the rules says what its
rounds keep and never opens a loop. A loop may run out of rounds as far as these lemmas know, so that is
among what may go wrong. -/

namespace MagSyntax

namespace Parse

variable {setup : Setup} {keeps : Memo → Prop} {may : Failure → Prop} {c : Nat}

section

variable {operators : List TokenKind} {operand : Parse Node} {found : Node → Nat → Prop}

theorem finds_operatorsLeft_succ {bound : Nat} {left : Node}
    (hmore : (setup.input.get c).kind ∈ operators →
      Finds setup keeps may operand (setup.input.after c) fun right d =>
        Finds setup keeps may (operatorsLeft operators operand bound
          (.binary left.loc (setup.input.get c).value left right)) d found)
    (hdone : (setup.input.get c).kind ∉ operators → found left c) :
    Finds setup keeps may (operatorsLeft operators operand (bound + 1) left) c found := by
  simp only [operatorsLeft]
  rw [finds_accept_bind]
  split
  next hk => exact (hmore hk).bind fun _ _ h => h
  next hk => exact finds_pure (hdone hk)

/-- Operands with operators between them, where an operator and its right operand keep what holds of the left one. -/
theorem finds_binaryLeft (holds : Node → Nat → Prop) (hmay : may .exhausted)
    (hfirst : Finds setup keeps may operand c holds)
    (hmore : ∀ left c, holds left c → (setup.input.get c).kind ∈ operators →
      Finds setup keeps may operand (setup.input.after c)
        fun right => holds (.binary left.loc (setup.input.get c).value left right))
    (hdone : ∀ left c, holds left c → (setup.input.get c).kind ∉ operators → found left c) :
    Finds setup keeps may (binaryLeft operators operand) c found := by
  have loop (bound : Nat) : ∀ left c, holds left c →
      Finds setup keeps may (operatorsLeft operators operand bound left) c found := by
    induction bound with
    | zero => exact fun _ _ _ => finds_exhausted hmay
    | succ bound ih =>
      intro left c h
      apply finds_operatorsLeft_succ
      · intro hk
        exact (hmore left c h hk).imp fun right d hd => ih _ d hd
      · exact hdone left c h
  refine hfirst.bind fun left d h => ?_
  rw [finds_rounds_bind]
  exact loop _ left d h

end

/-- What a loop finds that has some items already, nearest first, when this holds of the rest. -/
def Extends (sofar : List Node) (holds : List Node → Nat → Prop) (items : List Node) (stop : Nat) : Prop :=
  ∃ rest, items = sofar.reverse ++ rest ∧ holds rest stop

theorem extends_nil {holds : List Node → Nat → Prop} {items : List Node} {stop : Nat} :
    Extends [] holds items stop ↔ holds items stop := by
  simp [Extends]

theorem extends_reverse {sofar : List Node} {holds : List Node → Nat → Prop} {stop : Nat} (h : holds [] stop) :
    Extends sofar holds sofar.reverse stop :=
  ⟨[], (List.append_nil _).symm, h⟩

theorem Extends.of_cons {sofar items : List Node} {next : Node} {holds holds' : List Node → Nat → Prop} {stop : Nat}
    (h : Extends (next :: sofar) holds items stop)
    (hcons : ∀ rest stop, holds rest stop → holds' (next :: rest) stop) : Extends sofar holds' items stop := by
  obtain ⟨rest, rfl, hrest⟩ := h
  exact ⟨next :: rest, by simp, hcons rest stop hrest⟩

section

variable {element : Parse Node} {close : TokenKind}

theorem finds_elements_succ {bound : Nat} {sofar : List Node} {found : List Node → Nat → Prop}
    (hdone : (setup.input.get c).kind = close → found sofar.reverse c)
    (hnext : (setup.input.get c).kind ≠ close → Finds setup keeps may element c fun next d =>
      ((setup.input.get d).kind = Symbol.comma →
        Finds setup keeps may (elements close element bound (next :: sofar)) (setup.input.after d) found) ∧
      ((setup.input.get d).kind ≠ Symbol.comma → found (next :: sofar).reverse d)) :
    Finds setup keeps may (elements close element (bound + 1) sofar) c found := by
  simp only [elements]
  rw [finds_sees_bind]
  split
  next hk => exact finds_pure (hdone (of_decide_eq_true hk))
  next hk =>
    refine (hnext fun he => hk (decide_eq_true he)).bind fun next d h => ?_
    rw [finds_skip_bind]
    split
    next hcomma => exact h.1 hcomma
    next hcomma => exact finds_pure (h.2 hcomma)

/-- The elements of a list: `ready` holds before each of them, and `holds` is built up from the last to the first. -/
theorem finds_elements (ready : Nat → Prop) (holds : Nat → List Node → Nat → Prop) (hmay : may .exhausted)
    (hdone : ∀ c, ready c → (setup.input.get c).kind = close → holds c [] c)
    (hnext : ∀ c, ready c → Finds setup keeps may element c fun next d =>
      ((setup.input.get d).kind = Symbol.comma → ready (setup.input.after d) ∧
        ∀ rest stop, holds (setup.input.after d) rest stop → holds c (next :: rest) stop) ∧
      ((setup.input.get d).kind ≠ Symbol.comma → holds c [next] d))
    (bound : Nat) (hc : ready c) :
    Finds setup keeps may (elements close element bound []) c (holds c) := by
  have loop (bound : Nat) : ∀ sofar c, ready c →
      Finds setup keeps may (elements close element bound sofar) c (Extends sofar (holds c)) := by
    induction bound with
    | zero => exact fun _ _ _ => finds_exhausted hmay
    | succ bound ih =>
      intro sofar c hc
      apply finds_elements_succ
      · intro hk
        exact extends_reverse (hdone c hc hk)
      · intro hk
        refine (hnext c hc).imp fun next d h => ⟨fun hcomma => ?_, fun hcomma => ?_⟩
        · obtain ⟨hd, hcons⟩ := h.1 hcomma
          exact (ih (next :: sofar) _ hd).imp fun _ _ hi => hi.of_cons hcons
        · exact ⟨[next], List.reverse_cons, h.2 hcomma⟩
  exact (loop bound [] c hc).imp fun _ _ => extends_nil.mp

/-- A list between brackets: what its elements are, and the bracket behind them. -/
theorem finds_delimited {bracket : Symbol} {holds found : List Node → Nat → Prop}
    (hbracket : closingBracket? close = some bracket)
    (helements : ∀ bound, Finds setup keeps may (elements close element bound []) (setup.input.after c) holds)
    (hdone : ∀ items d, holds items d → (setup.input.get d).kind = close → found items (setup.input.after d))
    (hmay : ∀ items d, holds items d → (setup.input.get d).kind ≠ close →
      may (.mismatch (.ofToken (.listEnd bracket) (setup.input.get d)))) :
    Finds setup keeps may (delimited close element) c found := by
  simp only [delimited]
  rw [finds_advance_bind, finds_rounds_bind]
  refine (helements _).bind fun items d h => ?_
  simp only [hbracket]
  exact finds_expect_bind_of (fun hk => finds_pure (hdone items d h hk)) (hmay items d h)

end

section

variable {statement : Parse Node} {bound : Nat} {sofar : List Node} {found : List Node → Nat → Prop}

theorem finds_statementsToEnd_succ (hdone : (setup.input.get c).kind = .eof → found sofar.reverse c)
    (hnext : (setup.input.get c).kind ≠ .eof → Finds setup keeps may statement c fun next d =>
      Finds setup keeps may (statementsToEnd statement bound (next :: sofar)) d found) :
    Finds setup keeps may (statementsToEnd statement (bound + 1) sofar) c found := by
  simp only [statementsToEnd]
  rw [finds_sees_bind]
  split
  next hk => exact finds_pure (hdone (of_decide_eq_true hk))
  next hk => exact (hnext fun he => hk (decide_eq_true he)).bind fun _ _ h => h

theorem finds_statementsToBrace_succ (hdone : (setup.input.get c).kind = Symbol.rbrace → found sofar.reverse c)
    (hend : (setup.input.get c).kind = .eof → may (.mismatch (.ofToken .blockEnd (setup.input.get c))))
    (hnext : (setup.input.get c).kind ≠ Symbol.rbrace → (setup.input.get c).kind ≠ .eof →
      Finds setup keeps may statement c fun next d =>
        Finds setup keeps may (statementsToBrace statement bound (next :: sofar)) d found) :
    Finds setup keeps may (statementsToBrace statement (bound + 1) sofar) c found := by
  simp only [statementsToBrace]
  rw [finds_sees_bind]
  split
  next hk => exact finds_pure (hdone (of_decide_eq_true hk))
  next hk =>
    simp only [finds_sees_bind]
    split
    next he => exact finds_complain_bind_of (hend (of_decide_eq_true he))
    next he => exact (hnext (fun h => hk (decide_eq_true h)) fun h => he (decide_eq_true h)).bind fun _ _ h => h

end

section

variable {statement : Parse Node} (ready : Nat → Prop) (holds : Nat → List Node → Nat → Prop)
  (hmay : may .exhausted)
  (hnext : ∀ c, ready c → Finds setup keeps may statement c fun next d =>
    ready d ∧ ∀ rest stop, holds d rest stop → holds c (next :: rest) stop)
include hmay hnext

/-- The statements of a program, up to the end of the input: `ready` holds before each of them, and `holds` is built up
from the last to the first. -/
theorem finds_statementsToEnd (hdone : ∀ c, ready c → (setup.input.get c).kind = .eof → holds c [] c)
    (bound : Nat) (hc : ready c) :
    Finds setup keeps may (statementsToEnd statement bound []) c fun items stop =>
      holds c items stop ∧ (setup.input.get stop).kind = .eof := by
  have loop (bound : Nat) : ∀ sofar c, ready c →
      Finds setup keeps may (statementsToEnd statement bound sofar) c
        (Extends sofar fun rest stop => holds c rest stop ∧ (setup.input.get stop).kind = .eof) := by
    induction bound with
    | zero => exact fun _ _ _ => finds_exhausted hmay
    | succ bound ih =>
      intro sofar c hc
      apply finds_statementsToEnd_succ
      · intro hk
        exact extends_reverse ⟨hdone c hc hk, hk⟩
      · intro hk
        refine (hnext c hc).imp fun next d h => ?_
        exact (ih (next :: sofar) d h.1).imp fun _ _ hi =>
          hi.of_cons fun rest stop => And.imp_left (h.2 rest stop)
  exact (loop bound [] c hc).imp fun _ _ => extends_nil.mp

/-- The statements of a block, which its brace ends and the end of the input does not. -/
theorem finds_statementsToBrace
    (hdone : ∀ c, ready c → (setup.input.get c).kind = Symbol.rbrace → holds c [] c)
    (hend : ∀ c, ready c → (setup.input.get c).kind = .eof →
      may (.mismatch (.ofToken .blockEnd (setup.input.get c))))
    (bound : Nat) (hc : ready c) :
    Finds setup keeps may (statementsToBrace statement bound []) c (holds c) := by
  have loop (bound : Nat) : ∀ sofar c, ready c →
      Finds setup keeps may (statementsToBrace statement bound sofar) c (Extends sofar (holds c)) := by
    induction bound with
    | zero => exact fun _ _ _ => finds_exhausted hmay
    | succ bound ih =>
      intro sofar c hc
      apply finds_statementsToBrace_succ
      · intro hk
        exact extends_reverse (hdone c hc hk)
      · exact hend c hc
      · intro hk he
        refine (hnext c hc).imp fun next d h => ?_
        exact (ih (next :: sofar) d h.1).imp fun _ _ hi => hi.of_cons h.2
  exact (loop bound [] c hc).imp fun _ _ => extends_nil.mp

end

end Parse

namespace Grammar

open Parse

variable {setup : Setup} {keeps : Memo → Prop} {may : Failure → Prop} {self : Rule → Parse Node} {c : Nat}
  {found : Node → Nat → Prop}

section

variable {bound : Nat} {node : Node}

theorem finds_chain_field (hk : (setup.input.get c).kind = Symbol.dot)
    (h : Finds setup keeps may fieldName (setup.input.after c) fun name d =>
      Finds setup keeps may (chain self bound (.field node.loc node name)) d found) :
    Finds setup keeps may (chain self (bound + 1) node) c found := by
  simp only [chain]
  rw [finds_skip_bind, if_pos hk]
  exact h.bind fun _ _ h => h

theorem finds_chain_index (hk : (setup.input.get c).kind = Symbol.lbrack)
    (h : Finds setup keeps may (self .expression) (setup.input.after c) fun index d =>
      ((setup.input.get d).kind = Symbol.rbrack →
        Finds setup keeps may (chain self bound (.index node.loc node index)) (setup.input.after d) found) ∧
      ((setup.input.get d).kind ≠ Symbol.rbrack →
        may (.mismatch (.ofToken .indexEnd (setup.input.get d))))) :
    Finds setup keeps may (chain self (bound + 1) node) c found := by
  simp only [chain]
  rw [finds_skip_bind, if_neg (by simp [hk])]
  simp only [Bool.false_eq_true, if_false]
  rw [finds_skip_bind, if_pos hk]
  exact h.bind fun _ _ h => finds_expect_bind_of h.1 h.2

theorem finds_chain_call (hk : (setup.input.get c).kind = Symbol.lparen)
    (h : Finds setup keeps may (delimited Symbol.rparen (self .expression)) c fun arguments d =>
      Finds setup keeps may (chain self bound (.call node.loc node arguments)) d found) :
    Finds setup keeps may (chain self (bound + 1) node) c found := by
  simp only [chain]
  rw [finds_skip_bind, if_neg (by simp [hk])]
  simp only [Bool.false_eq_true, if_false]
  rw [finds_skip_bind, if_neg (by simp [hk])]
  simp only [Bool.false_eq_true, if_false]
  rw [finds_sees_bind, if_pos (decide_eq_true hk)]
  exact h.bind fun _ _ h => h

/-- A chain ends before a token that is no link. -/
theorem finds_chain_stop (hk : (setup.input.get c).kind ∉ Rule.links) (h : found node c) :
    Finds setup keeps may (chain self (bound + 1) node) c found := by
  simp only [Rule.links, List.mem_cons, List.not_mem_nil, or_false, not_or] at hk
  simp only [chain]
  rw [finds_skip_bind, if_neg hk.1]
  simp only [Bool.false_eq_true, if_false]
  rw [finds_skip_bind, if_neg hk.2.1]
  simp only [Bool.false_eq_true, if_false]
  rw [finds_sees_bind, decide_eq_false hk.2.2]
  exact finds_pure h

end

/-- A chain, where each link keeps what holds of what stands before it. -/
theorem finds_postfixChain (holds : Node → Nat → Prop) (hmay : may .exhausted)
    (hfirst : Finds setup keeps may (self .primary) c holds)
    (hfield : ∀ node c, holds node c → (setup.input.get c).kind = Symbol.dot →
      Finds setup keeps may fieldName (setup.input.after c) fun name => holds (.field node.loc node name))
    (hindex : ∀ node c, holds node c → (setup.input.get c).kind = Symbol.lbrack →
      Finds setup keeps may (self .expression) (setup.input.after c) fun index d =>
        ((setup.input.get d).kind = Symbol.rbrack → holds (.index node.loc node index) (setup.input.after d)) ∧
        ((setup.input.get d).kind ≠ Symbol.rbrack → may (.mismatch (.ofToken .indexEnd (setup.input.get d)))))
    (hcall : ∀ node c, holds node c → (setup.input.get c).kind = Symbol.lparen →
      Finds setup keeps may (delimited Symbol.rparen (self .expression)) c
        fun arguments => holds (.call node.loc node arguments))
    (hdone : ∀ node c, holds node c → (setup.input.get c).kind ∉ Rule.links → found node c) :
    Finds setup keeps may (postfixChain self) c found := by
  have loop (bound : Nat) : ∀ node c, holds node c → Finds setup keeps may (chain self bound node) c found := by
    induction bound with
    | zero => exact fun _ _ _ => finds_exhausted hmay
    | succ bound ih =>
      intro node c h
      by_cases hk : (setup.input.get c).kind ∈ Rule.links
      · simp only [Rule.links, List.mem_cons, List.not_mem_nil, or_false] at hk
        rcases hk with hk | hk | hk
        · exact finds_chain_field hk ((hfield node c h hk).imp fun _ _ h => ih _ _ h)
        · exact finds_chain_index hk ((hindex node c h hk).imp fun _ _ h => ⟨fun hk => ih _ _ (h.1 hk), h.2⟩)
        · exact finds_chain_call hk ((hcall node c h hk).imp fun _ _ h => ih _ _ h)
      · exact finds_chain_stop hk (hdone node c h hk)
  refine hfirst.bind fun node d h => ?_
  rw [finds_rounds_bind]
  exact loop _ node d h

/-- What is declared: what it binds, a type and a value, each of them behind its mark or missing, and the semicolon.
What holds behind each part is kept by the next one. -/
theorem finds_declarationRest {loc : Loc} {constant mutable : Bool} (binds : Node → Nat → Prop)
    (types : Node → Option Node → Nat → Prop) (values : Node → Option Node → Option Node → Nat → Prop)
    (hleft : Finds setup keeps may (self .bindingPattern) c binds)
    (hnotype : ∀ left d, binds left d → (setup.input.get d).kind ≠ Symbol.colon → types left none d)
    (htype : ∀ left d, binds left d → (setup.input.get d).kind = Symbol.colon →
      Finds setup keeps may (self .operand) (setup.input.after d) fun type => types left (some type))
    (hnovalue : ∀ left type d, types left type d → (setup.input.get d).kind ≠ Symbol.assign →
      values left type none d)
    (hvalue : ∀ left type d, types left type d → (setup.input.get d).kind = Symbol.assign →
      Finds setup keeps may (self .expression) (setup.input.after d) fun value => values left type (some value))
    (hdone : ∀ left type value d, values left type value d → (setup.input.get d).kind = Symbol.semi →
      found (.declaration loc left type value constant mutable) (setup.input.after d))
    (hmiss : ∀ left type value d, values left type value d → (setup.input.get d).kind ≠ Symbol.semi →
      may (.mismatch (.ofToken .declarationEnd (setup.input.get d)))) :
    Finds setup keeps may (declarationRest self loc constant mutable) c found := by
  refine hleft.bind fun left d hl => ?_
  have closed (type value : Option Node) (d : Nat) (h : values left type value d) :
      Finds setup keeps may (do
          terminate
          return .declaration loc left type value constant mutable) d found :=
    finds_expect_bind_of (fun hk => finds_pure (hdone left type value d h hk)) (hmiss left type value d h)
  have valued (type : Option Node) (d : Nat) (h : types left type d) :
      Finds setup keeps may (do
          let value ← if ← skip Symbol.assign then some <$> self .expression else pure none
          terminate
          return .declaration loc left type value constant mutable) d found := by
    apply finds_marked_bind
    · intro hk
      exact closed type none d (hnovalue left type d h hk)
    · intro hk
      exact (hvalue left type d h hk).bind fun value e hv => closed type (some value) e hv
  apply finds_marked_bind
  · intro hk
    exact valued none d (hnotype left d hl hk)
  · intro hk
    exact (htype left d hl hk).bind fun type e ht => valued (some type) e ht

end Grammar

end MagSyntax
