import MagSyntax.Proofs.OperandParts

/-! Rules at a token that they cannot start with. They fail there and then, whatever the memo holds of other tokens, and
store nothing of any other token. -/

namespace MagSyntax

open Parse Grammar

/-- The kinds of tokens that a remembered rule starts with. -/
def Rule.leads : Rule → List TokenKind
  | .statement => openers
  | .block => [.symbol .lbrace]
  | _ => starters

/-- A rule was refused because too many were open. -/
def SyntaxError.IsTooDeep (e : SyntaxError) : Prop := ∃ token, e = .ofToken .tooDeep token

theorem SyntaxError.not_isTooDeep {complaint : Complaint} (h : complaint ≠ .tooDeep) (token : Token) :
    ¬(ofToken complaint token).IsTooDeep := by
  rintro ⟨token', he⟩
  simp only [ofToken, SyntaxError.mk.injEq, Cause.grammatical.injEq] at he
  exact h he.1.1

/-- The rule cannot start with the token, and this is found: an error about it. -/
def Finding.IsIdle (input : Input) (a : Attempt) (f : Finding) : Prop :=
  (input.get a.cursor).kind ∉ a.rule.leads ∧
    ∃ e, f = .error e ∧ e.place = (input.get a.cursor).place ∧ (e.IsTooDeep → a.rule.isNested)

/-- What is known at a token is that rules cannot start with it. -/
def Memo.IsIdleAt (input : Input) (c : Nat) (m : Memo) : Prop :=
  ∀ a f, m.find? a = some f → a.cursor = c → f.IsIdle input a

/-- The other memo holds no more than that rules cannot start with a token. -/
def Memo.IdlesTo (input : Input) (c : Nat) (m m' : Memo) : Prop :=
  ∀ a f, m'.find? a = some f → m.find? a = some f ∨ a.cursor = c ∧ f.IsIdle input a

namespace Parse

variable {setup : Setup} {c : Nat} {refuses : Prop} {α β : Type}

/-- The step fails with an error about the token, and is refused it only if it may be. -/
def FailsAt (setup : Setup) (c : Nat) (refuses : Prop) (step : Parse α) : Prop :=
  ∀ p, p.cursor = c → (setup.remembers → p.memo.IsIdleAt setup.input c) →
    (∃ q, step.run setup p = .failed .exhausted q) ∨ ∃ e q, step.run setup p = .failed (.mismatch e) q ∧
      e.place = (setup.input.get c).place ∧ (e.IsTooDeep → refuses) ∧ q.depth = p.depth ∧
        p.memo.IdlesTo setup.input c q.memo

namespace FailsAt

theorem exhausted : FailsAt setup c refuses (fail .exhausted : Parse α) := fun p _ _ => .inl ⟨p, rfl⟩

theorem complain (complaint : Complaint) (h : complaint ≠ .tooDeep) :
    FailsAt setup c refuses (complain complaint : Parse α) := by
  rintro p rfl -
  exact .inr ⟨_, p, rfl, rfl, fun he => absurd he (SyntaxError.not_isTooDeep h _), rfl, fun _ _ h => .inl h⟩

theorem mono {refuses' : Prop} {step : Parse α} (h : FailsAt setup c refuses step) (hr : refuses → refuses') :
    FailsAt setup c refuses' step := by
  intro p hc hm
  obtain h | ⟨e, q, hq, he, hdeep, h⟩ := h p hc hm
  · exact .inl h
  · exact .inr ⟨e, q, hq, he, fun h => hr (hdeep h), h⟩

theorem bind {first : Parse α} {next : α → Parse β} (h : FailsAt setup c refuses first) :
    FailsAt setup c refuses (first >>= next) := by
  intro p hc hm
  rw [run_bind]
  obtain ⟨q, hq⟩ | ⟨e, q, hq, h⟩ := h p hc hm
  · exact .inl ⟨q, by rw [hq]⟩
  · exact .inr ⟨e, q, by rw [hq], h⟩

theorem of_run {step step' : Parse α} (h : FailsAt setup c refuses step')
    (hrun : ∀ p, p.cursor = c → step.run setup p = step'.run setup p) : FailsAt setup c refuses step := by
  intro p hc hm
  rw [hrun p hc]
  exact h p hc hm

theorem accept_bind {kinds : List TokenKind} {next : Option Token → Parse β}
    (hk : (setup.input.get c).kind ∉ kinds) (h : FailsAt setup c refuses (next none)) :
    FailsAt setup c refuses (accept kinds >>= next) := by
  refine h.of_run ?_
  rintro p rfl
  rw [run_bind, run_accept, if_neg hk]

theorem expectOne {kinds : List TokenKind} (hk : (setup.input.get c).kind ∉ kinds) (complaint : Complaint)
    (h : complaint ≠ .tooDeep) : FailsAt setup c refuses (expectOne kinds complaint) :=
  accept_bind hk (complain complaint h)

theorem nested {rule : Parse α} (h : FailsAt setup c refuses rule) : FailsAt setup c True (nested rule) := by
  intro p hc hm
  simp only [Parse.nested]
  split
  · exact .inr ⟨_, _, rfl, by rw [← hc]; rfl, fun _ => trivial, rfl, fun _ _ h => .inl h⟩
  · obtain ⟨q, hq⟩ | ⟨e, q, hq, he, -, hd, hq'⟩ := h p.deeper hc hm
    · rw [hq]
      exact .inl ⟨_, rfl⟩
    · rw [hq]
      refine .inr ⟨e, _, rfl, he, fun _ => trivial, ?_, hq'⟩
      exact (congrArg (· - 1) hd).trans (Nat.add_sub_cancel p.depth 1)

theorem remembered {r : Rule} {body : Parse Node} (hk : (setup.input.get c).kind ∉ r.leads)
    (h : FailsAt setup c (r.isNested : Prop) body) : FailsAt setup c (r.isNested : Prop) (remembered r body) := by
  intro p hc hm
  subst hc
  rcases run_remembered r body setup p with ⟨hs, f, hf, hrun⟩ | ⟨-, hrun⟩
  · obtain ⟨-, e, rfl, he, hdeep⟩ := hm hs _ f hf rfl
    exact .inr ⟨e, p, hrun, he, hdeep, rfl, fun _ _ h => .inl h⟩
  · rw [hrun]
    obtain ⟨q, hq⟩ | ⟨e, q, hq, he, hdeep, hd, hq'⟩ := h p rfl hm
    · exact .inl ⟨q, by rw [hq]; rfl⟩
    · rw [hq]
      refine .inr ⟨e, _, rfl, he, hdeep, hd, fun a f hf => ?_⟩
      rw [Memo.find?_store] at hf
      split at hf
      next ha =>
        cases hf
        subst ha
        exact .inr ⟨rfl, hk, e, rfl, he, hdeep⟩
      next => exact hq' a f hf

end FailsAt

end Parse

namespace Grammar

variable {setup : Setup} {c : Nat} {refuses : Prop}

theorem failsAt_open {r : Rule} (hn : r.isNested = false) (hr : r.isRemembered = false) {b : Nat}
    (h : ∀ n, FailsAt setup c refuses (body (rulesOn n) r)) : FailsAt setup c refuses (rulesOn b r) := by
  obtain hb | ⟨n, -, hb⟩ := rulesOn_open hn hr b
  · rw [hb]
    exact .exhausted
  · rw [hb]
    exact h n

theorem failsAt_guarded {r : Rule} {b : Nat} (hk : r.isRemembered → (setup.input.get c).kind ∉ r.leads)
    (h : ∀ n, FailsAt setup c False (body (rulesOn n) r)) : FailsAt setup c (r.isNested : Prop) (rulesOn b r) := by
  rw [rulesOn, parse_due]
  cases b - r.surcharge with
  | zero => exact .exhausted
  | succ n =>
    have hcontent : FailsAt setup c (r.isNested : Prop) (content n r) := by
      simp only [content, counted]
      split
      next hn => exact (h n).nested.mono fun _ => hn
      next => exact (h n).mono False.elim
    rw [parse_content]
    split
    · exact hcontent.remembered (hk ‹_›)
    · exact hcontent

/-- No chain starts with the token. -/
theorem failsAt_postfixChain (hk : (setup.input.get c).kind ∉ Rule.starters ∨ (setup.input.get c).kind = Symbol.sub)
    (b : Nat) : FailsAt setup c False (rulesOn b .postfixChain) := by
  have hprimary (b : Nat) : FailsAt setup c False (rulesOn b .primary) := by
    refine failsAt_open rfl rfl fun n => .of_run (.complain .expression (by decide)) ?_
    rintro p rfl
    rcases hk with hk | hk
    · exact primary_of_not_starter hk
    · show (primary _).run setup p = _
      have hcurrent : current.run setup p = .ok (setup.input.get p.cursor) p := rfl
      rw [primary, run_bind, hcurrent]
      dsimp only
      rw [hk]
  exact failsAt_open rfl rfl fun n => (hprimary n).bind

/-- No operand starts with the token. -/
theorem failsAt_comparison (hk : (setup.input.get c).kind ∉ Rule.starters) (b : Nat) :
    FailsAt setup c False (rulesOn b .comparison) := by
  have hunary (b : Nat) : FailsAt setup c False (rulesOn b .unary) :=
    failsAt_open rfl rfl fun n => .accept_bind (fun h => hk (by rw [List.mem_singleton.mp h]; decide))
      (failsAt_postfixChain (.inl hk) n)
  have hexponent (b : Nat) : FailsAt setup c False (rulesOn b .exponent) := failsAt_open rfl rfl fun n => (hunary n).bind
  have hmultiplicative (b : Nat) : FailsAt setup c False (rulesOn b .multiplicative) :=
    failsAt_open rfl rfl fun n => (hexponent n).bind
  have hadditive (b : Nat) : FailsAt setup c False (rulesOn b .additive) :=
    failsAt_open rfl rfl fun n => (hmultiplicative n).bind
  exact failsAt_open rfl rfl fun n => (hadditive n).bind

theorem failsAt_operand (hk : (setup.input.get c).kind ∉ Rule.starters) (b : Nat) :
    FailsAt setup c False (rulesOn b .operand) :=
  (failsAt_guarded (r := .operand) (fun _ => hk) fun n => failsAt_comparison hk n).mono Bool.false_ne_true

theorem failsAt_expressionBody (hk : (setup.input.get c).kind ∉ Rule.starters) (b : Nat) :
    FailsAt setup c False (body (rulesOn b) .expression) :=
  (failsAt_operand hk b).bind

theorem failsAt_statementBody (hk : (setup.input.get c).kind ∉ Rule.openers) (b : Nat) :
    FailsAt setup c False (body (rulesOn b) .statement) := by
  have hstarters : (setup.input.get c).kind ∉ Rule.starters := fun h =>
    hk (List.mem_cons_of_mem _ (List.mem_cons_of_mem _ (List.mem_cons_of_mem _ h)))
  have hstatement (b : Nat) : FailsAt setup c False (rulesOn b .expressionStatement) :=
    failsAt_open rfl rfl fun n => (failsAt_operand hstarters n).bind
  show FailsAt setup c False (statement _)
  refine .of_run (hstatement b) ?_
  rintro p rfl
  have hcurrent : current.run setup p = .ok (setup.input.get p.cursor) p := rfl
  rw [statement, run_bind, hcurrent]
  dsimp only
  split
  next h => exact absurd (h ▸ by decide) hk
  next h => exact absurd (h ▸ by decide) hk
  next h => exact absurd (h ▸ by decide) hk
  next h => exact absurd (h ▸ by decide) hk
  next => rfl

/-- A remembered rule fails at a token that it cannot start with. -/
theorem failsAt_remembered {r : Rule} (hr : r.isRemembered) (hk : (setup.input.get c).kind ∉ r.leads) (b : Nat) :
    FailsAt setup c (r.isNested : Prop) (rulesOn b r) := by
  refine failsAt_guarded (fun _ => hk) fun n => ?_
  cases r with
  | statement => exact failsAt_statementBody hk n
  | expression => exact failsAt_expressionBody hk n
  | operand => exact failsAt_comparison hk n
  | block => exact (FailsAt.expectOne hk .blockStart (by decide)).bind
  | _ => cases hr

/-- No rule that is nested starts with a closing parenthesis. -/
theorem failsAt_nestedBody {r : Rule} (hr : r.isNested) (hk : (setup.input.get c).kind = Symbol.rparen) (b : Nat) :
    FailsAt setup c False (body (rulesOn b) r) := by
  cases r with
  | statement => exact failsAt_statementBody (by rw [hk]; decide) b
  | expression => exact failsAt_expressionBody (by rw [hk]; decide) b
  | bindingPattern =>
    refine .of_run (.complain .bindingTarget (by decide)) ?_
    rintro p rfl
    show (bindingPattern _).run setup p = _
    have hcurrent : current.run setup p = .ok (setup.input.get p.cursor) p := rfl
    rw [bindingPattern, run_bind, hcurrent]
    dsimp only
    rw [hk]
  | _ => cases hr

end Grammar

end MagSyntax
