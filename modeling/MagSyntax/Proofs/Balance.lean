import MagSyntax.Token.Basic

/-! What an expression leaves as it was: how many brackets are open, and how many `if`s outside of all brackets
wait for their `else`. Tokens are counted one by one, so the count is the same whichever rules read them. -/

namespace MagSyntax

namespace Token

/-- The token can name a field: it is a name, or spelled like a keyword. -/
def namesField (t : Token) : Bool := t.kind = .ident || (Keyword.ofSpelling? t.value).isSome

theorem namesField_eq_false_iff {t : Token} :
    t.namesField = false ↔ t.kind ≠ .ident ∧ Keyword.ofSpelling? t.value = none := by
  simp [namesField]

@[simp] theorem namesField_endAt (place : Place) : (endAt place).namesField = false := rfl

end Token

/-- What the next token stands behind. -/
inductive Behind
  /-- A dot, so the next token is the name of a field. -/
  | dot
  /-- An `else`, so its branch has not been read. -/
  | elseWord
  | other
deriving DecidableEq

/-- Where a count of brackets and of `if`s has got to. -/
structure Balance where
  brackets : Nat
  /-- The `if`s outside of all brackets that wait for their `else`. -/
  ifs : Nat
  behind : Behind
deriving DecidableEq

namespace Balance

/-- Nothing is open. -/
def even : Balance := ⟨0, 0, .other⟩

/-- Behind a token that does not count. -/
def settle (s : Balance) : Balance := ⟨s.brackets, s.ifs, .other⟩

/-- Behind a dot. -/
def dotted (s : Balance) : Balance := ⟨s.brackets, s.ifs, .dot⟩

/-- Behind an opening bracket. -/
def opened (s : Balance) : Balance := ⟨s.brackets + 1, s.ifs, .other⟩

/-- Behind a closing bracket. -/
def closed (s : Balance) : Balance := ⟨s.brackets - 1, s.ifs, .other⟩

/-- Behind an `if`. -/
def branched (s : Balance) : Balance := ⟨s.brackets, if s.brackets = 0 then s.ifs + 1 else s.ifs, .other⟩

/-- Behind an `else`. -/
def answered (s : Balance) : Balance :=
  ⟨s.brackets, if s.brackets = 0 then s.ifs - 1 else s.ifs, .elseWord⟩

/-- The count behind a token, if the token can stand there. -/
def step (s : Balance) (t : Token) : Option Balance :=
  if s.behind = .dot then if t.namesField then some s.settle else none
  else match t.kind with
    | .symbol .lparen | .symbol .lbrack | .symbol .lbrace => some s.opened
    | .symbol .rparen | .symbol .rbrack | .symbol .rbrace => if s.brackets = 0 then none else some s.closed
    | .symbol .dot => some s.dotted
    | .keyword .ifWord => some s.branched
    | .keyword .elseWord => if s.brackets = 0 ∧ s.ifs = 0 then none else some s.answered
    | _ => some s.settle

/-- The count behind some tokens. -/
def after (s : Balance) (tokens : List Token) : Option Balance := tokens.foldlM step s

variable {s s' : Balance} {t : Token}

@[simp] theorem after_nil (s : Balance) : s.after [] = some s := rfl

@[simp] theorem after_cons (s : Balance) (t : Token) (tokens : List Token) :
    s.after (t :: tokens) = (s.step t).bind (·.after tokens) := rfl

@[simp] theorem after_append (s : Balance) (a b : List Token) :
    s.after (a ++ b) = (s.after a).bind (·.after b) := by
  simp only [after, List.foldlM_append]
  rfl

/-- An `else` answers the `if` in front of it. -/
@[simp] theorem settle_answered_branched (s : Balance) : s.branched.answered.settle = s.settle := by
  simp only [settle, answered, branched]
  split <;> simp

theorem opened_ne_even (s : Balance) : s.opened ≠ even := by
  simp [opened, even]

theorem branched_ne_even (s : Balance) : s.branched ≠ even := by
  simp only [branched, even, ne_eq, mk.injEq, and_true, not_and]
  intro hb
  simp [hb]

theorem answered_ne_even (s : Balance) : s.answered ≠ even := by
  simp [answered, even]

/-- The kinds of tokens that count. -/
def counted : List TokenKind :=
  [Symbol.lparen, Symbol.lbrack, Symbol.lbrace, Symbol.rparen, Symbol.rbrack, Symbol.rbrace, Symbol.dot,
   Keyword.ifWord, Keyword.elseWord]

section

variable (h : s.behind ≠ .dot)
include h

theorem step_uncounted (hk : t.kind ∉ counted) : s.step t = some s.settle := by
  simp only [counted, List.mem_cons, List.not_mem_nil, or_false, not_or] at hk
  obtain ⟨h1, h2, h3, h4, h5, h6, h7, h8, h9⟩ := hk
  rw [step, if_neg h]
  split <;> first | contradiction | rfl

theorem step_opening (hk : t.kind ∈ [TokenKind.symbol .lparen, Symbol.lbrack, Symbol.lbrace]) :
    s.step t = some s.opened := by
  simp only [List.mem_cons, List.not_mem_nil, or_false] at hk
  rcases hk with hk | hk | hk <;> simp [step, h, hk]

theorem step_closing (hk : t.kind ∈ [TokenKind.symbol .rparen, Symbol.rbrack, Symbol.rbrace])
    (hb : s.brackets ≠ 0) : s.step t = some s.closed := by
  simp only [List.mem_cons, List.not_mem_nil, or_false] at hk
  rcases hk with hk | hk | hk <;> simp [step, h, hk, hb]

theorem step_dot (hk : t.kind = Symbol.dot) : s.step t = some s.dotted := by
  simp [step, h, hk]

theorem step_if (hk : t.kind = Keyword.ifWord) : s.step t = some s.branched := by
  simp [step, h, hk]

theorem step_else (hk : t.kind = Keyword.elseWord) :
    s.step t = if s.brackets = 0 ∧ s.ifs = 0 then none else some s.answered := by
  simp [step, h, hk]

end

theorem step_name (h : s.behind = .dot) (ht : t.namesField) : s.step t = some s.settle := by
  simp [step, h, ht]

/-- The `else` of an `if` that is open. -/
theorem step_else_branched (hk : t.kind = Keyword.elseWord) :
    s.branched.step t = some s.branched.answered := by
  rw [step_else (by simp [branched]) hk, if_neg]
  rintro ⟨hb, hi⟩
  simp only [branched] at hb hi
  simp [hb] at hi

/-- What a token can do to the count. -/
theorem step_cases (h : s.step t = some s') :
    (s.behind = .dot ∧ t.namesField ∧ s' = s.settle) ∨
      s.behind ≠ .dot ∧
        ((t.kind ∈ [TokenKind.symbol .lparen, Symbol.lbrack, Symbol.lbrace] ∧ s' = s.opened) ∨
          (t.kind ∈ [TokenKind.symbol .rparen, Symbol.rbrack, Symbol.rbrace] ∧ s.brackets ≠ 0 ∧
            s' = s.closed) ∨
          (t.kind = Symbol.dot ∧ s' = s.dotted) ∨ (t.kind = Keyword.ifWord ∧ s' = s.branched) ∨
          (t.kind = Keyword.elseWord ∧ ¬(s.brackets = 0 ∧ s.ifs = 0) ∧ s' = s.answered) ∨
          (t.kind ∉ counted ∧ s' = s.settle)) := by
  by_cases hd : s.behind = .dot
  · simp only [step, if_pos hd] at h
    split at h
    next hn => exact .inl ⟨hd, hn, (Option.some.inj h).symm⟩
    next => cases h
  refine .inr ⟨hd, ?_⟩
  by_cases ho : t.kind ∈ [TokenKind.symbol .lparen, Symbol.lbrack, Symbol.lbrace]
  · rw [step_opening hd ho] at h
    exact .inl ⟨ho, (Option.some.inj h).symm⟩
  by_cases hc : t.kind ∈ [TokenKind.symbol .rparen, Symbol.rbrack, Symbol.rbrace]
  · by_cases hb : s.brackets = 0
    · simp only [List.mem_cons, List.not_mem_nil, or_false] at hc
      rcases hc with hc | hc | hc <;> simp [step, hd, hc, hb] at h
    · rw [step_closing hd hc hb] at h
      exact .inr (.inl ⟨hc, hb, (Option.some.inj h).symm⟩)
  by_cases hdot : t.kind = Symbol.dot
  · rw [step_dot hd hdot] at h
    exact .inr (.inr (.inl ⟨hdot, (Option.some.inj h).symm⟩))
  by_cases hi : t.kind = Keyword.ifWord
  · rw [step_if hd hi] at h
    exact .inr (.inr (.inr (.inl ⟨hi, (Option.some.inj h).symm⟩)))
  by_cases he : t.kind = Keyword.elseWord
  · rw [step_else hd he] at h
    split at h
    next => cases h
    next hz => exact .inr (.inr (.inr (.inr (.inl ⟨he, hz, (Option.some.inj h).symm⟩))))
  have hk : t.kind ∉ counted := by
    simp only [counted, List.mem_cons, List.not_mem_nil, or_false, not_or] at ho hc ⊢
    exact ⟨ho.1, ho.2.1, ho.2.2, hc.1, hc.2.1, hc.2.2, hdot, hi, he⟩
  rw [step_uncounted hd hk] at h
  exact .inr (.inr (.inr (.inr (.inr ⟨hk, (Option.some.inj h).symm⟩))))

/-- The count between more brackets, where no `if` counts. -/
def within (s : Balance) (brackets ifs : Nat) : Balance := ⟨s.brackets + (brackets + 1), ifs, s.behind⟩

theorem step_within (h : s.step t = some s') (brackets ifs : Nat) :
    (s.within brackets ifs).step t = some (s'.within brackets ifs) := by
  have hb : (s.within brackets ifs).brackets ≠ 0 := Nat.succ_ne_zero _
  obtain ⟨hd, hn, rfl⟩ | ⟨hd, h⟩ := step_cases h
  · exact step_name hd hn
  have hd' : (s.within brackets ifs).behind ≠ .dot := hd
  rcases h with ⟨hk, rfl⟩ | ⟨hk, hs, rfl⟩ | ⟨hk, rfl⟩ | ⟨hk, rfl⟩ | ⟨hk, -, rfl⟩ | ⟨hk, rfl⟩
  · rw [step_opening hd' hk]
    simp only [within, opened, Nat.add_right_comm]
  · rw [step_closing hd' hk hb]
    simp only [within, closed, Option.some.injEq, mk.injEq, and_true]
    omega
  · exact step_dot hd' hk
  · rw [step_if hd' hk]
    simp [within, branched]
  · rw [step_else hd' hk]
    simp [within, answered]
  · exact step_uncounted hd' hk

/-- Between more brackets tokens do what they do outside. -/
theorem after_within {tokens : List Token} (h : s.after tokens = some s') (brackets ifs : Nat) :
    (s.within brackets ifs).after tokens = some (s'.within brackets ifs) := by
  induction tokens generalizing s with
  | nil =>
    cases h
    rfl
  | cons t tokens ih =>
    rw [after_cons] at h
    obtain ⟨u, hu, h⟩ := Option.bind_eq_some_iff.mp h
    rw [after_cons, step_within hu, Option.bind_some]
    exact ih h

/-- Tokens between brackets leave nothing open, if they leave nothing open without the brackets. -/
theorem after_group {opening closing : Token} {tokens : List Token} (rest : List Token)
    (ho : opening.kind ∈ [TokenKind.symbol .lparen, Symbol.lbrack, Symbol.lbrace])
    (hc : closing.kind ∈ [TokenKind.symbol .rparen, Symbol.rbrack, Symbol.rbrace])
    (h : even.after tokens = some even) : even.after (opening :: (tokens ++ closing :: rest)) = even.after rest := by
  have hopening : even.step opening = some (even.within 0 0) := step_opening nofun ho
  have hclosing : (even.within 0 0).step closing = some even := step_closing nofun hc nofun
  rw [after_cons, hopening, Option.bind_some, after_append, after_within h, Option.bind_some, after_cons, hclosing,
    Option.bind_some]

end Balance

end MagSyntax
