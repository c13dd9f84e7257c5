import MagSyntax.Proofs.StatementSoundness

/-! The tokens of an accepted program are a way to write its tree: none is lost, doubled, moved or
made up, whatever was tried and given up and whatever the memo gave back. -/

namespace MagSyntax

namespace Input

theorem ofTokens_append {tokens : List Token} {last : Token} (h : last.kind = .eof) :
    ofTokens (tokens ++ [last]) = ⟨tokens.toArray, last⟩ := by
  simp [ofTokens, h]

theorem get_mk (tokens : List Token) (last : Token) (c : Nat) :
    (mk tokens.toArray last).get c = tokens[c]?.getD last := by
  simp [get, Array.getD_eq_getD_getElem?]

theorem isProper_mk {tokens : List Token} {last : Token} (hl : last.kind = .eof)
    (h : ∀ t ∈ tokens, t.HasOwnValue) : (mk tokens.toArray last).IsProper := by
  intro c
  rw [get_mk]
  cases ht : tokens[c]? with
  | none => simp [Lexeme.HasOwnValue, hl]
  | some t => exact h t (List.mem_of_getElem? ht)

/-- Lexemes that stand in the tokens are the tokens from there on, up to their number. -/
theorem shows_mk {tokens : List Token} {last : Token} (hl : last.kind = .eof) {c : Nat}
    {ls : List Lexeme} :
    (mk tokens.toArray last).Shows c ls →
      ls = ((tokens.drop c).take ls.length).map Token.essence := by
  induction ls generalizing c with
  | nil => simp
  | cons l ls ih =>
    rintro ⟨he, hk, hs⟩
    rw [get_mk] at he
    cases ht : tokens[c]? with
    | none =>
      rw [ht] at he
      rw [← he] at hk
      exact absurd hl hk
    | some t =>
      rw [ht] at he
      obtain ⟨hc, rfl⟩ := List.getElem?_eq_some_iff.mp ht
      rw [List.drop_eq_getElem_cons hc, List.length_cons, List.take_succ_cons, List.map_cons, ← ih hs]
      rw [← he]
      rfl

theorem shows_mk_all {tokens : List Token} {last : Token} (hl : last.kind = .eof)
    (h : ∀ t ∈ tokens, t.kind ≠ .eof) {ls : List Lexeme} (hs : (mk tokens.toArray last).Shows 0 ls)
    (he : ((mk tokens.toArray last).get ls.length).kind = .eof) : ls = tokens.map Token.essence := by
  have hls := shows_mk hl hs
  rw [get_mk] at he
  cases ht : tokens[ls.length]? with
  | some t =>
    rw [ht] at he
    exact absurd he (h t (List.mem_of_getElem? ht))
  | none =>
    rw [List.drop_zero, List.take_of_length_le (List.getElem?_eq_none_iff.mp ht)] at hls
    exact hls

end Input

namespace Grammar

theorem rule_program : rule .program = program fun r => parse (budget - 1) r.surcharge r := by
  show parse (9989 + 1) 0 .program = _
  rw [parse]
  rfl

theorem run_of_ok {α : Type} {step : Parse α} {setup : Setup} {p q : Progress} {v : α}
    (h : (run step).run setup p = .ok v q) : step.run setup p = .ok v q := by
  simp only [run] at h
  split at h
  · cases h
  · exact h

end Grammar

/-- A program that is found is read from all tokens, with any bound on nesting, with a memo or
without. -/
theorem Entry.reads_of_run {setup : Setup} {tree : Node} {p : Progress} (hp : setup.input.IsProper)
    (h : Entry.program.parse.run setup .start = .ok tree p) :
    setup.input.Reads (fun _ => True) .program 0 tree p.cursor ∧
      (setup.input.get p.cursor).kind = .eof := by
  have hs := Grammar.sound_program (fun r => Grammar.sound_parse hp (Grammar.budget - 1) r.surcharge r)
    .start rfl Memo.isSound_empty
  rw [← Grammar.rule_program, Grammar.run_of_ok h] at hs
  exact hs.2

/-- The tokens of an accepted program before the end are a way to write its tree. -/
theorem Entry.tokens_writtenAs {tokens : List Token} {last : Token} {tree : Node}
    (hlast : last.kind = .eof) (hend : ∀ t ∈ tokens, t.kind ≠ .eof)
    (hown : ∀ t ∈ tokens, t.HasOwnValue)
    (h : Entry.program.ofInput (.ofTokens (tokens ++ [last])) = .ok tree) :
    tree.WrittenAs (fun _ => True) (tokens.map Token.essence) := by
  rw [Input.ofTokens_append hlast] at h
  have hp := Input.isProper_mk hlast hown
  simp only [ofInput] at h
  split at h
  next node p hr =>
    cases h
    obtain ⟨⟨-, ⟨ls, hw, hs, hstop⟩, -⟩, he⟩ := reads_of_run hp hr
    rw [hstop, Nat.zero_add] at he
    rw [← Input.shows_mk_all hlast hend hs he]
    exact hw
  next => cases h

/-- The tokens of `if (c)(d,) {}` before the end: a bare condition that starts like one in
parentheses, and a call with a comma too many. -/
def bareConditionTokens : List Token :=
  [.ofKeyword .ifWord, .ofSymbol .lparen, .ofWord "c", .ofSymbol .rparen, .ofSymbol .lparen,
    .ofWord "d", .ofSymbol .comma, .ofSymbol .rparen, .ofSymbol .lbrace, .ofSymbol .rbrace].map
      (Token.ofLexeme · ⟨0, 1, 1⟩)

theorem tokens_writtenAs_bareCondition :
    (Node.program ⟨1, 1⟩ [.conditionalStatement ⟨1, 1⟩ (.call ⟨1, 1⟩ (.parenthesized ⟨1, 1⟩
      (.identifier ⟨1, 1⟩ "c")) [.identifier ⟨1, 1⟩ "d"]) (.block ⟨1, 1⟩ []) none]).WrittenAs
        (fun _ => True) (bareConditionTokens.map Token.essence) :=
  @Entry.tokens_writtenAs _ (.endAt ⟨10, 1, 11⟩) _ rfl (by decide)
    (by simp [bareConditionTokens, Token.ofLexeme]) rfl

end MagSyntax
