import MagSyntax.Proofs.Decision
import MagSyntax.Proofs.Nesting
import MagSyntax.Proofs.TokensKept

/-! What the two entries come to, a program and a single expression. What an entry accepts reads as its
tree, and a canonical tree that is written out is found again unless the parse is cut short. -/

namespace MagSyntax

open Parse Input

namespace Input

theorem shows_map (last : Token) (before tokens : List Token)
    (h : ∀ t ∈ tokens, t.kind ≠ .eof) :
    (mk (before ++ tokens).toArray last).Shows before.length (tokens.map Token.essence) := by
  induction tokens generalizing before with
  | nil => trivial
  | cons t tokens ih =>
    rw [List.forall_mem_cons] at h
    refine ⟨?_, h.1, ?_⟩
    · rw [get_mk]
      simp
    · have := ih (before ++ [t]) h.2
      simpa using this

end Input

/-- The tokens are all there is before the end, and they are the lexemes of a tree. -/
structure Node.WrittenBy (n : Node) (tokens : List Token) (last : Token) : Prop where
  lexemes : tokens.map Token.essence = n.lexemes
  last : last.kind = .eof

namespace Node.WrittenBy

variable {n : Node} {tokens : List Token} {last : Token} (h : n.WrittenBy tokens last)
include h

theorem isInner {t : Token} (ht : t ∈ tokens) : t.essence.IsInner :=
  isInner_lexemes n t.essence (h.lexemes ▸ List.mem_map_of_mem ht)

theorem input_eq : Input.ofTokens (tokens ++ [last]) = ⟨tokens.toArray, last⟩ :=
  ofTokens_append h.last

theorem isProper : (Input.mk tokens.toArray last).IsProper :=
  isProper_mk h.last fun _ ht => (h.isInner ht).2.1

theorem shows : (Input.mk tokens.toArray last).Shows 0 n.lexemes := by
  have hs := shows_map last [] tokens fun _ ht => (h.isInner ht).1
  rwa [h.lexemes] at hs

/-- The tokens among others, in front of any end. -/
theorem shows_among (before behind : List Token) (hb : ∀ t ∈ behind, t.kind ≠ .eof)
    (last' : Token) : (Input.mk (before ++ (tokens ++ behind)).toArray last').Shows before.length n.lexemes := by
  have hs := shows_map last' before (tokens ++ behind)
    (List.forall_mem_append.mpr ⟨fun _ ht => (h.isInner ht).1, hb⟩)
  rw [List.map_append, h.lexemes] at hs
  exact (shows_append.mp hs).1

theorem writes (bare : Node → Prop) : (Input.mk tokens.toArray last).Writes bare 0 n tokens.length := by
  refine ⟨n.lexemes, n.writtenAs_lexemes bare, h.shows, ?_⟩
  rw [← h.lexemes]
  simp

theorem get_stop : ((Input.mk tokens.toArray last).get tokens.length).kind = .eof := by
  rw [get_mk, List.getElem?_eq_none (Nat.le_refl _)]
  exact h.last

end Node.WrittenBy

/-- The tokens of the lexemes of a tree, all at the same place. -/
def Node.tokens (n : Node) : List Token := n.lexemes.map (Token.ofLexeme · ⟨0, 1, 1⟩)

theorem Node.writtenBy_tokens (n : Node) (place : Place) :
    n.WrittenBy n.tokens (.endAt place) := by
  refine ⟨?_, rfl⟩
  rw [tokens, List.map_map]
  refine Eq.trans (List.map_congr_left fun l hl => ?_) (List.map_id n.lexemes)
  exact (isInner_lexemes n l hl).essence_ofLexeme _

namespace Grammar

/-- What a rule finds without a bound on nesting it finds with one, unless it is cut short. -/
theorem ok_of_finds {r : Rule} {input : Input} {remembers : Bool} {bound : Nat} {keeps : Memo → Prop}
    {found : Node → Nat → Prop}
    (hf : Finds ⟨input, remembers, none⟩ keeps Failure.IsExhausted (rule r) 0 found)
    (hk : keeps .empty) :
    ((rule r).run ⟨input, remembers, some bound⟩ .start).IsCutShort ∨
      ∃ m p, (rule r).run ⟨input, remembers, some bound⟩ .start = .ok m p ∧ found m p.cursor := by
  have hfound := hf .start rfl hk
  refine (rule_unbounded input remembers bound r).imp_right ?_
  rintro (⟨v, p, q, hp, hq, hc⟩ | ⟨e, p, q, hp, -⟩)
  · rw [hp] at hfound
    exact ⟨v, q, hq, hc ▸ hfound.2⟩
  · rw [hp] at hfound
    exact hfound.2.elim

end Grammar

namespace Entry

/-- The rule that reads all tokens. -/
def rule : Entry → Rule
  | program => .program
  | expression => .expression

/-- The tree is canonical, and the entry can find it. -/
def isCanonical : Entry → Node → Bool
  | program, n => n.isProgram
  | expression, n => n.isExpression

variable {input : Input} {tree : Node} {tokens : List Token} {last : Token}

theorem ofInput_of_ok (entry : Entry) {m : Node} {p : Progress}
    (h : (Grammar.rule entry.rule).run { input } .start = .ok m p)
    (hend : (input.get p.cursor).kind = .eof) : entry.ofInput input = .ok m := by
  cases entry with
  | program =>
    rw [rule] at h
    simp only [ofInput, parse, Grammar.run, h]
  | expression =>
    rw [rule] at h
    simp only [ofInput, parse, Grammar.run, run_bind, h, Grammar.expectEnd, sees, run_check,
      List.mem_singleton, hend]
    rfl

/-- An entry rejects what its rule fails on, with the same error. -/
theorem ofInput_of_failed (entry : Entry) {f : Failure} {p : Progress}
    (h : (Grammar.rule entry.rule).run { input } .start = .failed f p) :
    entry.ofInput input = .error (f.asError (input.get p.cursor)) := by
  cases entry <;> rw [rule] at h <;> cases f <;>
    simp only [ofInput, parse, Grammar.run, run_bind, h, run_complain, Failure.asError]

theorem ofSource_of_tokenize (entry : Entry) {source : Text} {tokens : List Token}
    (h : tokenize source = .ok tokens) : entry.ofSource source = entry.ofInput (.ofTokens tokens) := by
  rw [ofSource, h]
  rfl

theorem tokenize_of_ofSource (entry : Entry) {source : Text} {tree : Node}
    (h : entry.ofSource source = .ok tree) : ∃ tokens, tokenize source = .ok tokens := by
  cases ht : tokenize source with
  | error e =>
    rw [ofSource, ht] at h
    cases h
  | ok tokens => exact ⟨tokens, rfl⟩

/-- A source whose parse uses up the budget is rejected. -/
theorem ofSource_ne_of_exhausted (entry : Entry) {source : Text} {tokens : List Token} {q : Progress}
    (ht : tokenize source = .ok tokens)
    (hq : (Grammar.rule entry.rule).run { input := .ofTokens tokens } .start = .failed .exhausted q)
    (tree : Node) : entry.ofSource source ≠ .ok tree := by
  rw [entry.ofSource_of_tokenize ht, entry.ofInput_of_failed hq]
  nofun

/-- What an entry accepts its rule has come to, in front of the end of the input if it is a single
expression. -/
theorem run_of_ofInput (entry : Entry) (h : entry.ofInput input = .ok tree) :
    ∃ p, (Grammar.rule entry.rule).run { input } .start = .ok tree p ∧
      (entry = .expression → (input.get p.cursor).kind = .eof) := by
  simp only [ofInput] at h
  split at h
  next node p hr =>
    cases h
    cases entry with
    | program => exact ⟨p, Grammar.run_of_ok hr, fun he => by cases he⟩
    | expression =>
      rw [parse, run_bind] at hr
      split at hr
      next n q hn =>
        simp only [Grammar.expectEnd, sees, run_bind, run_check, List.mem_singleton] at hr
        by_cases he : (input.get q.cursor).kind = .eof
        · simp only [he] at hr
          cases hr
          exact ⟨_, Grammar.run_of_ok hn, fun _ => he⟩
        · simp only [he] at hr
          cases hr
      next => cases hr
  next => cases h

/-- What an entry accepts was found by its rule up to the end of the input. -/
theorem found_of_ofInput (entry : Entry) (hp : input.IsProper) (h : entry.ofInput input = .ok tree) :
    ∃ stop, input.Found (fun _ => True) entry.rule 0 tree stop ∧ (input.get stop).kind = .eof := by
  obtain ⟨p, hr, he⟩ := entry.run_of_ofInput h
  cases entry with
  | program =>
    have hs := @Grammar.sound_program { input } _ _
      (fun r => Grammar.sound_parse hp (Grammar.budget - 1) r.surcharge r) _ .start rfl Memo.isSound_empty
    rw [← Grammar.rule_program, ← rule, hr] at hs
    exact ⟨p.cursor, hs.2.1.found, hs.2.2⟩
  | expression =>
    have hs := @Grammar.sound_parse { input } hp Grammar.budget Rule.expression.surcharge
      .expression 0 .start rfl Memo.isSound_empty
    rw [← Grammar.rule, ← rule, hr] at hs
    exact ⟨p.cursor, hs.2, he rfl⟩

/-- An entry finds a canonical tree under no bound on nesting, unless it uses up the budget. -/
theorem finds_written (entry : Entry) (remembers : Bool) (hcanonical : entry.isCanonical tree)
    (hw : tree.WrittenBy tokens last) :
    Finds ⟨⟨tokens.toArray, last⟩, remembers, none⟩ (Memo.IsRight ⟨tokens.toArray, last⟩)
      Failure.IsExhausted (Grammar.rule entry.rule) 0
        fun m d => m.unplaced = tree.unplaced ∧ d = tokens.length := by
  have hd (budget due : Nat) (r : Rule) := @Grammar.decides_parse
    ⟨⟨tokens.toArray, last⟩, remembers, none⟩ hw.isProper rfl budget due r
  cases entry with
  | program =>
    rw [rule, Grammar.rule_program]
    exact Grammar.complete_program (fun r hr => (hd _ _ r).complete hr) hcanonical
      (hw.writes _) hw.get_stop
  | expression =>
    refine (hd _ _ .expression).complete (by decide) 0 tree _ ⟨?_, hw.writes _, ?_⟩
    · simp only [Rule.admits, Bool.and_eq_true]
      exact ⟨hcanonical, Node.bindsAt_assignment hcanonical⟩
    · rw [hw.get_stop]
      exact ⟨by decide, fun _ => by decide, fun _ => by decide⟩

/-- A canonical tree that is written out is accepted, and the tree that is found is that tree, unless the
parse is cut short. -/
theorem finds_canonical (entry : Entry) (hcanonical : entry.isCanonical tree)
    (hw : tree.WrittenBy tokens last) :
    ((Grammar.rule entry.rule).run { input := .ofTokens (tokens ++ [last]) } .start).IsCutShort ∨
      ∃ t, entry.ofInput (.ofTokens (tokens ++ [last])) = .ok t ∧ t.alike tree := by
  rw [hw.input_eq]
  refine (Grammar.ok_of_finds (entry.finds_written true hcanonical hw) Memo.isRight_empty).imp id ?_
  rintro ⟨m, p, hr, hm, hp⟩
  refine ⟨m, entry.ofInput_of_ok hr ?_, (Node.alike_iff m tree).mpr hm⟩
  rw [hp]
  exact hw.get_stop

end Entry

end MagSyntax
