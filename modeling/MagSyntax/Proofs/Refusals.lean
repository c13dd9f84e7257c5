import MagSyntax.Proofs.Nesting

/-! A parse that is cut short stays cut short: a refusal is never forgotten, and nothing is run behind a budget
that is used up. So a program that starts with a parenthesis is cut short where the expression behind
that is. -/

namespace MagSyntax

namespace Parse

variable {α β : Type}

theorem Outcome.IsCutShort.stored {o : Outcome Node} (h : o.IsCutShort) (place : Attempt) :
    (o.stored place).IsCutShort := by
  rcases h with h | ⟨p, rfl⟩
  · exact .inl ((Outcome.refused_stored place o).trans h)
  · exact .inr ⟨p, rfl⟩

/-- From here on the step is cut short. -/
def CutsFrom (input : Input) (p : Progress) (step : Parse α) : Prop := (step.run { input } p).IsCutShort

namespace CutsFrom

variable {input : Input} {p q : Progress} {first : Parse α} {next : α → Parse β}

/-- What comes after a step that is cut short does not forget it. -/
theorem bind (h : CutsFrom input p first)
    (hn : ∀ v, Tracks (Grammar.unbounded input true 256) (next v) (next v)) :
    CutsFrom input p (first >>= next) := by
  unfold CutsFrom at h ⊢
  rw [run_bind]
  cases hr : first.run { input } p with
  | ok v q =>
    rw [hr] at h
    exact .inl ((hn v).stays q (h.resolve_right (by rintro ⟨_, ⟨⟩⟩)))
  | failed f q =>
    rw [hr] at h
    rcases h with h | ⟨q, ⟨⟩⟩
    · exact .inl h
    · exact .inr ⟨_, rfl⟩

theorem bind_of_run {v : α} (hr : first.run { input } p = .ok v q) (h : CutsFrom input q (next v)) :
    CutsFrom input p (first >>= next) := by
  unfold CutsFrom at h ⊢
  rw [run_bind, hr]
  exact h

theorem nested {rule : Parse α} (hd : p.depth < 256)
    (h : CutsFrom input p.deeper rule) : CutsFrom input p (nested rule) := by
  unfold CutsFrom at h ⊢
  simp only [Parse.nested]
  rw [if_neg (by simpa using hd)]
  rcases h with h | ⟨q, h⟩
  · left
    cases hr : rule.run { input } p.deeper <;> rw [hr] at h <;> exact h
  · right
    rw [h]
    exact ⟨_, rfl⟩

theorem remembered {r : Rule} {body : Parse Node} (hm : p.memo.find? ⟨r, p.cursor⟩ = none)
    (h : CutsFrom input p body) : CutsFrom input p (remembered r body) := by
  unfold CutsFrom at h ⊢
  rw [run_remembered_miss fun _ => hm]
  exact h.stored _

end CutsFrom

end Parse

namespace Grammar

open Parse

variable {input : Input} {p : Progress} {b : Nat}

/-- An expression in parentheses that is cut short is a primary that is. -/
theorem cutsFrom_group {self : Rule → Parse Node} (hk : (input.get p.cursor).kind = Symbol.lparen)
    (h : CutsFrom input { p with cursor := p.cursor + 1 } (self .expression)) :
    CutsFrom input p (primary self) := by
  have hfair := isFair_unbounded input true 256
  have hadvance : (discard advance).run { input } p = .ok () { p with cursor := p.cursor + 1 } := by
    show Outcome.ok () (p.pastToken input) = _
    rw [Progress.pastToken, if_neg (by simp [hk])]
  have hcurrent : current.run { input } p = .ok (input.get p.cursor) p := rfl
  refine .bind_of_run hcurrent ?_
  simp only [hk]
  exact .bind_of_run hadvance (h.bind fun _ => (Tracks.expect hfair _ _).bind fun _ => Tracks.pure _)

/-- A primary that is cut short is an operand that is. -/
theorem cutsFrom_operand (hk : (input.get p.cursor).kind ≠ Symbol.sub)
    (hm : p.memo.find? ⟨.operand, p.cursor⟩ = none) (h : CutsFrom input p (parse b 0 .primary)) :
    CutsFrom input p (parse (b + 10) 1 .operand) := by
  have hfair := isFair_unbounded input true 256
  have hcalls (b : Nat) (r : Rule) := tracks_unbounded input true 256 b r.surcharge r
  have hchain : CutsFrom input p (parse (b + 1) 0 .postfixChain) :=
    h.bind fun n => (Tracks.rounds hfair).bind fun bound => tracks_chain hfair (hcalls b) bound n
  have hunary : CutsFrom input p (parse (b + 2) 0 .unary) := by
    refine .bind_of_run (v := none) (q := p) ?_ hchain
    rw [run_accept, if_neg (by simpa using hk)]
  have hexponent : CutsFrom input p (parse (b + 3) 0 .exponent) := by
    refine hunary.bind fun base => (Tracks.accept hfair _).bind fun o => ?_
    cases o with
    | none => exact Tracks.pure _
    | some operator => exact (hcalls (b + 2) .exponent).bind fun _ => Tracks.pure _
  have hmultiplicative : CutsFrom input p (parse (b + 5) 1 .multiplicative) :=
    hexponent.bind fun left => (Tracks.rounds hfair).bind fun bound =>
      Tracks.operatorsLeft hfair (hcalls (b + 3) .exponent) bound left
  have hadditive : CutsFrom input p (parse (b + 7) 1 .additive) :=
    hmultiplicative.bind fun left => (Tracks.rounds hfair).bind fun bound =>
      Tracks.operatorsLeft hfair (hcalls (b + 5) .multiplicative) bound left
  have hcomparison : CutsFrom input p (parse (b + 8) 0 .comparison) := by
    refine hadditive.bind fun left => (Tracks.accept hfair _).bind fun o => ?_
    cases o with
    | none => exact Tracks.pure _
    | some operator =>
      refine (hcalls (b + 7) .additive).bind fun right => (Tracks.check hfair _).bind fun b => ?_
      cases b with
      | true => exact (Tracks.complain hfair _).bind fun _ => Tracks.pure _
      | false => exact Tracks.pure _
  exact hcomparison.remembered hm

/-- A program that starts with a parenthesis is cut short if the expression behind that is. -/
theorem cutsFrom_groupProgram (hk : (input.get 0).kind = Symbol.lparen)
    (h : CutsFrom input (.within 1 1) (parse b 2 .expression)) :
    CutsFrom input .start (parse (b + 16) 0 .program) := by
  have hfair := isFair_unbounded input true 256
  have hcalls (b : Nat) (r : Rule) := tracks_unbounded input true 256 b r.surcharge r
  have hcurrent (p : Progress) : current.run { input } p = .ok (input.get p.cursor) p := rfl
  have hgroup : CutsFrom input (.within 0 1) (parse (b + 1) 0 .primary) := cutsFrom_group hk h
  have hoperand := cutsFrom_operand (by simp [hk]) (Memo.find?_empty _) hgroup
  have hvalue : CutsFrom input (.within 0 1) (parse (b + 12) 0 .expressionStatement) := by
    refine hoperand.bind fun value => (Tracks.sees hfair _).bind fun b => ?_
    cases b with
    | true =>
      exact (Tracks.complain hfair _).bind fun _ => (Tracks.expect hfair _ _).bind fun _ => Tracks.pure _
    | false => exact (Tracks.expect hfair _ _).bind fun _ => Tracks.pure _
  have hbody : CutsFrom input (.within 0 1) (statement fun r => parse (b + 12) r.surcharge r) := by
    refine .bind_of_run (hcurrent _) ?_
    simp only [Progress.cursor_within, hk]
    exact hvalue
  have hstatement : CutsFrom input .start (parse (b + 15) 2 .statement) :=
    .remembered (Memo.find?_empty _) (.nested (by decide) hbody)
  refine .bind_of_run (hcurrent _) (.bind_of_run rfl (.bind (.bind_of_run (v := false) (q := .start) ?_ ?_)
    fun _ => Tracks.pure _))
  · rw [sees, run_check]
    simp [Progress.start, hk]
  · exact hstatement.bind fun s => Tracks.statementsToEnd hfair (hcalls (b + 15) .statement) _ _

end Grammar

end MagSyntax
