import Mathlib.Data.List.Forall2
import MagSyntax.Proofs.Segments

/-! Two parses of one input side by side, under two set-ups and on two budgets. One of them is the
reference: until it is cut short the other comes to the same, because the body of a rule depends on the
set-up only through the rules that it runs. What is left to show for a pair of set-ups is how the rules
that are remembered compare. -/

namespace MagSyntax

namespace Parse

variable {α β : Type}

/-- A parse and the reference that it is compared with. -/
structure Comparison where
  subject : Setup
  reference : Setup
  /-- What holds of the progress of both behind a step that both have taken, wherever their cursors are. -/
  related : Progress → Progress → Prop
  /-- Nothing is said any more once this holds of the reference: of whether it has been refused a rule, and of
  its memo. -/
  escapes : Bool → Memo → Prop
  /-- The subject may use up its budget before the reference does. -/
  mayExhaust : Prop
  /-- Errors of both that stand for each other. -/
  alike : SyntaxError → SyntaxError → Prop := (· = ·)
  /-- What holds of the errors and of the progress of both when neither matches. -/
  missed : SyntaxError → SyntaxError → Progress → Progress → Prop := fun e e' p q => alike e e' ∧ related p q
  /-- Nothing is said of a reference that fails with this error. -/
  lost : SyntaxError → Prop := fun _ => False

namespace Comparison

/-- Both read the same input, and stay related when both take a token or complain about it. -/
structure IsFair (k : Comparison) : Prop where
  input : k.subject.input = k.reference.input
  advance : ∀ {p q : Progress}, p.cursor = q.cursor → (k.reference.input.get q.cursor).kind ≠ .eof → k.related p q →
    k.related { p with cursor := q.cursor + 1 } { q with cursor := q.cursor + 1 }
  complain : ∀ {p q : Progress} (complaint : Complaint), p.cursor = q.cursor → k.related p q →
    k.missed (.ofToken complaint (k.reference.input.get q.cursor))
      (.ofToken complaint (k.reference.input.get q.cursor)) p q

/-- Where alternatives did not match both are related at the token where they started, and neither an error nor
its token makes a difference. -/
structure Retries (k : Comparison) : Prop where
  refl : ∀ e, k.alike e e
  further : ∀ {e e' f f' : SyntaxError}, k.alike e e' → k.alike f f' → k.alike (further e f) (further e' f')
  misses : ∀ {e e' : SyntaxError} {p q : Progress}, k.alike e e' → k.related p q → k.missed e e' p q
  alike : ∀ {e e' : SyntaxError} {p q : Progress}, k.missed e e' p q → k.alike e e'
  seek : ∀ {e e' : SyntaxError} {p q p₀ q₀ : Progress}, k.missed e e' p q → p₀.cursor = q₀.cursor →
    k.related p₀ q₀ → k.related { p with cursor := q₀.cursor, deepest := p₀.deepest }
      { q with cursor := q₀.cursor, deepest := q₀.deepest }
  keeps : ∀ e, ¬k.lost e

/-- A rule that the reference may nest the subject may nest too. -/
structure Nests (k : Comparison) : Prop where
  deeper : ∀ {p q : Progress}, k.related p q → k.reference.nesting.any (· ≤ q.depth) = false →
    k.subject.nesting.any (· ≤ p.depth) = false ∧ k.related p.deeper q.deeper
  back : ∀ {p q : Progress}, k.related p q →
    k.related { p with depth := p.depth - 1 } { q with depth := q.depth - 1 }
  missed_back : ∀ {e e' : SyntaxError} {p q : Progress}, k.missed e e' p q →
    k.missed e e' { p with depth := p.depth - 1 } { q with depth := q.depth - 1 }
  refuses : ∀ {p q : Progress}, p.cursor = q.cursor → k.related p q →
    k.reference.nesting.any (· ≤ q.depth) = true → k.escapes true q.memo ∨
      k.subject.nesting.any (· ≤ p.depth) = true ∧
        k.missed (.ofToken .tooDeep (k.reference.input.get q.cursor))
          (.ofToken .tooDeep (k.reference.input.get q.cursor)) { p with refused := true } { q with refused := true }
  refused : ∀ {b : Bool} {m : Memo}, k.escapes b m → k.escapes true m

/-- The reference has escaped, or else both come to the same value behind the same token or to errors that
stand for each other. -/
inductive Agree (k : Comparison) : Outcome α → Outcome α → Prop
  | escaped {o o' : Outcome α} (h : k.escapes o'.progress.refused o'.progress.memo) : Agree k o o'
  | lost {o : Outcome α} {e : SyntaxError} {q : Progress} (h : k.lost e) : Agree k o (.failed (.mismatch e) q)
  | exhausted {o : Outcome α} {q : Progress} : Agree k o (.failed .exhausted q)
  | exhausts {p : Progress} {o' : Outcome α} (h : k.mayExhaust) : Agree k (.failed .exhausted p) o'
  | found {v : α} {p q : Progress} (hc : p.cursor = q.cursor) (h : k.related p q) :
    Agree k (.ok v p) (.ok v q)
  | mismatch {e e' : SyntaxError} {p q : Progress} (h : k.missed e e' p q) :
    Agree k (.failed (.mismatch e) p) (.failed (.mismatch e') q)

end Comparison

/-- A rule was refused because too many were open, or the budget was used up. -/
def Outcome.IsCutShort (o : Outcome α) : Prop :=
  o.progress.refused = true ∨ ∃ p, o = .failed .exhausted p

instance (o : Outcome α) : Decidable o.IsCutShort :=
  match o with
  | .ok _ p => decidable_of_iff (p.refused = true) (by simp [Outcome.IsCutShort, Outcome.progress])
  | .failed .exhausted p => .isTrue (.inr ⟨p, rfl⟩)
  | .failed (.mismatch _) p | .failed (.unclosable _) p =>
    decidable_of_iff (p.refused = true) (by simp [Outcome.IsCutShort, Outcome.progress])

instance (o : Outcome α) (p : α → Progress → Prop) [∀ v q, Decidable (p v q)] :
    Decidable (∃ v q, o = .ok v q ∧ p v q) :=
  match o with
  | .ok v q => decidable_of_iff (p v q) (by simp)
  | .failed .. => .isFalse (by rintro ⟨_, _, ⟨⟩, _⟩)

/-- The outcomes are the same value behind the same token, or the same error. -/
def Outcome.SameAs (o o' : Outcome α) : Prop :=
  (∃ v p q, o = .ok v p ∧ o' = .ok v q ∧ p.cursor = q.cursor) ∨
    ∃ e p q, o = .failed (.mismatch e) p ∧ o' = .failed (.mismatch e) q

theorem Outcome.SameAs.of_ok {o o' : Outcome α} (h : o.SameAs o') {v : α} {p : Progress} (ho : o = .ok v p) :
    ∃ q, o' = .ok v q ∧ p.cursor = q.cursor := by
  subst ho
  obtain ⟨_, _, q, ⟨⟩, hq, hc⟩ | ⟨_, _, _, ⟨⟩, -⟩ := h
  exact ⟨q, hq, hc⟩

/-- Nothing but a refusal makes a difference, and errors that stand for each other are the same. -/
structure Comparison.IsExact (k : Comparison) : Prop where
  escapes : ∀ {b : Bool} {m : Memo}, k.escapes b m → b = true
  missed : ∀ {e e' : SyntaxError} {p q : Progress}, k.missed e e' p q → e = e'
  keeps : ∀ e, ¬k.lost e

theorem Comparison.Agree.sameAs {k : Comparison} (hk : k.IsExact) {o o' : Outcome α} (h : k.Agree o o') :
    o'.IsCutShort ∨ o.SameAs o' ∨ k.mayExhaust ∧ ∃ p, o = .failed .exhausted p := by
  cases h with
  | escaped h => exact .inl (.inl (hk.escapes h))
  | lost h => exact absurd h (hk.keeps _)
  | exhausted => exact .inl (.inr ⟨_, rfl⟩)
  | exhausts h => exact .inr (.inr ⟨h, _, rfl⟩)
  | found hc => exact .inr (.inl (.inl ⟨_, _, _, rfl, rfl, hc⟩))
  | mismatch h =>
    obtain rfl := hk.missed h
    exact .inr (.inl (.inr ⟨_, _, _, rfl, rfl⟩))

/-- A step, and another in its place if the tokens do not match. -/
def recover (first : Parse α) (target : Nat → Nat) (next : Nat → SyntaxError → Parse α) : Parse α :=
  ⟨fun setup p =>
    match first.run setup p with
    | .failed (.mismatch e) q => 
      (next p.cursor e).run setup { q with cursor := target p.cursor, deepest := p.deepest }
    | outcome => outcome⟩

theorem attemptAfter_cons (start : Nat) (furthest : SyntaxError) (first : Parse α)
    (others : List (Parse α)) :
    attemptAfter start furthest (first :: others) =
      recover first (fun _ => start) fun _ e => attemptAfter start (further furthest e) others := rfl

theorem attempt_eq (first : Parse α) (others : List (Parse α)) :
    attempt first others = recover first id fun c e => attemptAfter c e others := rfl

/-- A reference that has escaped has done so behind the step too, and it is as deep there as before. -/
structure Steady (k : Comparison) (step : Parse α) : Prop where
  stays : ∀ q, k.escapes q.refused q.memo →
    k.escapes (step.run k.reference q).progress.refused (step.run k.reference q).progress.memo
  level : ∀ q, (step.run k.reference q).progress.depth = q.depth

namespace Steady

variable {k : Comparison}

theorem of_progress {step : Parse α} (h : ∀ q, (step.run k.reference q).progress = q) : Steady k step :=
  ⟨fun q hq => by rwa [h q], fun q => by rw [h q]⟩

theorem bind {first : Parse α} {next : α → Parse β} (hf : Steady k first) (hn : ∀ v, Steady k (next v)) :
    Steady k (first >>= next) := by
  refine ⟨fun q hq => ?_, fun q => ?_⟩
  · have h := hf.stays q hq
    rw [run_bind]
    cases hr : first.run k.reference q with
    | ok v q' =>
      rw [hr] at h
      exact (hn v).stays q' h
    | failed f q' =>
      rw [hr] at h
      exact h
  · have h := hf.level q
    rw [run_bind]
    cases hr : first.run k.reference q with
    | ok v q' =>
      rw [hr] at h
      exact ((hn v).level q').trans h
    | failed f q' =>
      rw [hr] at h
      exact h

theorem recover {first : Parse α} {target : Nat → Nat} {next : Nat → SyntaxError → Parse α}
    (hf : Steady k first) (hn : ∀ c e, Steady k (next c e)) : Steady k (recover first target next) := by
  refine ⟨fun q hq => ?_, fun q => ?_⟩
  · have h := hf.stays q hq
    simp only [Parse.recover]
    cases hr : first.run k.reference q with
    | ok v q' => rw [hr] at h; exact h
    | failed f q' =>
      rw [hr] at h
      cases f with
      | mismatch e => exact (hn _ e).stays _ h
      | unclosable | exhausted => exact h
  · have h := hf.level q
    simp only [Parse.recover]
    cases hr : first.run k.reference q with
    | ok v q' => rw [hr] at h; exact h
    | failed f q' =>
      rw [hr] at h
      cases f with
      | mismatch e => exact ((hn _ e).level _).trans h
      | unclosable | exhausted => exact h

theorem attemptAfter {start : Nat} {furthest : SyntaxError} {alternatives : List (Parse α)}
    (h : ∀ step ∈ alternatives, Steady k step) : Steady k (attemptAfter start furthest alternatives) := by
  induction alternatives generalizing furthest with
  | nil => exact of_progress fun _ => rfl
  | cons first others ih =>
    obtain ⟨hfirst, hothers⟩ := List.forall_mem_cons.mp h
    rw [attemptAfter_cons]
    exact hfirst.recover fun _ _ => ih hothers

theorem nested {rule : Parse α} (hk : k.Nests) (h : Steady k rule) : Steady k (nested rule) := by
  refine ⟨fun q hq => ?_, fun q => ?_⟩
  · simp only [Parse.nested]
    split
    · exact hk.refused hq
    · have h := h.stays q.deeper hq
      cases hr : rule.run k.reference q.deeper <;> rw [hr] at h <;> exact h
  · simp only [Parse.nested]
    split
    · rfl
    · have h := h.level q.deeper
      cases hr : rule.run k.reference q.deeper <;> rw [hr] at h <;>
        exact (congrArg (· - 1) h).trans (Nat.add_sub_cancel q.depth 1)

end Steady

/-- A step of the subject tracks one of the reference: from the same token they agree. -/
structure Tracks (k : Comparison) (step step' : Parse α) : Prop extends Steady k step' where
  agree : ∀ p q, p.cursor = q.cursor → k.related p q →
    k.Agree (step.run k.subject p) (step'.run k.reference q)

namespace Tracks

variable {k : Comparison}

theorem pure (v : α) : Tracks k (Pure.pure v : Parse α) (Pure.pure v) :=
  ⟨.of_progress fun _ => rfl, fun _ _ hc h => .found hc h⟩

theorem mismatch (hk : k.Retries) {e e' : SyntaxError} (he : k.alike e e') :
    Tracks k (Parse.fail (.mismatch e) : Parse α) (Parse.fail (.mismatch e')) :=
  ⟨.of_progress fun _ => rfl, fun _ _ _ h => .mismatch (hk.misses he h)⟩

theorem exhausted {step : Parse α} : Tracks k step (Parse.fail .exhausted) :=
  ⟨.of_progress fun _ => rfl, fun _ _ _ _ => .exhausted⟩

/-- Two steps agree if the first do and the second do from where those have come to. -/
theorem agree_bind {first first' : Parse α} {next next' : α → Parse β} {p q : Progress}
    (h : k.Agree (first.run k.subject p) (first'.run k.reference q))
    (hs : ∀ v q, k.escapes q.refused q.memo →
      k.escapes ((next' v).run k.reference q).progress.refused ((next' v).run k.reference q).progress.memo)
    (hn : ∀ v p' q', first.run k.subject p = .ok v p' → first'.run k.reference q = .ok v q' →
      p'.cursor = q'.cursor → k.related p' q' → k.Agree ((next v).run k.subject p') ((next' v).run k.reference q')) :
    k.Agree ((first >>= next).run k.subject p) ((first' >>= next').run k.reference q) := by
  rw [run_bind, run_bind]
  generalize first.run k.subject p = o at h hn ⊢
  generalize first'.run k.reference q = o' at h hn ⊢
  cases h with
  | escaped h =>
    refine .escaped ?_
    cases o' with
    | ok v q' => exact hs v q' h
    | failed f q' => exact h
  | lost h => exact .lost h
  | exhausted => exact .exhausted
  | exhausts h => exact .exhausts h
  | found hc h => exact hn _ _ _ rfl rfl hc h
  | mismatch h => exact .mismatch h

theorem bind {first first' : Parse α} {next next' : α → Parse β} (hf : Tracks k first first')
    (hn : ∀ v, Tracks k (next v) (next' v)) : Tracks k (first >>= next) (first' >>= next') :=
  ⟨hf.toSteady.bind fun v => (hn v).toSteady, fun p q hc h => agree_bind (hf.agree p q hc h)
    (fun v => (hn v).stays) fun v _ _ _ _ hc h => (hn v).agree _ _ hc h⟩

theorem map {first first' : Parse α} (f : α → β) (h : Tracks k first first') :
    Tracks k (f <$> first) (f <$> first') :=
  h.bind fun v => pure (f v)

theorem discard {first first' : Parse α} (h : Tracks k first first') :
    Tracks k (discard first) (discard first') :=
  h.bind fun _ => pure ()

/-- Alternatives from the token where both stand agree if they do from there after a mismatch. -/
theorem agree_recover (hk : k.Retries) {first first' : Parse α} {target : Nat → Nat}
    {next next' : Nat → SyntaxError → Parse α} {p q : Progress} (hf : Tracks k first first')
    (ht : target q.cursor = q.cursor) (hs : ∀ c e, Steady k (next' c e))
    (hn : ∀ {e e' : SyntaxError} {p' q' : Progress}, k.alike e e' → p'.cursor = q.cursor → q'.cursor = q.cursor →
      k.related p' q' → k.Agree ((next q.cursor e).run k.subject p') ((next' q.cursor e').run k.reference q'))
    (hc : p.cursor = q.cursor) (hr : k.related p q) :
    k.Agree ((recover first target next).run k.subject p) ((recover first' target next').run k.reference q) := by
  have h := hf.agree p q hc hr
  simp only [Parse.recover]
  generalize first.run k.subject p = o at h ⊢
  generalize first'.run k.reference q = o' at h ⊢
  cases h with
  | escaped h =>
    refine .escaped ?_
    cases o' with
    | ok v q' => exact h
    | failed f q' =>
      cases f with
      | mismatch e => exact (hs _ e).stays _ h
      | unclosable | exhausted => exact h
  | lost h => exact absurd h (hk.keeps _)
  | exhausted => exact .exhausted
  | exhausts h => exact .exhausts h
  | found hc h => exact .found hc h
  | mismatch h =>
    rw [hc, ht]
    exact hn (hk.alike h) rfl rfl (hk.seek h hc hr)

theorem steady_right {alternatives alternatives' : List (Parse α)}
    (h : List.Forall₂ (Tracks k) alternatives alternatives') : ∀ step ∈ alternatives', Steady k step := by
  induction h with
  | nil => exact List.forall_mem_nil _
  | cons hf _ ih => exact List.forall_mem_cons.mpr ⟨hf.toSteady, ih⟩

theorem agree_attemptAfter (hk : k.Retries) {furthest furthest' : SyntaxError}
    {alternatives alternatives' : List (Parse α)} (he : k.alike furthest furthest')
    (h : List.Forall₂ (Tracks k) alternatives alternatives') {p q : Progress} (hc : p.cursor = q.cursor)
    (hr : k.related p q) :
    k.Agree ((Parse.attemptAfter q.cursor furthest alternatives).run k.subject p)
      ((Parse.attemptAfter q.cursor furthest' alternatives').run k.reference q) := by
  induction h generalizing furthest furthest' p q with
  | nil => exact .mismatch (hk.misses he hr)
  | cons hf ho ih =>
    rw [attemptAfter_cons, attemptAfter_cons]
    refine agree_recover hk hf rfl (fun _ _ => .attemptAfter (steady_right ho)) (fun hee hp hq hpq => ?_) hc hr
    rw [← hq]
    exact ih (hk.further he hee) (hp.trans hq.symm) hpq

theorem attempt (hk : k.Retries) {first first' : Parse α} {others others' : List (Parse α)}
    (hf : Tracks k first first') (ho : List.Forall₂ (Tracks k) others others') :
    Tracks k (attempt first others) (attempt first' others') := by
  have hs (c : Nat) (e : SyntaxError) : Steady k (Parse.attemptAfter c e others') := .attemptAfter (steady_right ho)
  rw [attempt_eq, attempt_eq]
  refine ⟨hf.toSteady.recover hs, fun p q hc hr => agree_recover hk hf rfl hs (fun he hp hq hpq => ?_) hc hr⟩
  rw [← hq]
  exact agree_attemptAfter hk he ho (hp.trans hq.symm) hpq

/-- A nested rule: where the reference is not refused the subject is not. -/
theorem nested (hk : k.Nests) (hin : k.subject.input = k.reference.input) {rule rule' : Parse α}
    (h : Tracks k rule rule') : Tracks k (nested rule) (nested rule') := by
  refine ⟨h.toSteady.nested hk, fun p q hc hr => ?_⟩
  simp only [Parse.nested]
  cases hn : k.reference.nesting.any (· ≤ q.depth) with
  | true =>
    rcases hk.refuses hc hr hn with h | ⟨hs, h⟩
    · exact .escaped h
    · have htoken : k.subject.input.get p.cursor = k.reference.input.get q.cursor := by rw [hin, hc]
      rw [hs]
      simp only [if_true, run_complain, htoken]
      exact .mismatch h
  | false =>
    obtain ⟨hn, hr⟩ := hk.deeper hr hn
    have h := h.agree p.deeper q.deeper hc hr
    rw [hn]
    simp only [Bool.false_eq_true, if_false]
    generalize rule.run k.subject p.deeper = o at h ⊢
    generalize rule'.run k.reference q.deeper = o' at h ⊢
    cases h with
    | escaped h => exact .escaped (by cases o' <;> exact h)
    | lost h => exact .lost h
    | exhausted => exact .exhausted
    | exhausts h => exact .exhausts h
    | found hc h => exact .found hc (hk.back h)
    | mismatch h => exact .mismatch (hk.missed_back h)

section

variable (hk : k.IsFair)
include hk

theorem current : Tracks k current current := by
  refine ⟨.of_progress fun _ => rfl, fun p q hc h => ?_⟩
  show k.Agree (.ok (k.subject.input.get p.cursor) p) (.ok (k.reference.input.get q.cursor) q)
  rw [hk.input, hc]
  exact .found hc h

theorem rounds : Tracks k rounds rounds := by
  refine ⟨.of_progress fun _ => rfl, fun p q hc h => ?_⟩
  show k.Agree (.ok (k.subject.input.before.size - p.cursor + 1) p)
    (.ok (k.reference.input.before.size - q.cursor + 1) q)
  rw [hk.input, hc]
  exact .found hc h

theorem advance : Tracks k advance advance := by
  refine ⟨⟨fun q h => ?_, fun q => ?_⟩, fun p q hc h => ?_⟩
  · simp only [Parse.advance, Outcome.progress, Progress.pastToken]
    split <;> exact h
  · simp only [Parse.advance, Outcome.progress, Progress.pastToken]
    split <;> rfl
  · show k.Agree (.ok (k.subject.input.get p.cursor) (p.pastToken k.subject.input))
      (.ok (k.reference.input.get q.cursor) (q.pastToken k.reference.input))
    rw [hk.input, Progress.pastToken, Progress.pastToken, hc]
    split
    · exact .found hc h
    · exact .found rfl (hk.advance hc ‹_› h)

theorem check (kinds : List TokenKind) : Tracks k (check kinds) (check kinds) :=
  (current hk).bind fun _ => pure _

theorem sees (kind : TokenKind) : Tracks k (sees kind) (sees kind) := check hk [kind]

theorem accept (kinds : List TokenKind) : Tracks k (accept kinds) (accept kinds) := by
  refine (check hk kinds).bind fun b => ?_
  split
  · exact (advance hk).bind fun _ => pure _
  · exact pure _

theorem skip (kind : TokenKind) : Tracks k (skip kind) (skip kind) :=
  (accept hk [kind]).bind fun _ => pure _

theorem complain (complaint : Complaint) :
    Tracks k (complain complaint : Parse α) (complain complaint) := by
  refine ⟨.of_progress fun _ => rfl, fun p q hc h => ?_⟩
  rw [run_complain, run_complain, hk.input, hc]
  exact .mismatch (hk.complain complaint hc h)

theorem expectOne (kinds : List TokenKind) (complaint : Complaint) :
    Tracks k (expectOne kinds complaint) (expectOne kinds complaint) := by
  refine (accept hk kinds).bind fun o => ?_
  cases o with
  | none => exact complain hk _
  | some => exact pure _

theorem expect (kind : TokenKind) (complaint : Complaint) :
    Tracks k (expect kind complaint) (expect kind complaint) :=
  (expectOne hk [kind] complaint).discard

theorem marked {kind : TokenKind} {part part' : Parse α} {next next' : Option α → Parse β}
    (hp : Tracks k part part') (hn : ∀ o, Tracks k (next o) (next' o)) :
    Tracks k
      (Parse.skip kind >>= fun b => if b then some <$> part >>= next else Pure.pure none >>= next)
      (Parse.skip kind >>= fun b => if b then some <$> part' >>= next'
        else Pure.pure none >>= next') := by
  refine (skip hk kind).bind fun b => ?_
  cases b with
  | true => exact (hp.map some).bind hn
  | false => exact (pure none).bind hn

theorem statementsToEnd {statement statement' : Parse Node} (h : Tracks k statement statement')
    (bound : Nat) (sofar : List Node) :
    Tracks k (statementsToEnd statement bound sofar) (statementsToEnd statement' bound sofar) := by
  induction bound generalizing sofar with
  | zero => exact exhausted
  | succ bound ih =>
    refine (sees hk .eof).bind fun b => ?_
    cases b with
    | true => exact pure _
    | false => exact h.bind fun _ => ih _

theorem statementsToBrace {statement statement' : Parse Node} (h : Tracks k statement statement')
    (bound : Nat) (sofar : List Node) :
    Tracks k (statementsToBrace statement bound sofar)
      (statementsToBrace statement' bound sofar) := by
  induction bound generalizing sofar with
  | zero => exact exhausted
  | succ bound ih =>
    refine (sees hk _).bind fun b => ?_
    cases b with
    | true => exact pure _
    | false =>
      refine (sees hk .eof).bind fun b => ?_
      cases b with
      | true => exact (complain hk _).bind fun _ => h.bind fun _ => ih _
      | false => exact h.bind fun _ => ih _

theorem elements {close : TokenKind} {element element' : Parse Node} (h : Tracks k element element')
    (bound : Nat) (sofar : List Node) :
    Tracks k (elements close element bound sofar) (elements close element' bound sofar) := by
  induction bound generalizing sofar with
  | zero => exact exhausted
  | succ bound ih =>
    refine (sees hk close).bind fun b => ?_
    cases b with
    | true => exact pure _
    | false =>
      refine h.bind fun next => (skip hk _).bind fun b => ?_
      cases b with
      | true => exact ih _
      | false => exact pure _

theorem delimited {close : TokenKind} {bracket : Symbol} (hb : closingBracket? close = some bracket)
    {element element' : Parse Node} (h : Tracks k element element') :
    Tracks k (delimited close element) (delimited close element') := by
  refine (advance hk).discard.bind fun _ => (rounds hk).bind fun bound =>
    (elements hk h bound []).bind fun items => ?_
  rw [hb]
  exact (expect hk _ _).bind fun _ => pure _

theorem operatorsLeft {operators : List TokenKind} {operand operand' : Parse Node}
    (h : Tracks k operand operand') (bound : Nat) (left : Node) :
    Tracks k (operatorsLeft operators operand bound left)
      (operatorsLeft operators operand' bound left) := by
  induction bound generalizing left with
  | zero => exact exhausted
  | succ bound ih =>
    refine (accept hk operators).bind fun o => ?_
    cases o with
    | none => exact pure _
    | some operator => exact h.bind fun right => ih _

theorem binaryLeft {operators : List TokenKind} {operand operand' : Parse Node}
    (h : Tracks k operand operand') :
    Tracks k (binaryLeft operators operand) (binaryLeft operators operand') :=
  h.bind fun left => (rounds hk).bind fun bound => operatorsLeft hk h bound left

end

end Tracks

namespace Outcome

/-- What a memo keeps of an outcome. -/
def finding? : Outcome Node → Option Finding
  | .ok node q => some (.node node q.cursor)
  | .failed (.mismatch e) _ => some (.error e)
  | .failed .. => none

/-- The outcome that a memo gives back. -/
def recalled : Finding → Progress → Outcome Node
  | .node node stop, p => .ok node { p with cursor := stop }
  | .error e, p => .failed (.mismatch e) p

/-- The outcome with what a memo keeps of it stored. -/
def stored (place : Attempt) : Outcome Node → Outcome Node
  | .ok node q => .ok node { q with memo := q.memo.store place (.node node q.cursor) }
  | .failed (.mismatch e) q =>
    .failed (.mismatch e) { q with memo := q.memo.store place (.error e) }
  | outcome => outcome

theorem refused_stored (place : Attempt) (o : Outcome Node) :
    (o.stored place).progress.refused = o.progress.refused := by
  rcases o with _ | ⟨_ | _ | _, _⟩ <;> rfl

theorem depth_stored (place : Attempt) (o : Outcome Node) :
    (o.stored place).progress.depth = o.progress.depth := by
  rcases o with _ | ⟨_ | _ | _, _⟩ <;> rfl

end Outcome

theorem run_remembered_hit {r : Rule} {body : Parse Node} {setup : Setup} {p : Progress} {f : Finding}
    (hs : setup.remembers) (h : p.memo.find? ⟨r, p.cursor⟩ = some f) :
    (remembered r body).run setup p = .recalled f p := by
  simp only [remembered, hs, if_true, h]
  cases f <;> rfl

theorem run_remembered_miss {r : Rule} {body : Parse Node} {setup : Setup} {p : Progress}
    (h : setup.remembers → p.memo.find? ⟨r, p.cursor⟩ = none) :
    (remembered r body).run setup p = (body.run setup p).stored ⟨r, p.cursor⟩ := by
  have hm : (if setup.remembers then p.memo.find? ⟨r, p.cursor⟩ else none) = none := by
    split
    · exact h ‹_›
    · rfl
  simp only [remembered, hm]
  rcases body.run setup p with _ | ⟨_ | _ | _, _⟩ <;> rfl

theorem Outcome.stored_of_finding? {o : Outcome Node} {f : Finding} (h : o.finding? = some f) (place : Attempt) :
    (o.stored place).progress = { o.progress with memo := o.progress.memo.store place f } := by
  rcases o with _ | ⟨_ | _ | _, _⟩ <;> cases h <;> rfl

theorem Outcome.stored_of_none {o : Outcome Node} (h : o.finding? = none) (place : Attempt) : o.stored place = o := by
  rcases o with _ | ⟨_ | _ | _, _⟩ <;> first | rfl | cases h

/-- Outcomes agree when they are stored if what comes from that is related. -/
theorem Comparison.Agree.stored {k : Comparison} {o o' : Outcome Node} (h : k.Agree o o') (place : Attempt)
    (he : ∀ f, o'.finding? = some f → k.escapes o'.progress.refused o'.progress.memo →
      k.escapes o'.progress.refused (o'.progress.memo.store place f))
    (hn : ∀ (v : Node) (p q : Progress), o = .ok v p → o' = .ok v q → p.cursor = q.cursor → k.related p q →
      k.related { p with memo := p.memo.store place (.node v q.cursor) }
        { q with memo := q.memo.store place (.node v q.cursor) })
    (hm : ∀ (e e' : SyntaxError) (p q : Progress), o = .failed (.mismatch e) p → o' = .failed (.mismatch e') q →
      k.missed e e' p q →
      k.missed e e' { p with memo := p.memo.store place (.error e) }
        { q with memo := q.memo.store place (.error e') }) :
    k.Agree (o.stored place) (o'.stored place) := by
  cases h with
  | escaped h =>
    refine .escaped ?_
    cases hf : o'.finding? with
    | none => rwa [Outcome.stored_of_none hf]
    | some f =>
      rw [Outcome.stored_of_finding? hf]
      exact he f hf h
  | lost h => exact .lost h
  | exhausted => exact .exhausted
  | exhausts h => exact .exhausts h
  | @found v p q hc h =>
    have hf : Finding.node v p.cursor = .node v q.cursor := by rw [hc]
    rw [Outcome.stored, hf]
    exact .found hc (hn v p q rfl rfl hc h)
  | @mismatch e e' p q h => exact .mismatch (hm e e' p q rfl rfl h)

/-- What a remembered rule comes to is what the memo gives back, or what its body comes to, stored. -/
theorem run_remembered (r : Rule) (body : Parse Node) (setup : Setup) (p : Progress) :
    (setup.remembers ∧ ∃ f, p.memo.find? ⟨r, p.cursor⟩ = some f ∧
        (remembered r body).run setup p = .recalled f p) ∨
      (setup.remembers → p.memo.find? ⟨r, p.cursor⟩ = none) ∧
        (remembered r body).run setup p = (body.run setup p).stored ⟨r, p.cursor⟩ := by
  by_cases hs : setup.remembers
  · cases hf : p.memo.find? ⟨r, p.cursor⟩ with
    | some f => exact .inl ⟨hs, f, rfl, run_remembered_hit hs hf⟩
    | none => exact .inr ⟨fun _ => rfl, run_remembered_miss fun _ => hf⟩
  · exact .inr ⟨fun h => absurd h hs, run_remembered_miss fun h => absurd h hs⟩

/-- A remembered rule is steady if its body is and an escape outlasts what is stored. -/
theorem Steady.remembered {k : Comparison} {r : Rule} {step : Parse Node} (h : Steady k step)
    (hs : ∀ q f, (k.reference.remembers → q.memo.find? ⟨r, q.cursor⟩ = none) →
      (step.run k.reference q).finding? = some f → k.escapes q.refused q.memo →
      k.escapes (step.run k.reference q).progress.refused
        ((step.run k.reference q).progress.memo.store ⟨r, q.cursor⟩ f)) :
    Steady k (remembered r step) := by
  refine ⟨fun q hq => ?_, fun q => ?_⟩
  · rcases run_remembered r step k.reference q with ⟨-, f, -, hr⟩ | ⟨hnone, hr⟩
    · rw [hr]
      cases f <;> exact hq
    · rw [hr]
      cases hf : (step.run k.reference q).finding? with
      | none =>
        rw [Outcome.stored_of_none hf]
        exact h.stays q hq
      | some f =>
        rw [Outcome.stored_of_finding? hf]
        exact hs q f hnone hf hq
  · rcases run_remembered r step k.reference q with ⟨-, f, -, hr⟩ | ⟨-, hr⟩
    · rw [hr]
      cases f <;> rfl
    · rw [hr, Outcome.depth_stored]
      exact h.level q

/-- A remembered rule tracks itself if its body does, where an escape does not depend on the memo. -/
theorem Tracks.remembered {k : Comparison} {r : Rule} {step step' : Parse Node} (h : Tracks k step step')
    (hk : ∀ {b : Bool} {m : Memo}, k.escapes b m → ∀ m', k.escapes b m')
    (ha : ∀ p q, p.cursor = q.cursor → k.related p q → k.Agree
      ((remembered r step).run k.subject p) ((remembered r step').run k.reference q)) :
    Tracks k (remembered r step) (remembered r step') :=
  ⟨h.toSteady.remembered fun q _ _ _ hq => hk (h.stays q hq) _, ha⟩

end Parse

namespace Grammar

open Parse

variable {k : Comparison} {self self' : Rule → Parse Node} (hk : k.IsFair)
  (h : ∀ r, Tracks k (self r) (self' r))
include hk h

theorem tracks_expression (hr : k.Retries) : Tracks k (expression self) (expression self') := by
  refine (h .operand).bind fun left => (Tracks.accept hk _).bind fun o => ?_
  cases o with
  | none => exact Tracks.pure _
  | some assign =>
    refine Tracks.bind ?_ fun target => (h .expression).bind fun right => Tracks.pure _
    unfold toTarget
    split
    · exact Tracks.pure _
    · exact Tracks.mismatch hr (hr.refl _)

theorem tracks_comparison : Tracks k (comparison self) (comparison self') := by
  refine (h .additive).bind fun left => (Tracks.accept hk _).bind fun o => ?_
  cases o with
  | none => exact Tracks.pure _
  | some operator =>
    refine (h .additive).bind fun right => (Tracks.check hk _).bind fun b => ?_
    cases b with
    | true => exact (Tracks.complain hk _).bind fun _ => Tracks.pure _
    | false => exact Tracks.pure _

theorem tracks_exponent : Tracks k (exponent self) (exponent self') := by
  refine (h .unary).bind fun base => (Tracks.accept hk _).bind fun o => ?_
  cases o with
  | none => exact Tracks.pure _
  | some operator => exact (h .exponent).bind fun power => Tracks.pure _

theorem tracks_unary : Tracks k (unary self) (unary self') := by
  refine (Tracks.accept hk _).bind fun o => ?_
  cases o with
  | none => exact h .postfixChain
  | some operator => exact (h .postfixChain).bind fun argument => Tracks.pure _

omit h in
theorem tracks_fieldName : Tracks k fieldName fieldName := by
  refine (Tracks.current hk).bind fun token => ?_
  split
  · exact (Tracks.complain hk _).bind fun _ => (Tracks.advance hk).discard.bind fun _ => Tracks.pure _
  · exact (Tracks.advance hk).discard.bind fun _ => Tracks.pure _

theorem tracks_arguments : Tracks k (delimited Symbol.rparen (self .expression))
    (delimited Symbol.rparen (self' .expression)) :=
  Tracks.delimited hk rfl (h .expression)

theorem tracks_chain (bound : Nat) (node : Node) :
    Tracks k (chain self bound node) (chain self' bound node) := by
  induction bound generalizing node with
  | zero => exact Tracks.exhausted
  | succ bound ih =>
    refine (Tracks.skip hk _).bind fun b => ?_
    cases b with
    | true => exact (tracks_fieldName hk).bind fun name => ih _
    | false =>
      refine (Tracks.skip hk _).bind fun b => ?_
      cases b with
      | true => exact (h .expression).bind fun i => (Tracks.expect hk _ _).bind fun _ => ih _
      | false =>
        refine (Tracks.sees hk _).bind fun b => ?_
        cases b with
        | true => exact (tracks_arguments hk h).bind fun arguments => ih _
        | false => exact Tracks.pure _

theorem tracks_primary : Tracks k (primary self) (primary self') := by
  refine (Tracks.current hk).bind fun token => ?_
  have word (n : Node) : Tracks k (do discard advance; return n) (do discard advance; return n) :=
    (Tracks.advance hk).discard.bind fun _ => Tracks.pure n
  dsimp only
  cases token.kind with
  | ident | number | string | regex => exact word _
  | keyword w =>
    cases w with
    | trueWord | falseWord => exact word _
    | ifWord => exact h .conditional
    | _ => exact Tracks.complain hk _
  | symbol s =>
    cases s with
    | lbrack => exact (Tracks.delimited hk rfl (h .expression)).bind fun _ => Tracks.pure _
    | lparen =>
      exact (Tracks.advance hk).discard.bind fun _ => (h .expression).bind fun inner =>
        (Tracks.expect hk _ _).bind fun _ => Tracks.pure _
    | _ => exact Tracks.complain hk _
  | _ => exact Tracks.complain hk _

theorem tracks_condition : Tracks k (condition self) (condition self') :=
  (Tracks.expect hk _ _).bind fun _ => (h .expression).bind fun _ =>
    (Tracks.expect hk _ _).bind fun _ => Tracks.pure _

theorem tracks_conditionAndBlock :
    Tracks k (conditionAndBlock self) (conditionAndBlock self') := by
  refine (h .operand).bind fun test => (Tracks.sees hk _).bind fun b => ?_
  cases b with
  | true => exact (h .block).bind fun block => Tracks.pure _
  | false => exact (Tracks.complain hk _).bind fun _ => (h .block).bind fun block => Tracks.pure _

theorem tracks_conditionalRest (loc : Loc) (test : Node) (explicitThen : Bool) :
    Tracks k (conditionalRest self loc test explicitThen) (conditionalRest self' loc test explicitThen) :=
  (h .expression).bind fun _ => (Tracks.expect hk _ _).bind fun _ => (h .expression).bind fun _ => Tracks.pure _

theorem tracks_conditionalByParentheses (loc : Loc) :
    Tracks k (conditionalByParentheses self loc) (conditionalByParentheses self' loc) := by
  rw [conditionalByParentheses_eq, conditionalByParentheses_eq]
  exact (tracks_condition hk h).bind fun test => tracks_conditionalRest hk h loc test false

theorem tracks_conditionalByThen (loc : Loc) :
    Tracks k (conditionalByThen self loc) (conditionalByThen self' loc) := by
  rw [conditionalByThen_eq, conditionalByThen_eq]
  exact (h .operand).bind fun test => (Tracks.expect hk _ _).bind fun _ =>
    tracks_conditionalRest hk h loc test true

theorem tracks_conditionalByBlocks (loc : Loc) :
    Tracks k (conditionalByBlocks self loc) (conditionalByBlocks self' loc) := by
  refine (tracks_conditionAndBlock hk h).bind fun found => (Tracks.expect hk _ _).bind fun _ =>
    (Tracks.sees hk _).bind fun b => ?_
  cases b with
  | true => exact (h .conditional).bind fun alternate => Tracks.pure _
  | false => exact (h .block).bind fun alternate => Tracks.pure _

theorem tracks_conditional (hr : k.Retries) : Tracks k (conditional self) (conditional self') := by
  refine (Tracks.expectOne hk _ _).bind fun word => Tracks.attempt hr ?_ (.cons ?_ (.cons ?_ .nil))
  · exact tracks_conditionalByParentheses hk h _
  · exact tracks_conditionalByThen hk h _
  · exact tracks_conditionalByBlocks hk h _

theorem tracks_statement : Tracks k (statement self) (statement self') := by
  refine (Tracks.current hk).bind fun token => ?_
  split <;> exact h _

theorem tracks_expressionStatement :
    Tracks k (expressionStatement self) (expressionStatement self') := by
  refine (h .operand).bind fun value => (Tracks.sees hk _).bind fun b => ?_
  cases b with
  | true =>
    exact (Tracks.complain hk _).bind fun _ => (Tracks.expect hk _ _).bind fun _ => Tracks.pure _
  | false => exact (Tracks.expect hk _ _).bind fun _ => Tracks.pure _

theorem tracks_block : Tracks k (block self) (block self') :=
  (Tracks.expectOne hk _ _).bind fun _ => (Tracks.rounds hk).bind fun bound =>
    (Tracks.statementsToBrace hk (h .statement) bound []).bind fun _ =>
      (Tracks.expectOne hk _ _).discard.bind fun _ => Tracks.pure _

theorem tracks_conditionAndStatement :
    Tracks k (conditionAndStatement self) (conditionAndStatement self') :=
  (tracks_condition hk h).bind fun _ => (h .statement).bind fun _ => Tracks.pure _

theorem tracks_conditionalStatement (hr : k.Retries) :
    Tracks k (conditionalStatement self) (conditionalStatement self') := by
  refine (Tracks.expectOne hk _ _).bind fun word => ?_
  refine (Tracks.attempt hr ?_ (.cons ?_ .nil)).bind fun found =>
    Tracks.marked hk (h .statement) fun _ => Tracks.pure _
  · exact tracks_conditionAndStatement hk h
  · exact tracks_conditionAndBlock hk h

theorem tracks_declarationRest (loc : Loc) (constant mutable : Bool) :
    Tracks k (declarationRest self loc constant mutable) (declarationRest self' loc constant mutable) :=
  (h .bindingPattern).bind fun _ => Tracks.marked hk (h .operand) fun _ =>
    Tracks.marked hk (h .expression) fun _ => (Tracks.expect hk _ _).bind fun _ => Tracks.pure _

theorem tracks_declaration : Tracks k (declaration self) (declaration self') := by
  rw [declaration_eq, declaration_eq]
  refine (Tracks.expectOne hk _ _).bind fun word => (Tracks.sees hk _).bind fun b => ?_
  cases b with
  | false => exact tracks_declarationRest hk h _ _ _
  | true =>
    dsimp only
    cases decide (word.kind = Keyword.constWord) with
    | true =>
      exact (Tracks.complain hk _).bind fun _ => (Tracks.advance hk).discard.bind fun _ =>
        tracks_declarationRest hk h _ _ _
    | false => exact (Tracks.advance hk).discard.bind fun _ => tracks_declarationRest hk h _ _ _

theorem tracks_bindingPattern : Tracks k (bindingPattern self) (bindingPattern self') := by
  refine (Tracks.current hk).bind fun token => ?_
  split
  · exact (Tracks.advance hk).discard.bind fun _ => Tracks.pure _
  · exact (Tracks.delimited hk rfl (h .bindingPattern)).bind fun _ => Tracks.pure _
  · exact Tracks.complain hk _

/-- The body of a rule tracks its body with the rules that it runs replaced by others that they track, if those do
that try alternatives or complain about a token behind them. -/
theorem tracks_body_of (he : Tracks k (expression self) (expression self'))
    (hs : Tracks k (conditionalStatement self) (conditionalStatement self'))
    (hc : Tracks k (conditional self) (conditional self')) (r : Rule) : Tracks k (body self r) (body self' r) := by
  cases r with
  | program =>
    exact (Tracks.current hk).bind fun first => (Tracks.rounds hk).bind fun bound =>
      (Tracks.statementsToEnd hk (h .statement) bound []).bind fun _ => Tracks.pure _
  | statement => exact tracks_statement hk h
  | expressionStatement => exact tracks_expressionStatement hk h
  | block => exact tracks_block hk h
  | conditionalStatement => exact hs
  | declaration => exact tracks_declaration hk h
  | bindingPattern => exact tracks_bindingPattern hk h
  | expression => exact he
  | operand => exact h .comparison
  | comparison => exact tracks_comparison hk h
  | additive => exact Tracks.binaryLeft hk (h .multiplicative)
  | multiplicative => exact Tracks.binaryLeft hk (h .exponent)
  | exponent => exact tracks_exponent hk h
  | unary => exact tracks_unary hk h
  | postfixChain =>
    exact (h .primary).bind fun node => (Tracks.rounds hk).bind fun bound =>
      tracks_chain hk h bound node
  | primary => exact tracks_primary hk h
  | conditional => exact hc

theorem tracks_body (hr : k.Retries) (r : Rule) : Tracks k (body self r) (body self' r) :=
  tracks_body_of hk h (tracks_expression hk h hr) (tracks_conditionalStatement hk h hr)
    (tracks_conditional hk h hr) r

omit hk h

/-- The content of a rule with its level of nesting counted, as far as that is done. -/
def counted (r : Rule) (content : Parse Node) : Parse Node :=
  if r.isNested then Parse.nested content else content

/-- The content of a rule, run by a parser of all rules on a budget. -/
def content (budget : Nat) (r : Rule) : Parse Node :=
  counted r (body (fun s => parse budget s.surcharge s) r)

theorem parse_content (budget : Nat) (r : Rule) :
    parse (budget + 1) 0 r = if r.isRemembered then remembered r (content budget r)
      else content budget r := by
  rw [parse]
  rfl

/-- Every rule tracks itself on a budget that is no larger, if it does as soon as the rules do that it runs. -/
theorem tracks_parse_of
    (hstep : ∀ (b b' : Nat) (r : Rule), (∀ s, Tracks k (parse b s.surcharge s) (parse b' s.surcharge s)) →
      Tracks k (parse (b + 1) 0 r) (parse (b' + 1) 0 r))
    (b b' due : Nat) (r : Rule) (hb : b' ≤ b ∨ k.mayExhaust) :
    Tracks k (parse b due r) (parse b' due r) := by
  induction b' generalizing b due r with
  | zero => exact Tracks.exhausted
  | succ b' ih =>
    have htaken (b due : Nat) (r : Rule) (hb : b' ≤ b ∨ k.mayExhaust) :
        Tracks k (parse (b + 1) due r) (parse (b' + 1) due r) := by
      cases due with
      | succ due => exact ih b due r hb
      | zero => exact hstep b b' r fun s => ih b s.surcharge s hb
    cases b with
    | zero =>
      have h := htaken b' due r (.inl (Nat.le_refl b'))
      have hmay := hb.resolve_left (Nat.not_succ_le_zero b')
      exact ⟨h.toSteady, fun _ _ _ _ => .exhausts hmay⟩
    | succ b => exact htaken b due r (hb.imp_left Nat.le_of_succ_le_succ)

/-- Every rule tracks itself on a budget that is no larger, if the remembered ones do as soon as their
content does. -/
theorem tracks_parse (hk : k.IsFair) (ht : k.Retries) (hn : k.Nests)
    (hr : ∀ (b b' : Nat) (r : Rule), r.isRemembered → Tracks k (content b r) (content b' r) →
      Tracks k (remembered r (content b r)) (remembered r (content b' r)))
    (b b' due : Nat) (r : Rule) (hb : b' ≤ b ∨ k.mayExhaust) :
    Tracks k (parse b due r) (parse b' due r) := by
  refine tracks_parse_of (fun b b' r h => ?_) b b' due r hb
  have hbody := tracks_body hk h ht r
  have hc : Tracks k (content b r) (content b' r) := by
    simp only [content, counted]
    split
    · exact Tracks.nested hn hk.input hbody
    · exact hbody
  rw [parse_content, parse_content]
  split
  · exact hr b b' r ‹_› hc
  · exact hc

end Grammar

end MagSyntax
