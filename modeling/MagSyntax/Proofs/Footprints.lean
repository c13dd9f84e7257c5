import MagSyntax.Proofs.Onward

/-! What a parse leaves in the memo: all that was there before, and more only from its first token on. -/

namespace MagSyntax

open Parse

namespace Memo

variable {m m' m'' : Memo} {base : Nat} {place : Attempt}

/-- All that is in the one memo is in the other. -/
def Extends (m m' : Memo) : Prop := ∀ a f, m.find? a = some f → m'.find? a = some f

theorem Extends.refl (m : Memo) : m.Extends m := fun _ _ h => h

theorem Extends.trans (h : m.Extends m') (h' : m'.Extends m'') : m.Extends m'' :=
  fun a f hf => h' a f (h a f hf)

/-- Both memos hold the same before a token. -/
def SameBefore (base : Nat) (m m' : Memo) : Prop := ∀ a, a.cursor < base → m.find? a = m'.find? a

theorem SameBefore.refl (m : Memo) : m.SameBefore base m := fun _ _ => rfl

theorem SameBefore.store (h : SameBefore base m m') (hp : base ≤ place.cursor) (f : Finding) :
    SameBefore base m (m'.store place f) := by
  intro a ha
  rw [find?_store, if_neg]
  · exact h a ha
  · rintro rfl
    omega

end Memo

namespace Grammar

variable {input : Input}

/-- A parse with a memo, which may already hold a finding. Nothing is compared. -/
def keeping (input : Input) (a : Attempt) (f : Finding) : Comparison where
  subject := { input }
  reference := { input }
  related _ _ := False
  escapes _ m := m.find? a = some f
  mayExhaust := True

section

variable {a : Attempt} {f : Finding}

theorem isFair_keeping : (keeping input a f).IsFair where
  input := rfl
  advance _ _ h := h
  complain _ _ h := ⟨rfl, h⟩

theorem retries_keeping : (keeping input a f).Retries where
  refl _ := rfl
  further he hf := congrArg₂ further he hf
  misses he h := ⟨he, h⟩
  alike h := h.1
  seek h _ _ := h.2
  keeps _ h := h

theorem nests_keeping : (keeping input a f).Nests where
  deeper h _ := h.elim
  back h := h
  missed_back h := h
  refuses _ h _ := h.elim
  refused h := h

theorem tracks_keeping (b b' due : Nat) (r : Rule) :
    Tracks (keeping input a f) (parse b due r) (parse b' due r) := by
  refine tracks_parse isFair_keeping retries_keeping nests_keeping (fun b b' r _ hc => ?_) b b' due r (.inr trivial)
  refine ⟨hc.toSteady.remembered fun q g hnone _ hq => ?_, fun _ _ _ h => h.elim⟩
  -- what a call stores was not there when it began, so it is not in the place of what was
  change (Memo.store _ _ _).find? a = some f
  rw [Memo.find?_store, if_neg]
  · exact hc.stays q hq
  · rintro rfl
    have hfree : q.memo.find? ⟨r, q.cursor⟩ = none := hnone rfl
    rw [show q.memo.find? ⟨r, q.cursor⟩ = some f from hq] at hfree
    cases hfree

end

/-- A step keeps what the memo holds. -/
theorem extends_run {α : Type} {step : Parse α} (h : ∀ a f, Tracks (keeping input a f) step step) (q : Progress) :
    q.memo.Extends (step.run { input } q).progress.memo :=
  fun a f hf => (h a f).stays q hf

/-- A parse beside itself, from a token on, with a memo that is known before it. -/
def onward (input : Input) (base : Nat) (m : Memo) : Comparison where
  subject := { input }
  reference := { input }
  related p q := p = q ∧ base ≤ q.cursor ∧ q.memo.GoesOn input ∧ m.SameBefore base q.memo
  escapes _ _ := False
  mayExhaust := True
  missed e e' p q := e = e' ∧ p = q ∧ q.memo.GoesOn input ∧ m.SameBefore base q.memo

variable {base : Nat} {m : Memo}

theorem isFair_onward : (onward input base m).IsFair where
  input := rfl
  advance _ _ h := ⟨by rw [h.1], Nat.le_succ_of_le h.2.1, h.2.2⟩
  complain _ _ h := ⟨rfl, h.1, h.2.2⟩

theorem retries_onward : (onward input base m).Retries where
  refl _ := rfl
  further he hf := congrArg₂ further he hf
  misses he h := ⟨he, h.1, h.2.2⟩
  alike h := h.1
  seek h _ h' := ⟨by rw [h.2.1, h'.1], h'.2.1, h.2.2⟩
  keeps _ h := h

theorem nests_onward : (onward input base m).Nests where
  deeper h hn := ⟨by rw [h.1]; exact hn, by rw [h.1], h.2⟩
  back h := ⟨by rw [h.1], h.2⟩
  missed_back h := ⟨h.1, by rw [h.2.1], h.2.2⟩
  refuses _ h hn := .inr ⟨by rw [h.1]; exact hn, rfl, by rw [h.1], h.2.2⟩
  refused h := h

theorem tracks_onward (b b' due : Nat) (r : Rule) :
    Tracks (onward input base m) (parse b due r) (parse b' due r) := by
  refine tracks_parse isFair_onward retries_onward nests_onward
    (fun b b' r hr hc => hc.remembered (fun he _ => he) fun p q _ hpq => ?_) b b' due r (.inr trivial)
  obtain ⟨rfl, hbase, hm, hsame⟩ := hpq
  have hfinds := @goesOn_parse { input } (b' + 1) 0 r p.cursor p rfl hm
  rw [parse_content, if_pos hr] at hfinds
  change (onward input base m).Agree ((remembered r (content b r)).run { input } p)
    ((remembered r (content b' r)).run { input } p)
  rcases run_remembered r (content b' r) { input } p with ⟨hs, f, hf, hrun⟩ | ⟨hnone, hrun⟩
  · rw [hrun] at hfinds ⊢
    rw [run_remembered_hit hs hf]
    cases f with
    | node n stop => exact .found rfl ⟨rfl, Nat.le_trans hbase hfinds.2.le, hm, hsame⟩
    | error e => exact .mismatch ⟨rfl, rfl, hm, hsame⟩
  · rw [hrun] at hfinds ⊢
    rw [run_remembered_miss hnone]
    refine (hc.agree p p rfl ⟨rfl, hbase, hm, hsame⟩).stored _ (fun _ _ he => he) (fun v p' q' _ hq _ hpq => ?_)
      fun e e' p' q' _ hq hpq => ?_
    · change (content b' r).run { input } p = _ at hq
      rw [hq] at hfinds
      exact ⟨by rw [hpq.1], hpq.2.1, hfinds.1, hpq.2.2.2.store hbase _⟩
    · change (content b' r).run { input } p = _ at hq
      rw [hq] at hfinds
      obtain ⟨rfl, rfl, -, hsame⟩ := hpq
      exact ⟨rfl, rfl, hfinds.1, hsame.store hbase _⟩

/-- A step stores nothing before its first token. -/
theorem sameBefore_run {α : Type} {step : Parse α} {q : Progress} (hm : q.memo.GoesOn input)
    (h : Tracks (onward input q.cursor q.memo) step step) :
    (∃ p, step.run { input } q = .failed .exhausted p) ∨
      q.memo.SameBefore q.cursor (step.run { input } q).progress.memo := by
  have hagree := h.agree q q rfl ⟨rfl, Nat.le_refl _, hm, .refl _⟩
  change (onward input q.cursor q.memo).Agree (step.run { input } q) (step.run { input } q) at hagree
  generalize step.run { input } q = o at hagree ⊢
  cases hagree with
  | escaped h => exact h.elim
  | lost h => exact h.elim
  | exhausted | exhausts => exact .inl ⟨_, rfl⟩
  | found _ h => exact .inr h.2.2.2
  | mismatch h => exact .inr h.2.2.2

end Grammar

end MagSyntax
