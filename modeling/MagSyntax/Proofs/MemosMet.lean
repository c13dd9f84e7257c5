import MagSyntax.Proofs.Onward

/-! Which memos a run meets. Every call of a rule in it, however far inside, finds a memo that calls of rules have left
behind, if the run has started on one: whatever the rules did on other memos would make no difference. -/

namespace MagSyntax

open Parse

namespace Grammar

/-- Runs a rule as `parse` does, with something around each call of a rule. -/
def parseWith (around : Parse Node → Parse Node) : (budget due : Nat) → Rule → Parse Node
  | 0, _, _ => Parse.fail .exhausted
  | budget + 1, due + 1, rule => parseWith around budget due rule
  | budget + 1, 0, rule => around (guarded rule (body (fun r => parseWith around budget r.surcharge r) rule))

variable {setup : Setup} {around : Parse Node → Parse Node}

/-- A parse beside itself, on memos that have been left behind. -/
def behind (setup : Setup) : Comparison where
  subject := setup
  reference := setup
  related p q := p = q ∧ q.memo.LeftBehind setup
  escapes _ _ := False
  mayExhaust := False

theorem isFair_behind : (behind setup).IsFair where
  input := rfl
  advance hc _ h := ⟨by rw [h.1], h.2⟩
  complain _ _ h := ⟨rfl, h⟩

theorem retries_behind : (behind setup).Retries where
  refl _ := rfl
  further he hf := congrArg₂ further he hf
  misses he h := ⟨he, h⟩
  alike h := h.1
  seek h _ h' := ⟨by rw [h.2.1, h'.1], h.2.2⟩
  keeps _ h := h

theorem nests_behind : (behind setup).Nests where
  deeper h hn := ⟨by rw [h.1]; exact hn, by rw [h.1], h.2⟩
  back h := ⟨by rw [h.1], h.2⟩
  missed_back h := ⟨h.1, by rw [h.2.1], h.2.2⟩
  refuses _ h hn := .inr ⟨by rw [h.1]; exact hn, rfl, by rw [h.1], h.2⟩
  refused h := h

theorem Memo.LeftBehind.parse {p : Progress} (h : p.memo.LeftBehind setup) (budget : Nat) (r : Rule) :
    ((Grammar.parse budget 0 r).run setup p).progress.memo.LeftBehind setup := by
  have hcall := Memo.LeftBehind.call h (budget + r.surcharge) r
  rwa [parse_due, Nat.add_sub_cancel] at hcall

theorem tracks_remembered_behind {b : Nat} {r : Rule} {step : Parse Node} (hr : r.isRemembered)
    (h : Tracks (behind setup) step (content b r)) :
    Tracks (behind setup) (remembered r step) (remembered r (content b r)) := by
  refine h.remembered (fun he _ => he) fun p q _ hpq => ?_
  obtain ⟨rfl, hm⟩ := hpq
  have hparse : parse (b + 1) 0 r = remembered r (content b r) := by rw [parse_content, if_pos hr]
  have hbehind : ((remembered r (content b r)).run setup p).progress.memo.LeftBehind setup :=
    hparse ▸ Memo.LeftBehind.parse hm (b + 1) r
  change (behind setup).Agree ((remembered r step).run setup p) ((remembered r (content b r)).run setup p)
  rcases run_remembered r (content b r) setup p with ⟨hs, f, hf, hrun⟩ | ⟨hnone, hrun⟩
  · rw [hrun, run_remembered_hit hs hf]
    cases f with
    | node n stop => exact .found rfl ⟨rfl, hm⟩
    | error e => exact .mismatch ⟨rfl, rfl, hm⟩
  · rw [hrun] at hbehind ⊢
    rw [run_remembered_miss hnone]
    refine (h.agree p p rfl ⟨rfl, hm⟩).stored _ (fun _ _ he => he) (fun v p' q' _ hq _ hpq => ?_)
      fun e e' p' q' _ hq hpq => ?_
    · change (content b r).run setup p = _ at hq
      rw [hq] at hbehind
      exact ⟨by rw [hpq.1], hbehind⟩
    · change (content b r).run setup p = _ at hq
      rw [hq] at hbehind
      obtain ⟨rfl, rfl, -⟩ := hpq
      exact ⟨rfl, rfl, hbehind⟩

theorem tracks_parseWith (ha : ∀ step p, p.memo.LeftBehind setup → (around step).run setup p = step.run setup p)
    (budget due : Nat) (r : Rule) : Tracks (behind setup) (parseWith around budget due r) (parse budget due r) := by
  induction budget generalizing due r with
  | zero => exact Tracks.exhausted
  | succ budget ih =>
    cases due with
    | succ due => exact ih due r
    | zero =>
      have hbody := tracks_body isFair_behind (fun s => ih s.surcharge s) retries_behind r
      have hcontent : Tracks (behind setup) (counted r (body (fun s => parseWith around budget s.surcharge s) r))
          (content budget r) := by
        simp only [content, counted]
        split
        · exact Tracks.nested nests_behind rfl hbody
        · exact hbody
      have hguarded : Tracks (behind setup) (guarded r (body (fun s => parseWith around budget s.surcharge s) r))
          (parse (budget + 1) 0 r) := by
        rw [parse_content]
        change Tracks _ (if r.isRemembered then remembered r (counted r _) else counted r _) _
        split
        next hr => exact tracks_remembered_behind hr hcontent
        next => exact hcontent
      refine ⟨hguarded.toSteady, fun p q hc hpq => ?_⟩
      obtain ⟨rfl, hm⟩ := hpq
      have hrun := hguarded.agree p p rfl ⟨rfl, hm⟩
      change (behind setup).Agree ((around _).run setup p) _
      rw [ha _ p hm]
      exact hrun

end Grammar

/-- Whatever is put around the calls of rules, a run on a memo that has been left behind comes to the same and ends on
the same progress, if it makes no difference on such memos: no call in the run meets another. Only a run that uses up its budget
is not followed to the end. -/
theorem Memo.LeftBehind.run_parseWith {setup : Setup} {p : Progress} (hp : p.memo.LeftBehind setup)
    {around : Parse Node → Parse Node}
    (ha : ∀ step p, p.memo.LeftBehind setup → (around step).run setup p = step.run setup p) (budget due : Nat)
    (r : Rule) :
    (∃ q, (Grammar.parse budget due r).run setup p = .failed .exhausted q) ∨
      (Grammar.parseWith around budget due r).run setup p = (Grammar.parse budget due r).run setup p := by
  have h := (Grammar.tracks_parseWith ha budget due r).agree p p rfl ⟨rfl, hp⟩
  change (Grammar.behind setup).Agree ((Grammar.parseWith around budget due r).run setup p)
    ((Grammar.parse budget due r).run setup p) at h
  generalize (Grammar.parseWith around budget due r).run setup p = o at h ⊢
  generalize (Grammar.parse budget due r).run setup p = o' at h ⊢
  cases h with
  | escaped h => exact h.elim
  | lost h => exact h.elim
  | exhausted => exact .inl ⟨_, rfl⟩
  | exhausts h => exact h.elim
  | found _ h => exact .inr (by rw [h.1])
  | mismatch h => exact .inr (by rw [h.1, h.2.1])

end MagSyntax
