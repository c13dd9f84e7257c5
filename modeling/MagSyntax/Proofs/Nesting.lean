import MagSyntax.Proofs.Tracking

/-! The bound on nesting does nothing but refuse: a parse in which it refuses no rule is the parse
without it, and with any larger one. -/

namespace MagSyntax

namespace Grammar

open Parse

variable {input : Input} {remembers : Bool} {higher : Option Nat} {bound : Nat} {mayExhaust : Prop}

/-- A parse under a bound on nesting beside the same parse under a larger one or without one. -/
def raised (input : Input) (remembers : Bool) (higher : Option Nat) (bound : Nat) (mayExhaust : Prop) :
    Comparison where
  subject := ⟨input, remembers, higher⟩
  reference := ⟨input, remembers, some bound⟩
  related p q := p.depth = q.depth ∧ p.memo = q.memo
  escapes refused _ := refused = true
  mayExhaust := mayExhaust

theorem isFair_raised : (raised input remembers higher bound mayExhaust).IsFair where
  input := rfl
  advance _ _ h := h
  complain _ _ h := ⟨rfl, h⟩

theorem retries_raised : (raised input remembers higher bound mayExhaust).Retries where
  refl _ := rfl
  further he hf := congrArg₂ further he hf
  misses he h := ⟨he, h⟩
  alike h := h.1
  seek h _ _ := h.2
  keeps _ h := h

theorem nests_raised (h : ∀ n ∈ higher, bound ≤ n) : (raised input remembers higher bound mayExhaust).Nests where
  deeper {p q} hpq hn := by
    refine ⟨?_, congrArg (· + 1) hpq.1, hpq.2⟩
    cases higher with
    | none => rfl
    | some n =>
      have hd := hpq.1
      have hle := h n rfl
      simp only [raised, Option.any_some, decide_eq_false_iff_not] at hn ⊢
      omega
  back h := ⟨congrArg (· - 1) h.1, h.2⟩
  missed_back h := ⟨h.1, congrArg (· - 1) h.2.1, h.2.2⟩
  refuses _ _ _ := .inl rfl
  refused _ := rfl

theorem isExact_raised : (raised input remembers higher bound mayExhaust).IsExact where
  escapes h := h
  missed h := h.1
  keeps _ h := h

/-- Under a larger bound on nesting every rule comes to what it comes to under a bound, unless that is cut
short. -/
theorem tracks_raised (input : Input) (remembers : Bool) {higher : Option Nat} {bound : Nat} (mayExhaust : Prop)
    (h : ∀ n ∈ higher, bound ≤ n) {b b' : Nat} (hb : b' ≤ b ∨ mayExhaust) (due : Nat) (r : Rule) :
    Tracks (raised input remembers higher bound mayExhaust) (parse b due r) (parse b' due r) := by
  refine tracks_parse isFair_raised retries_raised (nests_raised h) (fun b b' r _ hc => ?_) _ _ _ _ hb
  refine hc.remembered (fun he _ => he) fun p q hpq hm => ?_
  obtain ⟨hdepth, hmemo⟩ : p.depth = q.depth ∧ p.memo = q.memo := hm
  by_cases hf : remembers = true ∧ (q.memo.find? ⟨r, q.cursor⟩).isSome
  · obtain ⟨f, hf'⟩ := Option.isSome_iff_exists.mp hf.2
    rw [run_remembered_hit hf.1 (by rw [hmemo, hpq, hf']), run_remembered_hit hf.1 hf']
    cases f with
    | node node stop => exact .found rfl ⟨hdepth, hmemo⟩
    | error e => exact .mismatch ⟨rfl, hdepth, hmemo⟩
  · have hnone : remembers = true → q.memo.find? ⟨r, q.cursor⟩ = none := fun hs =>
      Option.not_isSome_iff_eq_none.mp fun h => hf ⟨hs, h⟩
    rw [run_remembered_miss fun hs => by rw [hmemo, hpq, hnone hs], run_remembered_miss hnone, hpq]
    refine (hc.agree p q hpq ⟨hdepth, hmemo⟩).stored _ (fun _ _ h => h) (fun v p q _ _ _ h => ?_)
      fun e e' p q _ _ h => ?_
    · exact ⟨h.1, congrArg (Memo.store · _ _) h.2⟩
    · obtain ⟨rfl, h⟩ := h
      exact ⟨rfl, h.1, congrArg (Memo.store · _ _) h.2⟩

/-- A parse without a bound on nesting beside the same parse with one. -/
def unbounded (input : Input) (remembers : Bool) (bound : Nat) : Comparison :=
  raised input remembers none bound False

theorem isFair_unbounded (input : Input) (remembers : Bool) (bound : Nat) :
    (unbounded input remembers bound).IsFair :=
  isFair_raised

/-- Without a bound on nesting every rule comes to what it comes to with one, unless that is cut short. -/
theorem tracks_unbounded (input : Input) (remembers : Bool) (bound budget due : Nat) (r : Rule) :
    Tracks (unbounded input remembers bound) (parse budget due r) (parse budget due r) :=
  tracks_raised input remembers False (by simp) (.inl (Nat.le_refl budget)) due r

theorem rule_unbounded (input : Input) (remembers : Bool) (bound : Nat) (r : Rule) :
    ((rule r).run ⟨input, remembers, some bound⟩ .start).IsCutShort ∨
      ((rule r).run ⟨input, remembers, none⟩ .start).SameAs
        ((rule r).run ⟨input, remembers, some bound⟩ .start) := by
  have h := (tracks_unbounded input remembers bound budget r.surcharge r).agree .start .start rfl ⟨rfl, rfl⟩
  exact (h.sameAs isExact_raised).imp_right fun h => h.resolve_right fun h => h.1

end Grammar

end MagSyntax
