import MagSyntax.Proofs.StatementCompleteness

/-! A rule that may nest as deep as it likes decides whether its tokens read as a tree, and the memo
remembers only what is right: both follow from one induction on the budget, since what is stored is
what a rule with less of the budget has found. -/

namespace MagSyntax

open Parse Input

namespace Memo

/-- What the memo remembers is what the tokens read as, and where it remembers an error they read as
nothing. -/
structure IsRight (input : Input) (m : Memo) : Prop where
  sound : m.IsSound input
  unique : ∀ r c n stop, m.find? ⟨r, c⟩ = some (.node n stop) →
    ∀ n' stop', r ≠ .program → input.Reads (fun _ => False) r c n' stop' →
      n.unplaced = n'.unplaced ∧ stop = stop'
  none : ∀ r c e, m.find? ⟨r, c⟩ = some (.error e) →
    ∀ n' stop', r ≠ .program → ¬input.Reads (fun _ => False) r c n' stop'

theorem isRight_empty {input : Input} : empty.IsRight input :=
  ⟨isSound_empty, by simp, by simp⟩

theorem IsRight.store {input : Input} {m : Memo} {r : Rule} {c : Nat} {f : Finding}
    (h : m.IsRight input)
    (hsound : ∀ n stop, f = .node n stop → input.Found (fun _ => True) r c n stop)
    (hunique : ∀ n stop, f = .node n stop → ∀ n' stop', r ≠ .program →
      input.Reads (fun _ => False) r c n' stop' → n.unplaced = n'.unplaced ∧ stop = stop')
    (hnone : ∀ e, f = .error e → ∀ n' stop', r ≠ .program →
      ¬input.Reads (fun _ => False) r c n' stop') : (m.store ⟨r, c⟩ f).IsRight input := by
  refine ⟨h.sound.store hsound, fun r' c' n stop hs => ?_, fun r' c' e hs => ?_⟩
  · rw [find?_store] at hs
    split at hs
    next he =>
      cases he
      exact hunique n stop (Option.some.inj hs)
    next => exact h.unique r' c' n stop hs
  · rw [find?_store] at hs
    split at hs
    next he =>
      cases he
      exact hnone e (Option.some.inj hs)
    next => exact h.none r' c' e hs

end Memo

/-- The step finds what the tokens read as, and nothing only if they read as nothing. -/
def Parse.Decides (setup : Setup) (keeps : Memo → Prop) (r : Rule) (step : Parse Node) : Prop :=
  ∀ c, Finds setup keeps
    (fun f => f.IsTame ∧ ∀ i : Node × Nat, r ≠ .program ∧
      setup.input.Reads (fun _ => False) r c i.1 i.2 → f.IsExhausted)
    step c fun m d => setup.input.Found (fun _ => True) r c m d ∧ ∀ i : Node × Nat, r ≠ .program ∧
      setup.input.Reads (fun _ => False) r c i.1 i.2 → m.unplaced = i.1.unplaced ∧ d = i.2

namespace Parse

variable {setup : Setup} {keeps : Memo → Prop} {r : Rule} {step : Parse Node}

theorem Decides.sound (h : Decides setup keeps r step) : Sound setup keeps r step :=
  fun c => (h c).mono (fun _ hf => hf.1) fun _ _ hf => hf.1

theorem Decides.complete (h : Decides setup keeps r step) (hr : r ≠ .program) :
    Complete setup keeps r step :=
  fun c n stop hn => (h c).mono (fun _ hf => hf.2 (n, stop) ⟨hr, hn⟩)
    fun _ _ hf => hf.2 (n, stop) ⟨hr, hn⟩

theorem Sound.decides (hs : Sound setup keeps r step)
    (hc : r ≠ .program → Complete setup keeps r step) : Decides setup keeps r step :=
  fun c => (hs c).and_forall fun i hi => hc hi.1 c i.1 i.2 hi.2

theorem decides_exhausted : Decides setup keeps r (fail .exhausted) :=
  fun _ => finds_exhausted ⟨trivial, fun _ _ => trivial⟩

end Parse

namespace Grammar

variable {setup : Setup}

theorem decides_parse (hp : setup.input.IsProper) (hn : setup.nesting = none)
    (budget due : Nat) (r : Rule) :
    Decides setup (Memo.IsRight setup.input) r (parse budget due r) := by
  induction budget generalizing due r with
  | zero => exact decides_exhausted
  | succ budget ih =>
    cases due with
    | succ due => exact ih due r
    | zero =>
      have hsound := fun r => (ih r.surcharge r).sound
      have hb : Decides setup (Memo.IsRight setup.input) r
          (body (fun r => parse budget r.surcharge r) r) :=
        (sound_body hp hsound r).decides
          (complete_body hp hsound (fun r hr => (ih r.surcharge r).complete hr) r)
      have counted : Decides setup (Memo.IsRight setup.input) r
          (if r.isNested then Parse.nested (body (fun r => parse budget r.surcharge r) r)
            else body (fun r => parse budget r.surcharge r) r) := by
        split
        · exact fun c => (hb c).nested fun h => absurd hn h
        · exact hb
      intro c
      rw [parse]
      simp only [guarded]
      split
      · refine Finds.remembered (fun m n stop hm hf => ?_) (fun m e hm hf => ?_) (fun m n stop hm hf => ?_)
          (fun m e hm hf => ?_) (counted c)
        · exact ⟨hm.sound r c n stop hf, fun i hi => hm.unique r c n stop hf i.1 i.2 hi.1 hi.2⟩
        · exact ⟨trivial, fun i hi => hm.none r c e hf i.1 i.2 hi.1 hi.2⟩
        · exact hm.store (fun _ _ h => by cases h; exact hf.1)
            (fun _ _ h n' stop' hr hn => by cases h; exact hf.2 (n', stop') ⟨hr, hn⟩)
            (fun _ h => by cases h)
        · exact hm.store (fun _ _ h => by cases h) (fun _ _ h => by cases h)
            fun _ _ n' stop' hr hn => hf.2 (n', stop') ⟨hr, hn⟩
      · exact counted c

end Grammar

end MagSyntax
