import MagSyntax.Proofs.OperandParts

/-! A rule that is run again over all that its first run has left in the memo. Whatever it looks up it finds, so it
comes to the same, at whatever depth it is run, and stores nothing. -/

namespace MagSyntax

open Parse

namespace Grammar

variable {input : Input} {m : Memo}

/-- A parse on a memo that holds all that is in the memo of the other when that ends. -/
def replaying (input : Input) (m : Memo) : Comparison where
  subject := { input }
  reference := { input }
  related p q := p.memo = m ∧ q.memo.GoesOn input
  escapes _ m' := ¬m'.Extends m
  mayExhaust := True

theorem isFair_replaying : (replaying input m).IsFair where
  input := rfl
  advance _ _ h := h
  complain _ _ h := ⟨rfl, h⟩

theorem retries_replaying : (replaying input m).Retries where
  refl _ := rfl
  further he hf := congrArg₂ further he hf
  misses he h := ⟨he, h⟩
  alike h := h.1
  seek h _ _ := h.2
  keeps _ h := h

theorem steady_replaying (b due : Nat) (r : Rule) : Steady (replaying input m) (parse b due r) where
  stays q hq hm := hq ((extends_run (fun _ _ => tracks_keeping b b due r) q).trans hm)
  level := (tracks_keeping (a := ⟨r, 0⟩) (f := .node (.program ⟨0, 0⟩ []) 0) b b due r).level

/-- A rule that is looked up is found as it was, whatever it would come to now. -/
theorem tracks_replaying_remembered {b : Nat} {r : Rule} (hr : r.isRemembered) (step : Parse Node) :
    Tracks (replaying input m) (remembered r step) (parse (b + 1) 0 r) := by
  refine ⟨steady_replaying _ _ _, fun p q hc hpq => ?_⟩
  obtain ⟨rfl, hm⟩ := hpq
  have hgoes := @goesOn_parse { input } (b + 1) 0 r q.cursor q rfl hm
  change (replaying input p.memo).Agree ((remembered r step).run { input } p) ((parse (b + 1) 0 r).run { input } q)
  rw [parse_content, if_pos hr] at hgoes ⊢
  rcases run_remembered r (content b r) { input } q with ⟨-, f, hf, hrun⟩ | ⟨-, hrun⟩
  · rw [hrun] at hgoes ⊢
    by_cases hext : q.memo.Extends p.memo
    · rw [run_remembered_hit rfl (hc ▸ hext _ f hf)]
      cases f with
      | node n stop => exact .found rfl ⟨rfl, hm⟩
      | error e => exact .mismatch ⟨rfl, rfl, hm⟩
    · exact .escaped (by cases f <;> exact hext)
  · rw [hrun] at hgoes ⊢
    generalize (content b r).run { input } q = o at hgoes ⊢
    by_cases hext : (o.stored ⟨r, q.cursor⟩).progress.memo.Extends p.memo
    · cases hf : o.finding? with
      | none =>
        rw [Outcome.stored_of_none hf] at hgoes ⊢
        rcases o with ⟨v, q'⟩ | ⟨e | _ | _, q'⟩
        · cases hf
        · cases hf
        · exact hgoes.2.elim
        · exact .exhausted
      | some f =>
        have hfind : p.memo.find? ⟨r, p.cursor⟩ = some f := by
          refine hext _ f ?_
          rw [Outcome.stored_of_finding? hf, hc, Memo.find?_store, if_pos rfl]
        rw [run_remembered_hit rfl hfind]
        rcases o with ⟨v, q'⟩ | ⟨e | _ | _, q'⟩ <;> cases hf
        · exact .found rfl ⟨rfl, hgoes.1⟩
        · exact .mismatch ⟨rfl, rfl, hgoes.1⟩
    · exact .escaped hext

/-- Without the rules that run others before any that is looked up, but for those of expressions. -/
def lookedUp (self : Rule → Parse Node) : Rule → Parse Node
  | .program | .expressionStatement | .conditionalStatement | .declaration | .bindingPattern => fail .exhausted
  | r => self r

theorem chain_lookedUp (self : Rule → Parse Node) (bound : Nat) (node : Node) :
    chain (lookedUp self) bound node = chain self bound node := by
  induction bound generalizing node with
  | zero => rfl
  | succ bound ih =>
    simp only [chain, ih]
    rfl

theorem body_lookedUp (self : Rule → Parse Node) {r : Rule} (hr : r.isValue ∧ r.isRemembered = false) :
    body (lookedUp self) r = body self r := by
  cases r with
  | postfixChain => exact bind_congr_right _ fun node => bind_congr_right _ fun bound => chain_lookedUp self bound node
  | comparison | additive | multiplicative | exponent | unary | primary | conditional => rfl
  | _ => exact absurd hr (by decide)

theorem tracks_replaying (b b' due due' : Nat) {r : Rule} (hr : r.isValue ∨ r.isRemembered) :
    Tracks (replaying input m) (parse b due r) (parse b' due' r) := by
  induction b' generalizing b due due' r with
  | zero => exact Tracks.exhausted
  | succ b' ih =>
    cases due' with
    | succ due' => exact ih b due due' hr
    | zero =>
      rw [parse_due b]
      cases b - due with
      | zero => exact Tracks.exhausts trivial (steady_replaying _ _ _)
      | succ b =>
        by_cases hrem : r.isRemembered
        · rw [parse_content b, if_pos hrem]
          exact tracks_replaying_remembered hrem _
        · have hvalue := hr.resolve_right hrem
          rw [Bool.not_eq_true] at hrem
          have hnested : r.isNested = false := by
            cases r <;> first | rfl | exact absurd hvalue (by decide) | exact absurd hrem (by decide)
          have hself (s : Rule) : Tracks (replaying input m) (lookedUp (fun s => parse b s.surcharge s) s)
              (lookedUp (fun s => parse b' s.surcharge s) s) := by
            cases s with
            | program | expressionStatement | conditionalStatement | declaration | bindingPattern => exact Tracks.exhausted
            | _ => exact ih _ _ _ (by decide)
          have hbody := tracks_body isFair_replaying hself retries_replaying r
          rw [body_lookedUp _ ⟨hvalue, hrem⟩, body_lookedUp _ ⟨hvalue, hrem⟩] at hbody
          rw [parse_content, parse_content, if_neg (by simp [hrem]), if_neg (by simp [hrem])]
          simpa only [content, counted, hnested, Bool.false_eq_true, if_false] using hbody

end Grammar

end MagSyntax
