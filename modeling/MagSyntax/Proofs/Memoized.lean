import MagSyntax.Proofs.Accepted
import MagSyntax.Proofs.RepeatedConditions

/-! The memo is transparent. Whatever it holds is what its rule comes to at its token without a memo, without a
bound on nesting and on a budget that is large enough. So a parse with the memo comes to what the
same rules come to without it, as long as those are not cut short. -/

namespace MagSyntax

open Parse Input

namespace Parse.Comparison.Agree

theorem finding?_eq {k : Comparison} {o o' : Outcome Node} {f : Finding} (h : k.Agree o o')
    (hk : ¬k.mayExhaust) (hx : k.IsExact) (hn : ∀ b m, ¬k.escapes b m) (hf : o'.finding? = some f) :
    o.finding? = some f := by
  cases h with
  | escaped h => exact absurd h (hn _ _)
  | lost h => exact absurd h (hx.keeps _)
  | exhausted => cases hf
  | exhausts h => exact absurd h hk
  | found hc => rw [← hf, Outcome.finding?, Outcome.finding?, hc]
  | mismatch h =>
    obtain rfl := hx.missed h
    exact hf

end Parse.Comparison.Agree

theorem Parse.Outcome.finding?_stored (place : Attempt) (o : Outcome Node) :
    (o.stored place).finding? = o.finding? := by
  rcases o with _ | ⟨_ | _ | _, _⟩ <;> rfl

namespace Grammar

variable {input : Input}

/-- A parse with neither a memo nor a bound on nesting beside one without a memo. -/
def plainly (input : Input) (nesting : Option Nat) : Comparison where
  subject := ⟨input, false, none⟩
  reference := ⟨input, false, nesting⟩
  related _ _ := True
  escapes refused _ := nesting.isSome ∧ refused = true
  mayExhaust := False

theorem isExact_plainly (input : Input) (nesting : Option Nat) : (plainly input nesting).IsExact where
  escapes h := h.2
  missed h := h.1
  keeps _ h := h

theorem Nesting.isSome_of_any {nesting : Option Nat} {depth : Nat} (h : nesting.any (· ≤ depth) = true) :
    nesting.isSome := by
  cases nesting with
  | none => cases h
  | some => rfl

theorem tracks_plainly (input : Input) (nesting : Option Nat) {b b' : Nat} (due : Nat) (r : Rule)
    (hb : b' ≤ b) : Tracks (plainly input nesting) (parse b due r) (parse b' due r) := by
  have hfair : (plainly input nesting).IsFair := ⟨rfl, fun _ _ _ => trivial, fun _ _ _ => ⟨rfl, trivial⟩⟩
  have hretries : (plainly input nesting).Retries :=
    ⟨fun _ => rfl, fun he hf => congrArg₂ further he hf, fun he _ => ⟨he, trivial⟩, fun h => h.1, fun _ _ _ => trivial,
      fun _ h => h⟩
  have hnests : (plainly input nesting).Nests :=
    ⟨fun _ _ => ⟨rfl, trivial⟩, fun _ => trivial, fun h => ⟨h.1, trivial⟩,
      fun _ _ hn => .inl ⟨Nesting.isSome_of_any hn, rfl⟩, fun h => ⟨h.1, rfl⟩⟩
  refine tracks_parse hfair hretries hnests
    (fun b b' r _ hc => hc.remembered (fun he _ => he) fun p q hpq _ => ?_) _ _ _ _ (.inl hb)
  rw [run_remembered_miss (fun h => absurd h Bool.false_ne_true),
    run_remembered_miss (fun h => absurd h Bool.false_ne_true), hpq]
  exact (hc.agree p q hpq trivial).stored _ (fun _ _ h => h) (fun _ _ _ _ _ _ _ => trivial)
    fun _ _ _ _ _ _ h => ⟨h.1, trivial⟩

/-- A rule comes to the finding at a token, on some budget, without a memo and without a bound on nesting. -/
def IsIdeal (input : Input) (a : Attempt) (f : Finding) : Prop :=
  ∃ b q, q.cursor = a.cursor ∧ ((parse b 0 a.rule).run ⟨input, false, none⟩ q).finding? = some f

theorem IsIdeal.unique {a : Attempt} {f g : Finding} (hf : IsIdeal input a f) (hg : IsIdeal input a g) :
    f = g := by
  -- on the larger of the two budgets the rule comes to what it comes to on the smaller one
  have hle {b b' : Nat} {q q' : Progress} {f g : Finding} (hb : b' ≤ b) (hc : q.cursor = q'.cursor)
      (hf : ((parse b 0 a.rule).run ⟨input, false, none⟩ q).finding? = some f)
      (hg : ((parse b' 0 a.rule).run ⟨input, false, none⟩ q').finding? = some g) : f = g := by
    have h := ((tracks_plainly input none 0 a.rule hb).agree q q' hc trivial).finding?_eq id
      (isExact_plainly input none) (fun _ _ h => Bool.false_ne_true h.1) hg
    exact Option.some.inj (hf.symm.trans h)
  obtain ⟨b, q, hq, hf⟩ := hf
  obtain ⟨b', q', hq', hg⟩ := hg
  rcases Nat.le_total b' b with hb | hb
  · exact hle hb (hq.trans hq'.symm) hf hg
  · exact (hle hb (hq'.trans hq.symm) hg hf).symm

/-- Without a memo a rule that is not cut short comes to what is ideal, whatever bounds its nesting. -/
theorem isIdeal_of_run (nesting : Option Nat) (b : Nat) (r : Rule) (q : Progress) :
    let o := (parse b 0 r).run ⟨input, false, nesting⟩ q
    (nesting.isSome ∧ o.progress.refused = true) ∨ (∃ p, o = .failed .exhausted p) ∨
      ∃ f, o.finding? = some f ∧ IsIdeal input ⟨r, q.cursor⟩ f := by
  intro o
  have h := (tracks_plainly input nesting 0 r (Nat.le_refl b)).agree q q rfl trivial
  change (plainly input nesting).Agree ((parse b 0 r).run ⟨input, false, none⟩ q) o at h
  generalize o = o at h
  generalize ho : (parse b 0 r).run ⟨input, false, none⟩ q = ideal at h
  have hideal {f : Finding} (hf : ideal.finding? = some f) : IsIdeal input ⟨r, q.cursor⟩ f :=
    ⟨b, q, rfl, (congrArg Outcome.finding? ho).trans hf⟩
  cases h with
  | escaped h => exact .inl h
  | lost h => exact h.elim
  | exhausted => exact .inr (.inl ⟨_, rfl⟩)
  | exhausts h => exact h.elim
  | found hc => exact .inr (.inr ⟨_, rfl, hideal (by rw [Outcome.finding?, hc])⟩)
  | mismatch h =>
    obtain ⟨rfl, -⟩ := h
    exact .inr (.inr ⟨_, rfl, hideal rfl⟩)

/-- The memo holds nothing but what is ideal. -/
def IsIdealMemo (input : Input) (m : Memo) : Prop :=
  ∀ a f, m.find? a = some f → IsIdeal input a f

theorem isIdealMemo_empty : IsIdealMemo input .empty := by
  intro a f h
  rw [Memo.find?_empty] at h
  cases h

theorem IsIdealMemo.store {m : Memo} (hm : IsIdealMemo input m) {a : Attempt} {f : Finding}
    (hf : IsIdeal input a f) : IsIdealMemo input (m.store a f) := by
  intro a' f' h
  rw [Memo.find?_store] at h
  split at h
  next ha => cases h; exact ha ▸ hf
  next => exact hm a' f' h

/-- A parse with a memo beside one without. -/
def remembering (input : Input) (nesting : Option Nat) (mayExhaust : Prop) : Comparison where
  subject := ⟨input, true, nesting⟩
  reference := ⟨input, false, nesting⟩
  related p q := p.depth = q.depth ∧ IsIdealMemo input p.memo
  escapes refused _ := nesting.isSome ∧ refused = true
  mayExhaust := mayExhaust

variable {nesting : Option Nat} {mayExhaust : Prop}

theorem isFair_remembering : (remembering input nesting mayExhaust).IsFair where
  input := rfl
  advance _ _ h := h
  complain _ _ h := ⟨rfl, h⟩

theorem retries_remembering : (remembering input nesting mayExhaust).Retries where
  refl _ := rfl
  further he hf := congrArg₂ further he hf
  misses he h := ⟨he, h⟩
  alike h := h.1
  seek h _ _ := h.2
  keeps _ h := h

theorem nests_remembering : (remembering input nesting mayExhaust).Nests where
  deeper {p q} h hn := ⟨by rw [h.1]; exact hn, congrArg (· + 1) h.1, h.2⟩
  back h := ⟨congrArg (· - 1) h.1, h.2⟩
  missed_back h := ⟨h.1, congrArg (· - 1) h.2.1, h.2.2⟩
  refuses _ _ hn := .inl ⟨Nesting.isSome_of_any hn, rfl⟩
  refused h := ⟨h.1, rfl⟩

theorem isExact_remembering : (remembering input nesting mayExhaust).IsExact where
  escapes h := h.2
  missed h := h.1
  keeps _ h := h

/-- What the memo gives back agrees with what the rule comes to without it. -/
theorem agree_recalled {o : Outcome Node} {f : Finding} {p : Progress} (hf : o.finding? = some f)
    (hd : p.depth = o.progress.depth) (hm : IsIdealMemo input p.memo) :
    (remembering input nesting mayExhaust).Agree (.recalled f p) o := by
  rcases o with ⟨v, q⟩ | ⟨e | _ | _, q⟩ <;> cases hf
  · exact .found rfl ⟨hd, hm⟩
  · exact .mismatch ⟨rfl, hd, hm⟩

theorem tracks_remembering (b b' due : Nat) (r : Rule) (hb : b' ≤ b ∨ mayExhaust) :
    Tracks (remembering input nesting mayExhaust) (parse b due r) (parse b' due r) := by
  refine tracks_parse isFair_remembering retries_remembering nests_remembering
    (fun b b' r hr hc => hc.remembered (fun he _ => he) fun p q hpq h => ?_) _ _ _ _ hb
  obtain ⟨hd, hm⟩ := h
  have hrun : (remembered r (content b' r)).run ⟨input, false, nesting⟩ q =
      ((content b' r).run ⟨input, false, nesting⟩ q).stored ⟨r, q.cursor⟩ :=
    run_remembered_miss fun h => absurd h Bool.false_ne_true
  have hideal := @isIdeal_of_run input nesting (b' + 1) r q
  rw [parse_content, if_pos hr] at hideal
  rcases hideal with ⟨hs, h⟩ | ⟨p', h⟩ | ⟨f, hf, hideal⟩
  · exact .escaped ⟨hs, h⟩
  · change (remembering input nesting mayExhaust).Agree _
      ((remembered r (content b' r)).run ⟨input, false, nesting⟩ q)
    rw [h]
    exact .exhausted
  · cases hg : p.memo.find? ⟨r, p.cursor⟩ with
    | some g =>
      rw [run_remembered_hit rfl hg]
      obtain rfl : g = f := IsIdeal.unique (hm _ _ hg) (hpq ▸ hideal)
      refine agree_recalled hf (hd.trans ?_) hm
      change q.depth = ((remembered r (content b' r)).run ⟨input, false, nesting⟩ q).progress.depth
      rw [hrun, Outcome.depth_stored]
      exact (hc.level q).symm
    | none =>
      change (remembering input nesting mayExhaust).Agree _
        ((remembered r (content b' r)).run ⟨input, false, nesting⟩ q)
      rw [run_remembered_miss fun _ => hg, hrun, hpq]
      rw [hrun, Outcome.finding?_stored] at hf
      change ((content b' r).run (remembering input nesting mayExhaust).reference q).finding? = some f at hf
      refine (hc.agree p q hpq ⟨hd, hm⟩).stored _ (fun _ _ h => h) (fun v p' q' _ hq _ h => ?_)
        fun e e' p' q' _ hq h => ?_
      · rw [hq] at hf
        cases hf
        exact ⟨h.1, h.2.store hideal⟩
      · rw [hq] at hf
        cases hf
        obtain ⟨rfl, h⟩ := h
        exact ⟨rfl, h.1, h.2.store hideal⟩

/-- With its memo a rule comes to what it comes to without one on any budget, the same tree behind the same
token or the same error, unless the rule without a memo is cut short, or the budget of the rule
with it is the smaller one and used up. -/
theorem rule_sameAs_plain (input : Input) (r : Rule) (b : Nat)
    (h : ¬((parse b r.surcharge r).run ⟨input, false, some 256⟩ .start).IsCutShort) :
    ((rule r).run { input } .start).SameAs
        ((parse b r.surcharge r).run ⟨input, false, some 256⟩ .start) ∨
      budget < b ∧ ∃ p, (rule r).run { input } .start = .failed .exhausted p := by
  have htracks : Tracks (remembering input (some 256) (budget < b)) (rule r)
      (parse b r.surcharge r) :=
    tracks_remembering budget b r.surcharge r (Nat.lt_or_ge budget b).symm
  have hagree := htracks.agree .start .start rfl ⟨rfl, isIdealMemo_empty⟩
  exact (hagree.sameAs isExact_remembering).resolve_left h

theorem rule_sameAs_plain_ifForms :
    let input : Input := .ofTokens (Node.ifForms.tokens ++ [.endAt ⟨0, 1, 1⟩])
    ¬((parse budget 0 .program).run ⟨input, false, some 256⟩ .start).IsCutShort ∧
      (((rule .program).run { input } .start).SameAs
          ((parse budget 0 .program).run ⟨input, false, some 256⟩ .start) ∨
        budget < budget ∧ ∃ p, (rule .program).run { input } .start = .failed .exhausted p) := by
  intro input
  have h : ¬((parse budget 0 .program).run ⟨input, false, some 256⟩ .start).IsCutShort := by
    decide +kernel
  exact ⟨h, rule_sameAs_plain input .program budget h⟩

/-- A condition in parentheses that takes what it may of the budget, once with a power behind the parenthesis: it is
accepted, and without the memo, which would have it read only once, the same rules use the budget up, although they are
refused none. -/
theorem powersCondition_not_plain {n : Nat} (hn : 9959 ≤ n) (hn' : n ≤ 9969) :
    ∃ tokens, tokenize (Text.spaced (Lexeme.powersCondition n)) = .ok tokens ∧
      (∃ p, (parse budget 0 .program).run ⟨.ofTokens tokens, false, some 256⟩ .start = .failed .exhausted p ∧
        p.refused = false) ∧
      ∃ t q, (rule .program).run { input := .ofTokens tokens } .start = .ok t q ∧
        ((Input.ofTokens tokens).get q.cursor).kind = .eof := by
  obtain ⟨tokens, last, htokens, hlast, hlength, hshows⟩ :=
    (Text.scans_spaced (Lexeme.isSimple_powersCondition n)).shows
  obtain ⟨stop, h⟩ := Input.powersCondition hlast hlength hshows
  rw [← Input.ofTokens_append hlast] at h
  obtain ⟨p, hp, hrefused⟩ := (ends_powersCondition_plain h hn hn').run_plain_exhausted
  obtain ⟨t, ht⟩ := ends_powersCondition h hn'
  obtain ⟨q, hq, hstop, -⟩ := ht.run_found
  exact ⟨_, htokens, ⟨p, hp, hrefused⟩, t, q, hq, hstop ▸ h.eof⟩

/-- On one bound of the recursion for both a source is accepted that the rules do not accept without the memo. -/
theorem powers_not_sameAs_plain :
    ∃ tokens, tokenize (Text.spaced (Lexeme.powersCondition 9965)) = .ok tokens ∧
      (∃ p, (parse budget 0 .program).run ⟨.ofTokens tokens, false, some 256⟩ .start = .failed .exhausted p ∧
        p.refused = false) ∧
      ∃ t q, (rule .program).run { input := .ofTokens tokens } .start = .ok t q ∧
        ((Input.ofTokens tokens).get q.cursor).kind = .eof :=
  powersCondition_not_plain (by decide) (by decide)

end Grammar

end MagSyntax
