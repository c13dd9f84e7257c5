import MagSyntax.Proofs.FirstReadings

/-! The second reading of a condition. Where the first form of an `if` has failed the next one reads its condition from
the same token, on what the first has left in the memo. What that holds was found at most one rule further down, and the
second reading gets no further with it than the first got, or goes on where the memo holds nothing. -/

namespace MagSyntax

open Parse

namespace Grammar

variable {α β : Type} {input : Input} {δ δ' b : Nat} {e₁ : SyntaxError} {m₁ : Memo}

/-- Every rule keeps the two parses abreast on budgets up to this one. -/
def KeepsAbreast (input : Input) (b : Nat) : Prop :=
  ∀ (δ n n' : Nat) (r : Rule), n' ≤ b → Tracks (kept input δ) (rulesOn n r) (rulesOn n' r)

theorem KeepsAbreast.readsValues (hin : input.IsOrdered) (h : KeepsAbreast input b) (δ : Nat) :
    ReadsValues (kept input δ) b :=
  ⟨isFair_kept hin, trivial, fun n n' r hn _ => h δ n n' r hn⟩

/-- A first reading at `s`, a second one of the same on what the form of the first has left, and the parse that is kept
abreast of them. -/
structure Rereading (input : Input) (δ δ' : Nat) (m₁ : Memo) (s p q : Progress) : Prop where
  abreast : Abreast input δ' p s
  cursor : p.cursor = s.cursor
  again : q.cursor = s.cursor
  depth : p.depth + δ = q.depth
  memo : q.memo = m₁

/-- The same step of expressions for the parse that is kept abreast, for the second reading and for the first. -/
structure Readings (b : Nat) (step second first : Parse α) : Prop where
  kept : Alike b step first
  again : Alike b second first
  own : Alike b second second
  first : Alike b first first

theorem readings_rulesOn {n n' : Nat} (m : Nat) {r : Rule} (hr : r.isValue) (hn : n ≤ b) (hn' : n' ≤ b) :
    Readings b (rulesOn m r) (rulesOn n r) (rulesOn n' r) :=
  ⟨fun _ h => h.rule _ _ _ hn' hr, fun _ h => h.rule _ _ _ hn' hr, fun _ h => h.rule _ _ _ hn hr,
    fun _ h => h.rule _ _ _ hn' hr⟩

section

variable {step second first : Parse α} {s s' p q : Progress}
variable (hin : input.IsOrdered) (hb : KeepsAbreast input b) (h : Readings b step second first)
  (hr : Rereading input δ δ' m₁ s p q)
include hin hb h hr

/-- What the first reading has found the second finds too. -/
theorem reread_ok {v : α} (hrun : first.run { input } s = .ok v s') (hext : s'.memo.Extends m₁) :
    (∃ p', step.run ⟨input, false, none⟩ p = .failed .exhausted p') ∨
      (∃ q', second.run { input } q = .failed .exhausted q') ∨
        ∃ p' q', step.run ⟨input, false, none⟩ p = .ok v p' ∧ second.run { input } q = .ok v q' ∧
          Rereading input δ δ' m₁ s' p' q' := by
  have hkept := (h.kept _ (hb.readsValues hin δ')).agree p s hr.cursor hr.abreast
  have hagain := (h.again _ (readsValues_replaying m₁ b)).agree q s hr.again ⟨hr.memo, hr.abreast.memo.goesOn⟩
  have hlevel := (h.first.addsOn input).level s
  have hlevel' := (h.own.addsOn input).level q
  change (kept input δ').Agree (step.run ⟨input, false, none⟩ p) (first.run { input } s) at hkept
  change (replaying input m₁).Agree (second.run { input } q) (first.run { input } s) at hagain
  rw [hrun] at hkept hagain hlevel
  generalize step.run ⟨input, false, none⟩ p = o at hkept ⊢
  generalize second.run { input } q = o' at hagain hlevel' ⊢
  cases hkept with
  | escaped h => exact h.elim
  | exhausts => exact .inl ⟨_, rfl⟩
  | @found _ p' _ hc habreast =>
    cases hagain with
    | escaped h => exact absurd hext h
    | exhausts => exact .inr (.inl ⟨_, rfl⟩)
    | @found _ q' _ hc' hmemo =>
      refine .inr (.inr ⟨p', q', rfl, rfl, habreast, hc, hc', ?_, hmemo.1⟩)
      have h := habreast.depth
      have h' := hr.abreast.depth
      have hd := hr.depth
      change s'.depth = s.depth at hlevel
      change q'.depth = q.depth at hlevel'
      omega

/-- What the first reading has failed with the second fails with too. -/
theorem reread_mismatch {e : SyntaxError} (hrun : first.run { input } s = .failed (.mismatch e) s')
    (hext : s'.memo.Extends m₁) :
    (∃ p', step.run ⟨input, false, none⟩ p = .failed .exhausted p') ∨
      (∃ q', second.run { input } q = .failed .exhausted q') ∨
        ∃ q', second.run { input } q = .failed (.mismatch e) q' ∧ q'.memo = m₁ ∧
          (¬e.IsRefusal input → ∃ e' p', step.run ⟨input, false, none⟩ p = .failed (.mismatch e') p' ∧
            p'.depth + δ = q'.depth) := by
  have hkept := (h.kept _ (hb.readsValues hin δ')).agree p s hr.cursor hr.abreast
  have hagain := (h.again _ (readsValues_replaying m₁ b)).agree q s hr.again ⟨hr.memo, hr.abreast.memo.goesOn⟩
  have hlevel := (h.first.addsOn input).level s
  have hlevel' := (h.own.addsOn input).level q
  change (kept input δ').Agree (step.run ⟨input, false, none⟩ p) (first.run { input } s) at hkept
  change (replaying input m₁).Agree (second.run { input } q) (first.run { input } s) at hagain
  rw [hrun] at hkept hagain hlevel
  generalize step.run ⟨input, false, none⟩ p = o at hkept ⊢
  generalize second.run { input } q = o' at hagain hlevel' ⊢
  cases hagain with
  | escaped h => exact absurd hext h
  | lost h => exact h.elim
  | exhausts => exact .inr (.inl ⟨_, rfl⟩)
  | @mismatch e' _ q' _ hmiss =>
    obtain ⟨rfl, hmemo, -⟩ := hmiss
    cases hkept with
    | escaped h => exact h.elim
    | exhausts => exact .inl ⟨_, rfl⟩
    | lost hlost => exact .inr (.inr ⟨q', rfl, hmemo, fun h => absurd hlost h⟩)
    | @mismatch e' _ p' _ hmiss =>
      refine .inr (.inr ⟨q', rfl, hmemo, fun _ => ⟨e', p', rfl, ?_⟩⟩)
      have h := hmiss.1
      have h' := hr.abreast.depth
      have hd := hr.depth
      change s'.depth = s.depth at hlevel
      change q'.depth = q.depth at hlevel'
      omega

end

/-- A parse without a memo and without a bound fails here, unless it is used up. -/
def MissesHere (input : Input) (step : Parse α) (p : Progress) : Prop :=
  (∃ p', step.run ⟨input, false, none⟩ p = .failed .exhausted p') ∨
    ∃ e p', step.run ⟨input, false, none⟩ p = .failed (.mismatch e) p' ∧ p'.depth = p.depth

/-- What a second reading comes to, beside the parse that is kept abreast, behind a form that has failed with an error.
Either it fails no further than that; or it stops no further than that, where no form goes on; or neither reading was
refused anything, and the second has got past the first, abreast as before. -/
inductive Verdict (input : Input) (δ : Nat) (e₁ : SyntaxError) : Outcome α → Outcome α → Prop
  | exhausts {p : Progress} {o : Outcome α} : Verdict input δ e₁ (.failed .exhausted p) o
  | exhausted {o : Outcome α} {q : Progress} : Verdict input δ e₁ o (.failed .exhausted q)
  | fails {o : Outcome α} {e : SyntaxError} {q : Progress} (hle : e.place.position ≤ e₁.place.position)
    (h : ¬e₁.IsRefusal input → ∃ e' p, o = .failed (.mismatch e') p ∧ (kept input δ).missed e₁ e₁ p q) :
    Verdict input δ e₁ o (.failed (.mismatch e) q)
  | stops {o : Outcome α} {v : α} {q : Progress}
    (hle : (input.get q.cursor).place.position ≤ e₁.place.position)
    (hthen : (input.get q.cursor).kind ≠ Keyword.thenWord) (hbrace : (input.get q.cursor).kind ≠ Symbol.lbrace)
    (h : ¬e₁.IsRefusal input → ∃ v' p, o = .ok v' p ∧ p.cursor = q.cursor ∧ (kept input δ).missed e₁ e₁ p q) :
    Verdict input δ e₁ o (.ok v q)
  /-- There is a block that the first form has failed at. -/
  | blocked {o : Outcome α} {v : α} {q : Progress}
    (hle : (input.get q.cursor).place.position ≤ e₁.place.position) (hbrace : (input.get q.cursor).kind = Symbol.lbrace)
    (hf : q.memo.find? ⟨.block, q.cursor⟩ = some (.error e₁))
    (h : ¬e₁.IsRefusal input → ∃ v' p, o = .ok v' p ∧ p.cursor = q.cursor ∧ (kept input δ).missed e₁ e₁ p q ∧
      ∀ n p', p'.cursor = p.cursor → p'.depth = p.depth → p'.deepest = p.deepest →
        MissesHere input (rulesOn n .block) p') : Verdict input δ e₁ o (.ok v q)
  | passes {o o' : Outcome α} (hn : ¬e₁.IsRefusal input) (h : (kept input δ).Agree o o')
    (herror : ∀ e q, o' = .failed (.mismatch e) q → e₁.place.position < e.place.position)
    (hfound : ∀ v q, o' = .ok v q → e₁.place.position ≤ (input.get q.cursor).place.position) :
    Verdict input δ e₁ o o'

/-- What a form that has failed leaves, where it was not refused anything. -/
structure Settled (input : Input) (e₁ : SyntaxError) (m₁ : Memo) : Prop where
  memo : m₁.IsOrderly input
  isUpTo : m₁.IsUpTo input e₁

namespace Verdict

theorem map {step second : Parse α} {p q : Progress} {setup setup' : Setup} (f : α → β)
    (h : Verdict input δ e₁ (step.run setup p) (second.run setup' q)) :
    Verdict input δ e₁ ((step >>= fun v => pure (f v)).run setup p) ((second >>= fun v => pure (f v)).run setup' q) := by
  rw [run_bind, run_bind]
  generalize step.run setup p = o at h ⊢
  generalize second.run setup' q = o' at h ⊢
  cases h with
  | exhausts => exact .exhausts
  | exhausted => exact .exhausted
  | fails hle h =>
    refine .fails hle fun hn => ?_
    obtain ⟨e', p, rfl, hp⟩ := h hn
    exact ⟨e', p, rfl, hp⟩
  | stops hle hthen hbrace h =>
    refine .stops hle hthen hbrace fun hn => ?_
    obtain ⟨v', p, rfl, hp⟩ := h hn
    exact ⟨_, p, rfl, hp⟩
  | blocked hle hbrace hf h =>
    refine .blocked hle hbrace hf fun hn => ?_
    obtain ⟨v', p, rfl, hp⟩ := h hn
    exact ⟨_, p, rfl, hp⟩
  | passes hn h herror hfound =>
    cases h with
    | escaped h => exact h.elim
    | exhausts => exact .exhausts
    | exhausted => exact .exhausted
    | lost h => exact .passes hn (.lost h) (fun e q he => herror e q (by cases he; rfl)) fun v q he => by cases he
    | mismatch h => exact .passes hn (.mismatch h) (fun e q he => herror e q (by cases he; rfl)) fun v q he => by cases he
    | found hc h =>
      exact .passes hn (.found hc h) (fun e q he => by cases he) fun v q he => hfound _ q (by cases he; rfl)

end Verdict

section

variable {x : Nat} {step second first : Parse α} {s p q : Progress}

theorem Settled.missed (h : Settled input e₁ m₁) (hm : q.memo = m₁) (hd : p.depth + δ = q.depth) :
    (kept input δ).missed e₁ e₁ p q :=
  ⟨hd, hm ▸ h.memo, hm ▸ h.isUpTo⟩

/-- A second reading that meets what the first has failed with. -/
theorem Rereading.fails (hin : input.IsOrdered) (hb : KeepsAbreast input b) (h : Readings b step second first)
    (hr : Rereading input δ δ' m₁ s p q) (hsettled : ¬e₁.IsRefusal input → Settled input e₁ m₁) {s' : Progress}
    (hrun : first.run { input } s = .failed (.mismatch e₁) s') (hext : s'.memo.Extends m₁) (next next' : α → Parse β) :
    Verdict input δ e₁ ((step >>= next).run ⟨input, false, none⟩ p) ((second >>= next').run { input } q) := by
  rw [run_bind, run_bind]
  obtain ⟨p', hp⟩ | ⟨q', hq⟩ | ⟨q', hq, hm, hkept⟩ := reread_mismatch hin hb h hr hrun hext
  · rw [hp]
    exact .exhausts
  · rw [hq]
    exact .exhausted
  · rw [hq]
    refine .fails (Int.le_refl _) fun hn => ?_
    obtain ⟨e', p', hp, hd⟩ := hkept hn
    rw [hp]
    exact ⟨e', p', rfl, (hsettled hn).missed hm hd⟩

/-- What both readings share from a token on. -/
theorem InFailed.verdict (hin : input.IsOrdered) (hb : KeepsAbreast input b) (h : Readings b step second first)
    (hr : Rereading input δ δ' m₁ s p q) (hsettled : ¬e₁.IsRefusal input → Settled input e₁ m₁)
    (hfirst : InFailed input x e₁ m₁ (first.run { input } s)) :
    Verdict input δ e₁ (step.run ⟨input, false, none⟩ p) (second.run { input } q) := by
  generalize ho : first.run { input } s = o at hfirst
  have hext := hfirst.keeps
  cases hfirst with
  | failed =>
    have hfails := hr.fails hin hb h hsettled ho hext pure pure
    rwa [Parse.bind_pure, Parse.bind_pure] at hfails
  | @stopped v s' hx he hdeep hgrows =>
    have hn := SyntaxError.not_isRefusal hdeep input
    obtain ⟨p', hp⟩ | ⟨q', hq⟩ | ⟨p', q', hp, hq, hr'⟩ := reread_ok hin hb h hr ho hext
    · rw [hp]
      exact .exhausts
    · rw [hq]
      exact .exhausted
    · rw [hp, hq]
      have hcursor : (input.get q'.cursor).place = e₁.place := by rw [hr'.again, he]
      refine .passes hn (.found (hr'.cursor.trans hr'.again.symm) ?_) (fun _ _ h => by cases h) fun v q h => ?_
      · refine ⟨hr'.depth, hr'.abreast.deepest, hr'.again ▸ hr'.abreast.cursor, hr'.memo ▸ (hsettled hn).memo, ?_⟩
        rw [hr'.memo, hr'.again]
        intro a f hf
        rcases hgrows.news a f hf with hf | rfl
        · exact hr'.abreast.fresh a f hf
        · exact .inl hx
      · cases h
        exact Int.le_of_eq (congrArg Place.position hcursor.symm)
  | @went v s' hx hle hk hgrows =>
    obtain ⟨p', hp⟩ | ⟨q', hq⟩ | ⟨p', q', hp, hq, hr'⟩ := reread_ok hin hb h hr ho hext
    · rw [hp]
      exact .exhausts
    · rw [hq]
      exact .exhausted
    · rw [hp, hq]
      rw [← hr'.again] at hle hk
      refine .stops hle ?_ ?_ fun hn => ⟨v, p', rfl, hr'.cursor.trans hr'.again.symm, (hsettled hn).missed hr'.memo hr'.depth⟩
      · rcases hk with hk | hk <;> rw [hk] <;> decide
      · rcases hk with hk | hk <;> rw [hk] <;> decide

/-- A step that the first reading has done is done again, and what is left is judged from where it ends. -/
theorem Rereading.bind {γ : Type} (hin : input.IsOrdered) (hb : KeepsAbreast input b) (h : Readings b step second first)
    (hr : Rereading input δ δ' m₁ s p q) (hsettled : ¬e₁.IsRefusal input → Settled input e₁ m₁)
    {next next' : α → Parse β} {rest : α → Parse γ} (hrest : ∀ v, AddsOn input (rest v))
    (hfirst : InFailed input x e₁ m₁ ((first >>= rest).run { input } s))
    (hnext : ∀ v s' p' q', first.run { input } s = .ok v s' → Rereading input δ δ' m₁ s' p' q' →
      InFailed input x e₁ m₁ ((rest v).run { input } s') → (first >>= rest).run { input } s = (rest v).run { input } s' →
        Verdict input δ e₁ ((next v).run ⟨input, false, none⟩ p') ((next' v).run { input } q')) :
    Verdict input δ e₁ ((step >>= next).run ⟨input, false, none⟩ p) ((second >>= next').run { input } q) := by
  obtain ⟨s', hfound, hgrows⟩ | ⟨v, s', hfound, hbehind⟩ := hfirst.of_bind
  · exact hr.fails hin hb h hsettled hfound hgrows.keeps _ _
  have hext := (extends_run (hrest v).keeping s').trans hbehind.keeps
  rw [run_bind step, run_bind second]
  obtain ⟨p', hp'⟩ | ⟨q', hq'⟩ | ⟨p', q', hp', hq', hr'⟩ := reread_ok hin hb h hr hfound hext
  · rw [hp']
    exact .exhausts
  · rw [hq']
    exact .exhausted
  · rw [hp', hq']
    exact hnext v s' p' q' hfound hr' hbehind (by rw [run_bind, hfound])

/-- Both readings go on where the memo holds nothing, behind the error of the form that has failed. -/
theorem Verdict.of_alike (hin : input.IsOrdered) (hb : KeepsAbreast input b) (h : Alike b step second)
    (hc : p.cursor = q.cursor) (hpq : Abreast input δ p q) (hn : ¬e₁.IsRefusal input)
    (hcont : Continues { input } (Memo.GoesOn input) q.cursor second)
    (herror : e₁.place.position < (input.get (q.cursor + 1)).place.position)
    (hfound : e₁.place.position ≤ (input.get q.cursor).place.position) :
    Verdict input δ e₁ (step.run ⟨input, false, none⟩ p) (second.run { input } q) := by
  have hagree := (h _ (hb.readsValues hin δ)).agree p q hc hpq
  have hfinds := hcont q rfl hpq.memo.goesOn
  refine .passes hn hagree (fun e q' ho => ?_) fun v q' ho => ?_
  · rw [ho] at hfinds
    have he : input.IsFrom (q.cursor + 1) e := hfinds.2
    exact Int.lt_of_lt_of_le herror (he.position_le hin.order)
  · rw [ho] at hfinds
    exact Int.le_trans hfound (Input.position_le hin.order hfinds.2)

theorem Rereading.moved (hr : Rereading input δ δ' m₁ s p q) {d : Nat} (hd : s.cursor ≤ d) (hd' : d ≤ input.before.size) :
    Rereading input δ δ' m₁ { s with cursor := d } { p with cursor := d } { q with cursor := d } := by
  refine ⟨⟨hr.abreast.depth, hr.abreast.deepest, hd', hr.abreast.memo, ?_⟩, rfl, rfl, hr.depth, hr.memo⟩
  change s.memo.IsFresh input d
  rcases Nat.lt_or_eq_of_le hd with h | h
  · exact hr.abreast.fresh.behind h
  · exact h ▸ hr.abreast.fresh

/-- The first reading of an operand is one rule further down than the second of what is behind a condition. -/
theorem Rereading.deeper (hr : Rereading input δ δ m₁ s p q) : Rereading input δ (δ + 1) m₁ s.deeper p q := by
  have hd : p.depth + δ = s.depth := hr.abreast.depth
  refine ⟨⟨?_, hr.abreast.deepest, hr.abreast.cursor, hr.abreast.memo, hr.abreast.fresh⟩, hr.cursor, hr.again, hr.depth,
    hr.memo⟩
  change p.depth + (δ + 1) = s.depth + 1
  omega

end

/-- A remembered rule that cannot start with the token, where nothing else is known of that. -/
theorem Verdict.of_failsAt (hin : input.IsOrdered) {r : Rule} (hr : r.isRemembered) {c : Nat} {p q : Progress}
    (hk : (input.get c).kind ∉ r.leads) (hp : p.cursor = c) (hq : q.cursor = c) (hc : c ≤ input.before.size)
    (hd : p.depth + δ = q.depth) (hidle : q.memo.IsIdleAt input c)
    (hle : (input.get c).place.position ≤ e₁.place.position)
    (hsettled : ¬e₁.IsRefusal input → Settled input e₁ q.memo) (n n' : Nat) (next next' : Node → Parse β) :
    Verdict input δ e₁ ((rulesOn n r >>= next).run ⟨input, false, none⟩ p) ((rulesOn n' r >>= next').run { input } q) := by
  rw [run_bind, run_bind]
  obtain ⟨p', ho⟩ | ⟨e, p', ho, -, -, hdepth, -⟩ := @failsAt_remembered ⟨input, false, none⟩ _ _ hr hk n p hp
    (fun h => absurd h Bool.false_ne_true)
  · rw [ho]
    exact .exhausts
  obtain ⟨q', ho'⟩ | ⟨e', q', ho', he, -, hdepth', hidles⟩ := @failsAt_remembered { input } _ _ hr hk n' q hq
    (fun _ => hidle)
  · rw [ho']
    exact .exhausted
  rw [ho, ho']
  refine .fails (he ▸ hle) fun hn => ⟨e, p', rfl, ?_, ?_, fun a f hf => ?_⟩
  · rw [hdepth, hdepth']
    exact hd
  · have hruns := runsOrderly hin (hq ▸ hc) (hsettled hn).memo n' r
    rw [ho'] at hruns
    exact hruns.memo
  · rcases hidles a f hf with hf | ⟨rfl, -⟩
    · exact (hsettled hn).isUpTo a f hf
    · exact hle

/-- The parts of an operand behind its first primary, on whatever budgets. -/
theorem readings_behind {l l' l'' : Layers} (hl' : l'.Within b) (hl'' : l''.Within b)
    {links links' links'' : Parse (Node → Node)} (h : Readings b links links' links'') :
    Readings b (l.behind links) (l'.behind links') (l''.behind links'') :=
  ⟨fun k hv => Layers.tracks_behind hv hl'' (h.kept k hv), fun k hv => Layers.tracks_behind hv hl'' (h.again k hv),
    fun k hv => Layers.tracks_behind hv hl' (h.own k hv), fun k hv => Layers.tracks_behind hv hl'' (h.first k hv)⟩

/-- Links of a chain, in a first reading from its primary and in a second one from within. -/
theorem readings_links {u u' u'' : Nat} (hu' : u' ≤ b) (hu'' : u'' ≤ b) (n n' : Nat) :
    Readings b (links (rulesOn u) n) (links (rulesOn u') n') (rounds >>= links (rulesOn u'')) :=
  ⟨fun _ hv => Tracks.rounds_right fun m => tracks_links hv.fair hv.mayExhaust (hv.rule _ _ _ hu'' rfl) n m,
    fun _ hv => Tracks.rounds_right fun m => tracks_links hv.fair hv.mayExhaust (hv.rule _ _ _ hu'' rfl) n' m,
    fun _ hv => tracks_links hv.fair hv.mayExhaust (hv.rule _ _ _ hu' rfl) n' n',
    fun _ hv => Tracks.rounds_left fun m => Tracks.rounds_right fun m' =>
      tracks_links hv.fair hv.mayExhaust (hv.rule _ _ _ hu'' rfl) m m'⟩

theorem le_of_found {r : Rule} {v : Node} {s s' : Progress} (hs : s.memo.GoesOn input)
    (h : (rulesOn b r).run { input } s = .ok v s') : s.cursor ≤ s'.cursor := by
  have hgoes : GoesOn { input } (Memo.GoesOn input) r (rulesOn b r) := goesOn_parse _ _ r
  have hfinds := hgoes s.cursor s rfl hs
  rw [h] at hfinds
  exact hfinds.2.le

theorem continues_rounds_links (u c : Nat) : Continues { input } (Memo.GoesOn input) c (rounds >>= links (rulesOn u)) :=
  continues_rounds fun bound => continues_links (fun r => goesOn_parse u r.surcharge r) bound

theorem continues_behind_pure (input : Input) (l : Layers) (u c : Nat) (f : (Node → Node) → β) :
    Continues { input } (Memo.GoesOn input) c (l.behind (rounds >>= links (rulesOn u)) >>= fun more => pure (f more)) :=
  (l.continues_behind (continues_rounds_links u c)).bind fun _ _ => continues_pure _

theorem addsOn_behind_pure {l : Layers} {u : Nat} (hl : l.Within b) (hu : u ≤ b) (f : (Node → Node) → β) :
    AddsOn input (l.behind (rounds >>= links (rulesOn u)) >>= fun more => pure (f more)) :=
  ((alike_behind hl hu).addsOn input).bind fun _ => .pure _

/-- The end of a group for the first reading, behind its content; the second goes on with the list of arguments of which
that is the first. -/
theorem verdict_callEnd {s p q : Progress} {x u u' u'' k k' bound bound' : Nat} {l l' l'' : Layers} {inner : Node}
    {f : (Node → Node) → Node} (hin : input.IsOrdered) (hb : KeepsAbreast input b)
    (hr : Rereading input δ δ' m₁ s p q) (hx : x < s.cursor)
    (hsettled : ¬e₁.IsRefusal input → Settled input e₁ m₁) (hl' : l'.Within b) (hu' : u' ≤ b) (hl'' : l''.Within b)
    (hu'' : u'' ≤ b) (hfirst : InFailed input x e₁ m₁ ((expect Symbol.rparen .groupEnd >>= fun _ =>
      l''.behind (rounds >>= links (rulesOn u'')) >>= fun more => pure (f more)).run { input } s)) : Verdict input δ e₁
    ((listBehind .rparen (rulesOn u .expression) k inner >>= fun arguments => l.behind (links (rulesOn u) bound) >>=
      fun more => pure fun node => more (Node.call node.loc node arguments)).run ⟨input, false, none⟩ p)
    ((listBehind .rparen (rulesOn u' .expression) k' inner >>= fun arguments => l'.behind (links (rulesOn u') bound') >>=
      fun more => pure fun node => more (Node.call node.loc node arguments)).run { input } q) := by
  by_cases hy : (input.get s.cursor).kind = Symbol.rparen
  · rw [@run_expect_symbol _ { input } s _ hy] at hfirst
    rw [run_bind, run_bind (listBehind _ _ _ _),
      @run_listBehind_close ⟨input, false, none⟩ p _ (by rw [hr.cursor]; exact hy) (by decide),
      @run_listBehind_close { input } q _ (by rw [hr.again]; exact hy) (by decide), hr.cursor, hr.again]
    have hend := Input.lt_size_of_ne hin.last hr.abreast.cursor (by rw [hy]; exact TokenKind.noConfusion)
    exact Verdict.map _ (hfirst.of_map.verdict hin hb
      (readings_behind hl' hl'' (readings_links hu' hu'' bound bound')) (hr.moved (Nat.le_succ _) hend) hsettled)
  rw [@run_expect_miss _ { input } s _ hy] at hfirst
  cases hfirst with
  | failed hgrows =>
    by_cases hcomma : (input.get s.cursor).kind = Symbol.comma
    · -- the list goes on where the group cannot, and nothing is known behind the comma
      have hdeep := SyntaxError.not_isTooDeep (show Complaint.groupEnd ≠ .tooDeep by decide) (input.get s.cursor)
      have hn := SyntaxError.not_isRefusal hdeep input
      refine .of_alike hin hb (fun k hv => (tracks_listBehind hv (hv.rule _ _ _ hu' rfl) _ _ _).bind fun _ =>
        (Layers.tracks_behind hv hl' (tracks_links hv.fair hv.mayExhaust (hv.rule _ _ _ hu' rfl) bound bound')).bind
          fun _ => Tracks.pure _) (hr.cursor.trans hr.again.symm) ?_ hn ?_ ?_ ?_
      · refine ⟨hr.depth, hr.abreast.deepest, hr.again ▸ hr.abreast.cursor, hr.memo ▸ (hsettled hn).memo, ?_⟩
        rw [hr.memo, hr.again]
        intro a f hf
        rcases hgrows.news a f hf with hf | hx'
        · exact hr.abreast.fresh a f hf
        · exact .inl (hx' ▸ hx)
      · exact (continues_listBehind (fun r => goesOn_parse u' r.surcharge r) _ .expression
          (by rw [hr.again]; exact hcomma) _ _).bind fun _ d =>
            (l'.continues_behind (continues_links (fun r => goesOn_parse u' r.surcharge r) bound')).bind
              fun _ _ => continues_pure _
      · rw [hr.again]
        exact hin.position_lt hr.abreast.cursor (by rw [hcomma]; exact TokenKind.noConfusion) (Nat.lt_succ_self _)
      · exact Int.le_of_eq (by rw [hr.again]; rfl)
    · rw [run_bind, run_bind,
        @run_listBehind_miss ⟨input, false, none⟩ p _ (by rw [hr.cursor]; exact hy) (by rw [hr.cursor]; exact hcomma),
        @run_listBehind_miss { input } q _ (by rw [hr.again]; exact hy) (by rw [hr.again]; exact hcomma)]
      exact .fails (Int.le_of_eq (congrArg (fun c => (input.get c).place.position) hr.again)) fun hn =>
        ⟨_, p, rfl, (hsettled hn).missed hr.memo hr.depth⟩

section

variable {s p q : Progress} {n u u' : Nat} {l l' : Layers}
variable (hin : input.IsOrdered) (hb : KeepsAbreast input b) (hr : Rereading input δ δ m₁ s p q) (hs : Fresh input s)
  (hsettled : ¬e₁.IsRefusal input → Settled input e₁ m₁) (hn : n ≤ b)
  (hfirst : InFailed input s.cursor e₁ m₁ ((content n .operand).run { input } s.deeper))
  (hl' : l'.Within b) (hu' : u' ≤ b)
include hin hb hr hs hsettled hn hfirst hl' hu'

/-- The first reading is of a list, the second of an element of what is in front. -/
theorem verdict_index (hk : (input.get s.cursor).kind = Symbol.lbrack) : Verdict input δ e₁
    ((l.behind (rounds >>= links (rulesOn u))).run ⟨input, false, none⟩ p)
    ((l'.behind (rounds >>= links (rulesOn u'))).run { input } q) := by
  have hne : (input.get s.cursor).kind ≠ .eof := by
    rw [hk]
    exact TokenKind.noConfusion
  have hsize := Input.lt_size_of_ne hin.last hs.cursor hne
  obtain ⟨bound, hp⟩ := @run_behind_index ⟨input, false, none⟩ p (rulesOn u) l (by rw [hr.cursor]; exact hk)
  obtain ⟨bound', hq⟩ := @run_behind_index { input } q (rulesOn u') l' (by rw [hr.again]; exact hk)
  rw [hp, hq, hr.cursor, hr.again]
  have hr := hr.deeper.moved (Nat.le_succ s.cursor) hsize
  obtain ⟨q', ho⟩ | ⟨l'', hl'', u'', hu'', v, hv, ho⟩ := @run_operand_list { input } s.deeper n hk
  · rw [ho] at hfirst
    cases hfirst
  rw [ho] at hfirst
  by_cases hclose : (input.get (s.cursor + 1)).kind = Symbol.rbrack
  · -- the list is empty, and no expression starts with its closing bracket
    rw [run_bind, @run_delimited_nil { input } s.deeper _ rfl _ hne hclose] at hfirst
    dsimp only at hfirst
    have hfinds := (continues_behind_pure input l'' u'' (s.cursor + 2) (· (.array (locOf (input.get s.cursor)) []))).finds
    refine .of_failsAt hin (c := s.cursor + 1) (r := .expression) rfl (by rw [hclose]; decide) rfl rfl hsize hr.depth ?_ ?_
      (fun h => hr.memo ▸ hsettled h) _ _ _ _
    · intro a f hf hcursor
      change q.memo.find? a = some f at hf
      rw [show q.memo = m₁ from hr.memo, hfirst.find?_eq (addsOn_behind_pure hl'' hu'' _) hs.memo.goesOn hfinds (by omega)
        (by change a.cursor < s.cursor + 2; omega)] at hf
      exact absurd (hs.before a f hf) (by omega)
    · exact Int.le_trans (Input.position_le hin.order (Nat.le_succ _)) (hfirst.position_le hin hs.memo.goesOn hfinds)
  · obtain ⟨bound'', hlist⟩ := @run_delimited { input } s.deeper _ rfl (rulesOn v .expression) hne hclose
    rw [run_bind_congr hlist, Parse.bind_assoc] at hfirst
    have hvb := Nat.le_trans hv hn
    have hE := readings_rulesOn (b := b) u (r := .expression) rfl hu' hvb
    refine hr.bind hin hb hE hsettled (fun element => (AddsOn.listBehind hv _ _ _).bind fun items =>
      addsOn_behind_pure hl'' hu'' _) hfirst
      fun element s' p' q' _ hr' hfirst _ => ?_
    by_cases hy : (input.get s'.cursor).kind = Symbol.rbrack
    · rw [@run_expect_symbol _ ⟨input, false, none⟩ p' _ (by rw [hr'.cursor]; exact hy),
        @run_expect_symbol _ { input } q' _ (by rw [hr'.again]; exact hy), hr'.cursor, hr'.again]
      rw [run_bind, @run_listBehind_close { input } s' _ hy (by decide)] at hfirst
      have hend := Input.lt_size_of_ne hin.last hr'.abreast.cursor (by rw [hy]; exact TokenKind.noConfusion)
      exact Verdict.map _ (hfirst.of_map.verdict hin hb
        (readings_behind hl' (hl''.mono hn) (readings_links hu' (Nat.le_trans hu'' hn) bound bound'))
        (hr'.moved (Nat.le_succ _) hend) hsettled)
    · rw [@run_expect_miss _ ⟨input, false, none⟩ p' _ (by rw [hr'.cursor]; exact hy),
        @run_expect_miss _ { input } q' _ (by rw [hr'.again]; exact hy)]
      refine .fails ?_ fun hn => ⟨_, p', rfl, (hsettled hn).missed hr'.memo hr'.depth⟩
      change (input.get q'.cursor).place.position ≤ _
      rw [hr'.again]
      refine hfirst.position_le hin hr'.abreast.memo.goesOn ?_
      exact (goesOn_listBehind (fun r => goesOn_parse v r.surcharge r) Symbol.rbrack .expression bound'' element
        (Nat.le_refl _)).bind fun items d hd => ((continues_behind_pure input l'' u'' d _).finds).mono
          (fun _ hf => hf.mono fun _ he => he.mono hd) fun _ _ he => Nat.le_trans hd he

/-- The first reading is of a group, the second of a call of what is in front. -/
theorem verdict_call (hk : (input.get s.cursor).kind = Symbol.lparen) : Verdict input δ e₁
    ((l.behind (rounds >>= links (rulesOn u))).run ⟨input, false, none⟩ p)
    ((l'.behind (rounds >>= links (rulesOn u'))).run { input } q) := by
  have hne : (input.get s.cursor).kind ≠ .eof := by
    rw [hk]
    exact TokenKind.noConfusion
  have hsize := Input.lt_size_of_ne hin.last hs.cursor hne
  have hkp : (input.get p.cursor).kind = Symbol.lparen := hr.cursor ▸ hk
  have hkq : (input.get q.cursor).kind = Symbol.lparen := hr.again ▸ hk
  obtain ⟨bound, hp⟩ := @run_behind_call ⟨input, false, none⟩ p (rulesOn u) l hkp
  obtain ⟨bound', hq⟩ := @run_behind_call { input } q (rulesOn u') l' hkq
  rw [hp, hq]
  obtain ⟨q', ho⟩ | ⟨l'', hl'', u'', hu'', v, hv, ho⟩ := @run_operand_group { input } s.deeper n hk
  · rw [ho] at hfirst
    cases hfirst
  rw [ho] at hfirst
  by_cases hclose : (input.get (s.cursor + 1)).kind = Symbol.rparen
  · -- no expression starts with the parenthesis that closes, but there may be a call without arguments
    rw [run_bind, run_bind (delimited _ _),
      @run_delimited_nil ⟨input, false, none⟩ p _ rfl _ (hr.cursor ▸ hne) (hr.cursor ▸ hclose),
      @run_delimited_nil { input } q _ rfl _ (hr.again ▸ hne) (hr.again ▸ hclose), hr.cursor, hr.again]
    obtain ⟨q', hE⟩ | ⟨e, s', hE, he, -, -, hidles⟩ := @failsAt_remembered { input } (s.cursor + 1) .expression rfl
      (by change (input.get _).kind ∉ _; rw [hclose]; decide) v { s.deeper with cursor := s.cursor + 1 } rfl
      (fun _ a f hf hcursor => absurd (hs.before a f hf) (by omega))
    · obtain ⟨_, h, -⟩ | ⟨_, _, h, -⟩ := hfirst.of_bind <;> cases hE.symm.trans h
    obtain ⟨s'', h, hgrows⟩ | ⟨_, _, h, -⟩ := hfirst.of_bind <;> cases hE.symm.trans h
    have hn : ¬e₁.IsRefusal input := by
      rintro ⟨c, hc, rfl⟩
      rw [hin.get_eq_of_place (show (input.get c).place = (input.get (s.cursor + 1)).place from he)] at hc
      exact hc hclose
    have hlt := hin.position_lt hsize (by rw [hclose]; exact TokenKind.noConfusion) (Nat.lt_succ_self (s.cursor + 1))
    have hsize' := Input.lt_size_of_ne hin.last hsize (by rw [hclose]; exact TokenKind.noConfusion)
    refine Verdict.map _ (.of_alike hin hb (fun k hv => Layers.tracks_behind hv hl'
      (tracks_links hv.fair hv.mayExhaust (hv.rule _ _ _ hu' rfl) bound bound')) rfl ?_ hn ?_ ?_ ?_)
    · refine ⟨hr.depth, hr.abreast.deepest, hsize', hr.memo ▸ (hsettled hn).memo, fun a f hf => .inl ?_⟩
      change q.memo.find? a = some f at hf
      rw [hr.memo] at hf
      change a.cursor < s.cursor + 2
      rcases hgrows.news a f hf with hf | hx
      · rcases hidles a f hf with hf | ⟨hc, -⟩
        · exact Nat.lt_of_lt_of_le (hs.before a f hf) (by omega)
        · omega
      · omega
    · exact l'.continues_behind (continues_links (fun r => goesOn_parse u' r.surcharge r) bound')
    · rw [he]
      exact Int.lt_of_lt_of_le hlt (Input.position_le hin.order (Nat.le_succ _))
    · rw [he]
      exact Int.le_of_lt hlt
  · obtain ⟨boundp, hlistp⟩ := @run_delimited ⟨input, false, none⟩ p _ rfl (rulesOn u .expression) (hr.cursor ▸ hne)
      (hr.cursor ▸ hclose)
    obtain ⟨boundq, hlistq⟩ := @run_delimited { input } q _ rfl (rulesOn u' .expression) (hr.again ▸ hne)
      (hr.again ▸ hclose)
    rw [run_bind_congr hlistp, run_bind_congr hlistq, Parse.bind_assoc, Parse.bind_assoc, hr.cursor, hr.again]
    have hr := hr.deeper.moved (Nat.le_succ s.cursor) hsize
    have hvb := Nat.le_trans hv hn
    refine hr.bind hin hb (readings_rulesOn u rfl hu' hvb) hsettled (fun inner => (AddsOn.expect _ _).bind fun _ =>
      addsOn_behind_pure hl'' hu'' _) hfirst fun inner s' p' q' hfound hr' hfirst _ => ?_
    have hlt : s.cursor < s'.cursor := by
      exact le_of_found (s := { s.deeper with cursor := s.cursor + 1 }) hs.memo.goesOn hfound
    exact verdict_callEnd hin hb hr' hlt hsettled hl' hu' (hl''.mono hn) (Nat.le_trans hu'' hn) hfirst

omit hu' in
/-- The first reading is of an operand with a sign, the second of a difference from what is in front. -/
theorem verdict_minus (hk : (input.get s.cursor).kind = Symbol.sub) : Verdict input δ e₁
    ((l.behind (rounds >>= links (rulesOn u))).run ⟨input, false, none⟩ p)
    ((l'.behind (rounds >>= links (rulesOn u'))).run { input } q) := by
  have hne : (input.get s.cursor).kind ≠ .eof := by
    rw [hk]
    exact TokenKind.noConfusion
  have hsize := Input.lt_size_of_ne hin.last hs.cursor hne
  obtain ⟨bound, hp⟩ := @run_behind_minus ⟨input, false, none⟩ p u l (hr.cursor ▸ hk)
  obtain ⟨bound', hq⟩ := @run_behind_minus { input } q u' l' (hr.again ▸ hk)
  rw [hp, hq, hr.cursor, hr.again]
  obtain ⟨q', ho⟩ | ⟨l'', hl'', ho⟩ := @run_operand_signed { input } s.deeper n hk
  · rw [ho] at hfirst
    cases hfirst
  rw [ho] at hfirst
  by_cases hsign : (input.get (s.cursor + 1)).kind = Symbol.sub
  · -- there is a second sign, with which no chain starts, but a product does
    have hfails := @failsAt_postfixChain { input } (s.cursor + 1) (.inr hsign) l''.unary
      { s.deeper with cursor := s.cursor + 1 } rfl (fun _ a f hf hcursor => absurd (hs.before a f hf) (by omega))
    have hchained := hfirst.of_map
    rw [Layers.chained] at hchained
    obtain ⟨q', hE⟩ | ⟨e, s', hE, he, hdeep, -, hidles⟩ := hfails
    · obtain ⟨_, h, -⟩ | ⟨_, _, h, -⟩ := hchained.of_bind <;> cases hE.symm.trans h
    obtain ⟨s'', h, hgrows⟩ | ⟨_, _, h, -⟩ := hchained.of_bind <;> cases hE.symm.trans h
    have hn := SyntaxError.not_isRefusal hdeep input
    have hlt := hin.position_lt hsize (by rw [hsign]; exact TokenKind.noConfusion) (Nat.lt_succ_self (s.cursor + 1))
    refine .of_alike hin hb (fun k hv => ?_) rfl ?_ hn ?_ ?_ ?_
    · exact (hv.rule _ _ _ hl'.additive rfl).bind fun _ => (Layers.tracks_termsBehind hv hl'
        (tracks_operatorsBehind hv.fair hv.mayExhaust (hv.rule _ _ _ hl'.additive rfl) bound bound')).bind
          fun _ => Tracks.pure _
    · refine ⟨hr.depth, hr.abreast.deepest, hsize, hr.memo ▸ (hsettled hn).memo, fun a f hf => ?_⟩
      change q.memo.find? a = some f at hf
      rw [hr.memo] at hf
      rcases hgrows.news a f hf with hf | hx
      · rcases hidles a f hf with hf | h
        · exact .inl (Nat.lt_succ_of_lt (hs.before a f hf))
        · exact .inr h
      · exact .inl (Nat.lt_succ_of_le (Nat.le_of_eq hx))
    · exact (continues_multiplicative (by rw [hsign]; decide) _).bind fun _ _ =>
        (l'.continues_termsBehind fun _ => continues_operatorsBehind
          (fun r => goesOn_parse l'.additive r.surcharge r) (by decide) .multiplicative bound').bind
            fun _ _ => continues_pure _
    · rw [he]
      exact hlt
    · exact Int.le_of_eq (by rw [he])
  · have hr := hr.deeper.moved (Nat.le_succ s.cursor) hsize
    obtain ⟨_, h⟩ | ⟨lp, -, hp⟩ := @run_difference ⟨input, false, none⟩ { p with cursor := s.cursor + 1 } _ l hsign
      (operatorsBehind additives (rulesOn l.additive .multiplicative) bound)
      fun right terms node => terms (.binary node.loc (input.get s.cursor).value node right)
    · rw [h]
      exact .exhausts
    obtain ⟨_, h⟩ | ⟨lq, hlq, hq⟩ := @run_difference { input } { q with cursor := s.cursor + 1 } _ l' hsign
      (operatorsBehind additives (rulesOn l'.additive .multiplicative) bound')
      fun right terms node => terms (.binary node.loc (input.get s.cursor).value node right)
    · rw [h]
      exact .exhausted
    rw [hp, hq]
    have hlq := hlq b hl'
    have hl'' := hl''.mono hn
    refine Verdict.map _ (hfirst.of_map.verdict hin hb ⟨fun k hv => ?_, fun k hv => ?_, fun k hv => ?_, fun k hv => ?_⟩
      hr hsettled)
    · exact Layers.tracks_chained hv hl'' (hv.rule _ _ _ hl''.unary rfl) (Tracks.rounds_right fun m =>
        tracks_operatorsBehind hv.fair hv.mayExhaust (hv.rule _ _ _ hl''.additive rfl) bound m)
    · exact Layers.tracks_chained hv hl'' (hv.rule _ _ _ hl''.unary rfl) (Tracks.rounds_right fun m =>
        tracks_operatorsBehind hv.fair hv.mayExhaust (hv.rule _ _ _ hl''.additive rfl) bound' m)
    · exact Layers.tracks_chained hv hlq (hv.rule _ _ _ hlq.unary rfl)
        (tracks_operatorsBehind hv.fair hv.mayExhaust (hv.rule _ _ _ hl'.additive rfl) bound' bound')
    · exact Layers.tracks_chained hv hl'' (hv.rule _ _ _ hl''.unary rfl) (Layers.tracks_summands hv hl'')

end

end Grammar

end MagSyntax
