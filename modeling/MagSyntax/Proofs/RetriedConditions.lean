import MagSyntax.Proofs.SecondReadings

/-! The condition of an `if` read once more, behind a first form that has failed. That form wants parentheses around the
condition, and what it has failed with stands behind them, within them or at the token where they are missing. -/

namespace MagSyntax

open Parse

namespace Grammar

variable {β : Type} {input : Input} {δ b : Nat} {e₁ : SyntaxError} {s s₁ p q : Progress}

/-- What the first form of an `if` reads behind its condition: a statement, or an expression with another branch. -/
inductive FirstBranch (b : Nat) : Rule → Parse β → Prop
  | statement (f : Node → β) : FirstBranch b .statement (rulesOn b .statement >>= fun node => pure (f node))
  | value (f : Node → Node → β) :
    FirstBranch b .expression (rulesOn b .expression >>= fun node => otherBranch (rulesOn b) (f node))

/-- A rule that cannot start with a token of which nothing is known, where it is not refused. -/
theorem fails_fresh {r : Rule} (hs : Fresh input s) (hd : s.depth < 256) (hr : r.isRemembered) (hr' : r.isNested)
    (hk : (input.get s.cursor).kind ∉ r.leads) (h : ∀ n, FailsAt { input } s.cursor False (body (rulesOn n) r)) :
    (∃ q, (rulesOn b r).run { input } s = .failed .exhausted q) ∨
      ∃ e q, (rulesOn b r).run { input } s = .failed (.mismatch e) q ∧ e.place = (input.get s.cursor).place ∧
        ¬e.IsTooDeep ∧ s.memo.IdlesTo input s.cursor q.memo := by
  obtain ho | ⟨n, -, ho⟩ := run_fresh input hr (hs.find? r) b
  · exact .inl ho
  rw [run_content_nested hr' hd] at ho
  obtain ⟨q, hq⟩ | ⟨e, q, hq, he, hdeep, -, hidles⟩ := h n s.deeper rfl
    fun _ a f hf hc => absurd (hs.before a f hf) (Nat.not_lt_of_le (Nat.le_of_eq hc.symm))
  · rw [hq] at ho
    exact .inl ⟨_, ho⟩
  rw [hq] at ho
  refine .inr ⟨e, _, ho, he, hdeep, fun a f hf => ?_⟩
  change (q.memo.store ⟨r, s.cursor⟩ (.error e)).find? a = some f at hf
  rw [Memo.find?_store] at hf
  split at hf
  next ha =>
    cases hf
    subst ha
    exact .inr ⟨rfl, hk, e, rfl, he, fun _ => hr'⟩
  next => exact hidles a f hf

namespace FirstBranch

variable {r : Rule} {rest : Parse β} (h : FirstBranch b r rest)
include h

theorem addsOn : AddsOn input rest := by
  cases h with
  | statement f => exact (addsOn_rulesOn b _).bind fun _ => .pure _
  | value f => exact (addsOn_rulesOn b _).bind fun _ => addsOn_otherBranch b _

theorem finds (c : Nat) : Finds { input } (Memo.GoesOn input) (Failure.Misses (input.IsFrom c)) rest c
    fun _ d => c ≤ d := by
  have hself (r : Rule) : GoesOn { input } (Memo.GoesOn input) r (rulesOn b r) := goesOn_parse _ _ r
  cases h with
  | statement f => exact (GoesOn.call hself .statement (Nat.le_refl c)).bind fun node d hd => finds_pure hd.le
  | value f =>
    refine (GoesOn.call hself .expression (Nat.le_refl c)).bind fun node d hd => ?_
    exact (finds_otherBranch b (f node) d).mono (fun _ hf => hf.mono fun _ he => he.mono hd.le)
      fun _ _ he => Nat.le_trans hd.le he

theorem inFailed (hin : input.IsOrdered) (hs : Fresh input s) (hd : s.depth < 256)
    (hk : (input.get s.cursor).kind ∈ Rule.twofold) (hrun : rest.run { input } s = .failed (.mismatch e₁) s₁) :
    ∃ n ≤ b, InFailed input s.cursor e₁ s₁.memo ((content n .operand).run { input } s.deeper) := by
  cases h with
  | value f => exact inFailed_expression hin hs hd hk hrun
  | statement f =>
    refine inFailed_statement (b := b) hin hs hd hk ?_
    rw [run_bind] at hrun
    generalize (rulesOn b .statement).run { input } s = o at hrun ⊢
    cases o with
    | ok => cases hrun
    | failed =>
      cases hrun
      rfl

theorem leads_openers {k : TokenKind} (hk : k ∈ r.leads) : k ∈ Rule.openers := by
  cases h with
  | statement f => exact hk
  | value f => exact List.mem_cons_of_mem _ (List.mem_cons_of_mem _ (List.mem_cons_of_mem _ hk))

/-- Where the branch cannot start with the token, the form fails at it. -/
theorem fails (hs : Fresh input s) (hd : s.depth < 256) (hk : (input.get s.cursor).kind ∉ r.leads)
    (hrun : rest.run { input } s = .failed (.mismatch e₁) s₁) :
    e₁.place = (input.get s.cursor).place ∧ ¬e₁.IsTooDeep ∧ s.memo.IdlesTo input s.cursor s₁.memo := by
  cases h with
  | statement f =>
    obtain ⟨_, ho⟩ | ⟨_, _, ho, he⟩ := fails_fresh (b := b) hs hd rfl rfl hk (failsAt_statementBody hk)
    all_goals rw [run_bind, ho] at hrun
    all_goals cases hrun
    exact he
  | value f =>
    obtain ⟨_, ho⟩ | ⟨_, _, ho, he⟩ := fails_fresh (b := b) hs hd rfl rfl hk (failsAt_expressionBody hk)
    all_goals rw [run_bind, ho] at hrun
    all_goals cases hrun
    exact he

/-- Where the branch starts with a brace it is a block, and the form has failed with it. -/
theorem block (hb : KeepsAbreast input b) (hs : Fresh input s) (hd : s.depth < 256)
    (hk : (input.get s.cursor).kind = Symbol.lbrace) (hlead : (input.get s.cursor).kind ∈ r.leads)
    (hrun : rest.run { input } s = .failed (.mismatch e₁) s₁) :
    s₁.memo.find? ⟨.block, s.cursor⟩ = some (.error e₁) ∧ ∀ (δ n : Nat) (p : Progress),
      Abreast input (δ + 1) p s.deeper → p.cursor = s.cursor → ¬e₁.IsRefusal input →
        MissesHere input (rulesOn n .block) p := by
  cases h with
  | value f => exact absurd (hk ▸ hlead) (by decide)
  | statement f =>
    rw [run_bind] at hrun
    obtain ⟨_, ho⟩ | ⟨n, hn, ho⟩ := run_fresh input (r := .statement) rfl (hs.find? .statement) b
    · rw [ho] at hrun
      cases hrun
    have hbody : (body (rulesOn n) .statement).run { input } s.deeper = (rulesOn n .block).run { input } s.deeper := by
      have hcurrent : current.run { input } s.deeper = .ok (input.get s.cursor) s.deeper := rfl
      rw [body, Grammar.statement, run_bind, hcurrent]
      dsimp only
      rw [hk]
    have hadds : AddsOn input (rulesOn n .block) := addsOn_rulesOn n .block
    have hlevel := hadds.level s.deeper
    rw [run_content_nested rfl hd, hbody] at ho
    rw [ho] at hrun
    obtain ⟨_, ho⟩ | ⟨n'', -, ho⟩ := run_fresh (s := s.deeper) input (r := .block) rfl (hs.deeper.find? .block) n
    · rw [ho] at hrun
      cases hrun
    rw [ho] at hrun hlevel
    rcases hcontent : (content n'' .block).run { input } s.deeper with ⟨v, q⟩ | ⟨e | _ | _, q⟩ <;>
      rw [hcontent] at ho hrun hlevel <;> cases hrun
    refine ⟨?_, fun δ n' p hpq hc hn' => ?_⟩
    · change ((q.memo.store ⟨.block, s.cursor⟩ _).store ⟨.statement, s.cursor⟩ _).find? ⟨.block, s.cursor⟩ = _
      rw [Memo.find?_store, if_neg (by simp), Memo.find?_store, if_pos rfl]
    · have hagree := (hb (δ + 1) n' n .block hn).agree p s.deeper hc hpq
      change (kept input (δ + 1)).Agree ((rulesOn n' .block).run ⟨input, false, none⟩ p)
        ((rulesOn n .block).run { input } s.deeper) at hagree
      rw [ho] at hagree
      rw [MissesHere]
      generalize (rulesOn n' .block).run ⟨input, false, none⟩ p = o at hagree ⊢
      cases hagree with
      | escaped h => exact h.elim
      | lost h => exact absurd h hn'
      | exhausts => exact .inl ⟨_, rfl⟩
      | mismatch hmiss =>
        refine .inr ⟨_, _, rfl, ?_⟩
        have h := hmiss.1
        have h' := hpq.depth
        change q.depth = s.deeper.depth at hlevel
        change _ + (δ + 1) = q.depth at h
        omega

end FirstBranch

section

variable (hin : input.IsOrdered) (hb : KeepsAbreast input b)
include hin hb

/-- What is behind the parentheses read as what goes on with them, where the first form has read a branch. -/
theorem verdict_behind {r : Rule} {rest : Parse β} (hrest : FirstBranch b r rest) (hs : Fresh input s)
    (hd : s.depth < 256) (hrun : rest.run { input } s = .failed (.mismatch e₁) s₁)
    (hr : Rereading input δ δ s₁.memo s p q) (hsettled : ¬e₁.IsRefusal input → Settled input e₁ s₁.memo)
    {u u' : Nat} {l l' : Layers} (hl' : l'.Within b) (hu' : u' ≤ b) : Verdict input δ e₁
      ((l.behind (rounds >>= links (rulesOn u))).run ⟨input, false, none⟩ p)
      ((l'.behind (rounds >>= links (rulesOn u'))).run { input } q) := by
  by_cases htwo : (input.get s.cursor).kind ∈ Rule.twofold
  · obtain ⟨n, hn, hfirst⟩ := hrest.inFailed hin hs hd htwo hrun
    simp only [Rule.twofold, List.mem_cons, List.not_mem_nil, or_false] at htwo
    rcases htwo with hk | hk | hk
    · exact verdict_index hin hb hr hs hsettled hn hfirst hl' hu' hk
    · exact verdict_call hin hb hr hs hsettled hn hfirst hl' hu' hk
    · exact verdict_minus hin hb hr hs hsettled hn hfirst hl' hk
  have hfrom := fails_from hin hrest.addsOn hs.memo.goesOn (Nat.le_refl _) (hrest.finds _) hrun
  have hle : (input.get q.cursor).place.position ≤ e₁.place.position := by
    rw [hr.again]
    exact hfrom.1
  have hstops (hk : (input.get s.cursor).kind ∉ Rule.operand.continuers) :
      (l.behind (rounds >>= links (rulesOn u))).run ⟨input, false, none⟩ p = .ok id p ∧
        (l'.behind (rounds >>= links (rulesOn u'))).run { input } q = .ok id q :=
    ⟨@run_behind_stop ⟨input, false, none⟩ p _ l (hr.cursor ▸ hk), @run_behind_stop { input } q _ l' (hr.again ▸ hk)⟩
  by_cases hlead : (input.get s.cursor).kind ∈ r.leads
  · have hopeners : ∀ k ∈ Rule.openers, k ∉ Rule.twofold → k ∉ Rule.operand.continuers ∧ k ≠ Keyword.thenWord := by decide
    obtain ⟨hstop, hthen⟩ := hopeners _ (hrest.leads_openers hlead) htwo
    obtain ⟨hp, hq⟩ := hstops hstop
    rw [hp, hq]
    by_cases hbrace : (input.get s.cursor).kind = Symbol.lbrace
    · obtain ⟨hf, hmisses⟩ := hrest.block hb hs hd hbrace hlead hrun
      refine .blocked hle (hr.again ▸ hbrace) (by rw [hr.memo, hr.again]; exact hf) fun hn =>
        ⟨id, p, rfl, hr.cursor.trans hr.again.symm, (hsettled hn).missed hr.memo hr.depth, fun n p' hc hdp hdeep => ?_⟩
      refine hmisses δ n p' ⟨?_, hdeep ▸ hr.abreast.deepest, hs.cursor, hs.memo, fun a f hf => .inl (hs.before a f hf)⟩
        (hc.trans hr.cursor) hn
      have h : p.depth + δ = s.depth := hr.abreast.depth
      change p'.depth + (δ + 1) = s.depth + 1
      omega
    · exact .stops hle (hr.again ▸ hthen) (hr.again ▸ hbrace) fun hn =>
        ⟨id, p, rfl, hr.cursor.trans hr.again.symm, (hsettled hn).missed hr.memo hr.depth⟩
  · obtain ⟨he, hdeep, hidles⟩ := hrest.fails hs hd hlead hrun
    have hn := SyntaxError.not_isRefusal hdeep input
    by_cases hend : (input.get s.cursor).kind = .eof
    · obtain ⟨hp, hq⟩ := hstops (by rw [hend]; decide)
      rw [hp, hq]
      refine .stops hle ?_ ?_ fun hn => ⟨id, p, rfl, hr.cursor.trans hr.again.symm, (hsettled hn).missed hr.memo hr.depth⟩
      all_goals rw [hr.again, hend]; exact TokenKind.noConfusion
    · have hlt := hin.position_lt hs.cursor hend (Nat.lt_succ_self s.cursor)
      refine .of_alike hin hb (fun k hv => Layers.tracks_behind hv hl' (Tracks.rounds_left fun n =>
        Tracks.rounds_right fun n' => tracks_links hv.fair hv.mayExhaust (hv.rule _ _ _ hu' rfl) n n'))
        (hr.cursor.trans hr.again.symm) ?_ hn (l'.continues_behind (continues_rounds_links u' _)) ?_ ?_
      · refine ⟨hr.depth, hr.abreast.deepest, hr.again ▸ hs.cursor, hr.memo ▸ (hsettled hn).memo, ?_⟩
        rw [hr.memo, hr.again]
        exact fun a f hf => (hidles a f hf).imp_left (hs.before a f)
      · rw [he, hr.again]
        exact hlt
      · exact Int.le_of_eq (by rw [he, hr.again])

omit hb in
/-- What is found of an operand of which nothing is known stands in the memo as well. -/
theorem verdict_operand (hc : p.cursor = q.cursor) (hq : q.cursor ≤ input.before.size)
    (hnone : q.memo.find? ⟨.operand, q.cursor⟩ = none) (hsettled : ¬e₁.IsRefusal input → Settled input e₁ q.memo)
    (hle : (input.get q.cursor).place.position ≤ e₁.place.position)
    (h : ∀ m, ∀ m' ≤ b, Verdict input δ e₁ ((content m .operand).run ⟨input, false, none⟩ p)
      ((content m' .operand).run { input } q)) (n : Nat) {n' : Nat} (hn' : n' ≤ b) :
    Verdict input δ e₁ ((rulesOn n .operand).run ⟨input, false, none⟩ p) ((rulesOn n' .operand).run { input } q) := by
  have hruns (hn : ¬e₁.IsRefusal input) := runsOrderly hin hq (hsettled hn).memo n' .operand
  have hr : Rule.operand.isRemembered := rfl
  obtain ho | ⟨m, -, ho⟩ := rulesOn_content n .operand
  · rw [ho]
    exact .exhausts
  obtain ho' | ⟨m', hm', ho'⟩ := rulesOn_content n' .operand
  · rw [ho']
    exact .exhausted
  rw [ho', if_pos hr, run_remembered_miss fun _ => hnone] at hruns
  rw [ho, if_pos hr, run_remembered_miss fun h => absurd h Bool.false_ne_true, hc, ho', if_pos hr,
    run_remembered_miss fun _ => hnone]
  have h := h m m' (Nat.le_trans hm' hn')
  generalize (content m .operand).run ⟨input, false, none⟩ p = o at h ⊢
  generalize (content m' .operand).run { input } q = o' at h hruns ⊢
  cases h with
  | exhausts => exact .exhausts
  | exhausted => exact .exhausted
  | fails hle' h =>
    refine .fails hle' fun hn => ?_
    obtain ⟨e', p', rfl, hmiss⟩ := h hn
    exact ⟨e', _, rfl, hmiss.1, (hruns hn).memo, hmiss.2.2.store hle _⟩
  | stops hle' hthen hbrace h =>
    refine .stops hle' hthen hbrace fun hn => ?_
    obtain ⟨v, p', rfl, hc', hmiss⟩ := h hn
    exact ⟨v, _, rfl, hc', hmiss.1, (hruns hn).memo, hmiss.2.2.store hle _⟩
  | blocked hle' hbrace hf h =>
    refine .blocked hle' hbrace ?_ fun hn => ?_
    · change (Memo.store _ _ _).find? _ = _
      rw [Memo.find?_store, if_neg fun ha => absurd (Attempt.mk.inj ha).1 (by decide)]
      exact hf
    · obtain ⟨v, p', rfl, hc', hmiss, hblock⟩ := h hn
      exact ⟨v, _, rfl, hc', ⟨hmiss.1, (hruns hn).memo, hmiss.2.2.store hle _⟩, hblock⟩
  | passes hn h herror hfound =>
    refine .passes hn (h.stored _ (fun _ _ h => h) (fun v p' q' _ ho' _ h => ?_) fun e e' p' q' _ ho' h => ?_)
      (fun e q' he => ?_) fun v q' hv => ?_
    · have hruns := hruns hn
      rw [ho'] at hruns
      have hlt := hruns.found v { q' with memo := q'.memo.store ⟨.operand, q.cursor⟩ (.node v q'.cursor) } rfl (by decide)
      exact ⟨h.depth, h.deepest, h.cursor, hruns.memo, h.fresh.store hlt _⟩
    · have hruns := hruns hn
      rw [ho'] at hruns
      exact ⟨h.1, hruns.memo, h.2.2.store ((hruns.error e' _ rfl).position_le hin.order) _⟩
    · rcases o' with _ | ⟨_ | _ | _, q''⟩ <;> cases he
      exact herror e q'' rfl
    · rcases o' with ⟨_, q''⟩ | ⟨_ | _ | _, _⟩ <;> cases hv
      exact hfound v q'' rfl

end

/-- What is read of a condition and of the branch behind it from the token behind the first parenthesis on. -/
theorem finds_firstBranch {r : Rule} {rest : Node → Parse β} (hrest : ∀ test, FirstBranch b r (rest test)) (c : Nat) :
    Finds { input } (Memo.GoesOn input) (Failure.Misses (input.IsFrom c))
      (rulesOn b .expression >>= fun test => expect Symbol.rparen .conditionEnd >>= fun _ => rest test) c
        fun _ d => c ≤ d := by
  have hself (r : Rule) : GoesOn { input } (Memo.GoesOn input) r (rulesOn b r) := goesOn_parse _ _ r
  refine (GoesOn.call hself .expression (Nat.le_refl c)).bind fun test d hd => ?_
  refine finds_expect_bind_of (fun _ => ?_) fun _ => Input.isFrom_ofToken hd.le _
  have hafter := Nat.le_trans hd.le (input.le_after d)
  exact ((hrest test).finds _).mono (fun _ hf => hf.mono fun _ he => he.mono hafter) fun _ _ he => Nat.le_trans hafter he

/-- A rule that is nested and found was not refused. -/
theorem depth_lt_of_found {r : Rule} {v : Node} (hr : r.isRemembered) (hr' : r.isNested)
    (hs : s.memo.find? ⟨r, s.cursor⟩ = none) (h : (rulesOn b r).run { input } s = .ok v q) : q.depth < 256 := by
  have hadds : AddsOn input (rulesOn b r) := addsOn_rulesOn b r
  have hlevel := hadds.level s
  obtain ⟨_, ho⟩ | ⟨n, -, ho⟩ := run_fresh input hr hs b
  · cases ho.symm.trans h
  by_cases hd : s.depth < 256
  · rw [h] at hlevel
    change q.depth = s.depth at hlevel
    omega
  · rw [content, counted, if_pos hr', run_nested, if_pos (by simpa using hd)] at ho
    cases ho.symm.trans h

section

variable (hin : input.IsOrdered) (hb : KeepsAbreast input b)
include hin hb

/-- The end of the parentheses and what goes on with them. -/
theorem verdict_groupEnd {r : Rule} {rest : Parse β} (hrest : FirstBranch b r rest) (hd : s.depth < 256)
    (hrun : (expect Symbol.rparen .conditionEnd >>= fun _ => rest).run { input } s = .failed (.mismatch e₁) s₁)
    (hr : Rereading input δ δ s₁.memo s p q) (hsettled : ¬e₁.IsRefusal input → Settled input e₁ s₁.memo)
    {u u' : Nat} {l l' : Layers} (hl' : l'.Within b) (hu' : u' ≤ b) (f : (Node → Node) → Node) : Verdict input δ e₁
      ((expect Symbol.rparen .groupEnd >>= fun _ => l.behind (rounds >>= links (rulesOn u)) >>= fun more =>
        pure (f more)).run ⟨input, false, none⟩ p)
      ((expect Symbol.rparen .groupEnd >>= fun _ => l'.behind (rounds >>= links (rulesOn u')) >>= fun more =>
        pure (f more)).run { input } q) := by
  by_cases hy : (input.get s.cursor).kind = Symbol.rparen
  · have hend := Input.lt_size_of_ne hin.last hr.abreast.cursor (by rw [hy]; exact TokenKind.noConfusion)
    rw [@run_expect_symbol _ { input } s _ hy] at hrun
    rw [@run_expect_symbol _ ⟨input, false, none⟩ p _ (by rw [hr.cursor]; exact hy),
      @run_expect_symbol _ { input } q _ (by rw [hr.again]; exact hy), hr.cursor, hr.again]
    have hfresh : Fresh input { s with cursor := s.cursor + 1 } :=
      ⟨hend, hr.abreast.memo, fun a f hf => Nat.lt_succ_of_le (hr.abreast.fresh.le hf)⟩
    exact Verdict.map _ (verdict_behind hin hb hrest hfresh hd hrun (hr.moved (Nat.le_succ _) hend) hsettled hl' hu')
  · rw [@run_expect_miss _ { input } s _ hy] at hrun
    cases hrun
    rw [@run_expect_miss _ ⟨input, false, none⟩ p _ (by rw [hr.cursor]; exact hy),
      @run_expect_miss _ { input } q _ (by rw [hr.again]; exact hy)]
    exact .fails (Int.le_of_eq (congrArg (fun c => (input.get c).place.position) hr.again)) fun hn =>
      ⟨_, p, rfl, (hsettled hn).missed hr.memo hr.depth⟩

section

variable {r : Rule} {rest : Node → Parse β} (hrest : ∀ test, FirstBranch b r (rest test))
  (hpq : Abreast input δ p s) (hc : p.cursor = s.cursor)
  (hrun : (condition (rulesOn b) >>= rest).run { input } s = .failed (.mismatch e₁) s₁)
  (hsettled : ¬e₁.IsRefusal input → Settled input e₁ s₁.memo) (hq : q.cursor = s.cursor) (hd : q.depth = s.depth)
  (hm : q.memo = s₁.memo) (n : Nat)
include hrest hpq hc hrun hsettled hq hd hm

/-- A condition in parentheses, read once more as an operand that starts with them. -/
theorem verdict_condition_group (hpar : (input.get s.cursor).kind = Symbol.lparen) :
    Verdict input δ e₁ ((rulesOn n .operand).run ⟨input, false, none⟩ p) ((rulesOn b .operand).run { input } q) := by
  have hr : Rereading input δ δ s₁.memo s p q := ⟨hpq, hc, hq, hpq.depth.trans hd.symm, hm⟩
  have hsize := Input.lt_size_of_ne hin.last hpq.cursor (by rw [hpar]; exact TokenKind.noConfusion)
  rw [condition, Parse.bind_assoc, run_expect_symbol hpar] at hrun
  simp only [Parse.bind_assoc, Parse.pure_bind] at hrun
  have hadds (test : Node) : AddsOn input (expect Symbol.rparen .conditionEnd >>= fun _ => rest test) :=
    (AddsOn.expect _ _).bind fun _ => (hrest test).addsOn
  have hfrom := fails_from (p := { s with cursor := s.cursor + 1 }) hin ((addsOn_rulesOn b .expression).bind hadds)
    hpq.memo.goesOn (Nat.le_refl _) (finds_firstBranch hrest _) hrun
  refine verdict_operand hin (hc.trans hq.symm) (hq ▸ hpq.cursor) ?_ (hm ▸ hsettled) ?_ (fun m m' hm' => ?_) n
    (Nat.le_refl b)
  · rw [hm, hq, hfrom.2.find?_eq (Nat.not_succ_le_self _)]
    exact hpq.fresh.find?_operand (by rw [hpar]; decide)
  · rw [hq]
    exact Int.le_trans (Input.position_le hin.order (Nat.le_succ _)) hfrom.1
  obtain ⟨p', ho⟩ | ⟨l, -, u, -, v, -, ho⟩ := @run_operand_group ⟨input, false, none⟩ p m (hc ▸ hpar)
  · rw [ho]
    exact .exhausts
  obtain ⟨q', ho'⟩ | ⟨l', hl', u', hu', v', hv', ho'⟩ := @run_operand_group { input } q m' (hq ▸ hpar)
  · rw [ho']
    exact .exhausted
  rw [ho, ho', hc, hq]
  have hr := hr.moved (Nat.le_succ s.cursor) hsize
  refine hr.bind (x := s.cursor) hin hb (readings_rulesOn v rfl (Nat.le_trans hv' hm') (Nat.le_refl b)) hsettled hadds ?_
    fun test s' p' q' hfound hr' _ heq => ?_
  · rw [hrun]
    exact .failed (.refl _ _)
  rw [hrun] at heq
  have hnone : s.memo.find? ⟨.expression, s.cursor + 1⟩ = none := by
    cases hf : s.memo.find? ⟨.expression, s.cursor + 1⟩ with
    | none => rfl
    | some f => exact absurd (hpq.fresh.le hf) (Nat.not_succ_le_self _)
  have hdepth := depth_lt_of_found (s := { s with cursor := s.cursor + 1 }) (r := .expression) rfl rfl hnone hfound
  exact verdict_groupEnd hin hb (hrest test) hdepth heq.symm hr' hsettled (hl'.mono hm') (Nat.le_trans hu' hm') _

omit hrest in
/-- A condition without parentheses, of which the first form has read nothing. -/
theorem verdict_condition_bare (hpar : (input.get s.cursor).kind ≠ Symbol.lparen) :
    Verdict input δ e₁ ((rulesOn n .operand).run ⟨input, false, none⟩ p) ((rulesOn b .operand).run { input } q) := by
  have hdepth := hpq.depth.trans hd.symm
  rw [condition, Parse.bind_assoc, run_expect_miss hpar] at hrun
  cases hrun
  have hdeep := SyntaxError.not_isTooDeep (show Complaint.conditionStart ≠ .tooDeep by decide) (input.get s.cursor)
  have hn := SyntaxError.not_isRefusal hdeep input
  by_cases hk : (input.get s.cursor).kind ∈ Rule.starters
  · refine verdict_operand hin (hc.trans hq.symm) (hq ▸ hpq.cursor) ?_ (hm ▸ hsettled) ?_ (fun m m' hm' => ?_) n
      (Nat.le_refl b)
    · rw [hm, hq]
      exact hpq.fresh.find?_operand hk
    · exact Int.le_of_eq (by rw [hq]; rfl)
    refine .of_alike hin hb (fun k hv => hv.rule m m' .comparison hm' rfl) (hc.trans hq.symm) ?_ hn ?_ ?_ ?_
    · exact ⟨hdepth, hpq.deepest, hq ▸ hpq.cursor, hm ▸ hpq.memo, by rw [hm, hq]; exact hpq.fresh⟩
    · obtain h | ⟨l, -, h⟩ := operand_parts m'
      · rw [h]
        exact finds_exhausted trivial
      · rw [h]
        exact l.continues_operand (by rw [hq]; exact hk)
    · rw [hq]
      exact hin.position_lt hpq.cursor (fun he => absurd (he ▸ hk) (by decide)) (Nat.lt_succ_self _)
    · exact Int.le_of_eq (by rw [hq]; rfl)
  · have hfails := Verdict.of_failsAt hin (r := .operand) rfl hk hc hq hpq.cursor hdepth
      (by rw [hm]; exact hpq.fresh.isIdleAt) (Int.le_refl _) (hm ▸ hsettled) n b pure pure
    rwa [Parse.bind_pure, Parse.bind_pure] at hfails

/-- A condition is read once more where the first form of an `if` has failed. -/
theorem verdict_condition :
    Verdict input δ e₁ ((rulesOn n .operand).run ⟨input, false, none⟩ p) ((rulesOn b .operand).run { input } q) := by
  by_cases hpar : (input.get s.cursor).kind = Symbol.lparen
  · exact verdict_condition_group hin hb hrest hpq hc hrun hsettled hq hd hm n hpar
  · exact verdict_condition_bare hin hb hpq hc hrun hsettled hq hd hm n hpar

end

end

end Grammar

end MagSyntax
