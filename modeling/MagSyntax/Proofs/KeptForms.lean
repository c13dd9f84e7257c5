import MagSyntax.Proofs.RetriedConditions

/-! The forms of an `if` tried one after the other, by a parse without a memo and without a bound beside one with both.
What a form has left in the memo before it failed does not let the next one get past it, unless that one comes to what it
comes to without a memo. -/

namespace MagSyntax

open Parse

namespace Parse

variable {α : Type}

/-- What an alternative comes to behind which there is no other. -/
def Outcome.atLast (start deepest : Nat) (furthest : SyntaxError) : Outcome α → Outcome α
  | .failed (.mismatch e) q => .failed (.mismatch (further furthest e)) { q with cursor := start, deepest := deepest }
  | outcome => outcome

theorem run_attemptAfter_last (start : Nat) (furthest : SyntaxError) (last : Parse α) (setup : Setup) (p : Progress) :
    (attemptAfter start furthest [last]).run setup p = (last.run setup p).atLast start p.deepest furthest := by
  simp only [attemptAfter]
  generalize last.run setup p = o
  rcases o with _ | ⟨_ | _ | _, _⟩ <;> rfl

section

variable {start : Nat} {furthest : SyntaxError} {first : Parse α} {others : List (Parse α)} {setup : Setup}
  {p q : Progress}

theorem run_attemptAfter_miss {e : SyntaxError} (h : first.run setup p = .failed (.mismatch e) q) :
    (attemptAfter start furthest (first :: others)).run setup p =
      (attemptAfter start (further furthest e) others).run setup { q with cursor := start, deepest := p.deepest } := by
  simp only [attemptAfter, h]

theorem run_attemptAfter_exhausted (h : first.run setup p = .failed .exhausted q) :
    (attemptAfter start furthest (first :: others)).run setup p = .failed .exhausted q := by
  simp only [attemptAfter, h]

theorem run_attemptAfter_ok {v : α} (h : first.run setup p = .ok v q) :
    (attemptAfter start furthest (first :: others)).run setup p = .ok v q := by
  simp only [attemptAfter, h]

end

end Parse

namespace Grammar

variable {β : Type} {input : Input} {δ b : Nat} {e₁ f : SyntaxError} {s p q : Progress}

/-- A rule that is known at the token comes to that. -/
theorem run_known {r : Rule} (hr : r.isRemembered) {finding : Finding} (hf : q.memo.find? ⟨r, q.cursor⟩ = some finding)
    (b : Nat) : (rulesOn b r).run { input } q = .failed .exhausted q ∨
      (rulesOn b r).run { input } q = .recalled finding q := by
  obtain ho | ⟨n, -, ho⟩ := rulesOn_content b r
  · exact .inl (by rw [ho, run_fail])
  · exact .inr (by rw [ho, if_pos hr, run_remembered_hit rfl hf])

/-- A rule that has come to something comes to that once more, as long as the memo holds it. -/
theorem run_again {r : Rule} (hr : r.isRemembered) {finding : Finding} (hq : q.cursor = s.cursor)
    (h : ((rulesOn b r).run { input } s).finding? = some finding)
    (hext : ((rulesOn b r).run { input } s).progress.memo.Extends q.memo) :
    (rulesOn b r).run { input } q = .recalled finding q := by
  obtain ho | ⟨n, -, ho⟩ := rulesOn_content b r
  · rw [ho] at h
    cases h
  rw [ho, if_pos hr] at h hext ⊢
  refine run_remembered_hit rfl ?_
  rw [hq]
  rcases run_remembered r (content n r) { input } s with ⟨-, f, hf, hrun⟩ | ⟨-, hrun⟩
  · rw [hrun] at h hext
    cases f <;> cases h <;> exact hext _ _ hf
  · rw [hrun] at h hext
    refine hext _ _ ?_
    generalize (content n r).run { input } s = o at h ⊢
    rcases o with ⟨v, q'⟩ | ⟨e | _ | _, q'⟩ <;> cases h <;> exact (Memo.find?_store _ _ _ _).trans (if_pos rfl)

/-- An operand from the token on comes to what a form that has failed from there leaves of it. -/
def Rejudges (input : Input) (δ : Nat) (e₁ : SyntaxError) (b : Nat) (s q : Progress) : Prop :=
  ∀ n p, Abreast input δ p s → p.cursor = s.cursor → Verdict input δ e₁
    ((rulesOn n .operand).run ⟨input, false, none⟩ p) ((rulesOn b .operand).run { input } q)

/-- Where a form was refused it does not matter what the parse beside it has come to. -/
theorem Rejudges.judged (hin : input.IsOrdered) (h : Rejudges input δ e₁ b s q) (hp : Abreast input δ p s)
    (hc : p.cursor = s.cursor) (n : Nat) :
    ∃ o, (¬e₁.IsRefusal input → o = (rulesOn n .operand).run ⟨input, false, none⟩ p) ∧
      (e₁.IsRefusal input → ∀ p', o ≠ .failed .exhausted p') ∧
        Verdict input δ e₁ o ((rulesOn b .operand).run { input } q) := by
  by_cases hr : e₁.IsRefusal input
  · have hp' : Abreast input δ { p with memo := .empty } s := ⟨hp.depth, hp.deepest, hp.cursor, hp.memo, hp.fresh⟩
    refine ⟨_, fun h => absurd hr h, fun _ q => ?_, h (enough input.before.size) { p with memo := .empty } hp' hc⟩
    exact not_exhausted_from ⟨input, false, none⟩ rfl hin.last (Nat.le_refl _) (hc ▸ hp.cursor) rfl q
  · exact ⟨_, fun _ => rfl, fun h => absurd h hr, h n p hp hc⟩

namespace Verdict

variable {α : Type}

theorem not_isRefusal {o : Outcome α} {e : SyntaxError} (h : Verdict input δ e₁ o (.failed (.mismatch e) q))
    (hex : ¬∃ p, o = .failed .exhausted p) (hn : ¬(further e₁ e).IsRefusal input) : ¬e₁.IsRefusal input := by
  cases h with
  | exhausts => exact absurd ⟨_, rfl⟩ hex
  | fails hle => rwa [further_of_le hle] at hn
  | passes hn => exact hn

/-- An operand that the second reading has failed with fails in the parse beside it too. -/
theorem of_failed {o : Outcome α} {e : SyntaxError} (h : Verdict input δ e₁ o (.failed (.mismatch e) q))
    (hn : ¬e₁.IsRefusal input) (hn' : ¬(further e₁ e).IsRefusal input) :
    (∃ p, o = .failed .exhausted p) ∨
      ∃ e' p, o = .failed (.mismatch e') p ∧ (kept input δ).missed e' (further e₁ e) p q := by
  cases h with
  | exhausts => exact .inl ⟨_, rfl⟩
  | fails hle h =>
    rw [further_of_le hle]
    obtain ⟨e', p, rfl, hp⟩ := h hn
    exact .inr ⟨e', p, rfl, hp⟩
  | passes _ h herror =>
    rw [further_of_lt (herror e q rfl)] at hn' ⊢
    cases h with
    | escaped h => exact h.elim
    | lost h => exact absurd h hn'
    | exhausts => exact .inl ⟨_, rfl⟩
    | mismatch h => exact .inr ⟨_, _, rfl, h⟩

/-- An operand that the second reading has found is found by the parse beside it too, up to the same token. -/
theorem of_found {o : Outcome α} {v : α} (hin : input.IsOrdered) (h : Verdict input δ e₁ o (.ok v q))
    (hn : ¬e₁.IsRefusal input) : (∃ p, o = .failed .exhausted p) ∨
      ∃ v' p, o = .ok v' p ∧ p.cursor = q.cursor ∧ p.depth + δ = q.depth ∧ q.memo.IsOrderly input ∧
        ∀ f : SyntaxError, e₁.place.position ≤ f.place.position →
          (input.get q.cursor).place.position ≤ f.place.position → q.memo.IsUpTo input f := by
  cases h with
  | exhausts => exact .inl ⟨_, rfl⟩
  | stops _ _ _ h =>
    obtain ⟨v', p, rfl, hc, hp⟩ := h hn
    exact .inr ⟨v', p, rfl, hc, hp.1, hp.2.1, fun f hf _ a g hg => Int.le_trans (hp.2.2 a g hg) hf⟩
  | blocked _ _ _ h =>
    obtain ⟨v', p, rfl, hc, hp, -⟩ := h hn
    exact .inr ⟨v', p, rfl, hc, hp.1, hp.2.1, fun f hf _ a g hg => Int.le_trans (hp.2.2 a g hg) hf⟩
  | passes _ h =>
    cases h with
    | escaped h => exact h.elim
    | exhausts => exact .inl ⟨_, rfl⟩
    | found hc h =>
      refine .inr ⟨_, _, rfl, hc, h.depth, h.memo, fun f _ hf a g hg => Int.le_trans ?_ hf⟩
      exact Input.position_le hin.order (h.fresh.le hg)

theorem of_unclosable {o : Outcome α} {kind : TokenKind}
    (h : Verdict input δ e₁ o (.failed (.unclosable kind) q)) : ∃ p, o = .failed .exhausted p := by
  cases h with
  | exhausts => exact ⟨_, rfl⟩
  | passes _ h =>
    cases h with
    | escaped h => exact h.elim
    | exhausts => exact ⟨_, rfl⟩

/-- How many rules have been open at once in the second reading plays no part. -/
theorem deepest {o : Outcome α} {v : α} (h : Verdict input δ e₁ o (.ok v q)) (d : Nat) :
    Verdict input δ e₁ o (.ok v { q with deepest := d }) := by
  cases h with
  | exhausts => exact .exhausts
  | stops hle hthen hbrace h => exact .stops hle hthen hbrace h
  | blocked hle hbrace hf h => exact .blocked hle hbrace hf h
  | passes hn h _ hfound =>
    refine .passes hn ?_ (fun _ _ he => by cases he) fun v' q' he => ?_
    · cases h with
      | escaped h => exact h.elim
      | exhausts h => exact .exhausts h
      | found hc h => exact .found hc ⟨h.depth, h.deepest, h.cursor, h.memo, h.fresh⟩
    · cases he
      exact hfound v q rfl

end Verdict

/-- What is behind a condition without parentheses of its own: a block. -/
def blockBehind (self : Rule → Parse Node) (test : Node) : Parse (Node × Node) := do
  if !(← sees Symbol.lbrace) then complain .blockAfterCondition
  return (test, ← self .block)

theorem conditionAndBlock_eq (self : Rule → Parse Node) :
    conditionAndBlock self = self .operand >>= blockBehind self := rfl

section

variable {setup : Setup} {self : Rule → Parse Node}

theorem run_blockBehind_miss (hk : (setup.input.get p.cursor).kind ≠ Symbol.lbrace) (test : Node)
    (rest : Node × Node → Parse β) : (blockBehind self test >>= rest).run setup p =
      .failed (.mismatch (.ofToken .blockAfterCondition (setup.input.get p.cursor))) p := by
  rw [blockBehind, Parse.bind_assoc, run_sees_bind, decide_eq_false hk]
  rfl

theorem run_blockBehind (hk : (setup.input.get p.cursor).kind = Symbol.lbrace) (test : Node)
    (rest : Node × Node → Parse β) : (blockBehind self test >>= rest).run setup p =
      (self .block >>= fun block => rest (test, block)).run setup p := by
  rw [blockBehind, Parse.bind_assoc, run_sees_bind, decide_eq_true hk]
  simp only [Bool.not_true, Bool.false_eq_true, if_false, Parse.bind_assoc, Parse.pure_bind]

theorem continues_block {keeps : Memo → Prop} (hself : ∀ r, GoesOn setup keeps r (self r)) {c : Nat}
    (hk : (setup.input.get c).kind = Symbol.lbrace) : Continues setup keeps c (block self) := by
  have hafter := setup.input.after_of_ne (c := c) (by rw [hk]; exact TokenKind.noConfusion)
  refine finds_expectOne_bind_of (fun _ => ?_) fun hn => absurd (List.mem_singleton.mpr hk) hn
  rw [finds_rounds_bind, hafter]
  refine (finds_statementsToBrace (c + 1 ≤ ·) (fun _ _ d => c + 1 ≤ d) trivial (fun b hb => ?_) (fun _ h _ => h)
    (fun _ h _ => Input.isFrom_ofToken h _) _ (Nat.le_refl _)).bind fun body d hd => ?_
  · exact (GoesOn.call hself .statement hb).imp fun _ _ hd => ⟨Nat.le_trans hb hd.le, fun _ _ h => h⟩
  · refine finds_expect_bind_of (fun _ => finds_pure ?_) fun _ => Input.isFrom_ofToken hd _
    exact Nat.le_trans (Nat.le_of_succ_le hd) (setup.input.le_after d)

end

/-- The furthest error before an operand is read once more: that of the first form, or another about the operand or about
the token that it ends at. -/
inductive Reached (input : Input) (e₁ : SyntaxError) : Outcome Node → SyntaxError → Prop
  | before {o : Outcome Node} : Reached input e₁ o e₁
  | failed {e : SyntaxError} {q : Progress} (h : e₁.place.position < e.place.position) :
    Reached input e₁ (.failed (.mismatch e) q) e
  | found {v : Node} {q : Progress} {f : SyntaxError} (h : e₁.place.position < f.place.position)
    (hf : f.place = (input.get q.cursor).place) (hn : ¬f.IsTooDeep) : Reached input e₁ (.ok v q) f

theorem Reached.eq_of_le {v : Node} (h : Reached input e₁ (.ok v q) f)
    (hle : (input.get q.cursor).place.position ≤ e₁.place.position) : f = e₁ := by
  cases h with
  | before => rfl
  | found h hf => exact absurd (hf ▸ hle) (Int.not_le.mpr h)

theorem Reached.position_le {v : Node} (h : Reached input e₁ (.ok v q) f)
    (hle : e₁.place.position ≤ (input.get q.cursor).place.position) :
    f.place.position ≤ (input.get q.cursor).place.position := by
  cases h with
  | before => exact hle
  | found _ hf => exact Int.le_of_eq (congrArg Place.position hf)

theorem le_further_right (e e' : SyntaxError) : e'.place.position ≤ (further e e').place.position := by
  rw [further]
  split <;> omega

theorem agree_atLast {o o' : Outcome β} {c d c' d' : Nat} {f f' : SyntaxError}
    (h : (kept input δ).Agree o o')
    (hlt : ∀ e q, o' = .failed (.mismatch e) q → f.place.position < e.place.position) :
    (kept input δ).Agree (o.atLast c d f') (o'.atLast c' d' f) := by
  cases h with
  | escaped h => exact h.elim
  | lost h =>
    dsimp only [Outcome.atLast]
    rw [further_of_lt (hlt _ _ rfl)]
    exact .lost h
  | exhausted => exact .exhausted
  | exhausts h => exact .exhausts h
  | found hc h => exact .found hc h
  | mismatch h =>
    dsimp only [Outcome.atLast]
    rw [further_of_lt (hlt _ _ rfl)]
    exact .mismatch h

theorem tracks_blockBehind {k : Comparison} (hk : k.IsFair) {self self' : Rule → Parse Node}
    (h : Tracks k (self .block) (self' .block)) (test : Node) :
    Tracks k (blockBehind self test) (blockBehind self' test) := by
  refine (Tracks.sees hk _).bind fun b => ?_
  cases b with
  | true => exact h.bind fun block => Tracks.pure _
  | false => exact (Tracks.complain hk _).bind fun _ => h.bind fun block => Tracks.pure _

/-- A block from its brace on is not at odds with the tokens before the one behind that. -/
theorem isFrom_blockBehind (hin : input.IsOrdered) (hpq : Abreast input δ p q)
    (hk : (input.get q.cursor).kind = Symbol.lbrace) {rest : Node × Node → Parse β}
    (hfinds : ∀ v d, Finds { input } (Memo.GoesOn input) (Failure.Misses (input.IsFrom d)) (rest v) d fun _ e => d ≤ e)
    {test : Node} {e : SyntaxError} {q' : Progress}
    (h : (blockBehind (rulesOn b) test >>= rest).run { input } q = .failed (.mismatch e) q') :
    input.IsFrom (q.cursor + 1) e := by
  rw [run_blockBehind hk, run_bind] at h
  have hruns := runsOrderly hin hpq.cursor hpq.memo b .block
  have hnone : q.memo.find? ⟨.block, q.cursor⟩ = none := by
    cases hf : q.memo.find? ⟨.block, q.cursor⟩ with
    | none => rfl
    | some f =>
      obtain h | ⟨-, h, -⟩ := hpq.fresh _ f hf
      · exact absurd h (Nat.lt_irrefl _)
      · exact absurd (List.mem_singleton.mpr hk) h
  obtain ⟨_, ho⟩ | ⟨n, -, ho⟩ := run_fresh input (r := .block) rfl hnone b
  · rw [ho] at h
    cases h
  have hcont : Continues { input } (Memo.GoesOn input) q.cursor (content n .block) :=
    continues_block (fun r => goesOn_parse n r.surcharge r) hk
  have hcont := hcont q rfl hpq.memo.goesOn
  rw [ho] at h hruns
  rcases hrun : (content n .block).run { input } q with ⟨v, q''⟩ | ⟨e' | _ | _, q''⟩ <;> rw [hrun] at h hruns hcont
  · let behind : Progress := { q'' with memo := q''.memo.store ⟨.block, q.cursor⟩ (.node v q''.cursor) }
    have hlt := hruns.found v behind rfl (by decide)
    have hrest := hfinds (test, v) q''.cursor behind rfl hruns.memo.goesOn
    change (rest (test, v)).run { input } behind = _ at h
    rw [h] at hrest
    have he : input.IsFrom q''.cursor e := hrest.2
    exact he.mono hlt
  · cases h
    exact hcont.2
  · cases h
  · cases h

section

variable {rest rest' : Node × Node → Parse β} {v : Node} {p₂ q₂ : Progress} {c d c' d' : Nat} {f' : SyntaxError}

theorem atLast_blockBehind_miss {setup : Setup} {self : Rule → Parse Node}
    (hk : (setup.input.get p.cursor).kind ≠ Symbol.lbrace) :
    ((blockBehind self v >>= rest).run setup p).atLast c d f =
      .failed (.mismatch (further f (.ofToken .blockAfterCondition (setup.input.get p.cursor))))
        { p with cursor := c, deepest := d } := by
  rw [run_blockBehind_miss hk]
  rfl

/-- The condition of the last form has been found, and no brace stands behind it. -/
theorem agree_noBlock {self self' : Rule → Parse Node} {v' : Node} (hk : (input.get q₂.cursor).kind ≠ Symbol.lbrace)
    (hc : p₂.cursor = q₂.cursor)
    (h : (kept input δ).missed f' (further f (.ofToken .blockAfterCondition (input.get q₂.cursor))) p₂ q₂) :
    (kept input δ).Agree (((blockBehind self v' >>= rest).run ⟨input, false, none⟩ p₂).atLast c d f')
      (((blockBehind self' v >>= rest').run { input } q₂).atLast c' d' f) := by
  rw [atLast_blockBehind_miss (by rw [hc]; exact hk), atLast_blockBehind_miss (by exact hk)]
  exact .mismatch h

/-- The condition has been found, and of the block behind it the memo holds that it fails, as it does without a memo. -/
theorem agree_knownBlock {n : Nat} {o : Outcome β} (hk : (input.get q₂.cursor).kind = Symbol.lbrace)
    (hf : q₂.memo.find? ⟨.block, q₂.cursor⟩ = some (.error f))
    (h : ¬f.IsRefusal input → ∃ v' p₂,
      o = ((blockBehind (rulesOn n) v' >>= rest).run ⟨input, false, none⟩ p₂).atLast c d f' ∧ p₂.cursor = q₂.cursor ∧
        (kept input δ).missed f f p₂ q₂ ∧ MissesHere input (rulesOn n .block) p₂) :
    (kept input δ).Agree o (((blockBehind (rulesOn b) v >>= rest').run { input } q₂).atLast c' d' f) := by
  rw [run_blockBehind hk, run_bind]
  obtain hq | hq := run_known rfl hf b
  · rw [hq]
    exact .exhausted
  rw [hq]
  dsimp only [Outcome.recalled, Outcome.atLast]
  rw [further_of_le (Int.le_refl _)]
  by_cases hr : f.IsRefusal input
  · exact .lost hr
  obtain ⟨v', p₂, rfl, hc, hmiss, hblock⟩ := h hr
  rw [run_blockBehind (by rw [hc]; exact hk), run_bind]
  obtain ⟨p', hp'⟩ | ⟨e', p', hp', hd⟩ := hblock
  · rw [hp']
    exact .exhausts trivial
  · rw [hp']
    exact .mismatch ⟨(congrArg (· + δ) hd).trans hmiss.1, hmiss.2⟩

end

section

variable (hin : input.IsOrdered) (hb : KeepsAbreast input b)
include hin hb

/-- The condition has been found where nothing more is known, and the block is read from there. -/
theorem agree_freshBlock {rest rest' : Node × Node → Parse β} {v : Node} {p₂ q₂ : Progress} {c d c' d' n : Nat}
    {f' : SyntaxError} (hc : p₂.cursor = q₂.cursor) (hpq : Abreast input δ p₂ q₂)
    (hle : f.place.position ≤ (input.get q₂.cursor).place.position)
    (hrest : ∀ v, Tracks (kept input δ) (rest v) (rest' v))
    (hfinds : ∀ v d, Finds { input } (Memo.GoesOn input) (Failure.Misses (input.IsFrom d)) (rest' v) d fun _ e => d ≤ e) :
    (kept input δ).Agree (((blockBehind (rulesOn n) v >>= rest).run ⟨input, false, none⟩ p₂).atLast c d f')
      (((blockBehind (rulesOn b) v >>= rest').run { input } q₂).atLast c' d' f) := by
  by_cases hbrace : (input.get q₂.cursor).kind = Symbol.lbrace
  · have htracks := (tracks_blockBehind (isFair_kept hin) (hb δ n b .block (Nat.le_refl b)) v).bind hrest
    refine agree_atLast (htracks.agree p₂ q₂ hc hpq) fun e q' he => ?_
    have hfrom := isFrom_blockBehind hin hpq hbrace hfinds he
    have hlt := hin.position_lt hpq.cursor (by rw [hbrace]; exact TokenKind.noConfusion) (Nat.lt_succ_self _)
    exact Int.lt_of_le_of_lt hle (Int.lt_of_lt_of_le hlt (hfrom.position_le hin.order))
  · refine agree_noBlock hbrace hc ⟨hpq.depth, hpq.memo, fun a g hg => ?_⟩
    exact Int.le_trans (hpq.isUpTo hin .blockAfterCondition a g hg) (le_further_right _ _)

/-- The last form: a condition, a block and what is behind that. -/
theorem agree_byBlock {n : Nat} {rest rest' : Node × Node → Parse β} (hv : Rejudges input δ e₁ b s q)
    (hreach : Reached input e₁ ((rulesOn b .operand).run { input } q) f) (hp : Abreast input δ p s)
    (hc : p.cursor = s.cursor) (hrest : ∀ v, Tracks (kept input δ) (rest v) (rest' v))
    (hfinds : ∀ v d, Finds { input } (Memo.GoesOn input) (Failure.Misses (input.IsFrom d)) (rest' v) d fun _ e => d ≤ e)
    {o : Outcome β} {f' : SyntaxError} (ho : ¬e₁.IsRefusal input → o =
      ((rulesOn n .operand >>= fun test => blockBehind (rulesOn n) test >>= rest).run ⟨input, false, none⟩ p).atLast
        s.cursor p.deepest f') :
    (kept input δ).Agree o (((rulesOn b .operand >>= fun test => blockBehind (rulesOn b) test >>= rest').run
      { input } q).atLast s.cursor q.deepest f) := by
  obtain ⟨o₁, hI, hx, hv⟩ := hv.judged hin hp hc n
  rw [run_bind] at ho ⊢
  by_cases hex : ∃ p', o₁ = .failed .exhausted p'
  · obtain ⟨p', rfl⟩ := hex
    by_cases hr : e₁.IsRefusal input
    · exact absurd rfl (hx hr p')
    · rw [ho hr, ← hI hr]
      exact .exhausts trivial
  generalize (rulesOn b .operand).run { input } q = o' at hv hreach ⊢
  rcases o' with ⟨v, q₂⟩ | ⟨e | _ | _, q₂⟩
  · dsimp only
    cases hv with
    | exhausts => exact absurd ⟨_, rfl⟩ hex
    | stops hle _ hbrace h =>
      obtain rfl := hreach.eq_of_le hle
      by_cases hr : f.IsRefusal input
      · rw [atLast_blockBehind_miss (by exact hbrace), further_of_le (by exact hle)]
        exact .lost hr
      · obtain ⟨v', p₂, rfl, hc₂, hmiss⟩ := h hr
        rw [ho hr, ← hI hr]
        exact agree_noBlock hbrace hc₂ (by rw [further_of_le (by exact hle)]; exact hmiss)
    | blocked hle hbrace hf h =>
      obtain rfl := hreach.eq_of_le hle
      have hknown (hr : ¬f.IsRefusal input) : ∃ v' p₂, o = ((blockBehind (rulesOn n) v' >>= rest).run
          ⟨input, false, none⟩ p₂).atLast s.cursor p.deepest f' ∧ p₂.cursor = q₂.cursor ∧
            (kept input δ).missed f f p₂ q₂ ∧ MissesHere input (rulesOn n .block) p₂ := by
        obtain ⟨v', p₂, rfl, hc₂, hmiss, hblock⟩ := h hr
        exact ⟨v', p₂, by rw [ho hr, ← hI hr], hc₂, hmiss, hblock n p₂ rfl rfl rfl⟩
      exact agree_knownBlock hbrace hf hknown
    | passes hn h _ hfound =>
      rw [ho hn, ← hI hn]
      cases h with
      | escaped h => exact h.elim
      | exhausts => exact absurd ⟨_, rfl⟩ hex
      | found hc₂ hpq => exact agree_freshBlock hin hb hc₂ hpq (hreach.position_le (hfound v q₂ rfl)) hrest hfinds
  · have hfurther : further f e = further e₁ e := by
      cases hreach with
      | before => rfl
      | failed h => rw [further_of_lt h, further_of_le (Int.le_refl _)]
    dsimp only [Outcome.atLast]
    rw [hfurther]
    by_cases hr' : (further e₁ e).IsRefusal input
    · exact .lost hr'
    have hr := hv.not_isRefusal hex hr'
    obtain ⟨e', p₂, rfl, hmiss⟩ := (hv.of_failed hr hr').resolve_left hex
    rw [ho hr, ← hI hr]
    exact .mismatch hmiss
  · exact absurd hv.of_unclosable hex
  · exact .exhausted

/-- What is behind the blocks of an `if` with a value. -/
def otherBlock (self : Rule → Parse Node) (loc : Loc) (found : Node × Node) : Parse Node := do
  requireElse
  let alternate ← if ← sees Keyword.ifWord then self .conditional else self .block
  return .conditional loc found.1 found.2 alternate false

omit hin hb in
theorem conditionalByBlocks_eq (self : Rule → Parse Node) (loc : Loc) : conditionalByBlocks self loc =
    self .operand >>= fun test => blockBehind self test >>= otherBlock self loc := by
  rw [← Parse.bind_assoc, ← conditionAndBlock_eq]
  rfl

omit hin hb in
theorem tracks_otherBlock {k : Comparison} (hk : k.IsFair) {self self' : Rule → Parse Node}
    (h : ∀ r, Tracks k (self r) (self' r)) (loc : Loc) (found : Node × Node) :
    Tracks k (otherBlock self loc found) (otherBlock self' loc found) := by
  refine (Tracks.expect hk _ _).bind fun _ => (Tracks.sees hk _).bind fun b => ?_
  cases b with
  | true => exact (h .conditional).bind fun alternate => Tracks.pure _
  | false => exact (h .block).bind fun alternate => Tracks.pure _

omit hin hb in
theorem finds_otherBlock (b : Nat) (loc : Loc) (found : Node × Node) (c : Nat) : Finds { input } (Memo.GoesOn input)
    (Failure.Misses (input.IsFrom c)) (otherBlock (rulesOn b) loc found) c fun _ d => c ≤ d := by
  have hself (r : Rule) : GoesOn { input } (Memo.GoesOn input) r (rulesOn b r) := goesOn_parse _ _ r
  refine finds_expect_bind_of (fun _ => ?_) fun _ => Input.isFrom_ofToken (Nat.le_refl c) _
  have hafter := input.le_after c
  rw [finds_sees_bind]
  split
  · exact (GoesOn.call hself .conditional hafter).bind fun alternate stop hs => finds_pure (Nat.le_trans hafter hs.le)
  · exact (GoesOn.call hself .block hafter).bind fun alternate stop hs => finds_pure (Nat.le_trans hafter hs.le)

/-- What is behind a condition in the form with a word there. -/
def thenBehind (self : Rule → Parse Node) (loc : Loc) (test : Node) : Parse Node := do
  expect Keyword.thenWord .thenAfterCondition
  conditionalRest self loc test true

omit hin hb in
theorem conditionalByThen_behind (self : Rule → Parse Node) (loc : Loc) :
    conditionalByThen self loc = self .operand >>= thenBehind self loc := rfl

omit hin hb in
theorem tracks_thenBehind {k : Comparison} (hk : k.IsFair) {self self' : Rule → Parse Node}
    (h : ∀ r, Tracks k (self r) (self' r)) (loc : Loc) (test : Node) :
    Tracks k (thenBehind self loc test) (thenBehind self' loc test) :=
  (Tracks.expect hk _ _).bind fun _ => tracks_conditionalRest hk h loc test true

omit hin hb in
theorem addsOn_thenBehind (input : Input) (b : Nat) (loc : Loc) (test : Node) :
    AddsOn input (thenBehind (rulesOn b) loc test) :=
  (AddsOn.expect _ _).bind fun _ => (addsOn_rulesOn b _).bind fun _ => addsOn_otherBranch b _

omit hb in
/-- Where it fails behind the word, that is about a token behind the word. -/
theorem lt_of_thenBehind (loc : Loc) {v : Node} {q₂ q' : Progress} {e : SyntaxError}
    (hthen : (input.get q₂.cursor).kind = Keyword.thenWord) (hc : q₂.cursor ≤ input.before.size)
    (hm : q₂.memo.GoesOn input) (h : (thenBehind (rulesOn b) loc v).run { input } q₂ = .failed (.mismatch e) q') :
    (input.get q₂.cursor).place.position < e.place.position := by
  have hne : (input.get q₂.cursor).kind ≠ .eof := by
    rw [hthen]
    exact TokenKind.noConfusion
  have hfinds : Finds { input } (Memo.GoesOn input) (Failure.Misses (input.IsFrom (q₂.cursor + 1)))
      (thenBehind (rulesOn b) loc v) q₂.cursor fun _ d => q₂.cursor + 1 ≤ d := by
    refine finds_expect_bind_of (fun _ => ?_) fun hn => absurd hthen hn
    rw [input.after_of_ne hne]
    exact goesOn_conditionalRest (fun r => goesOn_parse b r.surcharge r) loc v true (Nat.le_refl _)
  have hfinds := hfinds q₂ rfl hm
  rw [h] at hfinds
  have hfrom : input.IsFrom (q₂.cursor + 1) e := hfinds.2
  exact Int.lt_of_lt_of_le (hin.position_lt hc hne (Nat.lt_succ_self _)) (hfrom.position_le hin.order)

omit hb in
/-- Where the form with the word fails behind it, the last form finds the same condition once more, and the word in place
of its brace. -/
theorem run_forms_of_then (loc : Loc) (hq : q.cursor = s.cursor) {v : Node} {q₂ q' : Progress} {e : SyntaxError}
    (hop : (rulesOn b .operand).run { input } q = .ok v q₂) (hthen : (input.get q₂.cursor).kind = Keyword.thenWord)
    (hc : q₂.cursor ≤ input.before.size) (hm : q₂.memo.GoesOn input)
    (hfound : e₁.place.position ≤ (input.get q₂.cursor).place.position)
    (he : (thenBehind (rulesOn b) loc v).run { input } q₂ = .failed (.mismatch e) q') :
    (attemptAfter s.cursor e₁ [conditionalByThen (rulesOn b) loc, conditionalByBlocks (rulesOn b) loc]).run { input } q =
      .failed (.mismatch e) { q' with cursor := s.cursor, deepest := q.deepest } := by
  have hbrace : (input.get q₂.cursor).kind ≠ Symbol.lbrace := by
    rw [hthen]
    exact TokenKind.noConfusion
  have hlt := lt_of_thenBehind hin loc hthen hc hm he
  have hext := extends_run (addsOn_thenBehind input b loc v).keeping q₂
  rw [he] at hext
  let q₃ : Progress := { q' with cursor := s.cursor, deepest := q.deepest }
  have hagain : (rulesOn b .operand).run { input } q₃ = .ok v { q₃ with cursor := q₂.cursor } :=
    run_again (q := q₃) (s := q) rfl hq.symm (by rw [hop]; rfl) (by rw [hop]; exact hext)
  rw [run_attemptAfter_miss (e := e) (q := q') (by rw [conditionalByThen_behind, run_bind, hop]; exact he),
    run_attemptAfter_last, conditionalByBlocks_eq, run_bind, hagain]
  dsimp only
  rw [run_blockBehind_miss (by exact hbrace)]
  dsimp only [Outcome.atLast]
  rw [further_of_lt (Int.lt_of_le_of_lt hfound hlt), further_of_le (by exact Int.le_of_lt hlt)]

section

variable {n : Nat} (loc : Loc) {o o₁ : Outcome Node} {f' : SyntaxError} (hv : Rejudges input δ e₁ b s q)
  (hq : q.cursor = s.cursor) (hd : q.depth = s.depth) (hp : Abreast input δ p s)
  (hI : ¬e₁.IsRefusal input → o₁ = (rulesOn n .operand).run ⟨input, false, none⟩ p)
  (hex : ¬∃ p', o₁ = .failed .exhausted p')
  (ho : ¬e₁.IsRefusal input → o = (attemptAfter s.cursor f'
    [conditionalByThen (rulesOn n) loc, conditionalByBlocks (rulesOn n) loc]).run ⟨input, false, none⟩ p)
include hv hq hd hp hI hex ho

/-- The forms of an `if` with a value behind the first one, where there is the word behind the condition. -/
theorem agree_byThen_then {v : Node} {q₂ : Progress} (hop : (rulesOn b .operand).run { input } q = .ok v q₂)
    (hv₁ : Verdict input δ e₁ o₁ (.ok v q₂)) (hthen : (input.get q₂.cursor).kind = Keyword.thenWord) :
    (kept input δ).Agree o ((attemptAfter s.cursor e₁
      [conditionalByThen (rulesOn b) loc, conditionalByBlocks (rulesOn b) loc]).run { input } q) := by
  have hbrace : (input.get q₂.cursor).kind ≠ Symbol.lbrace := by
    rw [hthen]
    exact TokenKind.noConfusion
  obtain ⟨p₂, hn, rfl, hc₂, hpq, hfound⟩ : ∃ p₂, ¬e₁.IsRefusal input ∧ o₁ = .ok v p₂ ∧ p₂.cursor = q₂.cursor ∧
      Abreast input δ p₂ q₂ ∧ e₁.place.position ≤ (input.get q₂.cursor).place.position := by
    cases hv₁ with
    | exhausts => exact absurd ⟨_, rfl⟩ hex
    | stops _ h => exact absurd hthen h
    | blocked _ h => exact absurd h hbrace
    | passes hn h _ hfound =>
      cases h with
      | escaped h => exact h.elim
      | exhausts => exact absurd ⟨_, rfl⟩ hex
      | found hc h => exact ⟨_, hn, rfl, hc, h, hfound v q₂ rfl⟩
  have hfirst : (conditionalByThen (rulesOn n) loc).run ⟨input, false, none⟩ p =
      (thenBehind (rulesOn n) loc v).run ⟨input, false, none⟩ p₂ := by
    rw [conditionalByThen_behind, run_bind, ← hI hn]
  have hfirst' : (conditionalByThen (rulesOn b) loc).run { input } q = (thenBehind (rulesOn b) loc v).run { input } q₂ := by
    rw [conditionalByThen_behind, run_bind, hop]
  have hoperand : AddsOn input (rulesOn b .operand) := addsOn_rulesOn b .operand
  have hlevel := hoperand.level q
  have hlevel' := (addsOn_thenBehind input b loc v).level q₂
  have hagree := (tracks_thenBehind (isFair_kept hin) (fun r => hb δ n b r (Nat.le_refl b)) loc v).agree p₂ q₂ hc₂ hpq
  have hlast (e : SyntaxError) (q' : Progress)
      (he : (thenBehind (rulesOn b) loc v).run { input } q₂ = .failed (.mismatch e) q') :=
    run_forms_of_then hin loc hq hop hthen hpq.cursor hpq.memo.goesOn hfound he
  rw [hop] at hlevel
  change (kept input δ).Agree ((_ : Parse Node).run ⟨input, false, none⟩ p₂) ((_ : Parse Node).run { input } q₂) at hagree
  generalize (thenBehind (rulesOn n) loc v).run ⟨input, false, none⟩ p₂ = r at hfirst hagree
  generalize (thenBehind (rulesOn b) loc v).run { input } q₂ = r' at hfirst' hagree hlevel' hlast
  cases hagree with
  | escaped h => exact h.elim
  | lost h =>
    rw [hlast _ _ rfl]
    exact .lost h
  | exhausted =>
    rw [run_attemptAfter_exhausted hfirst']
    exact .exhausted
  | exhausts h =>
    rw [ho hn, run_attemptAfter_exhausted hfirst]
    exact .exhausts h
  | found hc h =>
    rw [ho hn, run_attemptAfter_ok hfirst, run_attemptAfter_ok hfirst']
    exact .found hc h
  | @mismatch e e' p' q' hmiss =>
    rw [hlast _ _ rfl, ho hn, run_attemptAfter_miss hfirst, run_attemptAfter_last, conditionalByBlocks_eq, run_bind]
    have hdepth := hmiss.1
    change q'.depth = q₂.depth at hlevel'
    change q₂.depth = q.depth at hlevel
    have hp₃ : Abreast input δ { p' with cursor := s.cursor, deepest := p.deepest } s :=
      ⟨hdepth.trans (by omega), hp.deepest, hp.cursor, hp.memo, hp.fresh⟩
    have hv₃ := hv n _ hp₃ rfl
    rw [hop] at hv₃
    obtain ⟨p₄, hp₄⟩ | ⟨v', p₄, hp₄, hc₄, hdepth₄, -⟩ := hv₃.of_found hin hn
    · rw [hp₄]
      exact .exhausts trivial
    · rw [hp₄]
      dsimp only
      rw [run_blockBehind_miss (by rw [hc₄]; exact hbrace)]
      exact .mismatch ⟨hdepth₄.trans hlevel'.symm, hmiss.2⟩

/-- Where there is another token behind the condition, the last form finds the same condition once more. -/
theorem agree_byThen_blocks (hc : p.cursor = s.cursor) {v : Node} {q₂ : Progress}
    (hop : (rulesOn b .operand).run { input } q = .ok v q₂) (hv₁ : Verdict input δ e₁ o₁ (.ok v q₂))
    (hthen : (input.get q₂.cursor).kind ≠ Keyword.thenWord) :
    (kept input δ).Agree o ((attemptAfter s.cursor e₁
      [conditionalByThen (rulesOn b) loc, conditionalByBlocks (rulesOn b) loc]).run { input } q) := by
  have hoperand : AddsOn input (rulesOn b .operand) := addsOn_rulesOn b .operand
  have hlevel := hoperand.level q
  let q₃ : Progress := { q₂ with cursor := s.cursor, deepest := q.deepest }
  have hagain : (rulesOn b .operand).run { input } q₃ = .ok v { q₃ with cursor := q₂.cursor } :=
    run_again (q := q₃) (s := q) rfl hq.symm (by rw [hop]; rfl) (by rw [hop]; exact .refl _)
  have hv₃ : Rejudges input δ e₁ b s q₃ := by
    intro n p hp hc
    have h := hv n p hp hc
    rw [hop] at h
    rw [hagain]
    exact h.deepest q.deepest
  have hdeep := SyntaxError.not_isTooDeep (show Complaint.thenAfterCondition ≠ .tooDeep by decide) (input.get q₂.cursor)
  have hreach : Reached input e₁ ((rulesOn b .operand).run { input } q₃)
      (further e₁ (.ofToken .thenAfterCondition (input.get q₂.cursor))) := by
    rw [hagain]
    rcases Int.lt_or_le e₁.place.position (input.get q₂.cursor).place.position with hlt | hle
    · rw [further_of_lt (by exact hlt)]
      exact .found hlt rfl hdeep
    · rw [further_of_le (by exact hle)]
      exact .before
  have hmiss : (conditionalByThen (rulesOn b) loc).run { input } q =
      .failed (.mismatch (.ofToken .thenAfterCondition (input.get q₂.cursor))) q₂ := by
    rw [conditionalByThen_eq, run_bind, hop]
    exact run_expect_miss hthen _ _
  have hlast {p : Progress} (hp : Abreast input δ p s) (hc : p.cursor = s.cursor) {o : Outcome Node} (f' : SyntaxError)
      (ho : ¬e₁.IsRefusal input → o = (attemptAfter s.cursor f' [conditionalByBlocks (rulesOn n) loc]).run
        ⟨input, false, none⟩ p) : (kept input δ).Agree o ((attemptAfter s.cursor e₁
          [conditionalByThen (rulesOn b) loc, conditionalByBlocks (rulesOn b) loc]).run { input } q) := by
    rw [run_attemptAfter_miss hmiss, run_attemptAfter_last, conditionalByBlocks_eq]
    rw [run_attemptAfter_last, conditionalByBlocks_eq] at ho
    exact agree_byBlock hin hb hv₃ hreach hp hc
      (tracks_otherBlock (isFair_kept hin) (fun r => hb δ n b r (Nat.le_refl b)) loc) (finds_otherBlock b loc) ho
  by_cases hr : e₁.IsRefusal input
  · exact hlast hp hc e₁ fun hn => absurd hr hn
  obtain ⟨v', p₂, rfl, hc₂, hdepth, -⟩ := (hv₁.of_found hin hr).resolve_left hex
  rw [hop] at hlevel
  refine hlast (p := { p₂ with cursor := s.cursor, deepest := p.deepest }) ?_ rfl
    (further f' (.ofToken .thenAfterCondition (input.get p₂.cursor))) fun _ => ?_
  · exact ⟨hdepth.trans (hlevel.trans hd), hp.deepest, hp.cursor, hp.memo, hp.fresh⟩
  · rw [ho hr, run_attemptAfter_miss (q := p₂)]
    rw [conditionalByThen_eq, run_bind, ← hI hr]
    exact run_expect_miss (by rw [hc₂]; exact hthen) _ _

omit hin hb in
/-- Where the condition fails, it fails once more in the last form. -/
theorem agree_byThen_failed {e : SyntaxError} {q₂ : Progress}
    (hop : (rulesOn b .operand).run { input } q = .failed (.mismatch e) q₂)
    (hv₁ : Verdict input δ e₁ o₁ (.failed (.mismatch e) q₂)) :
    (kept input δ).Agree o ((attemptAfter s.cursor e₁
      [conditionalByThen (rulesOn b) loc, conditionalByBlocks (rulesOn b) loc]).run { input } q) := by
  have hoperand : AddsOn input (rulesOn b .operand) := addsOn_rulesOn b .operand
  have hlevel := hoperand.level q
  let q₃ : Progress := { q₂ with cursor := s.cursor, deepest := q.deepest }
  have hagain : (rulesOn b .operand).run { input } q₃ = .failed (.mismatch e) q₃ :=
    run_again (q := q₃) (s := q) rfl hq.symm (by rw [hop]; rfl) (by rw [hop]; exact .refl _)
  have hfurther : further (further e₁ e) e = further e₁ e := further_of_le (le_further_right e₁ e)
  rw [run_attemptAfter_miss (q := q₂) (e := e) (by rw [conditionalByThen_eq, run_bind, hop]), run_attemptAfter_last,
    conditionalByBlocks_eq, run_bind, hagain]
  dsimp only [Outcome.atLast]
  rw [hfurther]
  by_cases hr' : (further e₁ e).IsRefusal input
  · exact .lost hr'
  have hr := hv₁.not_isRefusal hex hr'
  obtain ⟨e', p₂, rfl, hmiss⟩ := (hv₁.of_failed hr hr').resolve_left hex
  rw [ho hr, run_attemptAfter_miss (q := p₂) (by rw [conditionalByThen_eq, run_bind, ← hI hr]), run_attemptAfter_last,
    conditionalByBlocks_eq, run_bind]
  rw [hop] at hlevel
  have hp₃ : Abreast input δ { p₂ with cursor := s.cursor, deepest := p.deepest } s :=
    ⟨hmiss.1.trans (hlevel.trans hd), hp.deepest, hp.cursor, hp.memo, hp.fresh⟩
  have hv₃ := hv n _ hp₃ rfl
  rw [hop] at hv₃
  obtain ⟨p₄, hp₄⟩ | ⟨e'', p₄, hp₄, hmiss'⟩ := hv₃.of_failed hr hr'
  · rw [hp₄]
    exact .exhausts trivial
  · rw [hp₄]
    exact .mismatch ⟨hmiss'.1, hmiss.2⟩

end

/-- The forms of an `if` with a value behind the first one. -/
theorem agree_byThen {n : Nat} (loc : Loc) (hv : Rejudges input δ e₁ b s q) (hq : q.cursor = s.cursor)
    (hd : q.depth = s.depth) (hp : Abreast input δ p s) (hc : p.cursor = s.cursor) {o : Outcome Node} {f' : SyntaxError}
    (ho : ¬e₁.IsRefusal input → o = (attemptAfter s.cursor f'
      [conditionalByThen (rulesOn n) loc, conditionalByBlocks (rulesOn n) loc]).run ⟨input, false, none⟩ p) :
    (kept input δ).Agree o ((attemptAfter s.cursor e₁
      [conditionalByThen (rulesOn b) loc, conditionalByBlocks (rulesOn b) loc]).run { input } q) := by
  obtain ⟨o₁, hI, hx, hv₁⟩ := hv.judged hin hp hc n
  by_cases hex : ∃ p', o₁ = .failed .exhausted p'
  · obtain ⟨p', rfl⟩ := hex
    by_cases hr : e₁.IsRefusal input
    · exact absurd rfl (hx hr p')
    · rw [ho hr, run_attemptAfter_exhausted (q := p') (by rw [conditionalByThen_eq, run_bind, ← hI hr])]
      exact .exhausts trivial
  rcases hop : (rulesOn b .operand).run { input } q with ⟨v, q₂⟩ | ⟨e | _ | _, q₂⟩ <;> rw [hop] at hv₁
  · by_cases hthen : (input.get q₂.cursor).kind = Keyword.thenWord
    · exact agree_byThen_then hin hb loc hv hq hd hp hI hex ho hop hv₁ hthen
    · exact agree_byThen_blocks hin hb loc hv hq hd hp hI hex ho hc hop hv₁ hthen
  · exact agree_byThen_failed loc hv hq hd hp hI hex ho hop hv₁
  · exact absurd hv₁.of_unclosable hex
  · rw [run_attemptAfter_exhausted (q := q₂) (by rw [conditionalByThen_eq, run_bind, hop])]
    exact .exhausted

omit hin hb in
/-- Alternatives agree if the first ones do and what is left agrees where the second parse has failed with the first, of
which the parse beside it is taken along where nothing was refused. -/
theorem tracks_attempt_kept {first first' : Parse β} {others others' : List (Parse β)}
    (hfirst : Tracks (kept input δ) first first')
    (hkeeping : ∀ a f, Tracks (keeping input a f) (attempt first' others') (attempt first' others'))
    (h : ∀ (p s s₁ : Progress) (e₁ f : SyntaxError) (o : Outcome β), first'.run { input } s = .failed (.mismatch e₁) s₁ →
      s₁.depth = s.depth → (¬e₁.IsRefusal input → Settled input e₁ s₁.memo) → Abreast input δ p s → p.cursor = s.cursor →
        (¬e₁.IsRefusal input → o = (attemptAfter s.cursor f others).run ⟨input, false, none⟩ p) →
          (kept input δ).Agree o ((attemptAfter s.cursor e₁ others').run { input }
            { s₁ with cursor := s.cursor, deepest := s.deepest })) :
    Tracks (kept input δ) (attempt first others) (attempt first' others') := by
  refine ⟨steady_kept hkeeping, fun p q hc hpq => ?_⟩
  have hagree := hfirst.agree p q hc hpq
  have hlevel := hfirst.level q
  change (kept input δ).Agree (first.run ⟨input, false, none⟩ p) (first'.run { input } q) at hagree
  change (first'.run { input } q).progress.depth = q.depth at hlevel
  change (kept input δ).Agree ((attempt first others).run ⟨input, false, none⟩ p)
    ((attempt first' others').run { input } q)
  simp only [attempt]
  generalize first.run ⟨input, false, none⟩ p = r at hagree ⊢
  generalize hr : first'.run { input } q = r' at hagree hlevel ⊢
  cases hagree with
  | escaped h => exact h.elim
  | @lost _ e₁ s₁ hrefusal =>
    exact h p q s₁ e₁ e₁ _ hr hlevel (fun hn => absurd hrefusal hn) hpq hc fun hn => absurd hrefusal hn
  | exhausted => exact .exhausted
  | exhausts h => exact .exhausts h
  | found hc h => exact .found hc h
  | @mismatch e e₁ p₁ s₁ hmiss =>
    have hp₁ : Abreast input δ { p₁ with cursor := p.cursor, deepest := p.deepest } q :=
      ⟨hmiss.1.trans hlevel, hpq.deepest, hpq.cursor, hpq.memo, hpq.fresh⟩
    exact h _ q s₁ e₁ e _ hr hlevel (fun _ => ⟨hmiss.2.1, hmiss.2.2⟩) hp₁ hc fun _ => by rw [hc]

omit hin hb in
theorem firstBranch_conditionalRest (b : Nat) (loc : Loc) (test : Node) :
    FirstBranch b .expression (conditionalRest (rulesOn b) loc test false) :=
  .value fun node alternate => Node.conditional loc test node alternate false

/-- An `if` with a value. -/
theorem tracks_conditional_kept (n : Nat) :
    Tracks (kept input δ) (conditional (rulesOn n)) (conditional (rulesOn b)) := by
  have hself (r : Rule) : Tracks (kept input δ) (rulesOn n r) (rulesOn b r) := hb δ n b r (Nat.le_refl b)
  refine (Tracks.expectOne (isFair_kept hin) _ _).bind fun word => ?_
  refine tracks_attempt_kept (tracks_conditionalByParentheses (isFair_kept hin) hself _) (fun a f => ?_)
    fun p s s₁ e₁ f o hrun hlevel hsettled hp hc ho => ?_
  · have hself (r : Rule) := @tracks_keeping input a f b b r.surcharge r
    exact Tracks.attempt retries_keeping (tracks_conditionalByParentheses isFair_keeping hself _)
      (.cons (tracks_conditionalByThen isFair_keeping hself _)
        (.cons (tracks_conditionalByBlocks isFair_keeping hself _) .nil))
  · refine agree_byThen (s := s) (q := { s₁ with cursor := s.cursor, deepest := s.deepest }) hin hb _ (fun n p hp hc => ?_)
      rfl hlevel hp hc ho
    exact verdict_condition (q := { s₁ with cursor := s.cursor, deepest := s.deepest }) hin hb
      (fun test => firstBranch_conditionalRest b (locOf word) test) hp hc hrun hsettled rfl hlevel rfl n

/-- An `if` between statements. -/
theorem tracks_conditionalStatement_kept (n : Nat) :
    Tracks (kept input δ) (conditionalStatement (rulesOn n)) (conditionalStatement (rulesOn b)) := by
  have hself (r : Rule) : Tracks (kept input δ) (rulesOn n r) (rulesOn b r) := hb δ n b r (Nat.le_refl b)
  refine (Tracks.expectOne (isFair_kept hin) _ _).bind fun word => Tracks.bind ?_ fun found =>
    Tracks.marked (isFair_kept hin) (hself .statement) fun _ => Tracks.pure _
  refine tracks_attempt_kept (tracks_conditionAndStatement (isFair_kept hin) hself) (fun a f => ?_)
    fun p s s₁ e₁ f o hrun hlevel hsettled hp hc ho => ?_
  · have hself (r : Rule) := @tracks_keeping input a f b b r.surcharge r
    exact Tracks.attempt retries_keeping (tracks_conditionAndStatement isFair_keeping hself)
      (.cons (tracks_conditionAndBlock isFair_keeping hself) .nil)
  · have hlast (self : Rule → Parse Node) : conditionAndBlock self =
        self .operand >>= fun test => blockBehind self test >>= pure :=
      bind_congr_right _ fun test => (Parse.bind_pure _).symm
    rw [run_attemptAfter_last, hlast] at ho ⊢
    refine agree_byBlock hin hb (fun n p hp hc => ?_) .before hp hc (fun _ => Tracks.pure _)
      (fun _ d => finds_pure (Nat.le_refl d)) ho
    exact verdict_condition (r := .statement) (q := { s₁ with cursor := s.cursor, deepest := s.deepest }) hin hb
      (fun test => .statement fun node => (test, node)) hp hc hrun
      hsettled rfl hlevel rfl n

end

end Grammar

end MagSyntax
