import MagSyntax.Proofs.Calls
import MagSyntax.Proofs.IdleRules
import MagSyntax.Proofs.Replays

/-! A parse without a memo and without a bound on nesting, beside one with both. They come to the same as long as the
second is not refused a rule; and while they do, no more rules are open at once in what the first keeps than the bound
allows. What the memo holds from the token on where they stand is at most that rules cannot start there. -/

namespace MagSyntax

open Parse

namespace Input

variable {input : Input}

theorem get_size (input : Input) : input.get input.before.size = input.last := by simp [get]

theorem lt_size_of_ne {c : Nat} (hlast : input.last.kind = .eof) (hc : c ≤ input.before.size)
    (hk : (input.get c).kind ≠ .eof) : c < input.before.size :=
  Nat.lt_of_le_of_ne hc fun he => hk (by rw [he, get_size, hlast])

/-- The tokens stand in order, and the last one is the end. -/
structure IsOrdered (input : Input) : Prop where
  order : input.toList.Pairwise fun a b => a.place.position < b.place.position
  last : input.last.kind = .eof

namespace IsOrdered

variable {c d : Nat}

theorem position_lt (hin : input.IsOrdered) (hc : c ≤ input.before.size) (hk : (input.get c).kind ≠ .eof) (hd : c < d) :
    (input.get c).place.position < (input.get d).place.position :=
  Int.lt_of_lt_of_le ((position_lt_iff hin.order hc (lt_size_of_ne hin.last hc hk)).mpr (Nat.lt_succ_self c))
    (position_le hin.order hd)

/-- There is one token at a place. -/
theorem get_eq_of_place (hin : input.IsOrdered) (h : (input.get c).place = (input.get d).place) :
    input.get c = input.get d := by
  rw [input.get_min c, input.get_min d] at h ⊢
  have hc := Nat.min_le_right c input.before.size
  have hd := Nat.min_le_right d input.before.size
  generalize min c input.before.size = c at h hc ⊢
  generalize min d input.before.size = d at h hd ⊢
  rcases Nat.lt_trichotomy c d with hlt | rfl | hlt
  · exact absurd ((position_lt_iff hin.order hc hd).mpr hlt) (by rw [h]; exact Int.lt_irrefl _)
  · rfl
  · exact absurd ((position_lt_iff hin.order hd hc).mpr hlt) (by rw [h]; exact Int.lt_irrefl _)

end IsOrdered

end Input

/-- The memo holds what rules that only go on find on the tokens, each node behind a token at least. -/
structure Memo.IsOrderly (input : Input) (m : Memo) : Prop where
  goesOn : m.GoesOn input
  same : ∀ a, (Grammar.sideBySide input input input.before.size).SameFinding a.cursor (m.find? a) (m.find? a)

theorem Memo.isOrderly_empty {input : Input} : Memo.empty.IsOrderly input :=
  ⟨goesOn_empty, fun a => by rw [find?_empty]; exact .none⟩

/-- From a token on the memo holds no more than that rules cannot start with it. -/
def Memo.IsFresh (input : Input) (c : Nat) (m : Memo) : Prop :=
  ∀ a f, m.find? a = some f → a.cursor < c ∨ a.cursor = c ∧ f.IsIdle input a

namespace Memo.IsFresh

variable {input : Input} {c d : Nat} {m : Memo}

theorem le (h : m.IsFresh input c) {a : Attempt} {f : Finding} (hf : m.find? a = some f) : a.cursor ≤ c :=
  (h a f hf).elim Nat.le_of_lt fun h => Nat.le_of_eq h.1

theorem behind (h : m.IsFresh input c) (hd : c < d) : m.IsFresh input d :=
  fun _ _ hf => .inl (Nat.lt_of_le_of_lt (h.le hf) hd)

theorem isIdleAt (h : m.IsFresh input c) : m.IsIdleAt input c := by
  intro a f hf hc
  rcases h a f hf with h | h
  · omega
  · exact h.2

/-- Of an operand it holds nothing at a token that operands start with. -/
theorem find?_operand (h : m.IsFresh input c) (hk : (input.get c).kind ∈ Rule.starters) :
    m.find? ⟨.operand, c⟩ = none := by
  cases hf : m.find? ⟨.operand, c⟩ with
  | none => rfl
  | some f =>
    obtain h | ⟨-, h, -⟩ := h _ f hf
    · exact absurd h (Nat.lt_irrefl _)
    · exact absurd hk h

theorem store (h : m.IsFresh input d) {r : Rule} (hc : c < d) (f : Finding) : (m.store ⟨r, c⟩ f).IsFresh input d := by
  intro a g hg
  rw [find?_store] at hg
  split at hg
  next ha =>
    subst ha
    exact .inl hc
  next => exact h a g hg

end Memo.IsFresh

/-- All that the memo holds is of tokens up to the one of the error. -/
def Memo.IsUpTo (input : Input) (m : Memo) (e : SyntaxError) : Prop :=
  ∀ a f, m.find? a = some f → (input.get a.cursor).place.position ≤ e.place.position

theorem Memo.IsUpTo.store {input : Input} {m : Memo} {e : SyntaxError} {place : Attempt} (h : m.IsUpTo input e)
    (hp : (input.get place.cursor).place.position ≤ e.place.position) (f : Finding) :
    (m.store place f).IsUpTo input e := by
  intro a g hg
  rw [find?_store] at hg
  split at hg
  next ha => exact ha ▸ hp
  next => exact h a g hg

/-- A rule was refused for being nested too deeply, and not at a parenthesis that closes, where it would fail anyway. -/
def SyntaxError.IsRefusal (input : Input) (e : SyntaxError) : Prop :=
  ∃ c, (input.get c).kind ≠ Symbol.rparen ∧ e = .ofToken .tooDeep (input.get c)

theorem SyntaxError.not_isRefusal {e : SyntaxError} (h : ¬e.IsTooDeep) (input : Input) : ¬e.IsRefusal input := by
  rintro ⟨c, -, rfl⟩
  exact h ⟨_, rfl⟩

namespace Parse

variable {α : Type}

/-- The outcome of a nested rule seen from outside. -/
def Outcome.shallower : Outcome α → Outcome α
  | .ok value q => .ok value { q with depth := q.depth - 1 }
  | .failed failure q => .failed failure { q with depth := q.depth - 1 }

theorem Outcome.depth_shallower (o : Outcome α) : o.shallower.progress.depth = o.progress.depth - 1 := by
  cases o <;> rfl

theorem run_nested (rule : Parse α) (setup : Setup) (p : Progress) : (nested rule).run setup p =
    if setup.nesting.any (· ≤ p.depth) then (complain .tooDeep).run setup { p with refused := true }
    else (rule.run setup p.deeper).shallower := by
  simp only [nested]
  split
  · rfl
  · cases rule.run setup p.deeper <;> rfl

end Parse

namespace Grammar

variable {input : Input} {δ : Nat}

/-- What a call of a rule on a memo of its kind comes to. -/
structure RunsOrderly (input : Input) (r : Rule) (q : Progress) (o : Outcome Node) : Prop where
  memo : o.progress.memo.IsOrderly input
  cursor : o.progress.cursor ≤ input.before.size
  found : ∀ n q', o = .ok n q' → r ≠ .program → q.cursor < q'.cursor
  error : ∀ e q', o = .failed (.mismatch e) q' → input.IsFrom q.cursor e

theorem runsOrderly (hin : input.IsOrdered) {q : Progress} (hc : q.cursor ≤ input.before.size)
    (hm : q.memo.IsOrderly input) (b : Nat) (r : Rule) :
    RunsOrderly input r q ((rulesOn b r).run { input } q) := by
  have hfair := @isFair_sideBySide input input _ (Nat.le_refl _) (by rw [input.get_size, hin.last]) rfl
  have hmirror := mirrors_parse hfair (b := b) (r := r) (c := q.cursor) (.inl ⟨trivial, rfl⟩ : True ∧ _ ∨ _)
    q.depth q q ⟨rfl, rfl, hc, rfl, rfl, hm.same⟩
  have hgoes := @goesOn_parse { input } b r.surcharge r q.cursor q rfl hm.goesOn
  change RunsOrderly input r q ((parse b r.surcharge r).run { input } q)
  change Mirror.Agree _ True _ _ ((parse b r.surcharge r).run { input } q) _ at hmirror
  obtain ⟨d, hbeside⟩ := hmirror.beside
  refine ⟨⟨?_, hbeside.memo⟩, hbeside.cursor ▸ hbeside.le, fun n q' ho hr => ?_, fun e q' ho => ?_⟩
  · generalize (parse b r.surcharge r).run { input } q = o at hgoes
    cases o <;> exact hgoes.1
  · rw [ho] at hmirror
    generalize (parse b r.surcharge r).run _ q = o' at hmirror
    cases hmirror with
    | ok hb hn =>
      rw [hb.cursor]
      exact hn.2 hr
  · rw [ho] at hgoes
    exact hgoes.2

/-- Both stand side by side, the first with as many rules open as the second or with so many fewer. -/
structure Abreast (input : Input) (δ : Nat) (p q : Progress) : Prop where
  depth : p.depth + δ = q.depth
  deepest : p.deepest ≤ 256
  cursor : q.cursor ≤ input.before.size
  memo : q.memo.IsOrderly input
  fresh : q.memo.IsFresh input q.cursor

/-- A parse with neither a memo nor a bound beside one with both. -/
def kept (input : Input) (δ : Nat) : Comparison where
  subject := ⟨input, false, none⟩
  reference := { input }
  related := Abreast input δ
  escapes _ _ := False
  mayExhaust := True
  alike _ _ := True
  missed _ e' p q := p.depth + δ = q.depth ∧ q.memo.IsOrderly input ∧ q.memo.IsUpTo input e'
  lost := SyntaxError.IsRefusal input

theorem Abreast.isUpTo (hin : input.IsOrdered) {p q : Progress} (h : Abreast input δ p q) (complaint : Complaint) :
    q.memo.IsUpTo input (.ofToken complaint (input.get q.cursor)) :=
  fun _ _ hf => Input.position_le hin.order (h.fresh.le hf)

theorem isFair_kept (hin : input.IsOrdered) : (kept input δ).IsFair where
  input := rfl
  advance _ hk h :=
    ⟨h.depth, h.deepest, Input.lt_size_of_ne hin.last h.cursor hk, h.memo, h.fresh.behind (Nat.lt_succ_self _)⟩
  complain _ _ h := ⟨h.depth, h.memo, h.isUpTo hin _⟩

theorem steady_kept {α : Type} {step : Parse α} (h : ∀ a f, Tracks (keeping input a f) step step) :
    Steady (kept input δ) step :=
  ⟨fun _ h => h, (h ⟨.program, 0⟩ (.node (.program ⟨0, 0⟩ []) 0)).level⟩

/-- A rule that nests. Where the second parse is refused it the first goes on alone, but for a token where it fails. -/
theorem tracks_nested_kept (hin : input.IsOrdered) {r : Rule} (hr : r.isNested) {b : Nat} {rule : Parse Node}
    (h : Tracks (kept input δ) (body (rulesOn b) r) rule) :
    Tracks (kept input δ) (nested (body (rulesOn b) r)) (nested rule) := by
  refine ⟨⟨fun _ h => h, fun q => ?_⟩, fun p q hc hpq => ?_⟩
  · rw [run_nested]
    split
    · rfl
    · rw [Outcome.depth_shallower, h.level]
      rfl
  have hdepth := hpq.depth
  have hdeepest := hpq.deepest
  rw [run_nested, run_nested, if_neg (show ¬(kept input δ).subject.nesting.any _ = true from Bool.false_ne_true)]
  split
  next hrefused =>
    by_cases hk : (input.get q.cursor).kind = Symbol.rparen
    · obtain ⟨p', hp'⟩ | ⟨e, p', hp', -, -, hd, -⟩ := @failsAt_nestedBody ⟨input, false, none⟩ _ _ hr hk b p.deeper hc
        (fun h => absurd h Bool.false_ne_true)
      · change (kept input δ).Agree (Outcome.shallower (Parse.run _ ⟨input, false, none⟩ _)) _
        rw [hp']
        exact .exhausts trivial
      · change (kept input δ).Agree (Outcome.shallower (Parse.run _ ⟨input, false, none⟩ _)) _
        rw [hp']
        refine .mismatch ⟨?_, hpq.memo, hpq.isUpTo hin _⟩
        change p'.depth - 1 + δ = q.depth
        rw [hd]
        exact hdepth
    · exact .lost ⟨q.cursor, hk, rfl⟩
  next hroom =>
    have hroom : q.depth < 256 := by
      change ¬(some 256).any (· ≤ q.depth) = true at hroom
      simpa using hroom
    have hlevel := h.level q.deeper
    have hdeeper : Abreast input δ p.deeper q.deeper := by
      refine ⟨?_, ?_, hpq.cursor, hpq.memo, hpq.fresh⟩
      · change p.depth + 1 + δ = q.depth + 1
        omega
      · change max p.deepest (p.depth + 1) ≤ 256
        omega
    have hagree := h.agree p.deeper q.deeper hc hdeeper
    generalize (body (rulesOn b) r).run (kept input δ).subject p.deeper = o at hagree ⊢
    generalize rule.run (kept input δ).reference q.deeper = o' at hagree hlevel ⊢
    change o'.progress.depth = q.depth + 1 at hlevel
    cases hagree with
    | escaped h => exact h.elim
    | lost h => exact .lost h
    | exhausted => exact .exhausted
    | exhausts h => exact .exhausts h
    | @found v p' q' hc' h =>
      refine .found hc' ⟨?_, h.deepest, h.cursor, h.memo, h.fresh⟩
      have hd := h.depth
      change q'.depth = q.depth + 1 at hlevel
      change p'.depth - 1 + δ = q'.depth - 1
      omega
    | @mismatch e e' p' q' h =>
      refine .mismatch ⟨?_, h.2⟩
      have hd := h.1
      change q'.depth = q.depth + 1 at hlevel
      change p'.depth - 1 + δ = q'.depth - 1
      omega

/-- A remembered rule. What the memo holds of it at the token is that it fails there, and so it does without a memo. -/
theorem tracks_remembered_kept (hin : input.IsOrdered) {r : Rule} (hr : r.isRemembered) {b b' : Nat}
    (h : Tracks (kept input δ) (content b r) (content b' r)) :
    Tracks (kept input δ) (parse (b + 1) 0 r) (parse (b' + 1) 0 r) := by
  refine ⟨steady_kept fun _ _ => tracks_keeping _ _ _ r, fun p q hc hpq => ?_⟩
  have hrules (n : Nat) : parse (n + 1) 0 r = rulesOn (n + 1 + r.surcharge) r := by
    rw [rulesOn, parse_due (n + 1 + r.surcharge), Nat.add_sub_cancel]
  have hruns := runsOrderly hin hpq.cursor hpq.memo (b' + 1 + r.surcharge) r
  change (kept input δ).Agree ((parse (b + 1) 0 r).run ⟨input, false, none⟩ p) ((parse (b' + 1) 0 r).run { input } q)
  rw [← hrules, parse_content, if_pos hr] at hruns
  rw [parse_content b', if_pos hr]
  rcases run_remembered r (content b' r) { input } q with ⟨-, f, hf, hrun⟩ | ⟨hnone, hrun⟩
  · rw [hrun]
    obtain hlt | ⟨-, hk, e, rfl, he, -⟩ := hpq.fresh _ f hf
    · exact absurd hlt (Nat.lt_irrefl _)
    · rw [hrules b]
      obtain ⟨p', hp'⟩ | ⟨e', p', hp', -, -, hd, -⟩ := @failsAt_remembered ⟨input, false, none⟩ _ _ hr hk
        (b + 1 + r.surcharge) p hc (fun h => absurd h Bool.false_ne_true)
      · rw [hp']
        exact .exhausts trivial
      · rw [hp']
        refine .mismatch ⟨hd ▸ hpq.depth, hpq.memo, fun a f hf => ?_⟩
        rw [he]
        exact Input.position_le hin.order (hpq.fresh.le hf)
  · rw [parse_content b, if_pos hr, run_remembered_miss (fun h => absurd h Bool.false_ne_true), hc, hrun]
    rw [hrun] at hruns
    refine (h.agree p q hc hpq).stored _ (fun _ _ h => h) (fun v p' q' _ hq _ h => ?_) fun e e' p' q' _ hq h => ?_
    · change (content b' r).run { input } q = _ at hq
      rw [hq] at hruns
      have hlt := hruns.found v _ rfl (by rintro rfl; cases hr)
      exact ⟨h.depth, h.deepest, h.cursor, hruns.memo, h.fresh.store hlt _⟩
    · change (content b' r).run { input } q = _ at hq
      rw [hq] at hruns
      exact ⟨h.1, hruns.memo, h.2.2.store ((hruns.error e' _ rfl).position_le hin.order) _⟩

/-- An expression. The complaint about what cannot be assigned to is about the sign, up to which the memo goes. -/
theorem tracks_expression_kept (hin : input.IsOrdered) {self : Rule → Parse Node} {b : Nat}
    (h : ∀ r, Tracks (kept input δ) (self r) (rulesOn b r)) :
    Tracks (kept input δ) (expression self) (expression (rulesOn b)) := by
  refine ⟨steady_kept fun _ _ => tracks_expression isFair_keeping (fun r => tracks_keeping _ _ _ r) retries_keeping,
    fun p q hc hpq => ?_⟩
  refine Tracks.agree_bind ((h .operand).agree p q hc hpq) (fun _ _ h => h) fun left p' q' _ _ hc hpq => ?_
  refine Tracks.agree_bind ((Tracks.accept (isFair_kept hin) [Symbol.assign]).agree p' q' hc hpq) (fun _ _ h => h)
    fun sign p'' q'' _ hq hc hpq' => ?_
  cases sign with
  | none => exact .found hc hpq'
  | some assign =>
    obtain ⟨rfl, hmemo⟩ : assign = input.get q'.cursor ∧ q''.memo = q'.memo := by
      change (accept _).run { input } q' = _ at hq
      rw [run_accept] at hq
      split at hq
      · cases hq
        exact ⟨rfl, by unfold Progress.pastToken; split <;> rfl⟩
      · cases hq
    simp only [toTarget]
    split
    · exact ((h .expression).bind fun _ => Tracks.pure _).agree p'' q'' hc hpq'
    · exact .mismatch ⟨hpq'.depth, hpq'.memo, hmemo ▸ hpq.isUpTo hin _⟩

end Grammar

end MagSyntax
