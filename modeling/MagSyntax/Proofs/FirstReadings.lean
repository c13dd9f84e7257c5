import MagSyntax.Proofs.KeptNesting
import MagSyntax.Proofs.OperandHeads

/-! The first form of an `if` that fails behind its condition. It has read an operand from the token behind that, and
either this has failed, or the form does not get past the token that the operand ends at, or it goes on there with a sign
or a word that no other form has. -/

namespace MagSyntax

open Parse

/-- The memo has only grown, and only at certain tokens. -/
structure Memo.Grows (at_ : Nat → Prop) (m m' : Memo) : Prop where
  keeps : m.Extends m'
  news : ∀ a f, m'.find? a = some f → m.find? a = some f ∨ at_ a.cursor

namespace Memo.Grows

variable {at_ : Nat → Prop} {m m' m'' : Memo}

theorem refl (at_ : Nat → Prop) (m : Memo) : Grows at_ m m := ⟨.refl m, fun _ _ => .inl⟩

theorem mono {at' : Nat → Prop} (h : Grows at_ m m') (ha : ∀ c, at_ c → at' c) : Grows at' m m' :=
  ⟨h.keeps, fun a f hf => (h.news a f hf).imp_right (ha _)⟩

theorem trans (h : Grows at_ m m') (h' : Grows at_ m' m'') : Grows at_ m m'' :=
  ⟨h.keeps.trans h'.keeps, fun a f hf => (h'.news a f hf).elim (h.news a f) .inr⟩

theorem store (h : Grows at_ m m') {place : Attempt} (hnone : m'.find? place = none) (hp : at_ place.cursor)
    (f : Finding) : Grows at_ m (m'.store place f) := by
  refine ⟨fun a g hg => ?_, fun a g hg => ?_⟩
  · have hg := h.keeps a g hg
    rw [find?_store, if_neg]
    · exact hg
    · rintro rfl
      rw [hnone] at hg
      cases hg
  · rw [find?_store] at hg
    split at hg
    next ha => exact .inr (ha ▸ hp)
    next => exact h.news a g hg

/-- Where it has not grown it holds what it did. -/
theorem find?_eq (h : Grows at_ m m') {a : Attempt} (ha : ¬at_ a.cursor) : m'.find? a = m.find? a := by
  cases hf : m'.find? a with
  | some f => exact ((h.news a f hf).resolve_right ha).symm
  | none =>
    cases hf' : m.find? a with
    | none => rfl
    | some f =>
      rw [h.keeps a f hf'] at hf
      cases hf

end Memo.Grows

namespace Grammar

variable {α β : Type} {input : Input}

/-- The same step of expressions on whatever budgets, that of the second one bounded. -/
def Alike (b : Nat) (step step' : Parse α) : Prop := ∀ k, ReadsValues k b → Tracks k step step'

theorem readsValues_keeping (a : Attempt) (f : Finding) (b : Nat) : ReadsValues (keeping input a f) b :=
  ⟨isFair_keeping, trivial, fun _ _ _ _ _ => tracks_keeping _ _ _ _⟩

theorem readsValues_onward (base : Nat) (m : Memo) (b : Nat) : ReadsValues (onward input base m) b :=
  ⟨isFair_onward, trivial, fun _ _ _ _ _ => tracks_onward _ _ _ _⟩

theorem readsValues_replaying (m : Memo) (b : Nat) : ReadsValues (replaying input m) b :=
  ⟨isFair_replaying, trivial, fun _ _ _ _ hr => tracks_replaying _ _ _ _ (.inl hr)⟩

/-- A step that only adds to the memo, and only from its first token on. -/
structure AddsOn (input : Input) (step : Parse α) : Prop where
  keeping : ∀ a f, Tracks (keeping input a f) step step
  onward : ∀ base m, Tracks (onward input base m) step step

theorem Alike.addsOn {b : Nat} {step : Parse α} (h : Alike b step step) (input : Input) : AddsOn input step :=
  ⟨fun a f => h _ (readsValues_keeping a f b), fun base m => h _ (readsValues_onward base m b)⟩

theorem addsOn_rulesOn (b : Nat) (r : Rule) : AddsOn input (rulesOn b r) :=
  ⟨fun _ _ => tracks_keeping _ _ _ _, fun _ _ => tracks_onward _ _ _ _⟩

theorem AddsOn.bind {first : Parse α} {next : α → Parse β} (h : AddsOn input first)
    (hn : ∀ v, AddsOn input (next v)) : AddsOn input (first >>= next) :=
  ⟨fun a f => (h.keeping a f).bind fun v => (hn v).keeping a f,
    fun base m => (h.onward base m).bind fun v => (hn v).onward base m⟩

theorem AddsOn.pure (v : α) : AddsOn input (pure v : Parse α) := ⟨fun _ _ => .pure v, fun _ _ => .pure v⟩

theorem AddsOn.expect (kind : TokenKind) (complaint : Complaint) : AddsOn input (expect kind complaint) :=
  ⟨fun _ _ => .expect isFair_keeping _ _, fun _ _ => .expect isFair_onward _ _⟩

theorem AddsOn.level {step : Parse α} (h : AddsOn input step) (q : Progress) :
    (step.run { input } q).progress.depth = q.depth :=
  (h.keeping ⟨.program, 0⟩ (.node (.program ⟨0, 0⟩ []) 0)).level q

theorem AddsOn.grows {step : Parse α} (h : AddsOn input step) {q : Progress} (hm : q.memo.GoesOn input) :
    (∃ p, step.run { input } q = .failed .exhausted p) ∨
      Memo.Grows (q.cursor ≤ ·) q.memo (step.run { input } q).progress.memo := by
  refine (sameBefore_run hm (h.onward _ _)).imp_right fun hsame => ⟨extends_run h.keeping q, fun a f hf => ?_⟩
  rcases Nat.lt_or_ge a.cursor q.cursor with hlt | hge
  · exact .inl ((hsame a hlt).trans hf)
  · exact .inr hge

/-- Nothing is known yet of the token where it stands, nor of any behind it. -/
structure Fresh (input : Input) (s : Progress) : Prop where
  cursor : s.cursor ≤ input.before.size
  memo : s.memo.IsOrderly input
  before : ∀ a f, s.memo.find? a = some f → a.cursor < s.cursor

theorem Fresh.find? {s : Progress} (h : Fresh input s) (r : Rule) : s.memo.find? ⟨r, s.cursor⟩ = none := by
  cases hf : s.memo.find? ⟨r, s.cursor⟩ with
  | none => rfl
  | some f => exact absurd (h.before _ f hf) (Nat.lt_irrefl _)

/-- What an operand from a token on comes to in a form that then fails with an error and leaves a memo. -/
inductive InFailed (input : Input) (x : Nat) (e₁ : SyntaxError) (m₁ : Memo) : Outcome α → Prop
  | failed {q : Progress} (h : Memo.Grows (· = x) q.memo m₁) : InFailed input x e₁ m₁ (.failed (.mismatch e₁) q)
  | stopped {v : α} {q : Progress} (hx : x < q.cursor) (he : e₁.place = (input.get q.cursor).place)
    (hn : ¬e₁.IsTooDeep) (h : Memo.Grows (· = x) q.memo m₁) : InFailed input x e₁ m₁ (.ok v q)
  | went {v : α} {q : Progress} (hx : x < q.cursor)
    (hle : (input.get q.cursor).place.position ≤ e₁.place.position)
    (hk : (input.get q.cursor).kind = Symbol.assign ∨ (input.get q.cursor).kind = Keyword.elseWord)
    (h : Memo.Grows (fun c => c = x ∨ q.cursor ≤ c) q.memo m₁) : InFailed input x e₁ m₁ (.ok v q)

namespace InFailed

variable {x : Nat} {e₁ : SyntaxError} {m₁ : Memo}

theorem keeps {o : Outcome α} (h : InFailed input x e₁ m₁ o) : o.progress.memo.Extends m₁ := by
  cases h with
  | failed h => exact h.keeps
  | stopped _ _ _ h => exact h.keeps
  | went _ _ _ h => exact h.keeps

theorem of_map {step : Parse α} {f : α → β} {q : Progress}
    (h : InFailed input x e₁ m₁ ((step >>= fun v => pure (f v)).run { input } q)) :
    InFailed input x e₁ m₁ (step.run { input } q) := by
  rw [run_bind] at h
  generalize step.run { input } q = o at h
  cases o with
  | failed f q =>
    cases h with
    | failed h => exact .failed h
  | ok v q =>
    cases h with
    | stopped hx he hn h => exact .stopped hx he hn h
    | went hx hle hk h => exact .went hx hle hk h

theorem of_bind {first : Parse α} {next : α → Parse β} {q : Progress}
    (h : InFailed input x e₁ m₁ ((first >>= next).run { input } q)) :
    (∃ q', first.run { input } q = .failed (.mismatch e₁) q' ∧ Memo.Grows (· = x) q'.memo m₁) ∨
      ∃ v q', first.run { input } q = .ok v q' ∧ InFailed input x e₁ m₁ ((next v).run { input } q') := by
  rw [run_bind] at h
  generalize first.run { input } q = o at h
  cases o with
  | failed f q =>
    cases h with
    | failed h => exact .inl ⟨q, rfl, h⟩
  | ok v q => exact .inr ⟨v, q, rfl, h⟩

/-- The error is about no token before one that the operand goes on from. -/
theorem position_le (hin : input.IsOrdered) {step : Parse α} {s : Progress}
    (h : InFailed input x e₁ m₁ (step.run { input } s)) (hs : s.memo.GoesOn input)
    (hc : Finds { input } (Memo.GoesOn input) (Failure.Misses (input.IsFrom s.cursor)) step s.cursor
      fun _ d => s.cursor ≤ d) :
    (input.get s.cursor).place.position ≤ e₁.place.position := by
  have hfinds := hc s rfl hs
  generalize step.run { input } s = o at h hfinds
  cases h with
  | failed =>
    have he : input.IsFrom s.cursor e₁ := hfinds.2
    exact he.position_le hin.order
  | stopped _ he =>
    rw [he]
    exact Input.position_le hin.order hfinds.2
  | went _ hle => exact Int.le_trans (Input.position_le hin.order hfinds.2) hle

/-- What is known of a token that the operand has gone past is not of that form. -/
theorem find?_eq {step : Parse α} {s : Progress} (h : InFailed input x e₁ m₁ (step.run { input } s))
    (ha : AddsOn input step) (hs : s.memo.GoesOn input)
    (hc : Finds { input } (Memo.GoesOn input) (Failure.Misses (input.IsFrom s.cursor)) step s.cursor
      fun _ d => s.cursor ≤ d) {a : Attempt} (hx : a.cursor ≠ x) (hlt : a.cursor < s.cursor) :
    m₁.find? a = s.memo.find? a := by
  have hfinds := hc s rfl hs
  have hgrows := ha.grows hs
  generalize step.run { input } s = o at h hfinds hgrows
  obtain ⟨q, rfl⟩ | hgrows := hgrows
  · cases h
  have hstart := hgrows.find?_eq (a := a) (Nat.not_le_of_lt hlt)
  cases h with
  | failed h => exact (h.find?_eq hx).trans hstart
  | stopped _ _ _ h => exact (h.find?_eq hx).trans hstart
  | went _ _ _ h =>
    exact (h.find?_eq fun h => h.elim hx (Nat.not_le_of_lt (Nat.lt_of_lt_of_le hlt hfinds.2))).trans hstart

end InFailed

section

variable {b : Nat} {r : Rule} {s : Progress}

theorem rulesOn_content (b : Nat) (r : Rule) : rulesOn b r = fail .exhausted ∨
    ∃ n ≤ b, rulesOn b r = if r.isRemembered then remembered r (content n r) else content n r := by
  rw [rulesOn, parse_due]
  cases hd : b - r.surcharge with
  | zero => exact .inl rfl
  | succ n => exact .inr ⟨n, by omega, parse_content n r⟩

/-- A remembered rule that is not known at the token is its content, stored. -/
theorem run_fresh (input : Input) (hr : r.isRemembered) (hs : s.memo.find? ⟨r, s.cursor⟩ = none) (b : Nat) :
    (∃ q, (rulesOn b r).run { input } s = .failed .exhausted q) ∨
      ∃ n ≤ b, (rulesOn b r).run { input } s = ((content n r).run { input } s).stored ⟨r, s.cursor⟩ := by
  obtain h | ⟨n, hn, h⟩ := rulesOn_content b r
  · exact .inl ⟨s, by rw [h, run_fail]⟩
  · exact .inr ⟨n, hn, by rw [h, if_pos hr, run_remembered_miss fun _ => hs]⟩

/-- The content of a nested rule where there is room for one more. -/
theorem run_content_nested (hr : r.isNested) (hd : s.depth < 256) (n : Nat) : (content n r).run { input } s =
    ((body (rulesOn n) r).run { input } s.deeper).shallower := by
  rw [content, counted, if_pos hr, run_nested, if_neg]
  · rfl
  · simpa using hd

end

end Grammar

/-- The kinds of tokens that an operand starts with and goes on with as well. -/
def Rule.twofold : List TokenKind := [Symbol.lbrack, Symbol.lparen, Symbol.sub]

namespace Grammar

variable {input : Input} {s : Progress}

theorem alike_behind {b u : Nat} {l : Layers} (hl : l.Within b) (hu : u ≤ b) :
    Alike b (l.behind (rounds >>= links (rulesOn u))) (l.behind (rounds >>= links (rulesOn u))) := fun _ hv =>
  Layers.tracks_behind hv hl (Tracks.rounds_left fun n => Tracks.rounds_right fun n' =>
    tracks_links hv.fair hv.mayExhaust (hv.rule _ _ _ hu rfl) n n')

theorem AddsOn.listBehind {b v : Nat} (hv : v ≤ b) (close : Symbol) (bound : Nat) (first : Node) :
    AddsOn input (listBehind close (rulesOn v .expression) bound first) :=
  Alike.addsOn (b := b) (fun _ hk => tracks_listBehind hk (hk.rule _ _ _ hv rfl) bound bound first) input

/-- An operand that starts with such a token leaves nothing in the memo about that. -/
theorem operand_grows (hs : s.memo.GoesOn input) (hk : (input.get s.cursor).kind ∈ Rule.twofold) (b : Nat) :
    (∃ q, (content b .operand).run { input } s = .failed .exhausted q) ∨
      Memo.Grows (s.cursor + 1 ≤ ·) s.memo ((content b .operand).run { input } s).progress.memo := by
  have hgrows {step : Parse Node} {d : Nat} (hd : s.cursor + 1 ≤ d) (h : AddsOn input step)
      (hrun : (content b .operand).run { input } s = step.run { input } { s with cursor := d }) :
      (∃ q, (content b .operand).run { input } s = .failed .exhausted q) ∨
        Memo.Grows (s.cursor + 1 ≤ ·) s.memo ((content b .operand).run { input } s).progress.memo := by
    rw [hrun]
    exact (h.grows (q := { s with cursor := d }) hs).imp_right fun h => h.mono fun _ hc => Nat.le_trans hd hc
  simp only [Rule.twofold, List.mem_cons, List.not_mem_nil, or_false] at hk
  rcases hk with hk | hk | hk
  · obtain h | ⟨l, hl, u, hu, v, hv, h⟩ := @run_operand_list { input } s b hk
    · exact .inl h
    have hne : (input.get s.cursor).kind ≠ .eof := by
      rw [hk]
      exact TokenKind.noConfusion
    by_cases hk' : (input.get (s.cursor + 1)).kind = Symbol.rbrack
    · rw [run_bind, run_delimited_nil rfl _ hne hk'] at h
      exact hgrows (Nat.le_succ _) (((alike_behind hl hu).addsOn input).bind fun _ => .pure _) h
    · obtain ⟨bound, hlist⟩ := @run_delimited { input } s _ rfl (rulesOn v .expression) hne hk'
      refine hgrows (Nat.le_refl _) ?_ (h.trans ((run_bind_congr hlist _).trans (run_congr (bind_assoc _ _ _))))
      exact (addsOn_rulesOn v .expression).bind fun _ => (AddsOn.listBehind hv _ _ _).bind fun _ =>
        ((alike_behind hl hu).addsOn input).bind fun _ => .pure _
  · obtain h | ⟨l, hl, u, hu, v, hv, h⟩ := @run_operand_group { input } s b hk
    · exact .inl h
    · refine hgrows (Nat.le_refl _) ?_ h
      exact (addsOn_rulesOn v .expression).bind fun _ => (AddsOn.expect _ _).bind fun _ =>
        ((alike_behind hl hu).addsOn input).bind fun _ => .pure _
  · obtain h | ⟨l, hl, h⟩ := @run_operand_signed { input } s b hk
    · exact .inl h
    · refine hgrows (Nat.le_refl _) ?_ h
      refine AddsOn.bind (Alike.addsOn (b := b) (fun _ hv => ?_) input) fun _ => .pure _
      exact Layers.tracks_chained hv hl (hv.rule _ _ _ hl.unary rfl) (Layers.tracks_summands hv hl)

theorem Fresh.deeper (hs : Fresh input s) : Fresh input s.deeper := ⟨hs.cursor, hs.memo, hs.before⟩

/-- An operand that is not known at the token is its content, stored, and this is behind the token where it ends. -/
theorem operand_fresh (hin : input.IsOrdered) (hs : Fresh input s) (b : Nat) :
    (∃ q, (rulesOn b .operand).run { input } s = .failed .exhausted q) ∨
      ∃ n ≤ b, (rulesOn b .operand).run { input } s =
          ((content n .operand).run { input } s).stored ⟨.operand, s.cursor⟩ ∧
        ∀ v q, (content n .operand).run { input } s = .ok v q → s.cursor < q.cursor := by
  refine (run_fresh input (r := .operand) rfl (hs.find? .operand) b).imp_right ?_
  rintro ⟨n, hn, h⟩
  refine ⟨n, hn, h, fun v q ho => ?_⟩
  rw [ho] at h
  exact (runsOrderly hin hs.cursor hs.memo b .operand).found v
    { q with memo := q.memo.store ⟨.operand, s.cursor⟩ (.node v q.cursor) } h (by decide)

/-- Nothing is known yet of a token either when only more is known of tokens behind it. -/
theorem Fresh.find?_of_grows (hs : Fresh input s) {m : Memo} (hm : Memo.Grows (s.cursor + 1 ≤ ·) s.memo m) (r : Rule) :
    m.find? ⟨r, s.cursor⟩ = none :=
  (hm.find?_eq (Nat.not_succ_le_self _)).trans (hs.find? r)

theorem Fresh.grows_store (hs : Fresh input s) {m : Memo} (hm : Memo.Grows (s.cursor + 1 ≤ ·) s.memo m) {r r' : Rule}
    (hr : r ≠ r') (f g : Finding) :
    Memo.Grows (· = s.cursor) m ((m.store ⟨r, s.cursor⟩ f).store ⟨r', s.cursor⟩ g) := by
  refine ((Memo.Grows.refl (· = s.cursor) m).store (hs.find?_of_grows hm r) rfl f).store ?_ rfl g
  rw [Memo.find?_store, if_neg fun h => hr (Attempt.mk.inj h).1]
  exact hs.find?_of_grows hm r'

/-- What is behind the operand of a statement. -/
def statementEnd (value : Node) : Parse Node := do
  if ← sees Symbol.assign then complain .bareAssignment
  expect Symbol.semi .statementEnd
  return .expressionStatement value.loc value

theorem expressionStatement_eq (self : Rule → Parse Node) :
    expressionStatement self = self .operand >>= statementEnd := rfl

/-- A statement does not end at the token, and this is the complaint. -/
theorem statementEnd_mismatch {v : Node} {p q : Progress} {e : SyntaxError}
    (h : (statementEnd v).run { input } p = .failed (.mismatch e) q) :
    q = p ∧ ∃ complaint ≠ Complaint.tooDeep, e = .ofToken complaint (input.get p.cursor) := by
  rw [statementEnd, run_sees_bind] at h
  by_cases hassign : (input.get p.cursor).kind = Symbol.assign
  · rw [decide_eq_true hassign] at h
    cases h
    exact ⟨rfl, .bareAssignment, by decide, rfl⟩
  · rw [decide_eq_false hassign] at h
    simp only [Bool.false_eq_true, if_false] at h
    by_cases hsemi : (input.get p.cursor).kind = Symbol.semi
    · rw [run_expect_bind hsemi] at h
      cases h
    · rw [run_expect_miss hsemi] at h
      cases h
      exact ⟨rfl, .statementEnd, by decide, rfl⟩

/-- An operand in a statement that fails. -/
theorem inFailed_statement (hin : input.IsOrdered) (hs : Fresh input s) (hd : s.depth < 256)
    (hk : (input.get s.cursor).kind ∈ Rule.twofold) {b : Nat} {e₁ : SyntaxError} {s₁ : Progress}
    (hrun : (rulesOn b .statement).run { input } s = .failed (.mismatch e₁) s₁) :
    ∃ n ≤ b, InFailed input s.cursor e₁ s₁.memo ((content n .operand).run { input } s.deeper) := by
  obtain ⟨q, h⟩ | ⟨n, hn, h⟩ := run_fresh input (r := .statement) rfl (hs.find? .statement) b
  · cases h.symm.trans hrun
  rw [h, run_content_nested rfl hd] at hrun
  have hbody : (body (rulesOn n) .statement).run { input } s.deeper =
      (rulesOn n .expressionStatement).run { input } s.deeper := by
    have hcurrent : current.run { input } s.deeper = .ok (input.get s.cursor) s.deeper := rfl
    rw [body, statement, run_bind, hcurrent]
    dsimp only
    split
    next hk' => exact absurd (hk' ▸ hk) (by decide)
    next hk' => exact absurd (hk' ▸ hk) (by decide)
    next hk' => exact absurd (hk' ▸ hk) (by decide)
    next hk' => exact absurd (hk' ▸ hk) (by decide)
    next => rfl
  obtain h | ⟨n', hn', h⟩ := rulesOn_open (r := .expressionStatement) rfl rfl n
  · rw [hbody, h] at hrun
    cases hrun
  rw [hbody, h, body, expressionStatement_eq, run_bind] at hrun
  obtain ⟨q, h⟩ | ⟨n'', hn'', h, hfound⟩ := operand_fresh hin hs.deeper n'
  · rw [h] at hrun
    cases hrun
  rw [h] at hrun
  obtain ⟨q, hgrows⟩ | hgrows := operand_grows (s := s.deeper) hs.memo.goesOn hk n''
  · rw [hgrows] at hrun
    cases hrun
  refine ⟨n'', Nat.le_trans hn'' (Nat.le_trans hn' hn), ?_⟩
  generalize (content n'' .operand).run { input } s.deeper = o at hrun hgrows hfound ⊢
  rcases o with ⟨v, q⟩ | ⟨e | _ | _, q⟩
  · dsimp only [Outcome.stored] at hrun
    generalize hq' : ({ q with memo := _ } : Progress) = q' at hrun
    rcases hend : (statementEnd v).run { input } q' with ⟨n, p⟩ | ⟨e | _ | _, p⟩ <;> rw [hend] at hrun <;> cases hrun
    obtain ⟨rfl, complaint, hdeep, rfl⟩ := statementEnd_mismatch hend
    subst hq'
    exact .stopped (hfound v q rfl) rfl (SyntaxError.not_isTooDeep hdeep _) (hs.grows_store hgrows (by decide) _ _)
  · cases hrun
    exact .failed (hs.grows_store hgrows (by decide) _ _)
  · cases hrun
  · cases hrun

/-- What is behind the operand of an expression. -/
def assigned (self : Rule → Parse Node) (left : Node) : Parse Node := do
  match ← accept [Symbol.assign] with
  | none => return left
  | some assign =>
    let target ← toTarget left assign
    let right ← self .expression
    return .assignment left.loc target right "="

theorem expression_eq (self : Rule → Parse Node) : expression self = self .operand >>= assigned self := rfl

theorem addsOn_assigned (b : Nat) (left : Node) : AddsOn input (assigned (rulesOn b) left) := by
  have haccept : AddsOn input (accept [TokenKind.symbol .assign]) :=
    ⟨fun _ _ => .accept isFair_keeping _, fun _ _ => .accept isFair_onward _⟩
  refine haccept.bind fun sign => ?_
  cases sign with
  | none => exact .pure _
  | some assign =>
    refine AddsOn.bind ?_ fun target => (addsOn_rulesOn b .expression).bind fun right => .pure _
    unfold toTarget
    split
    · exact .pure _
    · exact ⟨fun _ _ => .mismatch retries_keeping rfl, fun _ _ => .mismatch retries_onward rfl⟩

theorem finds_assigned (b : Nat) (left : Node) (c : Nat) : Finds { input } (Memo.GoesOn input)
    (Failure.Misses (input.IsFrom c)) (assigned (rulesOn b) left) c fun _ d => c ≤ d := by
  have hself (r : Rule) : GoesOn { input } (Memo.GoesOn input) r (rulesOn b r) := goesOn_parse _ _ r
  unfold assigned
  rw [finds_accept_bind]
  split
  next =>
    have hafter := input.le_after c
    simp only [toTarget]
    split
    next =>
      rw [finds_pure_bind]
      exact (GoesOn.call hself .expression hafter).bind fun right stop hs => finds_pure (Nat.le_trans hafter hs.le)
    next => exact finds_fail_bind (Input.isFrom_ofToken (Nat.le_refl c) _)
  next => exact finds_pure (Nat.le_refl c)

/-- What is behind the first branch of an `if` with a value. -/
def otherBranch (self : Rule → Parse Node) (f : Node → β) : Parse β := do
  requireElse
  let alternate ← self .expression
  return f alternate

theorem addsOn_otherBranch (b : Nat) (f : Node → β) : AddsOn input (otherBranch (rulesOn b) f) :=
  (AddsOn.expect _ _).bind fun _ => (addsOn_rulesOn b .expression).bind fun _ => .pure _

theorem finds_otherBranch (b : Nat) (f : Node → β) (c : Nat) : Finds { input } (Memo.GoesOn input)
    (Failure.Misses (input.IsFrom c)) (otherBranch (rulesOn b) f) c fun _ d => c ≤ d := by
  have hself (r : Rule) : GoesOn { input } (Memo.GoesOn input) r (rulesOn b r) := goesOn_parse _ _ r
  refine finds_expect_bind_of (fun _ => ?_) fun _ => Input.isFrom_ofToken (Nat.le_refl c) _
  have hafter := input.le_after c
  exact (GoesOn.call hself .expression hafter).bind fun alternate stop hs => finds_pure (Nat.le_trans hafter hs.le)

/-- A step that fails about no token before one and has added to the memo from there on. -/
theorem fails_from (hin : input.IsOrdered) {step : Parse β} (ha : AddsOn input step) {c : Nat} {p s₁ : Progress}
    {e₁ : SyntaxError} (hp : p.memo.GoesOn input) (hc : c ≤ p.cursor)
    (hfinds : Finds { input } (Memo.GoesOn input) (Failure.Misses (input.IsFrom p.cursor)) step p.cursor
      fun _ d => p.cursor ≤ d)
    (hrun : step.run { input } p = .failed (.mismatch e₁) s₁) :
    (input.get c).place.position ≤ e₁.place.position ∧ Memo.Grows (c ≤ ·) p.memo s₁.memo := by
  have hfinds := hfinds p rfl hp
  have hgrows := ha.grows hp
  rw [hrun] at hfinds hgrows
  have he : input.IsFrom p.cursor e₁ := hfinds.2
  refine ⟨(he.mono hc).position_le hin.order, ?_⟩
  obtain ⟨q, hq⟩ | hgrows := hgrows
  · cases hq
  · exact hgrows.mono fun _ h => Nat.le_trans hc h

section

variable {b b' n : Nat} {f : Node → Node → β} {e₁ : SyntaxError} {s₁ q q' : Progress} {v : Node}
  (hcursor : q'.cursor = q.cursor) (hx : s.cursor < q.cursor)
  (hstored : Memo.Grows (· = s.cursor) q.memo q'.memo)
  (hnone : q'.memo.find? ⟨.expression, s.cursor⟩ = none)
  (hruns : RunsOrderly input .expression s ((rulesOn b .expression).run { input } s))
  (h : (rulesOn b .expression).run { input } s =
    ((assigned (rulesOn n) v).run { input } q').shallower.stored ⟨.expression, s.cursor⟩)
  (hrun : (rulesOn b .expression >>= fun consequent => otherBranch (rulesOn b') (f consequent)).run { input } s =
    .failed (.mismatch e₁) s₁)
include hcursor hx hstored hnone hruns h hrun

/-- An operand of such a form that something is assigned to. -/
theorem inFailed_assigned (hin : input.IsOrdered) (hgoes : q'.memo.GoesOn input)
    (hassign : (input.get q.cursor).kind = Symbol.assign) : InFailed input s.cursor e₁ s₁.memo (.ok v q) := by
  have hat (c : Nat) (hc : c = s.cursor) : c = s.cursor ∨ q.cursor ≤ c := .inl hc
  have hbehind (c : Nat) (hc : q.cursor ≤ c) : c = s.cursor ∨ q.cursor ≤ c := .inr hc
  have hgrows := (addsOn_assigned n v).grows hgoes
  have hfinds := finds_assigned n v q'.cursor q' rfl hgoes
  rw [run_bind] at hrun
  generalize (assigned (rulesOn n) v).run { input } q' = o at h hgrows hfinds
  obtain ⟨p, rfl⟩ | hgrows := hgrows
  · rw [h] at hrun
    cases hrun
  rw [hcursor] at hgrows
  have hnone' : o.progress.memo.find? ⟨.expression, s.cursor⟩ = none :=
    (hgrows.find?_eq (Nat.not_le_of_lt hx)).trans hnone
  have hsofar : Memo.Grows (fun c => c = s.cursor ∨ q.cursor ≤ c) q.memo o.progress.memo :=
    (hstored.mono hat).trans (hgrows.mono hbehind)
  rcases o with ⟨v', p⟩ | ⟨e | _ | _, p⟩
  · rw [h] at hrun hruns
    dsimp only [Outcome.shallower, Outcome.stored] at hrun hruns
    have hle : q.cursor ≤ p.cursor := hcursor ▸ hfinds.2
    have hrest := fails_from hin (addsOn_otherBranch b' (f v')) hruns.memo.goesOn hle (finds_otherBranch b' (f v') _)
      hrun
    exact .went hx hrest.1 (.inl hassign) ((hsofar.store hnone' (.inl rfl) _).trans (hrest.2.mono hbehind))
  · rw [h] at hrun
    cases hrun
    have he : input.IsFrom q'.cursor e₁ := hfinds.2
    rw [hcursor] at he
    exact .went hx (he.position_le hin.order) (.inl hassign) (hsofar.store hnone' (.inl rfl) _)
  all_goals
    rw [h] at hrun
    cases hrun

/-- An operand of such a form that is the first branch. -/
theorem inFailed_branch (hin : input.IsOrdered) (hassign : (input.get q.cursor).kind ≠ Symbol.assign) :
    InFailed input s.cursor e₁ s₁.memo (.ok v q) := by
  have hend : (assigned (rulesOn n) v).run { input } q' = .ok v q' := by
    rw [assigned, run_accept_none (by rw [hcursor]; exact fun h => hassign (List.mem_singleton.mp h))]
    rfl
  rw [hend] at h
  rw [run_bind] at hrun
  rw [h] at hrun hruns
  dsimp only [Outcome.shallower, Outcome.stored] at hrun hruns
  by_cases helse : (input.get q.cursor).kind = Keyword.elseWord
  · have hrest := fails_from hin (addsOn_otherBranch b' (f v)) hruns.memo.goesOn (Nat.le_of_eq hcursor.symm)
      (finds_otherBranch b' (f v) _) hrun
    exact .went hx hrest.1 (.inr helse)
      (((hstored.store hnone rfl _).mono fun _ => .inl).trans (hrest.2.mono fun _ => .inr))
  · have hne : (input.get q'.cursor).kind ≠ Keyword.elseWord := hcursor ▸ helse
    rw [otherBranch, requireElse, run_expect_miss (by exact hne)] at hrun
    cases hrun
    exact .stopped hx (congrArg (fun c => (input.get c).place) hcursor) (SyntaxError.not_isTooDeep (by decide) _)
      (hstored.store hnone rfl _)

end

/-- An operand in an expression with another branch behind it that fails. -/
theorem inFailed_expression (hin : input.IsOrdered) (hs : Fresh input s) (hd : s.depth < 256)
    (hk : (input.get s.cursor).kind ∈ Rule.twofold) {b b' : Nat} {f : Node → Node → β} {e₁ : SyntaxError} {s₁ : Progress}
    (hrun : (rulesOn b .expression >>= fun consequent => otherBranch (rulesOn b') (f consequent)).run { input } s =
      .failed (.mismatch e₁) s₁) :
    ∃ n ≤ b, InFailed input s.cursor e₁ s₁.memo ((content n .operand).run { input } s.deeper) := by
  have hruns := runsOrderly hin hs.cursor hs.memo b .expression
  have hbranch := hrun
  rw [run_bind] at hrun
  obtain ⟨q, h⟩ | ⟨n, hn, h⟩ := run_fresh input (r := .expression) rfl (hs.find? .expression) b
  · rw [h] at hrun
    cases hrun
  rw [run_content_nested rfl hd, body, expression_eq, run_bind] at h
  have hoperand := runsOrderly hin (q := s.deeper) hs.cursor hs.memo n .operand
  obtain ⟨q, ho⟩ | ⟨n', hn', ho, hfound⟩ := operand_fresh hin hs.deeper n
  · rw [h, ho] at hrun
    cases hrun
  rw [ho] at h hoperand
  obtain ⟨q, hgrows⟩ | hgrows := operand_grows (s := s.deeper) hs.memo.goesOn hk n'
  · rw [hgrows] at h
    rw [h] at hrun
    cases hrun
  refine ⟨n', Nat.le_trans hn' hn, ?_⟩
  generalize (content n' .operand).run { input } s.deeper = o at h hgrows hfound hoperand ⊢
  rcases o with ⟨v, q⟩ | ⟨e | _ | _, q⟩
  · have hx := hfound v q rfl
    let q' : Progress := { q with memo := q.memo.store ⟨.operand, s.cursor⟩ (.node v q.cursor) }
    have hstored : Memo.Grows (· = s.cursor) q.memo q'.memo :=
      (Memo.Grows.refl (· = s.cursor) q.memo).store (hs.find?_of_grows hgrows .operand) rfl _
    have hnone : q'.memo.find? ⟨.expression, s.cursor⟩ = none := by
      change (q.memo.store _ _).find? _ = none
      rw [Memo.find?_store, if_neg (by simp)]
      exact hs.find?_of_grows hgrows .expression
    have hcursor : q'.cursor = q.cursor := rfl
    by_cases hassign : (input.get q.cursor).kind = Symbol.assign
    · exact inFailed_assigned hcursor hx hstored hnone hruns h hbranch hin hoperand.memo.goesOn hassign
    · exact inFailed_branch hcursor hx hstored hnone hruns h hbranch hin hassign
  · rw [h] at hrun
    cases hrun
    exact .failed (hs.grows_store hgrows (by decide) _ _)
  all_goals
    rw [h] at hrun
    cases hrun

end Grammar

end MagSyntax
