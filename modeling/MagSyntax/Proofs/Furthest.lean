import MagSyntax.Proofs.Onward
import MagSyntax.Proofs.Phrases
import MagSyntax.Proofs.SameTokens

/-! Which error an `if` reports. Its alternatives are tried from the token behind the word, each with the memo that the
calls before it have left. As long as none of these was cut short, that memo holds only what is ideal, so an
alternative fails as it does alone, and the furthest of these errors is reported. -/

namespace MagSyntax

open Parse Grammar

namespace Parse

/-- The error is further into the input than those before it, and none behind it is further. -/
def IsFurthestOf (errors : List SyntaxError) (e : SyntaxError) : Prop :=
  ∃ before behind, errors = before ++ e :: behind ∧
    (∀ f ∈ before, f.place.position < e.place.position) ∧ ∀ f ∈ behind, f.place.position ≤ e.place.position

/-- The further one of two errors stands for both. -/
theorem IsFurthestOf.of_further {e f g : SyntaxError} {errors : List SyntaxError}
    (h : IsFurthestOf (further f g :: errors) e) : IsFurthestOf (f :: g :: errors) e := by
  obtain ⟨before, behind, herrors, hbefore, hbehind⟩ := h
  rcases Int.lt_or_le f.place.position g.place.position with hlt | hle
  · rw [further_of_lt hlt] at herrors
    refine ⟨f :: before, behind, congrArg _ herrors, List.forall_mem_cons.mpr ⟨?_, hbefore⟩, hbehind⟩
    cases before with
    | nil =>
      cases herrors
      exact hlt
    | cons _ before =>
      cases herrors
      exact Int.lt_trans hlt (List.forall_mem_cons.mp hbefore).1
  · rw [further_of_le hle] at herrors
    cases before with
    | nil =>
      cases herrors
      exact ⟨[], g :: errors, rfl, by simp, List.forall_mem_cons.mpr ⟨hle, hbehind⟩⟩
    | cons _ before =>
      cases herrors
      obtain ⟨hf, hbefore⟩ := List.forall_mem_cons.mp hbefore
      refine ⟨f :: g :: before, behind, rfl, ?_, hbehind⟩
      exact List.forall_mem_cons.mpr ⟨hf, List.forall_mem_cons.mpr ⟨Int.lt_of_le_of_lt hle hf, hbefore⟩⟩

/-- What an alternative comes to alone, from a token and with so many rules open, without a memo. -/
def alone {α : Type} (input : Input) (cursor depth : Nat) (alternative : Parse α) : Outcome α :=
  alternative.run ⟨input, false, some 256⟩ (.within cursor depth)

/-- Every one of the alternatives fails when it is run alone, and the error is the furthest of theirs. -/
def FailAlone {α : Type} (input : Input) (cursor depth : Nat) (alternatives : List (Parse α)) (e : SyntaxError) :
    Prop :=
  ∃ errors, List.Forall₂ (fun form f => ∃ q, alone input cursor depth form = .failed (.mismatch f) q) alternatives
    errors ∧ IsFurthestOf errors e

instance {α : Type} (o : Outcome α) (holds : SyntaxError → Prop) [DecidablePred holds] :
    Decidable (∃ e q, o = .failed (.mismatch e) q ∧ holds e) :=
  match o with
  | .failed (.mismatch e) q => decidable_of_iff (holds e) (by simp)
  | .ok .. | .failed (.unclosable _) _ | .failed .exhausted _ => .isFalse (by rintro ⟨_, _, ⟨⟩, _⟩)

section

variable {α : Type} {input : Input} {cursor depth : Nat}

/-- The error that is reported is one that an alternative has alone. -/
theorem FailAlone.exists_form {alternatives : List (Parse α)} {e : SyntaxError}
    (h : FailAlone input cursor depth alternatives e) :
    ∃ form ∈ alternatives, ∃ q, alone input cursor depth form = .failed (.mismatch e) q := by
  obtain ⟨errors, hforms, before, behind, herrors, -, -⟩ := h
  have he : e ∈ errors := herrors ▸ List.mem_append_right _ List.mem_cons_self
  clear herrors
  induction hforms with
  | nil => cases he
  | @cons form f _ _ hform _ ih =>
    rcases List.mem_cons.mp he with rfl | he
    · exact ⟨form, List.mem_cons_self, hform⟩
    · obtain ⟨other, hm, hother⟩ := ih he
      exact ⟨other, List.mem_cons_of_mem _ hm, hother⟩

/-- An alternative that fails with an ideal memo fails alone, unless that is cut short, and leaves such a memo. -/
theorem fails_alone {alternative alternative' : Parse α}
    (h : Tracks (remembering input (some 256) True) alternative alternative')
    (halone : ¬(alone input cursor depth alternative').IsCutShort) {p q : Progress} (hc : p.cursor = cursor)
    (hd : p.depth = depth) (hm : IsIdealMemo input p.memo) {e : SyntaxError}
    (hrun : alternative.run { input } p = .failed (.mismatch e) q) :
    (∃ q, alone input cursor depth alternative' = .failed (.mismatch e) q) ∧ q.depth = depth ∧
      IsIdealMemo input q.memo := by
  have hagree := h.agree p (.within cursor depth) hc ⟨hd, hm⟩
  have hlevel := h.level (.within cursor depth)
  change (remembering input (some 256) True).Agree (alternative.run { input } p) (alone input cursor depth alternative')
    at hagree
  change (alone input cursor depth alternative').progress.depth = depth at hlevel
  rw [hrun] at hagree
  generalize alone input cursor depth alternative' = o at hagree hlevel halone
  cases hagree with
  | escaped h => exact absurd (.inl h.2) halone
  | lost h => exact h.elim
  | exhausted => exact absurd (.inr ⟨_, rfl⟩) halone
  | mismatch h =>
    obtain ⟨rfl, hdepth, hmemo⟩ := h
    exact ⟨⟨_, rfl⟩, hdepth.trans hlevel, hmemo⟩

theorem furthest_attemptAfter {alternatives alternatives' : List (Parse α)}
    (h : List.Forall₂ (Tracks (remembering input (some 256) True)) alternatives alternatives')
    (halone : ∀ alternative ∈ alternatives', ¬(alone input cursor depth alternative).IsCutShort)
    {p q : Progress} (hc : p.cursor = cursor) (hd : p.depth = depth) (hm : IsIdealMemo input p.memo)
    {furthest e : SyntaxError}
    (hrun : (attemptAfter cursor furthest alternatives).run { input } p = .failed (.mismatch e) q) :
    ∃ errors, List.Forall₂ (fun form f => ∃ q, alone input cursor depth form = .failed (.mismatch f) q) alternatives'
      errors ∧ IsFurthestOf (furthest :: errors) e := by
  induction h generalizing p furthest with
  | nil =>
    cases hrun
    exact ⟨[], .nil, [], [], rfl, by simp, by simp⟩
  | @cons first first' rest rest' hfirst _ ih =>
    obtain ⟨hfirst', hrest'⟩ := List.forall_mem_cons.mp halone
    simp only [attemptAfter] at hrun
    split at hrun
    next f p' hf =>
      obtain ⟨hfails, hdepth, hmemo⟩ := fails_alone hfirst hfirst' hc hd hm hf
      obtain ⟨errors, herrors, hfurthest⟩ := ih hrest' (p := { p' with cursor := cursor, deepest := p.deepest }) rfl hdepth hmemo hrun
      exact ⟨f :: errors, .cons hfails herrors, hfurthest.of_further⟩
    next hne => exact absurd hrun (hne e q)

/-- Alternatives that fail with an ideal memo report the furthest of the errors that they have alone. -/
theorem failAlone_of_attempt {first first' : Parse α} {others others' : List (Parse α)}
    (hf : Tracks (remembering input (some 256) True) first first')
    (ho : List.Forall₂ (Tracks (remembering input (some 256) True)) others others') {p q : Progress}
    (hm : IsIdealMemo input p.memo)
    (halone : ∀ alternative ∈ first' :: others', ¬(alone input p.cursor p.depth alternative).IsCutShort)
    {e : SyntaxError} (hrun : (attempt first others).run { input } p = .failed (.mismatch e) q) :
    FailAlone input p.cursor p.depth (first' :: others') e := by
  obtain ⟨hfirst', hothers'⟩ := List.forall_mem_cons.mp halone
  simp only [attempt] at hrun
  split at hrun
  next f p' hfailed =>
    obtain ⟨hfails, hdepth, hmemo⟩ := fails_alone hf hfirst' rfl rfl hm hfailed
    obtain ⟨errors, herrors, hfurthest⟩ :=
      furthest_attemptAfter ho hothers' (p := { p' with cursor := p.cursor, deepest := p.deepest }) rfl hdepth hmemo hrun
    exact ⟨f :: errors, .cons hfails herrors, hfurthest⟩
  next hne => exact absurd hrun (hne e q)

end

end Parse

namespace Grammar

variable {input : Input}

/-- A call that is not cut short leaves an ideal memo ideal. -/
theorem isIdealMemo_run (hlast : input.last.kind = .eof) {p : Progress} (hm : IsIdealMemo input p.memo)
    (hc : p.cursor ≤ input.before.size) (budget : Nat) (r : Rule)
    (hcut : ¬((parse budget r.surcharge r).run { input } p).IsCutShort) :
    IsIdealMemo input ((parse budget r.surcharge r).run { input } p).progress.memo := by
  -- the same call without a bound on nesting leaves the same memo, and that one is compared with a call without a memo
  have hunbounded := (tracks_unbounded input true 256 budget r.surcharge r).agree p p rfl ⟨rfl, rfl⟩
  have htracks := @tracks_remembering input none True budget (enough input.before.size) r.surcharge r (.inr trivial)
  have hideal := htracks.agree p (.within p.cursor p.depth) rfl ⟨rfl, hm⟩
  have hfinite := not_exhausted_from (r := r) (p := .within p.cursor p.depth) ⟨input, false, none⟩ rfl hlast (Nat.le_refl _)
    hc rfl
  change (unbounded input true 256).Agree ((parse budget r.surcharge r).run ⟨input, true, none⟩ p)
    ((parse budget r.surcharge r).run { input } p) at hunbounded
  change (remembering input none True).Agree ((parse budget r.surcharge r).run ⟨input, true, none⟩ p)
    ((parse (enough input.before.size) r.surcharge r).run ⟨input, false, none⟩ (.within p.cursor p.depth))
    at hideal
  generalize (parse budget r.surcharge r).run { input } p = o at hunbounded hcut ⊢
  generalize (parse budget r.surcharge r).run ⟨input, true, none⟩ p = free at hunbounded hideal
  generalize (parse (enough input.before.size) r.surcharge r).run ⟨input, false, none⟩
    (.within p.cursor p.depth) = plain at hideal hfinite
  cases hunbounded with
  | escaped h => exact absurd (.inl h) hcut
  | lost h => exact h.elim
  | exhausted => exact absurd (.inr ⟨_, rfl⟩) hcut
  | exhausts h => exact h.elim
  | @found v p' q' _ h =>
    cases hideal with
    | escaped hs => cases hs.1
    | lost hs => exact hs.elim
    | exhausted => exact absurd rfl (hfinite _)
    | found _ h' => exact h.2 ▸ h'.2
  | @mismatch e e' p' q' h =>
    cases hideal with
    | escaped hs => cases hs.1
    | lost hs => exact hs.elim
    | exhausted => exact absurd rfl (hfinite _)
    | mismatch h' => exact h.2.2 ▸ h'.2.2

end Grammar

/-- A memo that calls of rules have left behind, one after the other, none of which was cut short. -/
inductive Memo.LeftUncut (input : Input) : Memo → Prop
  | empty : LeftUncut input .empty
  | call {p : Progress} (h : LeftUncut input p.memo) (hc : p.cursor ≤ input.before.size) (budget : Nat) (r : Rule)
    (hcut : ¬((parse budget r.surcharge r).run { input } p).IsCutShort) :
    LeftUncut input ((parse budget r.surcharge r).run { input } p).progress.memo

theorem Memo.LeftUncut.isIdealMemo {input : Input} (hlast : input.last.kind = .eof) {m : Memo}
    (h : m.LeftUncut input) : IsIdealMemo input m := by
  induction h with
  | empty => exact isIdealMemo_empty
  | call _ hc budget r hcut ih => exact isIdealMemo_run hlast ih hc budget r hcut

namespace Input

variable {input : Input} {c d : Nat}

theorem get_min (input : Input) (c : Nat) : input.get c = input.get (min c input.before.size) := by
  rcases Nat.le_total c input.before.size with h | h
  · rw [Nat.min_eq_left h]
  · rw [Nat.min_eq_right h]
    simp [get, h]

theorem position_le (h : input.toList.Pairwise fun a b => a.place.position < b.place.position) (hcd : c ≤ d) :
    (input.get c).place.position ≤ (input.get d).place.position := by
  rw [input.get_min c, input.get_min d]
  refine Int.not_lt.mp fun hlt => ?_
  rw [position_lt_iff h (Nat.min_le_right _ _) (Nat.min_le_right _ _)] at hlt
  omega

/-- Where the tokens stand in order, what is complained about from one of them on is not before it. -/
theorem IsFrom.position_le {e : SyntaxError} (he : input.IsFrom c e)
    (h : input.toList.Pairwise fun a b => a.place.position < b.place.position) :
    (input.get c).place.position ≤ e.place.position := by
  obtain ⟨i, hi, he⟩ := he
  rw [he]
  exact Input.position_le h hi

end Input

namespace Grammar

/-- The rules on a budget. -/
def rulesOn (budget : Nat) (r : Rule) : Parse Node := parse budget r.surcharge r

/-- The alternatives of an `if` between statements. -/
def statementForms (budget : Nat) : List (Parse (Node × Node)) :=
  [conditionAndStatement (rulesOn budget), conditionAndBlock (rulesOn budget)]

/-- The alternatives of an `if` with a value, which stands at a place. -/
def valueForms (loc : Loc) (budget : Nat) : List (Parse Node) :=
  [conditionalByParentheses (rulesOn budget) loc, conditionalByThen (rulesOn budget) loc,
   conditionalByBlocks (rulesOn budget) loc]

/-- The first of the forms that matches. -/
def firstOf {α : Type} : List (Parse α) → Parse α
  | [] => fail .exhausted
  | first :: others => attempt first others

/-- An `if` reports an error of its alternatives: the rule fails with it on the token behind the word, the error is not
before that token, and it is the furthest of those that the alternatives have alone, unless a call before it was cut
short or an alternative is alone. -/
structure ReportsFurthest {α : Type} (input : Input) (r : Rule) (budget : Nat) (forms : Nat → List (Parse α))
    (p q : Progress) (e : SyntaxError) : Prop where
  fails : (parse (budget + 1) 0 r).run { input } p = .failed (.mismatch e) q
  cursor : q.cursor = p.cursor + 1
  position : (input.get (p.cursor + 1)).place.position ≤ e.place.position
  furthest : p.memo.LeftUncut input → ∀ b,
    (∀ form ∈ forms b, ¬(alone input (p.cursor + 1) p.depth form).IsCutShort) →
      FailAlone input (p.cursor + 1) p.depth (forms b) e

section

variable {α : Type} {input : Input} {p q : Progress} {budget : Nat} {e : SyntaxError}

theorem tracks_rulesOn (b b' : Nat) (r : Rule) :
    Tracks (remembering input (some 256) True) (rulesOn b r) (rulesOn b' r) :=
  tracks_remembering b b' r.surcharge r (.inr trivial)

theorem tracks_statementForms (b b' : Nat) :
    List.Forall₂ (Tracks (remembering input (some 256) True)) (statementForms b) (statementForms b') := by
  refine .cons ?_ (.cons (tracks_conditionAndBlock isFair_remembering (tracks_rulesOn b b')) .nil)
  exact (tracks_condition isFair_remembering (tracks_rulesOn b b')).bind fun _ =>
    (tracks_rulesOn b b' .statement).bind fun _ => Tracks.pure _

theorem tracks_valueForms (loc : Loc) (b b' : Nat) :
    List.Forall₂ (Tracks (remembering input (some 256) True)) (valueForms loc b) (valueForms loc b') :=
  .cons (tracks_conditionalByParentheses isFair_remembering (tracks_rulesOn b b') loc)
    (.cons (tracks_conditionalByThen isFair_remembering (tracks_rulesOn b b') loc)
      (.cons (tracks_conditionalByBlocks isFair_remembering (tracks_rulesOn b b') loc) .nil))

/-- Forms from a token on that complain about no token before it, as the rules do. -/
def OnlyGoOn (input : Input) (c : Nat) (forms : List (Parse α)) : Prop :=
  ∀ form ∈ forms, Finds { input } (Memo.GoesOn input) (Failure.Misses (input.IsFrom c)) form c fun _ _ => True

theorem onlyGoOn_statementForms (c : Nat) : OnlyGoOn input c (statementForms budget) := by
  have hself (r : Rule) : GoesOn { input } (Memo.GoesOn input) r (rulesOn budget r) := goesOn_parse _ _ r
  simp only [OnlyGoOn, statementForms, List.forall_mem_cons]
  exact ⟨(goesOn_conditionAndStatement hself (Nat.le_refl c)).imp fun _ _ _ => trivial,
    (goesOn_conditionAndBlock hself (Nat.le_refl c)).imp fun _ _ _ => trivial, List.forall_mem_nil _⟩

theorem onlyGoOn_valueForms (loc : Loc) (c : Nat) : OnlyGoOn input c (valueForms loc budget) := by
  have hself (r : Rule) : GoesOn { input } (Memo.GoesOn input) r (rulesOn budget r) := goesOn_parse _ _ r
  simp only [OnlyGoOn, valueForms, List.forall_mem_cons]
  exact ⟨(goesOn_conditionalByParentheses hself loc (Nat.le_refl c)).imp fun _ _ _ => trivial,
    (goesOn_conditionalByThen hself loc (Nat.le_refl c)).imp fun _ _ _ => trivial,
    (goesOn_conditionalByBlocks hself loc (Nat.le_refl c)).imp fun _ _ _ => trivial, List.forall_mem_nil _⟩

/-- Behind its word an `if` goes on at the next token. -/
theorem run_expectIf (hif : (input.get p.cursor).kind = Keyword.ifWord) (next : Token → Parse α) :
    (expectKind [TokenKind.keyword .ifWord] >>= next).run { input } p =
      (next (input.get p.cursor)).run { input } { p with cursor := p.cursor + 1 } := by
  have hpast : p.pastToken input = { p with cursor := p.cursor + 1 } := by simp [Progress.pastToken, hif]
  simp [expectKind, hif, hpast]

theorem run_bind_failed {β : Type} {first : Parse α} {next : α → Parse β} {setup : Setup} {f : Failure}
    (h : first.run setup p = .failed f q) : (first >>= next).run setup p = .failed f q := by
  rw [run_bind, h]

theorem conditionalStatement_fails (hif : (input.get p.cursor).kind = Keyword.ifWord)
    (h : (firstOf (statementForms budget)).run { input } { p with cursor := p.cursor + 1 } = .failed (.mismatch e) q) :
    (parse (budget + 1) 0 .conditionalStatement).run { input } p = .failed (.mismatch e) q :=
  (run_expectIf hif _).trans (run_bind_failed h)

theorem conditional_fails (hif : (input.get p.cursor).kind = Keyword.ifWord)
    (h : (firstOf (valueForms (locOf (input.get p.cursor)) budget)).run { input } { p with cursor := p.cursor + 1 } =
      .failed (.mismatch e) q) :
    (parse (budget + 1) 0 .conditional).run { input } p = .failed (.mismatch e) q :=
  (run_expectIf hif _).trans h

theorem reportsFurthest_of_firstOf {r : Rule} {forms : Nat → List (Parse α)} (hlast : input.last.kind = .eof)
    (hordered : input.toList.Pairwise fun a b => a.place.position < b.place.position)
    (hp : p.memo.LeftBehind { input }) (honward : OnlyGoOn input (p.cursor + 1) (forms budget))
    (htracks : ∀ b, List.Forall₂ (Tracks (remembering input (some 256) True)) (forms budget) (forms b))
    (h : (firstOf (forms budget)).run { input } { p with cursor := p.cursor + 1 } = .failed (.mismatch e) q)
    (hrule : (parse (budget + 1) 0 r).run { input } p = .failed (.mismatch e) q) :
    ReportsFurthest input r budget forms p q e := by
  generalize hfs : forms budget = fs at h honward htracks
  cases fs with
  | nil => cases h
  | cons first others =>
    refine ⟨hrule, cursor_attempt h, ?_, fun hm b halone => ?_⟩
    · obtain ⟨hfirst, hothers⟩ := List.forall_mem_cons.mp honward
      have hfinds := goesOn_attempt hfirst hothers { p with cursor := p.cursor + 1 } rfl hp.goesOn
      rw [show (attempt first others).run _ _ = _ from h] at hfinds
      exact Input.IsFrom.position_le hfinds.2 hordered
    · have hforms := htracks b
      generalize forms b = fs' at hforms halone ⊢
      cases hforms with
      | cons hf ho =>
        exact failAlone_of_attempt (p := { p with cursor := p.cursor + 1 }) hf ho (hm.isIdealMemo hlast) halone h

end

end Grammar

/-- The error that an `if` reports on a source, whatever the calls before it have left in the memo: when none of its
alternatives matches, it is not before the token behind the word, where the cursor stays, and of the errors that
the alternatives have alone, without a memo, it is the furthest, and the first of these. The latter holds as long
as no alternative is cut short alone and no call before was, as a refusal that is remembered is not forgotten at a
smaller depth. -/
theorem if_reports_furthest {source : Text} {tokens : List Token} (ht : tokenize source = .ok tokens) {p : Progress}
    (hp : p.memo.LeftBehind { input := .ofTokens tokens })
    (hif : ((Input.ofTokens tokens).get p.cursor).kind = Keyword.ifWord) (budget : Nat) (e : SyntaxError)
    (q : Progress) :
    let input : Input := .ofTokens tokens
    let inside : Progress := { p with cursor := p.cursor + 1 }
    let loc := locOf (input.get p.cursor)
    ((firstOf (statementForms budget)).run { input } inside = .failed (.mismatch e) q →
      ReportsFurthest input .conditionalStatement budget statementForms p q e) ∧
    ((firstOf (valueForms loc budget)).run { input } inside = .failed (.mismatch e) q →
      ReportsFurthest input .conditional budget (valueForms loc) p q e) := by
  intro input inside loc
  have hlast := Input.kind_last_ofTokens tokens
  have hordered : input.toList.Pairwise fun a b => a.place.position < b.place.position :=
    (toList_of_tokenize ht).symm ▸ ordered_of_tokenize ht
  refine ⟨fun h => ?_, fun h => ?_⟩
  · exact reportsFurthest_of_firstOf hlast hordered hp (onlyGoOn_statementForms _) (tracks_statementForms budget) h
      (conditionalStatement_fails hif h)
  · exact reportsFurthest_of_firstOf hlast hordered hp (onlyGoOn_valueForms loc _) (tracks_valueForms loc budget) h
      (conditional_fails hif h)

/-- The tokens of `if (a) b`, which is no `if` of either kind. -/
def halfIf : List Token :=
  [⟨⟨.keyword .ifWord, "if", 10, []⟩, ⟨0, 1, 1⟩⟩, ⟨⟨.symbol .lparen, "(", 10, []⟩, ⟨3, 1, 4⟩⟩,
   ⟨⟨.ident, "a", 10, []⟩, ⟨4, 1, 5⟩⟩, ⟨⟨.symbol .rparen, ")", 10, []⟩, ⟨5, 1, 6⟩⟩,
   ⟨⟨.ident, "b", 10, []⟩, ⟨7, 1, 8⟩⟩, .endAt ⟨8, 1, 9⟩]

/-- A parser that has tried to read it as a statement, and is back at its first token. -/
def behindHalfIf : Progress :=
  { ((rulesOn 60 .statement).run { input := .ofTokens halfIf } .start).progress with cursor := 0 }

/-- As a statement it lacks a semicolon behind its branch, and as an expression, with what the memo has of the
branch, an `else` there. -/
theorem if_reports_furthest_halfIf :
    tokenize "if (a) b" = .ok halfIf ∧ behindHalfIf.memo.LeftUncut (.ofTokens halfIf) ∧
      (∃ e q, ReportsFurthest (.ofTokens halfIf) .conditionalStatement 60 statementForms .start q e ∧
        FailAlone (.ofTokens halfIf) 1 0 (statementForms 60) e ∧ e.cause = .grammatical .statementEnd none) ∧
      ∃ e q, ReportsFurthest (.ofTokens halfIf) .conditional 60 (valueForms ⟨1, 1⟩) behindHalfIf q e ∧
        FailAlone (.ofTokens halfIf) 1 0 (valueForms ⟨1, 1⟩ 60) e ∧ e.cause = .grammatical .elseAfterBranch none := by
  have htokens : tokenize "if (a) b" = .ok halfIf := by decide +kernel
  have hcall : ¬((rulesOn 60 .statement).run { input := .ofTokens halfIf } .start).IsCutShort := by decide +kernel
  have hmemo : behindHalfIf.memo.LeftUncut (.ofTokens halfIf) :=
    .call (p := .start) .empty (by decide) 60 .statement hcall
  have hstatement : ∃ e q, (firstOf (statementForms 60)).run { input := .ofTokens halfIf } (.within 1 0) =
      .failed (.mismatch e) q ∧ e.cause = .grammatical .statementEnd none := by decide +kernel
  have hvalue : ∃ e q, (firstOf (valueForms ⟨1, 1⟩ 60)).run { input := .ofTokens halfIf }
      { behindHalfIf with cursor := 1 } = .failed (.mismatch e) q ∧ e.cause = .grammatical .elseAfterBranch none := by
    decide +kernel
  obtain ⟨e, q, h, hcause⟩ := hstatement
  obtain ⟨e', q', h', hcause'⟩ := hvalue
  have hreports := (if_reports_furthest htokens (p := .start) .empty (by decide) 60 e q).1 h
  have hreports' := (if_reports_furthest htokens (p := behindHalfIf)
    (.call (p := .start) .empty 60 .statement) (by decide) 60 e' q').2 h'
  refine ⟨htokens, hmemo, ⟨e, q, hreports, hreports.furthest .empty 60 ?_, hcause⟩, e', q', hreports',
    hreports'.furthest hmemo 60 ?_, hcause'⟩
  · simp only [statementForms, List.forall_mem_cons]
    exact ⟨by decide +kernel, by decide +kernel, List.forall_mem_nil _⟩
  · simp only [valueForms, List.forall_mem_cons]
    exact ⟨by decide +kernel, by decide +kernel, by decide +kernel, List.forall_mem_nil _⟩

/-- Blocks in one another, and in the last of them the word `if` in front of `(c) - if a` and of more such blocks. -/
def Text.deepIf : Text :=
  List.replicate 250 (CodePoint.ofChar '\x7b') ++
    "if(c)-if a\x7b\x7b\x7b\x7b\x7b\x7b\x7d\x7d\x7d\x7d\x7d\x7d"

/-- A token on the first line. -/
def Lexeme.onLine (l : Lexeme) (position : Nat) : Token := ⟨l, ⟨position, 1, position + 1⟩⟩

/-- Its tokens. -/
def deepIfTokens : List Token :=
  (List.range 250).map (Lexeme.onLine (.ofSymbol .lbrace)) ++
    [(Lexeme.ofKeyword .ifWord).onLine 250, (Lexeme.ofSymbol .lparen).onLine 252,
     (⟨.ident, "c", 10, []⟩ : Lexeme).onLine 253, (Lexeme.ofSymbol .rparen).onLine 254,
     (Lexeme.ofSymbol .sub).onLine 255, (Lexeme.ofKeyword .ifWord).onLine 256,
     (⟨.ident, "a", 10, []⟩ : Lexeme).onLine 259] ++
    (List.range 6).map (fun i => (Lexeme.ofSymbol .lbrace).onLine (260 + i)) ++
    (List.range 6).map (fun i => (Lexeme.ofSymbol .rbrace).onLine (266 + i)) ++ [.endAt ⟨272, 1, 273⟩]

/-- What the memo holds in the last block when the `c` behind the outer `if` has been read. -/
def memoBehindCondition : Memo :=
  ((rulesOn 60 .expression).run { input := .ofTokens deepIfTokens } (.within 252 251)).progress.memo

/-- What it holds when a statement behind `(c)` has been tried, in which the blocks are nested too deeply. -/
def memoBehindRefusal : Memo :=
  ((rulesOn 60 .statement).run { input := .ofTokens deepIfTokens }
    { Progress.within 254 251 with memo := memoBehindCondition }).progress.memo

theorem leftBehind_memoBehindRefusal : memoBehindRefusal.LeftBehind { input := .ofTokens deepIfTokens } := by
  have hcondition : memoBehindCondition.LeftBehind { input := .ofTokens deepIfTokens } := by
    rw [memoBehindCondition, rulesOn]
    exact .call (p := .within 252 251) .empty 60 .expression
  rw [memoBehindRefusal, rulesOn]
  exact hcondition.within 254 251 60 .statement

/-- The outer `if` is read once more then, with `(c) - if a` and so on as its condition, and the inner `if` is met again
one level less deep. It reports the refusal that is remembered, which none of its alternatives comes to alone. -/
theorem if_reports_refusal :
    tokenize Text.deepIf = .ok deepIfTokens ∧ memoBehindRefusal.LeftBehind { input := .ofTokens deepIfTokens } ∧
      ((Input.ofTokens deepIfTokens).get 255).kind = Keyword.ifWord ∧
      ∃ e q, (firstOf (valueForms ⟨1, 257⟩ 60)).run { input := .ofTokens deepIfTokens }
          { Progress.within 256 251 with memo := memoBehindRefusal, refused := true } = .failed (.mismatch e) q ∧
        (∀ form ∈ valueForms ⟨1, 257⟩ 60, ¬(alone (.ofTokens deepIfTokens) 256 251 form).IsCutShort) ∧
          ¬FailAlone (.ofTokens deepIfTokens) 256 251 (valueForms ⟨1, 257⟩ 60) e := by
  have hrefused : ∃ e q, (firstOf (valueForms ⟨1, 257⟩ 60)).run { input := .ofTokens deepIfTokens }
      { Progress.within 256 251 with memo := memoBehindRefusal, refused := true } = .failed (.mismatch e) q ∧
        e.cause = .grammatical .tooDeep (some "\x7b") := by
    decide +kernel
  have halone : ∀ form ∈ valueForms ⟨1, 257⟩ 60, ¬(alone (.ofTokens deepIfTokens) 256 251 form).IsCutShort ∧
      ∃ e q, alone (.ofTokens deepIfTokens) 256 251 form = .failed (.mismatch e) q ∧
        e.cause ≠ .grammatical .tooDeep (some "\x7b") := by
    simp only [valueForms, List.forall_mem_cons]
    exact ⟨by decide +kernel, by decide +kernel, by decide +kernel, List.forall_mem_nil _⟩
  obtain ⟨e, q, hrun, hcause⟩ := hrefused
  refine ⟨by decide +kernel, leftBehind_memoBehindRefusal, by decide +kernel, e, q, hrun,
    fun form hm => (halone form hm).1, fun hfail => ?_⟩
  obtain ⟨form, hm, q', hq'⟩ := hfail.exists_form
  obtain ⟨-, f, q'', hq'', hf⟩ := halone form hm
  cases hq'.symm.trans hq''
  exact hf hcause

end MagSyntax
