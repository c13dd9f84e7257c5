import MagSyntax.Proofs.DeepGroups
import MagSyntax.Proofs.DeepPatterns
import MagSyntax.Proofs.Memoized

/-! What the two guards cost. What the rules find without a memo and without a bound on nesting is accepted, with that
tree, or reported as nested too deeply because a guard cuts the parse short. It never is accepted if too many rules are
open at once in what is kept, and always if without the memo nothing would cut it short. -/

namespace MagSyntax

open Parse

namespace Grammar

section

variable {input : Input} {δ b : Nat}

/-- The parse with both guards keeps abreast of the one without in a rule, if it does in all rules that this one runs. -/
theorem tracks_parse_kept (hin : input.IsOrdered) (hb : KeepsAbreast input b) (n : Nat) (r : Rule) :
    Tracks (kept input δ) (parse (n + 1) 0 r) (parse (b + 1) 0 r) := by
  have hself (r : Rule) : Tracks (kept input δ) (rulesOn n r) (rulesOn b r) := hb δ n b r (Nat.le_refl b)
  have hbody : Tracks (kept input δ) (body (rulesOn n) r) (body (rulesOn b) r) :=
    tracks_body_of (isFair_kept hin) hself (tracks_expression_kept hin hself)
      (tracks_conditionalStatement_kept hin hb n) (tracks_conditional_kept hin hb n) r
  have hcontent : Tracks (kept input δ) (content n r) (content b r) := by
    change Tracks _ (counted r (body (rulesOn n) r)) (counted r (body (rulesOn b) r))
    simp only [counted]
    split
    · exact tracks_nested_kept hin ‹_› hbody
    · exact hbody
  by_cases hr : r.isRemembered
  · exact tracks_remembered_kept hin hr hcontent
  · rw [parse_content, parse_content, if_neg hr, if_neg hr]
    exact hcontent

/-- It does in every rule, on any budget: by induction on what it may still take, since the alternatives of an `if` are
compared rule by rule with what the first one has found. -/
theorem keepsAbreast (hin : input.IsOrdered) (b : Nat) : KeepsAbreast input b := by
  induction b using Nat.strongRecOn with
  | ind b ih =>
    intro δ n n' r hn'
    rw [rulesOn, rulesOn, parse_due n, parse_due n']
    cases hm : n' - r.surcharge with
    | zero => exact .exhausted
    | succ m =>
      cases n - r.surcharge with
      | zero => exact ⟨steady_kept fun _ _ => tracks_keeping _ _ _ r, fun _ _ _ _ => .exhausts trivial⟩
      | succ n => exact tracks_parse_kept hin (ih m (by omega)) n r

end

section

variable {input : Input} {r : Rule} {b : Nat} {t : Node} {q : Progress}

theorem abreast_start : Abreast input 0 .start .start where
  depth := rfl
  deepest := Nat.zero_le 256
  cursor := Nat.zero_le _
  memo := Memo.isOrderly_empty
  fresh _ _ h := by
    rw [show Progress.start.memo = .empty from rfl, Memo.find?_empty] at h
    cases h

/-- What a rule finds without a memo and without a bound on nesting it finds with both, and then no more rules were open
at once in what is kept than the bound allows; or it fails as nested too deeply. -/
theorem rule_kept (hin : input.IsOrdered)
    (h : (parse b r.surcharge r).run ⟨input, false, none⟩ .start = .ok t q) :
    (∃ p, (rule r).run { input } .start = .ok t p ∧ p.cursor = q.cursor ∧ q.deepest ≤ 256) ∨
      ∃ f p c, (rule r).run { input } .start = .failed f p ∧
        f.asError (input.get p.cursor) = .ofToken .tooDeep (input.get c) := by
  have hagree := (keepsAbreast hin budget 0 b budget r (Nat.le_refl budget)).agree .start .start rfl abreast_start
  change (kept input 0).Agree ((parse b r.surcharge r).run ⟨input, false, none⟩ .start)
    ((rule r).run { input } .start) at hagree
  rw [h] at hagree
  generalize (rule r).run { input } .start = o at hagree
  cases hagree with
  | escaped h => exact h.elim
  | @lost _ e p h =>
    obtain ⟨c, -, rfl⟩ := h
    exact .inr ⟨_, p, _, rfl, rfl⟩
  | @exhausted _ p => exact .inr ⟨_, p, _, rfl, rfl⟩
  | @found _ _ p hc h => exact .inl ⟨p, rfl, hc.symm, h.deepest⟩

/-- What a rule comes to without a memo and without a bound on nesting it comes to with both, unless it is
cut short. -/
theorem rule_of_unlimited
    (h : (parse b r.surcharge r).run ⟨input, false, none⟩ .start = .ok t q) :
    ((rule r).run { input } .start).IsCutShort ∨
      ∃ p, (rule r).run { input } .start = .ok t p ∧ p.cursor = q.cursor := by
  refine (rule_unbounded input true 256 r).imp_right fun hsame => ?_
  have hagree := (@tracks_remembering input none True budget b r.surcharge r (.inr trivial)).agree
    .start .start rfl ⟨rfl, isIdealMemo_empty⟩
  change (remembering input none True).Agree ((rule r).run ⟨input, true, none⟩ .start)
    ((parse b r.surcharge r).run ⟨input, false, none⟩ .start) at hagree
  rw [h] at hagree
  rcases hsame with ⟨v, p, p', hp, hp', hc⟩ | ⟨e, p, p', hp, -⟩
  · rw [hp] at hagree
    cases hagree with
    | escaped hs => cases hs.1
    | found hq => exact ⟨p', hp', hc.symm.trans hq⟩
  · rw [hp] at hagree
    cases hagree with
    | escaped hs => cases hs.1

/-- Without a memo and without a bound on nesting a rule comes to what it comes to with a bound that refuses
nothing. -/
theorem plain_of_unlimited (h : (parse b r.surcharge r).run ⟨input, false, none⟩ .start = .ok t q)
    (hcut : ¬((rule r).run ⟨input, false, some 256⟩ .start).IsCutShort) :
    ∃ p, (rule r).run ⟨input, false, some 256⟩ .start = .ok t p ∧ p.cursor = q.cursor := by
  have hideal : IsIdeal input ⟨r, 0⟩ (.node t q.cursor) :=
    ⟨b - r.surcharge, .start, rfl, by rw [← parse_due, h]; rfl⟩
  have hrun := @isIdeal_of_run input (some 256) (budget - r.surcharge) r .start
  rw [← parse_due] at hrun
  change (_ ∧ ((rule r).run ⟨input, false, some 256⟩ .start).progress.refused = true) ∨
    (∃ p, (rule r).run ⟨input, false, some 256⟩ .start = _) ∨
    ∃ f, ((rule r).run ⟨input, false, some 256⟩ .start).finding? = some f ∧ _ at hrun
  generalize (rule r).run ⟨input, false, some 256⟩ .start = o at hcut hrun ⊢
  rcases hrun with ⟨-, hq⟩ | hq | ⟨f, hf, hf'⟩
  · exact absurd (.inl hq) hcut
  · exact absurd (.inr hq) hcut
  · obtain rfl := hf'.unique hideal
    rcases o with ⟨v, p⟩ | ⟨e | _ | _, p⟩ <;> simp only [Outcome.finding?, Option.some.injEq,
      Finding.node.injEq, reduceCtorEq] at hf
    obtain ⟨rfl, hc⟩ := hf
    exact ⟨p, rfl, hc⟩

end

end Grammar

theorem Input.get_mem (input : Input) (c : Nat) : input.get c ∈ input.toList := by
  rw [input.get_min c]
  exact List.mem_of_getElem? (input.getElem?_toList (Nat.min_le_right _ _))

/-- The tokens of a source stand in order in front of the end. -/
theorem Input.isOrdered_of_tokenize {source : Text} {tokens : List Token} (h : tokenize source = .ok tokens) :
    (Input.ofTokens tokens).IsOrdered :=
  ⟨(toList_of_tokenize h).symm ▸ ordered_of_tokenize h, kind_last_ofTokens tokens⟩

namespace Entry

/-- The source is rejected, about one of its tokens, because too much is nested in it. -/
def RejectsAsTooDeep (entry : Entry) (source : Text) : Prop :=
  ∃ tokens token, tokenize source = .ok tokens ∧ token ∈ tokens ∧
    entry.ofSource source = .error (.ofToken .tooDeep token)

variable {source : Text} {tokens : List Token} {b : Nat} {t : Node} {q : Progress}

/-- What is found without a memo and without a bound on nesting is found by an entry if no more rules are open at once
than the bound allows, or the entry rejects the source as nested too deeply. -/
theorem ofSource_kept (entry : Entry) (htokens : tokenize source = .ok tokens)
    (h : (Grammar.parse b entry.rule.surcharge entry.rule).run ⟨.ofTokens tokens, false, none⟩ .start = .ok t q)
    (hend : ((Input.ofTokens tokens).get q.cursor).kind = .eof) :
    (entry.ofSource source = .ok t ∧ q.deepest ≤ 256) ∨ entry.RejectsAsTooDeep source := by
  rcases Grammar.rule_kept (Input.isOrdered_of_tokenize htokens) h with
    ⟨p, hp, hc, hdeepest⟩ | ⟨f, p, c, hp, he⟩
  · refine .inl ⟨?_, hdeepest⟩
    rw [entry.ofSource_of_tokenize htokens]
    exact entry.ofInput_of_ok hp (by rw [hc, hend])
  · refine .inr ⟨tokens, _, htokens, toList_of_tokenize htokens ▸ Input.get_mem _ c, ?_⟩
    rw [entry.ofSource_of_tokenize htokens, entry.ofInput_of_failed hp, he]

/-- A source that the rules accept without a memo and without a bound on nesting is rejected as nested too deeply if
more than 256 rules are open at once in what is kept. Otherwise it is accepted with the same tree, or else rejected in
that way because a guard cuts the parse short; and that does not happen unless without the memo too a guard cuts the
parse short, in an alternative that is not kept or for the budget. -/
theorem ofSource_of_unlimited (entry : Entry) (htokens : tokenize source = .ok tokens)
    (h : (Grammar.parse b entry.rule.surcharge entry.rule).run ⟨.ofTokens tokens, false, none⟩ .start = .ok t q)
    (hend : ((Input.ofTokens tokens).get q.cursor).kind = .eof) :
    (256 < q.deepest → entry.RejectsAsTooDeep source) ∧
      (entry.ofSource source = .ok t ∧ q.deepest ≤ 256 ∨
        entry.CutsShort source ∧ entry.RejectsAsTooDeep source) ∧
      (¬((Grammar.rule entry.rule).run ⟨.ofTokens tokens, false, some 256⟩ .start).IsCutShort →
        entry.ofSource source = .ok t ∧ q.deepest ≤ 256) := by
  have hkept := entry.ofSource_kept htokens h hend
  have haccepted : entry.ofSource source = .ok t → entry.ofSource source = .ok t ∧ q.deepest ≤ 256 := by
    intro ht
    rcases hkept with hkept | ⟨_, _, _, _, he⟩
    · exact hkept
    · cases ht.symm.trans he
  refine ⟨fun hdeep => ?_, ?_, fun hcut => haccepted ?_⟩
  · exact hkept.resolve_left fun h => absurd h.2 (Nat.not_le_of_lt hdeep)
  · rcases Grammar.rule_of_unlimited h with hcut | ⟨p, hp, hc⟩
    · exact hkept.imp_right fun hdeep => ⟨⟨tokens, htokens, hcut⟩, hdeep⟩
    · refine .inl (haccepted ?_)
      rw [entry.ofSource_of_tokenize htokens]
      exact entry.ofInput_of_ok hp (by rw [hc, hend])
  · obtain ⟨p, hp, hc⟩ := Grammar.plain_of_unlimited h hcut
    have hsame := (Grammar.rule_sameAs_plain (.ofTokens tokens) entry.rule Grammar.budget hcut).resolve_right
      fun h => absurd h.1 (Nat.lt_irrefl _)
    change ((Grammar.rule entry.rule).run { input := .ofTokens tokens } .start).SameAs
      ((Grammar.rule entry.rule).run ⟨.ofTokens tokens, false, some 256⟩ .start) at hsame
    rw [hp] at hsame
    rw [entry.ofSource_of_tokenize htokens]
    rcases hsame with ⟨v, p', q', hp', hq', hc'⟩ | ⟨e, p', q', -, hq'⟩
    · cases hq'
      exact entry.ofInput_of_ok hp' (by rw [hc', hc, hend])
    · cases hq'

instance {ε α : Type} {x : Except ε α} {holds : α → Prop} [DecidablePred holds] :
    Decidable (∃ v, x = .ok v ∧ holds v) :=
  match x with
  | .ok v => decidable_of_iff (holds v) (by simp)
  | .error _ => .isFalse (by simp)

/-- An `if` whose first form does not match is accepted, and a declaration with one pattern too many nested is not. -/
theorem ofSource_of_unlimited_ifAndPatterns :
    (∃ tokens t q, tokenize (Text.spaced (Lexeme.calledGroups 1)) = .ok tokens ∧
      (Grammar.parse Grammar.budget 0 .program).run ⟨.ofTokens tokens, false, none⟩ .start = .ok t q ∧
      program.ofSource (Text.spaced (Lexeme.calledGroups 1)) = .ok t ∧ q.deepest ≤ 256) ∧
    ∃ tokens b t q, tokenize (Text.spaced (Lexeme.declaredPatterns 255)) = .ok tokens ∧
      (Grammar.parse b 0 .program).run ⟨.ofTokens tokens, false, none⟩ .start = .ok t q ∧ 256 < q.deepest ∧
      program.RejectsAsTooDeep (Text.spaced (Lexeme.declaredPatterns 255)) := by
  constructor
  · obtain ⟨tokens, htokens, ⟨t, q, h, hend⟩, hcut⟩ : ∃ tokens,
        tokenize (Text.spaced (Lexeme.calledGroups 1)) = .ok tokens ∧
          (∃ t q, (Grammar.parse Grammar.budget 0 .program).run ⟨.ofTokens tokens, false, none⟩ .start = .ok t q ∧
            ((Input.ofTokens tokens).get q.cursor).kind = .eof) ∧
          ¬((Grammar.rule .program).run ⟨.ofTokens tokens, false, some 256⟩ .start).IsCutShort := by decide +kernel
    exact ⟨tokens, t, q, htokens, h, (ofSource_of_unlimited .program htokens h hend).2.2 hcut⟩
  · obtain ⟨tokens, last, htokens, hlast, hlength, hshows⟩ :=
      (Text.scans_spaced (Lexeme.isSimple_declaredPatterns 255)).shows
    rw [Lexeme.length_declaredPatterns] at hlength
    have hend : (Input.mk tokens.toArray last).get (2 * 255 + 3) = last := by
      rw [Input.get_mk, List.getElem?_eq_none (by omega), Option.getD_none]
    obtain ⟨t, q, h, hq, hdeepest⟩ := Grammar.reads_declaredPatterns hshows (by rw [hend, hlast]) hlength
    rw [← Input.ofTokens_append hlast] at h hq
    have hdeep : 256 < q.deepest := by omega
    exact ⟨_, _, t, q, htokens, h, hdeep, (ofSource_of_unlimited .program htokens h hq).1 hdeep⟩

/-- A source that is accepted without a memo, with the same tree under no bound on nesting and under the one
that there is, and in what is kept in that tree no more rules are open at once than the bound allows; and with the
memo it is rejected as nested too deeply. -/
theorem calledGroups_not_accepted :
    ∃ tokens t q p, tokenize (Text.spaced (Lexeme.calledGroups 254)) = .ok tokens ∧
      (Grammar.rule .program).run ⟨.ofTokens tokens, false, none⟩ .start = .ok t q ∧
      ((Input.ofTokens tokens).get q.cursor).kind = .eof ∧ q.deepest ≤ 256 ∧
      (Grammar.rule .program).run ⟨.ofTokens tokens, false, some 256⟩ .start = .ok t p ∧
      ((Input.ofTokens tokens).get p.cursor).kind = .eof ∧
      ∃ token ∈ tokens, program.ofSource (Text.spaced (Lexeme.calledGroups 254)) =
        .error (.ofToken .tooDeep token) := by
  obtain ⟨tokens, last, htokens, hlast, hlength, hshows⟩ :=
    (Text.scans_spaced (Lexeme.isSimple_calledGroups 254)).shows
  have hcalls := Input.callsGroups hlast hlength hshows
  rw [← Input.ofTokens_append hlast] at hcalls
  obtain ⟨t, ht⟩ := Grammar.reads_calledGroups hcalls (Nat.le_refl _)
  obtain ⟨q, hq, hend, hdeepest⟩ := ht none (by simp)
  obtain ⟨p, hp, hend', -⟩ := ht (some 256) (by simp)
  obtain ⟨e, he⟩ := calledGroups_rejected hcalls (Nat.le_refl _)
  rw [← program.ofSource_of_tokenize htokens] at he
  refine ⟨_, t, q, p, htokens, hq, hend, hdeepest, hp, hend', ?_⟩
  obtain ⟨hok, -⟩ | ⟨tokens', token, htokens', hmem, hdeep⟩ := program.ofSource_kept htokens hq hend
  · cases he.symm.trans hok
  · obtain rfl := Except.ok.inj (htokens'.symm.trans htokens)
    exact ⟨token, hmem, hdeep⟩

/-- A canonical tree that is written out is accepted, and the tree that is found is that tree, if nothing would
cut the parse short without the memo. -/
theorem finds_canonical_of_plain (entry : Entry) {tree : Node} {tokens : List Token} {last : Token}
    (hcanonical : entry.isCanonical tree) (hw : tree.WrittenBy tokens last)
    (hcut : ¬((Grammar.rule entry.rule).run ⟨.ofTokens (tokens ++ [last]), false, some 256⟩
      .start).IsCutShort) :
    ∃ t, entry.ofInput (.ofTokens (tokens ++ [last])) = .ok t ∧ t.alike tree := by
  rw [hw.input_eq] at hcut ⊢
  obtain ⟨m, p, hp, hm, hc⟩ := (Grammar.ok_of_finds (entry.finds_written false hcanonical hw)
    Memo.isRight_empty).resolve_left hcut
  have hsame := (Grammar.rule_sameAs_plain ⟨tokens.toArray, last⟩ entry.rule Grammar.budget hcut).resolve_right
    fun h => absurd h.1 (Nat.lt_irrefl _)
  change Outcome.SameAs _ ((Grammar.rule entry.rule).run ⟨⟨tokens.toArray, last⟩, false, some 256⟩ .start)
    at hsame
  rw [hp] at hsame
  rcases hsame with ⟨v, p', q', hp', hq', hc'⟩ | ⟨e, p', q', -, hq'⟩
  · cases hq'
    refine ⟨m, entry.ofInput_of_ok hp' ?_, (Node.alike_iff m tree).mpr hm⟩
    rw [hc', hc]
    exact hw.get_stop
  · cases hq'

end Entry

end MagSyntax
