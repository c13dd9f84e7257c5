import MagSyntax.Proofs.Calls
import MagSyntax.Proofs.Memoized
import MagSyntax.Proofs.Nesting
import MagSyntax.Proofs.Powers
import MagSyntax.Proofs.StretchedRules

/-! Phrases: tokens that a rule reads to their end when there is nothing else. Wherever they stand in other
tokens the rule finds the same behind them, as long as what follows does not go on with an operand.
Both parses are compared without their guards, and a parse comes to what it comes to without
them unless they cut it short. -/

namespace MagSyntax

open Parse Stretch Balance

namespace Grammar

variable {input : Input} {r : Rule} {b : Nat}

/-- A parse beside itself, up to the end of its input. -/
def beside (setup : Setup) : Mirror := ⟨setup, setup, setup.input.before.size, True⟩

theorem isFair_beside {setup : Setup} (hlast : setup.input.last.kind = .eof) : (beside setup).IsFair := by
  refine ⟨rfl, rfl, Nat.le_refl _, Nat.le_refl _, ?_, fun _ _ => rfl, fun _ _ _ _ => Iff.rfl, fun _ _ _ => rfl⟩
  have hend : setup.input.get setup.input.before.size = setup.input.last := by simp [Input.get]
  exact hend ▸ hlast

theorem beside_self (setup : Setup) {p : Progress} (hc : p.cursor ≤ setup.input.before.size) (hm : p.memo = .empty) :
    (beside setup).Beside p.cursor p.depth p p := by
  refine ⟨rfl, rfl, hc, rfl, rfl, fun a => ?_⟩
  rw [hm, Memo.find?_empty]
  exact .none

theorem beside_start (setup : Setup) : (beside setup).Beside 0 0 .start .start :=
  @beside_self setup .start (Nat.zero_le _) rfl

/-- On a budget that is large enough for the tokens no rule uses it up, guarded or not, from whichever token. -/
theorem not_exhausted_from (setup : Setup) (hs : setup.input = input) (hlast : input.last.kind = .eof)
    (hb : enough input.before.size ≤ b) {p : Progress} (hc : p.cursor ≤ input.before.size) (hm : p.memo = .empty)
    (q : Progress) : (parse b r.surcharge r).run setup p ≠ .failed .exhausted q := by
  subst hs
  have hdemand := demand_le_enough r setup.input.before.size p.cursor
  have hmirrors : Mirrors (beside setup) False p.cursor (parse b r.surcharge r) (parse b r.surcharge r)
      ((beside setup).Found r p.cursor) :=
    mirrors_parse (isFair_beside hlast) (.inr ⟨Nat.le_trans hdemand hb, Nat.le_trans hdemand hb⟩)
  have h := hmirrors p.depth p p (beside_self setup hc hm)
  intro ho
  change (beside setup).Agree False p.depth _ ((parse b r.surcharge r).run setup p)
    ((parse b r.surcharge r).run setup p) at h
  rw [ho] at h
  cases h with
  | exhausted hx => exact hx

theorem not_exhausted (setup : Setup) (hs : setup.input = input) (hlast : input.last.kind = .eof)
    (hb : enough input.before.size ≤ b) (p : Progress) :
    (parse b r.surcharge r).run setup .start ≠ .failed .exhausted p :=
  not_exhausted_from setup hs hlast hb (Nat.zero_le _) rfl p

/-- A rule does not get past the end of the input. -/
theorem cursor_le (hlast : input.last.kind = .eof) {n : Node} {p : Progress}
    (h : (rule r).run { input } .start = .ok n p) : p.cursor ≤ input.before.size := by
  have hmirrors : Mirrors (beside { input }) True 0 (rule r) (rule r) ((beside { input }).Found r 0) :=
    mirrors_parse (isFair_beside hlast) (.inl ⟨trivial, rfl⟩)
  have hagree := hmirrors 0 .start .start (beside_start { input })
  change (beside { input }).Agree True 0 _ ((rule r).run { input } .start) ((rule r).run { input } .start) at hagree
  rw [h] at hagree
  cases hagree with
  | ok hb => exact hb.cursor ▸ hb.le

/-- Under a bound on nesting and on any budget a rule comes to what it comes to without its guards, unless they
cut it short. -/
theorem sameAs_unguarded (hlast : input.last.kind = .eof) (hb : enough input.before.size ≤ b) (bound b' : Nat) :
    ((parse b' r.surcharge r).run ⟨input, true, some bound⟩ .start).IsCutShort ∨
      ((parse b' r.surcharge r).run ⟨input, true, some bound⟩ .start).SameAs
        ((parse b r.surcharge r).run (plain input) .start) := by
  have hraised := (tracks_unbounded input true bound b' r.surcharge r).agree .start .start rfl ⟨rfl, rfl⟩
  refine (hraised.sameAs isExact_raised).imp_right fun hsame => ?_
  have h := (@tracks_remembering input none True b' b r.surcharge r (.inr trivial)).agree
    .start .start rfl ⟨rfl, isIdealMemo_empty⟩
  have hfinite := fun p => not_exhausted (r := r) (plain input) rfl hlast hb p
  change (remembering input none True).Agree ((parse b' r.surcharge r).run ⟨input, true, none⟩ .start)
    ((parse b r.surcharge r).run (plain input) .start) at h
  generalize (parse b r.surcharge r).run (plain input) .start = o at h hfinite ⊢
  obtain ⟨v, p, q, hp, hq, hc⟩ | ⟨e, p, q, hp, hq⟩ := hsame.resolve_right fun h => h.1 <;>
    rw [show (parse b' r.surcharge r).run ⟨input, true, none⟩ .start = _ from hp] at h <;>
    rw [show (parse b' r.surcharge r).run ⟨input, true, some bound⟩ .start = _ from hq]
  · cases h with
    | escaped hs => cases hs.1
    | lost hs => exact hs.elim
    | exhausted => exact absurd rfl (hfinite _)
    | found hc' => exact .inl ⟨v, q, _, rfl, rfl, hc.symm.trans hc'⟩
  · cases h with
    | escaped hs => cases hs.1
    | lost hs => exact hs.elim
    | exhausted => exact absurd rfl (hfinite _)
    | mismatch h =>
      obtain ⟨rfl, -⟩ := h
      exact .inr ⟨e, q, _, rfl, rfl⟩

/-- What a rule finds without its guards it finds with them, unless they cut it short. -/
theorem rule_of_finds (hlast : input.last.kind = .eof) {may : Failure → Prop} {found : Node → Nat → Prop}
    (h : ∀ b, Finds (plain input) (fun _ => True) may (parse b r.surcharge r) 0 found) :
    ((rule r).run { input } .start).IsCutShort ∨
      (∃ v p, (rule r).run { input } .start = .ok v p ∧ found v p.cursor) ∨
        ∃ e p, (rule r).run { input } .start = .failed (.mismatch e) p ∧ may (.mismatch e) := by
  refine (sameAs_unguarded hlast (Nat.le_refl _) 256 budget).imp_right ?_
  have h := h (enough input.before.size) .start rfl trivial
  rintro (⟨v, p, q, hp, hq, hc⟩ | ⟨e, p, q, hp, hq⟩) <;> rw [hq] at h
  · exact .inl ⟨v, p, hp, hc ▸ h.2⟩
  · exact .inr ⟨e, p, hp, h.2⟩

end Grammar

namespace Input

/-- The tokens stand in their input, whether it ends with one of them or not. -/
theorem prefix_toList_ofTokens (tokens : List Token) : tokens <+: (ofTokens tokens).toList := by
  unfold ofTokens
  split
  next hnone =>
    rw [List.getLast?_eq_none_iff.mp hnone]
    exact List.nil_prefix
  next last hlast =>
    split
    · simp [toList, List.dropLast_append_getLast? last hlast]
    · exact List.prefix_append ..

/-- Tokens without an end among them are closed by one. -/
theorem ofTokens_eq {tokens : List Token} (h : ∀ t ∈ tokens, t.kind ≠ .eof) :
    ∃ place, ofTokens tokens = ⟨tokens.toArray, .endAt place⟩ := by
  unfold ofTokens
  split
  next hnone =>
    rw [List.getLast?_eq_none_iff.mp hnone]
    exact ⟨_, rfl⟩
  next last hlast =>
    rw [if_neg (h last (List.mem_of_getLast? hlast))]
    exact ⟨_, rfl⟩

/-- Tokens without an end among them stand in their input, in front of its end. -/
theorem contains_ofTokens {tokens : List Token} (h : ∀ t ∈ tokens, t.kind ≠ .eof) :
    (ofTokens tokens).Contains 0 tokens ∧ ∃ place, (ofTokens tokens).get tokens.length = .endAt place := by
  obtain ⟨place, he⟩ := ofTokens_eq h
  rw [he]
  refine ⟨(holds_mk tokens _).contains, place, ?_⟩
  rw [get_mk, List.getElem?_eq_none (Nat.le_refl _)]
  rfl

end Input

namespace Rule

/-- With nothing behind the tokens the rule reads them all, as the tree. -/
def ReadsAll (r : Rule) (tokens : List Token) (n : Node) : Prop :=
  ∃ p, (Grammar.rule r).run { input := .ofTokens tokens } .start = .ok n p ∧ p.cursor = tokens.length

/-- With nothing behind the tokens one of the two guards cuts the rule short. -/
def CutsShort (r : Rule) (tokens : List Token) : Prop :=
  ((Grammar.rule r).run { input := .ofTokens tokens } .start).IsCutShort

instance (r : Rule) (tokens : List Token) : Decidable (r.CutsShort tokens) :=
  inferInstanceAs (Decidable (Outcome.IsCutShort _))

namespace ReadsAll

variable {r : Rule} {tokens : List Token} {n : Node}

theorem of_finding (h : ((Grammar.rule r).run { input := .ofTokens tokens } .start).finding? =
    some (.node n tokens.length)) : r.ReadsAll tokens n := by
  unfold ReadsAll
  generalize (Grammar.rule r).run { input := .ofTokens tokens } .start = o at h ⊢
  rcases o with ⟨v, p⟩ | ⟨e | _ | _, p⟩ <;>
    simp only [Outcome.finding?, Option.some.injEq, Finding.node.injEq, reduceCtorEq] at h
  obtain ⟨rfl, hc⟩ := h
  exact ⟨p, rfl, hc⟩

/-- What is read takes a token at least, unless it is a program, and ends in front of the first end. -/
theorem bounds (h : r.ReadsAll tokens n) :
    (r ≠ .program → 0 < tokens.length) ∧ tokens.length ≤ (Input.ofTokens tokens).endFrom 0 := by
  obtain ⟨p, hp, hc⟩ := h
  have hl : 0 < (Input.ofTokens tokens).toList.length := by
    rw [Input.length_toList]
    exact Nat.succ_pos _
  obtain ⟨hle, hsize, hend⟩ := Input.endFrom_spec (Input.kind_last_ofTokens tokens) hl
  have hagree := (Grammar.agree_calls (Grammar.isFair_sideBySide hsize hend rfl)
    (.inl ⟨trivial, rfl⟩ : True ∧ Grammar.budget = Grammar.budget ∨ _) [] r hle).1
  change Mirror.Agree _ _ _ (Mirror.Found _ r 0) ((Grammar.rule r).run { input := .ofTokens tokens } .start)
    ((Grammar.rule r).run { input := .ofTokens tokens } .start) at hagree
  rw [hp] at hagree
  cases hagree with
  | ok hb hn =>
    obtain rfl := hb.cursor.symm.trans hc
    exact ⟨hn.2, hb.le⟩

/-- The end of the input is none of the tokens. -/
theorem inside (h : r.ReadsAll tokens n) : ∀ t ∈ tokens, t.kind ≠ .eof := by
  intro t ht heof
  obtain ⟨i, hi, rfl⟩ := List.getElem_of_mem ht
  have hlt : i < (Input.ofTokens tokens).toList.findIdx (·.kind = .eof) := by
    have hbounds := h.bounds.2
    simp only [Input.endFrom, List.drop_zero, Nat.zero_add] at hbounds
    omega
  have hnot := List.not_of_lt_findIdx hlt
  rw [← (Input.prefix_toList_ofTokens tokens).getElem hi, decide_eq_false_iff_not] at hnot
  exact hnot heof

end ReadsAll

end Rule

namespace Parse.Stretch

variable {r : Rule} {input : Input} {tokens : List Token} {c : Nat} {before s : Balance} {k : Stretch}

theorem at_zero (k : Stretch) : k.At 0 k.before := ⟨Nat.zero_le _, rfl⟩

/-- A rule of values, or of blocks, at the start of tokens. -/
theorem fits_start (hr : r.isValue ∨ r = .block) (hd : k.before.behind ≠ .dot) (hn : 0 < k.tokens.length) :
    k.Fits r 0 k.before := by
  refine ⟨k.at_zero, hd, fun hm => ?_, fun _ => .inr hn, ?_⟩
  · rcases hr with hr | rfl
    · cases r <;> simp at hm <;> cases hr
    · simp at hm
  · rintro rfl
    rcases hr with hr | hr <;> cases hr

/-- Before anything is stored two parses are akin if they may open as many more rules. -/
theorem AreKin.of_untried {p q : Progress} (hp : p.memo = .empty) (hq : q.memo = .empty)
    (hrefused : p.refused = true → q.refused = true)
    (hroom : ∀ bounds ∈ k.bounds, q.depth + bounds.1 = p.depth + bounds.2) :
    k.AreKin p.depth p q := by
  refine fun bounds hb => ⟨rfl, hroom bounds hb, hrefused, fun r j _ => ?_⟩
  rw [hp, hq, Memo.find?_empty, Memo.find?_empty]
  exact .none

/-- Tokens with nothing behind them beside the same tokens in another input. -/
def elsewhere (tokens : List Token) (input : Input) (c : Nat) (bounds : Option (Nat × Nat)) : Stretch :=
  ⟨.ofTokens tokens, input, tokens, 0, c, even, bounds⟩

section

variable {bounds : Option (Nat × Nat)} (hinside : ∀ t ∈ tokens, t.kind ≠ .eof)
include hinside

theorem isFair_elsewhere (hbalanced : even.after tokens = some even) (hcontains : input.Contains c tokens)
    (hstop : (input.get (c + tokens.length)).kind ∉ asked)
    (hassign : bounds ≠ none → (input.get (c + tokens.length)).kind ≠ Symbol.assign) :
    (elsewhere tokens input c bounds).IsFair := by
  obtain ⟨hown, place, hend⟩ := Input.contains_ofTokens hinside
  refine ⟨hown, hcontains, hinside, fun s hs => .even ?_ ?_ hstop, hassign⟩
  · have hcount := hs.count
    simp only [elsewhere, List.take_length, hbalanced, Option.some.injEq] at hcount
    exact hcount.symm
  · simp only [elsewhere, Nat.zero_add, hend]
    show TokenKind.eof ∉ _
    decide

/-- What a rule reads to the end of the tokens, with its guards or without them, leaves nothing open. -/
theorem balanced_of_read (bound : Option Nat) (hr : r.isValue ∨ r = .block) (hn : 0 < tokens.length) {b : Nat}
    {v : Node} {p q : Progress} (hp : p.cursor = 0) (hm : p.memo = .empty)
    (hrun : (Grammar.parse b r.surcharge r).run (guardedBy (.ofTokens tokens) bound) p = .ok v q)
    (hq : q.cursor = tokens.length) : even.after tokens = some even := by
  obtain ⟨hown, place, hend⟩ := Input.contains_ofTokens hinside
  let k := elsewhere tokens (.ofTokens tokens) 0 (bound.map fun n => (n, n))
  have hk : k.IsFair := by
    refine ⟨hown, hown, hinside, fun s _ => ?_, fun _ => ?_⟩ <;> simp only [k, elsewhere, Nat.zero_add, hend]
    · exact .ended rfl rfl (Token.namesField_endAt place) (Token.namesField_endAt place)
    · exact nofun
  have hsetup : k.setup = guardedBy (.ofTokens tokens) bound ∧ k.setup' = guardedBy (.ofTokens tokens) bound := by
    cases bound <;> exact ⟨rfl, rfl⟩
  have hkin : k.AreKin p.depth p p := .of_untried hm hm id fun bounds hb => by
    obtain ⟨n, -, rfl⟩ := Option.map_eq_some_iff.mp hb
    rfl
  have hagree := Grammar.inStep_parse hk b b r.surcharge r (fits_start hr nofun hn) p.depth p p
    ⟨hp, hp, hkin⟩
  rw [hsetup.1, hsetup.2, hrun] at hagree
  cases hagree with
  | @found _ _ _ i hb hv =>
    obtain rfl : i = tokens.length := by
      have hc := hb.cursor
      rw [hq] at hc
      exact (hc.trans (Nat.zero_add i)).symm
    have hcount := hv.counted.count
    rwa [show k.tokens = tokens from rfl, List.take_length] at hcount
  | swallowed _ hw =>
    have hcount := hw.1.count
    rwa [show k.tokens = tokens from rfl, List.take_length] at hcount

end

end Parse.Stretch

/-- Tokens that a rule reads to their end without its guards, as the tree, when nothing stands behind them. -/
structure IsPhrase (r : Rule) (tokens : List Token) (n : Node) : Prop where
  role : r.isValue ∨ r = .block
  inside : ∀ t ∈ tokens, t.kind ≠ .eof
  nonempty : 0 < tokens.length
  read : ∃ b p, (Grammar.parse b r.surcharge r).run (plain (.ofTokens tokens)) .start = .ok n p ∧
    p.cursor = tokens.length

namespace Rule.ReadsAll

variable {r : Rule} {tokens : List Token} {n : Node}

/-- What a rule reads to its end is a phrase, unless the guards cut the rule short. -/
theorem isPhrase (h : r.ReadsAll tokens n) (hr : r.isValue ∨ r = .block) (hcut : ¬r.CutsShort tokens) :
    IsPhrase r tokens n := by
  refine ⟨hr, h.inside, h.bounds.1 ?_, ?_⟩
  · rintro rfl
    rcases hr with hr | hr <;> cases hr
  · obtain ⟨p, hp, hc⟩ := h
    refine ⟨Grammar.enough (Input.ofTokens tokens).before.size, ?_⟩
    obtain ⟨q, hq, hc'⟩ := ((Grammar.sameAs_unguarded (Input.kind_last_ofTokens tokens) (Nat.le_refl _) 256
      Grammar.budget).resolve_left hcut).of_ok hp
    exact ⟨q, hq, hc'.symm.trans hc⟩

end Rule.ReadsAll

namespace IsPhrase

variable {r : Rule} {tokens : List Token} {n : Node} (h : IsPhrase r tokens n)
include h

/-- A phrase leaves nothing open. -/
theorem balanced : even.after tokens = some even := by
  obtain ⟨b, p, hp, hc⟩ := h.read
  exact balanced_of_read h.inside none h.role h.nonempty rfl rfl hp hc

/-- Wherever a phrase stands its rule finds the same, before a token that does not go on with an operand, and
before an assignment if the tree does not end with something open. -/
theorem finds {input : Input} {c : Nat} (hcontains : input.Contains c tokens)
    (hstop : (input.get (c + tokens.length)).kind ∉ asked)
    (hassign : (input.get (c + tokens.length)).kind = Symbol.assign → r ≠ .expression ∧ n.endsOpen = false)
    (b : Nat) : Finds (plain input) (fun _ => True) Failure.IsExhausted (Grammar.parse b r.surcharge r) c
      fun v d => v = n ∧ d = c + tokens.length := by
  have hk : (elsewhere tokens input c none).IsFair :=
    isFair_elsewhere h.inside h.balanced hcontains hstop fun hn => absurd rfl hn
  obtain ⟨b', p, hp, hc⟩ := h.read
  intro q hq _
  have hagree := Grammar.inStep_parse hk b' b r.surcharge r (fits_start h.role nofun h.nonempty) 0 .start q
    (.of_plain rfl rfl hq)
  change Agree _ _ _ _ ((Grammar.parse b' r.surcharge r).run (plain (.ofTokens tokens)) .start) _ at hagree
  rw [hp] at hagree
  change Agree _ _ _ _ _ ((Grammar.parse b r.surcharge r).run (plain input) q) at hagree
  generalize (Grammar.parse b r.surcharge r).run (plain input) q = o at hagree ⊢
  cases hagree with
  | exhausted' => exact ⟨trivial, trivial⟩
  | @found _ _ q' i hb _ =>
    obtain rfl : i = tokens.length := by
      have hi := hb.cursor
      rw [hc] at hi
      exact (hi.trans (Nat.zero_add i)).symm
    exact ⟨trivial, rfl, hb.cursor'⟩
  | swallowed _ hw hv =>
    obtain ⟨hr, hopen⟩ := hassign hw.2
    have := hv.2.resolve_left hr
    rw [hopen] at this
    cases this

end IsPhrase

namespace Parse.Stretch

variable {input : Input} {tokens : List Token} {c i b : Nat} {before s : Balance} {r : Rule}

/-- Tokens beside themselves. -/
def alone (input : Input) (tokens : List Token) (c : Nat) (before : Balance) : Stretch :=
  ⟨input, input, tokens, c, c, before, none⟩

/-- A rule that starts in the tokens does not get past them, and complains about none behind them. -/
theorem finds_within (hk : (alone input tokens c before).IsFair) (hf : (alone input tokens c before).Fits r i s) :
    Finds (plain input) (fun _ => True) (Failure.Misses (alone input tokens c before).Reaches)
      (Grammar.parse b r.surcharge r) (c + i)
      fun v d => ∃ j, d = c + j ∧ (alone input tokens c before).Found r s v j := by
  intro p hp _
  have hagree := Grammar.inStep_parse hk b b r.surcharge r hf 0 p p (.of_plain rfl hp hp)
  change (alone input tokens c before).Agree _ _ _ ((Grammar.parse b r.surcharge r).run (plain input) p)
    ((Grammar.parse b r.surcharge r).run (plain input) p) at hagree
  generalize (Grammar.parse b r.surcharge r).run (plain input) p = o at hagree ⊢
  cases hagree with
  | exhausted | exhausted' => exact ⟨trivial, trivial⟩
  | @found _ _ _ j hb hv => exact ⟨trivial, j, hb.cursor, hv⟩
  | mismatch _ he => exact ⟨trivial, he⟩
  | swallowed _ hw => exact absurd (List.mem_cons.mpr (.inl hw.2)) (hk.left_of_swallows hw)

end Parse.Stretch

/-- Powers that stand among other tokens. -/
theorem Input.shows_powers (n : Nat) (before : List Token) {behind : List Token}
    (h : ∀ t ∈ behind, t.kind ≠ .eof) (last : Token) :
    (mk (before ++ ((Node.powers n).tokens ++ behind)).toArray last).Shows before.length (Node.powers n).lexemes :=
  ((Node.powers n).writtenBy_tokens ⟨0, 1, 1⟩).shows_among before behind h last

/-- Powers in a row are an expression, if the budget is enough for them. -/
theorem Rule.readsAll_powers {n : Nat} (hn : n ≤ 9976) :
    ¬expression.CutsShort (Node.powers n).tokens ∧ ∃ v, expression.ReadsAll (Node.powers n).tokens v := by
  obtain ⟨place, he⟩ := Input.ofTokens_eq fun t ht => ((Node.powers n).writtenBy_tokens ⟨0, 1, 1⟩).isInner ht |>.1
  have hw := (Node.powers n).writtenBy_tokens place
  obtain ⟨v, hv⟩ := Grammar.ends_powersExpression hw hn
  rw [hw.input_eq, ← he] at hv
  obtain ⟨q, hq, hc, hrefused⟩ := hv.run_found
  refine ⟨?_, v, q, hq, hc⟩
  change ¬((Grammar.rule .expression).run _ .start).IsCutShort
  rw [hq]
  rintro (h | ⟨p, h⟩)
  · exact Bool.false_ne_true (hrefused.symm.trans h)
  · cases h

end MagSyntax
