import MagSyntax.Proofs.Rounds
import MagSyntax.Proofs.Targets
import MagSyntax.Proofs.Writing

/-! A rule finds only what its tokens read as. Each lemma takes this for the rules that the body calls
and says it for the rule itself, so the tokens that an abandoned alternative has looked at never count. -/

namespace MagSyntax

namespace Node

theorem not_dangles_of_isExpression {n : Node} (h : n.isExpression) : n.dangles = false := by
  cases n <;> first | rfl | cases h

theorem bindsAt_of_isConditional {n : Node} (h : n.isConditional) : n.bindsAt .primary := by
  cases n <;> first | rfl | cases h

end Node

namespace Rule

theorem admits_iff {r : Rule} {n : Node} (hv : r.isValue) (hc : r ≠ .conditional) :
    r.admits n ↔ n.isExpression ∧ n.bindsAt r.least := by
  cases r <;> simp_all [admits, isValue, least]

theorem isExpression_of_admits {r : Rule} {n : Node} (hv : r.isValue) (h : r.admits n) :
    n.isExpression := by
  cases r <;> simp_all [admits, isValue, least]

theorem endsBefore_of_isExpression {r : Rule} {n : Node} {k : TokenKind} (he : n.isExpression)
    (hr : k ∉ r.continuers) (ho : n.endsOpen → k ∉ Rule.expression.continuers) :
    r.EndsBefore n k :=
  ⟨hr, ho, fun hd => by rw [Node.not_dangles_of_isExpression he] at hd; cases hd⟩

theorem links_subset : links ⊆ Rule.expression.continuers := by decide

/-- A rule whose operators group to the left, and the rule of their operands. -/
structure IsLeftLayer (r s : Rule) (level : Level) : Prop where
  least : r.least = level
  least_tighter : s.least = level + 1
  continuers : r.continuers = level.kinds ++ s.continuers
  sides : level.sides = (level, level + 1)
  kinds : level.kinds ⊆ Rule.expression.continuers
  disjoint : ∀ k ∈ level.kinds, k ∉ s.continuers
  lowest : Level.comparison ≤ level
  highest : level ≤ Level.exponent
  subset : s.continuers ⊆ Rule.expression.continuers
  isValue : r.isValue
  isValue_tighter : s.isValue
  ne : r ≠ .conditional
  ne_tighter : s ≠ .conditional

theorem IsLeftLayer.ne_program {r s : Rule} {level : Level} (h : IsLeftLayer r s level) :
    s ≠ .program := by
  rintro rfl
  cases h.isValue_tighter

theorem additive_isLeftLayer : IsLeftLayer .additive .multiplicative .additive := by
  constructor <;> decide

theorem multiplicative_isLeftLayer : IsLeftLayer .multiplicative .exponent .multiplicative := by
  constructor <;> decide

end Rule

namespace Input

variable {input : Input} {bare : Node → Prop}

theorem IsProper.value_eq (hp : input.IsProper) {c : Nat} {s : Symbol}
    (hk : (input.get c).kind = s) : (input.get c).value = s.spelling :=
  (hp c).2 s hk

theorem after_of_symbol {c : Nat} {s : Symbol} (hk : (input.get c).kind = s) :
    input.after c = c + 1 :=
  input.after_of_ne (by simp [hk])

theorem after_of_keyword {c : Nat} {w : Keyword} (hk : (input.get c).kind = w) :
    input.after c = c + 1 :=
  input.after_of_ne (by simp [hk])

theorem not_strayEnd {c : Nat} (hk : (input.get c).kind ≠ .eof) : ¬input.StrayEnd c :=
  fun h => hk h.1

/-- A looser rule finds what a tighter one does, before a token that does not go on with it. -/
theorem Found.loosen {r r' : Rule} {c stop : Nat} {n : Node} (h : input.Found bare r c n stop)
    (hv : r.isValue → r'.isValue) (ha : r.admits n → r'.admits n)
    (hk : (input.get stop).kind ∈ r'.continuers → (input.get stop).kind ∈ r.continuers) :
    input.Found bare r' c n stop := by
  rcases h with ⟨hr, hs⟩ | ⟨had, hw, hr, ho, hd⟩
  · exact .inl ⟨hv hr, hs⟩
  · exact .inr ⟨ha had, hw, fun h => hr (hk h), ho, hd⟩

/-- A found expression is an expression of a looser rule too. -/
theorem Found.value {r r' : Rule} {c stop : Nat} {n : Node} (h : input.Found bare r c n stop)
    (hr : r.isValue) (hne : r ≠ .conditional) (hr' : r'.isValue) (hne' : r' ≠ .conditional)
    (hle : r'.least ≤ r.least)
    (hk : (input.get stop).kind ∈ r'.continuers → (input.get stop).kind ∈ r.continuers) :
    input.Found bare r' c n stop := by
  refine h.loosen (fun _ => hr') (fun ha => ?_) hk
  rw [Rule.admits_iff hr hne] at ha
  exact (Rule.admits_iff hr' hne').mpr ⟨ha.1, Node.bindsAt_of_le ha.2 hle⟩

/-- Operands around an operator make a binary expression. -/
theorem Writes.isExpression_binary {level : Level} {c d stop : Nat} {left right : Node}
    (hl : input.Writes bare c left d) (loc : Loc) (hp : input.IsProper)
    (hk : (input.get d).kind ∈ level.kinds) (hr : input.Writes bare (d + 1) right stop)
    (hel : left.isExpression) (hbl : left.standsBefore level.sides.1)
    (her : right.isExpression) (hbr : right.bindsAt level.sides.2) :
    let n := Node.binary loc (input.get d).value left right
    n.isExpression ∧ (∀ least, n.bindsAt least = decide (least ≤ level)) ∧
      input.Writes bare c n stop := by
  obtain ⟨o, ho⟩ := Level.exists_symbol_of_mem hk
  rw [ho] at hk
  have hof := Level.ofOperator_of_mem hk
  rw [hp.value_eq ho]
  refine ⟨?_, fun least => Node.bindsAt_binary hof, hl.binary hp ho hr⟩
  rw [Node.isExpression_binary hof]
  simp [hel, hbl, her, hbr]

/-- What a rule with a loop has found so far: a tree of the rule, before a token that the rule of its operands does not
go on with, or a part of one that a stray end cuts off. -/
def FoundSoFar (input : Input) (bare : Node → Prop) (r s : Rule) (c : Nat) (n : Node) (d : Nat) : Prop :=
  input.StrayEnd d ∨ r.admits n ∧ input.Writes bare c n d ∧ s.EndsBefore n (input.get d).kind

/-- A chain of links that is complete can be gone on with. -/
theorem Writes.chained {c d : Nat} {n : Node} (hw : input.Writes bare c n d) (he : n.isExpression)
    (hb : n.bindsAt .postfixChain) (ho : n.endsOpen = false) :
    input.FoundSoFar bare .postfixChain .primary c n d :=
  .inr ⟨(Rule.admits_iff rfl (by decide)).mpr ⟨he, hb⟩, hw,
    Rule.endsBefore_of_isExpression he (by simp [Rule.continuers]) (by simp [ho])⟩

/-- A chain before a link is a complete one. -/
theorem FoundSoFar.stands {c d : Nat} {n : Node} {k : TokenKind}
    (h : input.FoundSoFar bare .postfixChain .primary c n d) (hk : (input.get d).kind = k)
    (hm : k ∈ Rule.links) :
    n.isExpression ∧ n.standsBefore .postfixChain ∧ input.Writes bare c n d := by
  obtain ⟨had, hw, hend⟩ := h.resolve_left (not_strayEnd fun he => by
    rw [← hk, he] at hm
    revert hm
    decide)
  have ha := (Rule.admits_iff rfl (by decide)).mp had
  refine ⟨ha.1, Node.standsBefore_iff.mpr ⟨ha.2, hend.not_endsOpen ?_⟩, hw⟩
  rw [hk]
  exact Rule.links_subset hm

/-- Where nothing goes on with it, what has been found so far is found. -/
theorem FoundSoFar.found {r s : Rule} {kinds : List TokenKind} {c d : Nat} {n : Node}
    (h : input.FoundSoFar bare r s c n d) (hv : r.isValue) (hr : r.continuers = kinds ++ s.continuers)
    (hk : (input.get d).kind ∉ kinds) : input.Found bare r c n d := by
  rcases h with hs | ⟨had, hw, hend⟩
  · exact .inl ⟨hv, hs⟩
  · refine .inr ⟨had, hw, fun hm => ?_, hend.branch, hend.elseless⟩
    rw [hr] at hm
    exact (List.mem_append.mp hm).elim hk hend.rule

end Input

open Parse Input

/-- The step finds only what the tokens read as by the rule. -/
def Parse.Sound (setup : Setup) (keeps : Memo → Prop) (r : Rule) (step : Parse Node) : Prop :=
  ∀ c, Finds setup keeps Failure.IsTame step c (setup.input.Found (fun _ => True) r c)

namespace Grammar

variable {setup : Setup} {keeps : Memo → Prop} {self : Rule → Parse Node}

section

variable (hp : setup.input.IsProper) (hself : ∀ r, Sound setup keeps r (self r))
include hp hself

theorem sound_binaryLeft {r s : Rule} {level : Level} (layer : r.IsLeftLayer s level) :
    Sound setup keeps r (binaryLeft level.kinds (self s)) := by
  intro c
  refine finds_binaryLeft (setup.input.FoundSoFar (fun _ => True) r s c) trivial ?_ ?_ ?_
  · refine (hself s c).imp fun left d hl => hl.imp And.right fun hl => ⟨?_, hl.written, hl.ended⟩
    have ha := (Rule.admits_iff layer.isValue_tighter layer.ne_tighter).mp hl.admitted
    rw [Rule.admits_iff layer.isValue layer.ne, layer.least]
    rw [layer.least_tighter] at ha
    exact ⟨ha.1, Node.bindsAt_of_le ha.2 (Nat.le_succ _)⟩
  · intro left d h hk
    obtain ⟨o, ho⟩ := Level.exists_symbol_of_mem hk
    obtain ⟨had, hw, hend⟩ := h.resolve_left (not_strayEnd (by simp [ho]))
    rw [after_of_symbol ho]
    refine (hself s (d + 1)).imp fun right e hr => hr.imp And.right fun hr => ?_
    rw [Rule.admits_iff layer.isValue layer.ne, layer.least] at had
    have hright := (Rule.admits_iff layer.isValue_tighter layer.ne_tighter).mp hr.admitted
    rw [layer.least_tighter] at hright
    obtain ⟨he, hb, hw⟩ := hw.isExpression_binary left.loc hp hk hr.written had.1
      (Node.standsBefore_iff.mpr ⟨by rw [layer.sides]; exact had.2,
        hend.not_endsOpen (layer.kinds hk)⟩)
      hright.1 (by rw [layer.sides]; exact hright.2)
    refine ⟨(Rule.admits_iff layer.isValue layer.ne).mpr ⟨he, ?_⟩, hw, ?_⟩
    · rw [hb, layer.least]
      exact decide_eq_true (Nat.le_refl _)
    · exact Rule.endsBefore_of_isExpression he hr.ended.rule hr.ended.branch
  · intro left d h hk
    exact h.found layer.isValue layer.continuers hk

theorem sound_comparison : Sound setup keeps .comparison (comparison self) := by
  intro c
  refine (hself .additive c).bind fun left d hl => ?_
  rw [finds_accept_bind]
  split
  next hk =>
    have hk' := hk
    rw [← Level.kinds_comparison] at hk'
    obtain ⟨o, ho⟩ := Level.exists_symbol_of_mem hk'
    have hl := hl.reads (by simp [ho])
    rw [after_of_symbol ho]
    refine (hself .additive (d + 1)).bind fun right e hr => ?_
    simp only [finds_check_bind]
    split
    · exact finds_complain_bind fun _ => trivial
    next hn =>
      refine finds_pure (hr.imp id fun hr => ?_)
      have hleft := (Rule.admits_iff rfl (by decide)).mp hl.admitted
      have hright := (Rule.admits_iff rfl (by decide)).mp hr.admitted
      have hopen := hl.ended.not_endsOpen (List.mem_cons_of_mem _ (List.mem_append_left _ hk))
      obtain ⟨he, hb, hw⟩ := hl.written.isExpression_binary left.loc hp hk' hr.written
        hleft.1 (Node.standsBefore_iff.mpr ⟨hleft.2, hopen⟩) hright.1 hright.2
      refine ⟨(Rule.admits_iff rfl (by decide)).mpr ⟨he, by rw [hb]; decide⟩, hw, ?_⟩
      refine Rule.endsBefore_of_isExpression he (fun hm => ?_) hr.ended.branch
      exact (List.mem_append.mp hm).elim (fun h => hn (decide_eq_true h)) hr.ended.rule
  next hk =>
    refine finds_pure (hl.value rfl (by decide) rfl (by decide) (by decide) fun hm => ?_)
    exact (List.mem_append.mp hm).resolve_left hk

theorem sound_exponent : Sound setup keeps .exponent (exponent self) := by
  intro c
  refine (hself .unary c).bind fun base d hl => ?_
  rw [finds_accept_bind]
  split
  next hk =>
    have ho := List.mem_singleton.mp hk
    have hl := hl.reads (by simp [ho])
    rw [after_of_symbol ho]
    refine (hself .exponent (d + 1)).bind fun power e hr => finds_pure ?_
    refine hr.imp id fun hr => ?_
    have hleft := (Rule.admits_iff rfl (by decide)).mp hl.admitted
    have hright := (Rule.admits_iff rfl (by decide)).mp hr.admitted
    obtain ⟨he, hb, hw⟩ := hl.written.isExpression_binary base.loc hp
      (show _ ∈ Level.exponent.kinds by rw [Level.kinds_exponent]; exact hk) hr.written hleft.1
      (Node.standsBefore_iff.mpr ⟨hleft.2, hl.ended.not_endsOpen (by rw [ho]; decide)⟩) hright.1
      hright.2
    exact ⟨(Rule.admits_iff rfl (by decide)).mpr ⟨he, by rw [hb]; decide⟩, hw,
      Rule.endsBefore_of_isExpression he hr.ended.rule hr.ended.branch⟩
  next hk =>
    refine finds_pure (hl.value rfl (by decide) rfl (by decide) (by decide) fun hm => ?_)
    exact (List.mem_cons.mp hm).resolve_left fun h => hk (by simp [h])

theorem sound_unary : Sound setup keeps .unary (unary self) := by
  intro c
  simp only [unary]
  rw [finds_accept_bind]
  split
  next hk =>
    have ho := List.mem_singleton.mp hk
    rw [after_of_symbol ho]
    refine (hself .postfixChain (c + 1)).bind fun argument e hr => finds_pure ?_
    refine hr.imp id fun hr => ?_
    have ha := (Rule.admits_iff rfl (by decide)).mp hr.admitted
    rw [hp.value_eq ho]
    have he : (Node.unary (locOf (setup.input.get c)) Symbol.sub.spelling argument true).isExpression := by
      rw [Node.isExpression_unary, Bool.and_eq_true]
      exact ha
    exact ⟨(Rule.admits_iff rfl (by decide)).mpr ⟨he, rfl⟩, hr.written.unary hp ho,
      Rule.endsBefore_of_isExpression he hr.ended.rule hr.ended.branch⟩
  next hk =>
    exact (hself .postfixChain c).imp fun n e h =>
      h.value rfl (by decide) rfl (by decide) (by decide) id

theorem sound_expression : Sound setup keeps .expression (expression self) := by
  intro c
  refine (hself .operand c).bind fun left d hl => ?_
  rw [finds_accept_bind]
  split
  next hk =>
    have ho := List.mem_singleton.mp hk
    have hl := hl.reads (by simp [ho])
    have hleft := (Rule.admits_iff rfl (by decide)).mp hl.admitted
    rw [after_of_symbol ho]
    simp only [toTarget]
    split
    next target ht =>
      rw [finds_pure_bind]
      refine (hself .expression (d + 1)).bind fun right e hr => finds_pure ?_
      refine hr.imp id fun hr => ?_
      have hright := (Rule.admits_iff rfl (by decide)).mp hr.admitted
      have he : (Node.assignment left.loc target right "=").isExpression := by
        simp only [Node.isExpression, Node.isTarget_of_asTarget left hleft.1 ht, hright.1]
        rfl
      have hw : setup.input.Writes (fun _ => True) c target d :=
        hl.written.imp fun ls h => ⟨Node.writtenAs_of_asTarget left ht h.1, h.2⟩
      exact ⟨(Rule.admits_iff rfl (by decide)).mpr ⟨he, rfl⟩, hw.assignment hp ho hr.written,
        Rule.endsBefore_of_isExpression he hr.ended.rule hr.ended.branch⟩
    next => exact finds_fail_bind trivial
  next hk =>
    refine finds_pure (hl.value rfl (by decide) rfl (by decide) (by decide) fun hm => ?_)
    exact (List.mem_cons.mp hm).resolve_left fun h => hk (by simp [h])

omit hself in
theorem sound_fieldName {c : Nat} :
    Finds setup keeps Failure.IsTame fieldName c fun name stop =>
      name = .identifier (locOf (setup.input.get c)) (setup.input.get c).value ∧
        (setup.input.StrayEnd c ∧ stop = c ∨
          (setup.input.get c).essence.NamesField ∧ stop = c + 1) := by
  simp only [fieldName]
  rw [finds_current_bind]
  split
  · exact finds_complain_bind fun _ => trivial
  next hn =>
    rw [finds_advance_bind]
    refine finds_pure ⟨rfl, ?_⟩
    by_cases hk : (setup.input.get c).kind = .eof
    · refine .inl ⟨⟨hk, ?_⟩, by simp [Input.after, hk]⟩
      rw [Option.isSome_iff_ne_none]
      exact fun hv => hn ⟨by simp [hk], hv⟩
    · refine .inr ⟨⟨hk, hp c, ?_⟩, setup.input.after_of_ne hk⟩
      rw [Option.isSome_iff_ne_none]
      exact Decidable.or_iff_not_imp_left.mpr fun hi hv => hn ⟨hi, hv⟩

/-- The tokens of a list between brackets read as its elements. -/
theorem sound_delimited {r : Rule} {s : Symbol} (hs : closingBracket? s = some s) {c : Nat}
    (hc : (setup.input.get c).kind ≠ .eof) :
    Finds setup keeps Failure.IsTame (delimited s (self r)) c fun items stop =>
      ∃ d, setup.input.ListWrites (fun _ => True) (c + 1) items d ∧
        (setup.input.get d).kind = s ∧ stop = d + 1 ∧ ∀ n ∈ items, r.admits n := by
  -- A list can be cut off by a stray end, behind which no bracket closes it.
  have helements (bound : Nat) : Finds setup keeps Failure.IsTame (elements s (self r) bound []) (c + 1)
      fun items d => setup.input.StrayEnd d ∨
        setup.input.ListWrites (fun _ => True) (c + 1) items d ∧ ∀ n ∈ items, r.admits n := by
    refine finds_elements (fun _ => True) (fun c items d => setup.input.StrayEnd d ∨
      setup.input.ListWrites (fun _ => True) c items d ∧ ∀ n ∈ items, r.admits n) trivial ?_ ?_ bound trivial
    · exact fun c _ _ => .inr ⟨ListWrites.nil, by simp⟩
    · refine fun c _ => (hself r c).imp fun next d hn => ⟨fun hk => ⟨trivial, ?_⟩, fun _ => ?_⟩
      · have hn := hn.reads (by simp [hk])
        rw [after_of_symbol hk]
        refine fun rest stop => Or.imp id fun h => ⟨h.1.cons hp hn.written hk, ?_⟩
        exact List.forall_mem_cons.mpr ⟨hn.admitted, h.2⟩
      · refine hn.imp And.right fun hn => ?_
        exact ⟨.singleton hn.written, by simpa using hn.admitted⟩
  refine finds_delimited hs (by rw [setup.input.after_of_ne hc]; exact helements) ?_ fun _ _ _ _ => trivial
  intro items d h hk
  obtain ⟨hw, ha⟩ := h.resolve_left (not_strayEnd (by simp [hk]))
  exact ⟨d, hw, hk, after_of_symbol hk, ha⟩

theorem sound_postfixChain : Sound setup keeps .postfixChain (postfixChain self) := by
  intro c
  refine finds_postfixChain (setup.input.FoundSoFar (fun _ => True) .postfixChain .primary c) trivial
    ?_ ?_ ?_ ?_ ?_
  · refine (hself .primary c).imp fun node d h => h.imp And.right fun h => ⟨?_, h.written, h.ended⟩
    have ha := (Rule.admits_iff rfl (by decide)).mp h.admitted
    exact (Rule.admits_iff rfl (by decide)).mpr ⟨ha.1, Node.bindsAt_of_le ha.2 (by decide)⟩
  · intro node d h hk
    obtain ⟨he, hs, hw⟩ := h.stands hk (by decide)
    rw [after_of_symbol hk]
    refine (sound_fieldName hp).imp fun name e hfound => ?_
    obtain ⟨rfl, hf⟩ := hfound
    rcases hf with ⟨hstray, rfl⟩ | ⟨hn, rfl⟩
    · exact .inl hstray
    · exact (hw.field hp hk hn).chained (by simp [Node.isExpression, he, hs, Node.isIdentifier]) rfl rfl
  · intro node d h hk
    obtain ⟨he, hs, hw⟩ := h.stands hk (by decide)
    rw [after_of_symbol hk]
    refine (hself .expression (d + 1)).imp fun i e hi => ⟨fun hc => ?_, fun _ => trivial⟩
    have hi := hi.reads (by simp [hc])
    have ha := (Rule.admits_iff rfl (by decide)).mp hi.admitted
    rw [after_of_symbol hc]
    exact (hw.index hp hk hi.written hc).chained (by simp [Node.isExpression, he, hs, ha.1]) rfl rfl
  · intro node d h hk
    obtain ⟨he, hs, hw⟩ := h.stands hk (by decide)
    refine (sound_delimited hp hself (r := .expression) (s := .rparen) rfl (by simp [hk])).imp
      fun items e hfound => ?_
    obtain ⟨d', hi, hc, rfl, ha⟩ := hfound
    refine (hw.call hp hk hi hc).chained ?_ rfl rfl
    simp only [Node.isExpression, he, hs, Bool.true_and]
    exact Node.allExpressions_iff.mpr fun n hn => Rule.isExpression_of_admits rfl (ha n hn)
  · intro node d h hk
    exact h.found rfl (List.append_nil _).symm hk

omit hp hself in
/-- A node that is one token long is found where the token stands. -/
theorem found_token {c : Nat} {n : Node} (hk : (setup.input.get c).kind ≠ .eof)
    (he : n.isExpression) (hb : n.bindsAt .primary) (ho : n.endsOpen = false)
    (hw : n.WrittenAs (fun _ => True) [(setup.input.get c).essence]) :
    Finds setup keeps Failure.IsTame (discard advance >>= fun _ => pure n) c
      (setup.input.Found (fun _ => True) .primary c) := by
  rw [finds_advance_bind, setup.input.after_of_ne hk]
  exact finds_pure (.inr ⟨(Rule.admits_iff rfl (by decide)).mpr ⟨he, hb⟩, .token hk hw,
    Rule.endsBefore_of_isExpression he (by simp [Rule.continuers]) (by simp [ho])⟩)

theorem sound_primary : Sound setup keeps .primary (primary self) := by
  intro c
  simp only [primary]
  rw [finds_current_bind]
  split
  next hk =>
    refine found_token (by simp [hk]) rfl rfl rfl ?_
    simp [Node.WrittenAs, Token.essence, hk]
  next hk =>
    refine found_token (by simp [hk]) rfl rfl rfl ?_
    simp [Node.WrittenAs, Token.essence, hk]
  next hk =>
    refine found_token (by simp [hk]) rfl rfl rfl ?_
    simp [Node.WrittenAs, Token.essence, hk]
  next hk =>
    refine found_token (by simp [hk]) rfl rfl rfl ?_
    simp [Node.WrittenAs, hp.essence_keyword hk]
  next hk =>
    refine found_token (by simp [hk]) rfl rfl rfl ?_
    simp [Node.WrittenAs, hp.essence_keyword hk]
  next hk =>
    refine found_token (by simp [hk]) rfl rfl rfl ?_
    simp [Node.WrittenAs, Token.essence, hk]
  next hk =>
    refine (sound_delimited hp hself (r := .expression) (s := .rbrack) rfl (by simp [hk])).bind
      fun items e hfound => finds_pure (.inr ?_)
    obtain ⟨d, hi, hc, rfl, ha⟩ := hfound
    have he : (Node.array (locOf (setup.input.get c)) items).isExpression :=
      Node.allExpressions_iff.mpr fun n hn => Rule.isExpression_of_admits rfl (ha n hn)
    exact ⟨(Rule.admits_iff rfl (by decide)).mpr ⟨he, rfl⟩, .array hp hk hi hc,
      Rule.endsBefore_of_isExpression he (by simp [Rule.continuers]) (by simp [Node.endsOpen])⟩
  next hk =>
    rw [finds_advance_bind, after_of_symbol hk]
    refine (hself .expression (c + 1)).bind fun inner d hi => ?_
    refine finds_expect_bind (fun hc => finds_pure (.inr ?_)) fun _ _ => trivial
    have hi := hi.reads (by simp [hc])
    rw [after_of_symbol hc]
    have he : inner.isExpression := Rule.isExpression_of_admits rfl hi.admitted
    exact ⟨(Rule.admits_iff rfl (by decide)).mpr ⟨he, rfl⟩, .parenthesized hp hk hi.written hc,
      by simp [Rule.continuers], by simp [Node.endsOpen], by simp [Node.dangles]⟩
  next hk =>
    refine (hself .conditional c).imp fun n e h => h.loosen id (fun ha => ?_) id
    simp only [Rule.admits, Bool.and_eq_true] at ha
    exact (Rule.admits_iff rfl (by decide)).mpr ⟨ha.1, Node.bindsAt_of_isConditional ha.2⟩
  next => exact finds_complain fun _ => trivial

omit hp in
/-- A condition in parentheses. -/
theorem sound_condition {c : Nat} :
    Finds setup keeps Failure.IsTame (condition self) c fun test stop =>
      ∃ d, (setup.input.get c).kind = Symbol.lparen ∧ test.isExpression ∧
        setup.input.Writes (fun _ => True) (c + 1) test d ∧
        (setup.input.get d).kind = Symbol.rparen ∧ stop = d + 1 := by
  refine finds_expect_bind (fun ho => ?_) fun _ _ => trivial
  rw [after_of_symbol ho]
  refine (hself .expression (c + 1)).bind fun test d h => ?_
  refine finds_expect_bind (fun hc => finds_pure ?_) fun _ _ => trivial
  have h := h.reads (by simp [hc])
  exact ⟨d, ho, Rule.isExpression_of_admits rfl h.admitted, h.written, hc, after_of_symbol hc⟩

omit hp in
/-- A condition without parentheses and the block behind it. -/
theorem sound_conditionAndBlock {c : Nat} :
    Finds setup keeps Failure.IsTame (conditionAndBlock self) c fun found stop =>
      ∃ d, setup.input.Reads (fun _ => True) .operand c found.1 d ∧
        setup.input.Reads (fun _ => True) .block d found.2 stop := by
  refine (hself .operand c).bind fun test d h => ?_
  simp only [finds_sees_bind]
  split
  · exact finds_complain_bind fun _ => trivial
  next hn =>
    have hk : (setup.input.get d).kind = Symbol.lbrace := by simpa using hn
    refine (hself .block d).bind fun block e hb => finds_pure ⟨d, h.reads (by simp [hk]), ?_⟩
    exact hb.resolve_left (by simp [Rule.isValue, Rule.least])

/-- The two branches of an `if` with a value, when they are expressions. -/
theorem sound_conditionalRest {loc : Loc} {test : Node} {explicitThen : Bool} {c d : Nat}
    (ht : test.isExpression) (hn : explicitThen → test.isAssignment = false)
    (hc : ∀ consequent : Node, consequent.isBlock = false →
      setup.input.ConditionWrites (fun _ => True) c test consequent explicitThen d) :
    Finds setup keeps Failure.IsTame (conditionalRest self loc test explicitThen) d
      (setup.input.Found (fun _ => True) .conditional c) := by
  refine (hself .expression d).bind fun consequent e hq => ?_
  refine finds_expect_bind (fun hk => ?_) fun _ _ => trivial
  have hq := hq.reads (by simp [hk])
  rw [after_of_keyword hk]
  refine (hself .expression (e + 1)).bind fun alternate stop ha => finds_pure ?_
  refine ha.imp id fun ha => ?_
  have heq := Rule.isExpression_of_admits rfl hq.admitted
  have hea := Rule.isExpression_of_admits rfl ha.admitted
  have hb := Node.not_isBlock_of_isExpression heq
  have he : (Node.conditional loc test consequent alternate explicitThen).isExpression := by
    cases explicitThen <;> simp [Node.isExpression, ht, hb, heq, hea, hn]
  exact ⟨by simp [Rule.admits, he, Node.isConditional],
    .conditional hp (hc consequent hb) hq.written hk ha.written,
    Rule.endsBefore_of_isExpression he (by simp [Rule.continuers]) fun _ => ha.ended.rule⟩

theorem sound_conditionalByParentheses {loc : Loc} {c : Nat}
    (hif : (setup.input.get c).kind = Keyword.ifWord) :
    Finds setup keeps Failure.IsTame (conditionalByParentheses self loc) (c + 1)
      (setup.input.Found (fun _ => True) .conditional c) := by
  rw [conditionalByParentheses_eq]
  refine (sound_condition hself).bind fun test d ⟨e, ho, ht, hw, hc, hd⟩ => ?_
  subst hd
  exact sound_conditionalRest hp hself ht (by simp) fun consequent hb => .parentheses hp hif ho hw hc hb

theorem sound_conditionalByThen {loc : Loc} {c : Nat}
    (hif : (setup.input.get c).kind = Keyword.ifWord) :
    Finds setup keeps Failure.IsTame (conditionalByThen self loc) (c + 1)
      (setup.input.Found (fun _ => True) .conditional c) := by
  rw [conditionalByThen_eq]
  refine (hself .operand (c + 1)).bind fun test d ht => ?_
  refine finds_expect_bind (fun hk => ?_) fun _ _ => trivial
  have ht := ht.reads (by simp [hk])
  have ha := (Rule.admits_iff rfl (by decide)).mp ht.admitted
  rw [after_of_keyword hk]
  exact sound_conditionalRest hp hself ha.1 (fun _ => Node.not_isAssignment_of_bindsAt ha.2)
    fun consequent hb => .word hp hif ht.written hk hb

theorem sound_conditionalByBlocks {loc : Loc} {c : Nat}
    (hif : (setup.input.get c).kind = Keyword.ifWord) :
    Finds setup keeps Failure.IsTame (conditionalByBlocks self loc) (c + 1)
      (setup.input.Found (fun _ => True) .conditional c) := by
  refine (sound_conditionAndBlock hself).bind fun ⟨test, consequent⟩ d ⟨e, ht, hq⟩ => ?_
  refine finds_expect_bind (fun hk => ?_) fun _ _ => trivial
  have ha := (Rule.admits_iff rfl (by decide)).mp ht.admitted
  have hn := Node.not_isAssignment_of_bindsAt ha.2
  have hb := hq.admitted
  simp only [Rule.admits, Bool.and_eq_true, decide_eq_true_eq] at hb
  have hcb := Node.isBlock_of_statementRule hb.2
  have hw := ConditionWrites.block false hp hif ht.written hcb
  rw [after_of_keyword hk, finds_sees_bind]
  split
  next =>
    refine (hself .conditional (d + 1)).bind fun alternate stop hr => finds_pure ?_
    refine hr.imp id fun hr => ?_
    have hr' := hr.admitted
    simp only [Rule.admits, Bool.and_eq_true] at hr'
    have hrb := Node.not_isBlock_of_isExpression hr'.1
    have he : (Node.conditional loc test consequent alternate false).isExpression := by
      simp [Node.isExpression, ha.1, hcb, hn, hb.1, hrb, hr'.1, hr'.2]
    refine ⟨by simp [Rule.admits, he, Node.isConditional],
      .conditional hp hw hq.written hk hr.written, ?_⟩
    refine Rule.endsBefore_of_isExpression he (by simp [Rule.continuers]) fun ho => ?_
    exact hr.ended.branch (by simpa [Node.endsOpen, hcb, hrb] using ho)
  next =>
    refine (hself .block (d + 1)).bind fun alternate stop hr => finds_pure (.inr ?_)
    have hr := hr.resolve_left (by simp [Rule.isValue, Rule.least])
    have hr' := hr.admitted
    simp only [Rule.admits, Bool.and_eq_true, decide_eq_true_eq] at hr'
    have hrb := Node.isBlock_of_statementRule hr'.2
    have he : (Node.conditional loc test consequent alternate false).isExpression := by
      simp [Node.isExpression, ha.1, hcb, hn, hb.1, hrb, hr'.1]
    refine ⟨by simp [Rule.admits, he, Node.isConditional],
      .conditional hp hw hq.written hk hr.written, ?_⟩
    exact Rule.endsBefore_of_isExpression he (by simp [Rule.continuers])
      (by simp [Node.endsOpen, hcb, hrb])

theorem sound_conditional : Sound setup keeps .conditional (conditional self) := by
  intro c
  refine finds_expectOne_bind (fun hk => ?_) fun _ _ => trivial
  have hk := List.mem_singleton.mp hk
  rw [after_of_keyword hk]
  refine finds_attempt (fun _ h => h.isTame) (sound_conditionalByParentheses hp hself hk) fun _ => ?_
  refine finds_attemptAfter_cons (fun _ h => h.isTame) (sound_conditionalByThen hp hself hk) fun _ => ?_
  refine finds_attemptAfter_cons (fun _ h => h.isTame) (sound_conditionalByBlocks hp hself hk) fun _ => ?_
  exact finds_attemptAfter_nil fun _ => trivial

end

end Grammar

end MagSyntax
