import MagSyntax.Proofs.Parts
import MagSyntax.Proofs.Soundness

/-! A rule finds every tree that its tokens read as, but for the places of its nodes. Each lemma takes
this for the rules that the body calls. An alternative that comes too early is shown to fail: what it
finds is known from soundness, and counting `if`s shows that its next token cannot be there. -/

namespace MagSyntax

namespace Input

variable {input : Input} {bare : Node → Prop} {c stop : Nat} {n : Node}

/-- An expression before a token that ends it reads as what it is. -/
theorem Reads.of_standsBefore {r : Rule} (hv : r.isValue) (hne : r ≠ .conditional)
    (he : n.isExpression) (hb : n.standsBefore r.least) (hw : input.Writes bare c n stop)
    (hk : (input.get stop).kind ∉ r.continuers) : input.Reads bare r c n stop := by
  obtain ⟨hb, ho⟩ := Node.standsBefore_iff.mp hb
  exact ⟨(Rule.admits_iff hv hne).mpr ⟨he, hb⟩, hw,
    Rule.endsBefore_of_isExpression he hk (by simp [ho])⟩

/-- An expression that may be open, before a token that would go on with no expression. -/
theorem Reads.of_not_continuer {r : Rule} (hv : r.isValue) (hne : r ≠ .conditional)
    (he : n.isExpression) (hb : n.bindsAt r.least) (hw : input.Writes bare c n stop)
    (hk : (input.get stop).kind ∉ Rule.expression.continuers)
    (hr : r.continuers ⊆ Rule.expression.continuers) : input.Reads bare r c n stop :=
  ⟨(Rule.admits_iff hv hne).mpr ⟨he, hb⟩, hw,
    Rule.endsBefore_of_isExpression he (fun hm => hk (hr hm)) fun _ => hk⟩

/-- A reading by a rule is one by a tighter rule, if the tree binds tightly enough for it. -/
theorem Reads.tighten {r : Rule} (h : input.Reads bare r c n stop) (r' : Rule) (hr : r.isValue)
    (hr' : r'.isValue) (hne : r' ≠ .conditional) (hb : n.bindsAt r'.least)
    (hc : r'.continuers ⊆ r.continuers) : input.Reads bare r' c n stop :=
  ⟨(Rule.admits_iff hr' hne).mpr ⟨Rule.isExpression_of_admits hr h.admitted, hb⟩, h.written,
    fun hm => h.ended.rule (hc hm), h.ended.branch, h.ended.elseless⟩

theorem kind_of_isBlock (h : input.Writes bare c n stop) (hb : n.isBlock) :
    (input.get c).kind = Symbol.lbrace := by
  cases n with
  | block => exact h.of_block.choose_spec.1
  | _ => cases hb

theorem kind_of_isConditional (h : input.Writes bare c n stop) (hb : n.isConditional) :
    (input.get c).kind = Keyword.ifWord := by
  cases n with
  | conditional =>
    obtain ⟨d, e, ⟨ls, -, hs, -⟩, -⟩ := h.of_conditional
    exact kind_of_shows_keyword hs
  | _ => cases hb

/-- A block reads as what it is, whatever stands behind it. -/
theorem Reads.of_isBlock (hb : n.isBlock) (hs : n.isStatement) (hw : input.Writes bare c n stop) :
    input.Reads bare .block c n stop := by
  cases n with
  | block =>
    refine ⟨?_, hw, by simp [Rule.continuers], by simp [Node.endsOpen], by simp [Node.dangles]⟩
    simp only [Rule.admits, hs]
    rfl
  | _ => cases hb

end Input

open Parse Input

/-- The step finds a tree like this one and gets behind it, unless it runs out of rules. -/
def Parse.Reaches (setup : Setup) (keeps : Memo → Prop) (step : Parse Node) (c : Nat) (n : Node)
    (stop : Nat) : Prop :=
  Finds setup keeps Failure.IsExhausted step c fun m d => m.unplaced = n.unplaced ∧ d = stop

/-- The step finds whatever tree its tokens read as by the rule. -/
def Parse.Complete (setup : Setup) (keeps : Memo → Prop) (r : Rule) (step : Parse Node) : Prop :=
  ∀ c n stop, setup.input.Reads (fun _ => False) r c n stop → Reaches setup keeps step c n stop

namespace Parse

variable {setup : Setup} {keeps : Memo → Prop} {step : Parse Node} {c stop : Nat} {n : Node}

theorem Reaches.imp {found : Node → Nat → Prop} (h : Reaches setup keeps step c n stop)
    (hn : ∀ m : Node, m.unplaced = n.unplaced → found m stop) :
    Finds setup keeps Failure.IsExhausted step c found :=
  Finds.imp h fun m _ h => h.2 ▸ hn m h.1

theorem Reaches.bind {β : Type} {next : Node → Parse β} {found : β → Nat → Prop}
    (h : Reaches setup keeps step c n stop)
    (hn : ∀ m : Node, m.unplaced = n.unplaced →
      Finds setup keeps Failure.IsExhausted (next m) stop found) :
    Finds setup keeps Failure.IsExhausted (step >>= next) c found :=
  Finds.bind (h.imp hn) fun _ _ hm => hm

end Parse

namespace Grammar

variable {setup : Setup} {keeps : Memo → Prop} {self : Rule → Parse Node}

section

variable (hp : setup.input.IsProper)
  (hsound : ∀ r, Sound setup keeps r (self r)) (hself : ∀ r, r ≠ .program → Complete setup keeps r (self r))
include hp hself

theorem complete_comparison : Complete setup keeps .comparison (comparison self) := by
  intro c n stop h
  obtain ⟨he, hb⟩ := (Rule.admits_iff rfl (by decide)).mp h.admitted
  have hend : (setup.input.get stop).kind ∉ comparisons := fun hm =>
    h.ended.rule (List.mem_append_left _ hm)
  rcases Node.binary_or_bindsAt_succ .comparison he hb (by decide) (by decide) with
    hb | ⟨loc, s, left, right, rfl, hs, hel, hbl, her, hbr⟩
  · have hr := h.tighten .additive rfl rfl (by decide) hb (List.subset_append_right ..)
    refine (hself .additive nofun c n stop hr).bind fun m hm => ?_
    rw [finds_accept_bind, if_neg hend]
    exact finds_pure ⟨hm, rfl⟩
  · obtain ⟨d, hl, hk, hr⟩ := h.written.of_binary
    rw [← hk] at hs
    have hl := Reads.of_standsBefore (r := .additive) rfl (by decide) hel hbl hl
      ((show ∀ k ∈ Level.comparison.kinds, k ∉ Rule.additive.continuers by decide) _ hs)
    have hr : setup.input.Reads (fun _ => False) .additive (d + 1) right stop :=
      ⟨(Rule.admits_iff rfl (by decide)).mpr ⟨her, hbr⟩, hr, Rule.endsBefore_of_isExpression her
        (fun hm => h.ended.rule (List.mem_append_right _ hm)) h.ended.branch⟩
    refine (hself .additive nofun c left d hl).bind fun m hm => ?_
    rw [finds_accept_bind, if_pos (by rw [Level.kinds_comparison] at hs; exact hs), after_of_symbol hk]
    refine (hself .additive nofun (d + 1) right stop hr).bind fun q hq => ?_
    simp only [finds_check_bind]
    rw [if_neg (by simpa using hend)]
    exact finds_pure ⟨by simp [Node.unplaced, hm, hq, hp.value_eq hk], rfl⟩

theorem complete_exponent : Complete setup keeps .exponent (exponent self) := by
  intro c n stop h
  obtain ⟨he, hb⟩ := (Rule.admits_iff rfl (by decide)).mp h.admitted
  rcases Node.binary_or_bindsAt_succ .exponent he hb (by decide) (by decide) with
    hb | ⟨loc, s, left, right, rfl, hs, hel, hbl, her, hbr⟩
  · have hr := h.tighten .unary rfl rfl (by decide) hb (List.subset_cons_self ..)
    refine (hself .unary nofun c n stop hr).bind fun m hm => ?_
    rw [finds_accept_bind, if_neg fun hk => ?_]
    · exact finds_pure ⟨hm, rfl⟩
    · exact h.ended.rule (by rw [List.mem_singleton.mp hk]; decide)
  · obtain ⟨d, hl, hk, hr⟩ := h.written.of_binary
    rw [← hk] at hs
    have hl := Reads.of_standsBefore (r := .unary) rfl (by decide) hel hbl hl
      ((show ∀ k ∈ Level.exponent.kinds, k ∉ Rule.unary.continuers by decide) _ hs)
    have hr : setup.input.Reads (fun _ => False) .exponent (d + 1) right stop :=
      ⟨(Rule.admits_iff rfl (by decide)).mpr ⟨her, hbr⟩, hr,
        Rule.endsBefore_of_isExpression her h.ended.rule h.ended.branch⟩
    refine (hself .unary nofun c left d hl).bind fun m hm => ?_
    rw [finds_accept_bind, if_pos (by rw [Level.kinds_exponent] at hs; exact hs), after_of_symbol hk]
    refine (hself .exponent nofun (d + 1) right stop hr).bind fun q hq => ?_
    exact finds_pure ⟨by simp [Node.unplaced, hm, hq, hp.value_eq hk], rfl⟩

theorem complete_unary : Complete setup keeps .unary (unary self) := by
  intro c n stop h
  obtain ⟨he, hb⟩ := (Rule.admits_iff rfl (by decide)).mp h.admitted
  rcases Node.unary_or_bindsAt he hb with ⟨loc, argument, rfl⟩ | hb
  · rw [Node.isExpression_unary, Bool.and_eq_true] at he
    obtain ⟨hk, ha⟩ := h.written.of_unary
    have ha : setup.input.Reads (fun _ => False) .postfixChain (c + 1) argument stop :=
      ⟨(Rule.admits_iff rfl (by decide)).mpr he, ha,
        Rule.endsBefore_of_isExpression he.1 h.ended.rule h.ended.branch⟩
    simp only [unary]
    rw [Reaches, finds_accept_bind, if_pos (List.mem_singleton.mpr hk), after_of_symbol hk]
    refine (hself .postfixChain (by decide) (c + 1) argument stop ha).bind fun m hm => ?_
    exact finds_pure ⟨by simp [Node.unplaced, hm, hp.value_eq hk], rfl⟩
  · obtain ⟨ls, hw, hs, -⟩ := h.written
    obtain ⟨first, rest, rfl, hk⟩ := Node.head_ne_sub n he hb hw
    simp only [unary]
    rw [Reaches, finds_accept_bind, if_neg (by simpa [kind_of_shows hs] using hk)]
    exact hself .postfixChain (by decide) c n stop
      (h.tighten .postfixChain rfl rfl (by decide) hb (List.Subset.refl _))

omit hp in
theorem complete_expression : Complete setup keeps .expression (expression self) := by
  intro c n stop h
  obtain ⟨he, hb⟩ := (Rule.admits_iff rfl (by decide)).mp h.admitted
  rcases Node.assignment_or_bindsAt he with ⟨loc, target, right, rfl, ht, hr⟩ | hb
  · obtain ⟨d, hl, hk, hw⟩ := h.written.of_assignment
    have hl : setup.input.Writes (fun _ => False) c target.asValue d :=
      hl.imp fun ls h => ⟨Node.writtenAs_asValue target h.1, h.2⟩
    have hl := Reads.of_standsBefore (r := .operand) rfl (by decide) (Node.isExpression_asValue target ht)
      (Node.standsBefore_of_le (Node.standsBefore_asValue ht) (by decide)) hl (by rw [hk]; decide)
    have hr : setup.input.Reads (fun _ => False) .expression (d + 1) right stop :=
      ⟨(Rule.admits_iff rfl (by decide)).mpr ⟨hr, Node.bindsAt_assignment hr⟩, hw,
        Rule.endsBefore_of_isExpression hr h.ended.rule h.ended.branch⟩
    refine (hself .operand (by decide) c _ d hl).bind fun m hm => ?_
    rw [finds_accept_bind, if_pos (List.mem_singleton.mpr hk), after_of_symbol hk]
    obtain ⟨t, hmt, htu⟩ := Node.asTarget_of_unplaced target ht hm
    simp only [toTarget, hmt]
    rw [finds_pure_bind]
    refine (hself .expression (by decide) (d + 1) right stop hr).bind fun q hq => finds_pure ⟨?_, rfl⟩
    simp [Node.unplaced, htu, hq]
    rfl
  · have hr := h.tighten .operand rfl rfl (by decide) hb (List.subset_cons_self ..)
    refine (hself .operand (by decide) c n stop hr).bind fun m hm => ?_
    rw [finds_accept_bind, if_neg fun hk => ?_]
    · exact finds_pure ⟨hm, rfl⟩
    · exact h.ended.rule (by rw [List.mem_singleton.mp hk]; decide)

/-- The operands and operators of a level are read from left to right: what is found behind them is what
the loop finds once it has the whole of them for its left operand. -/
theorem complete_operatorsLeft {r s : Rule} {level : Level} (layer : r.IsLeftLayer s level)
    (n : Node) {c d : Nat} {found : Node → Nat → Prop} (he : n.isExpression) (hb : n.bindsAt level)
    (hw : setup.input.Writes (fun _ => False) c n d)
    (hend : s.EndsBefore n (setup.input.get d).kind)
    (hnext : ∀ (m : Node) bound, m.unplaced = n.unplaced →
      Finds setup keeps Failure.IsExhausted (operatorsLeft level.kinds (self s) bound m) d found) :
    Finds setup keeps Failure.IsExhausted (binaryLeft level.kinds (self s)) c found := by
  rcases Node.binary_or_bindsAt_succ level he hb layer.lowest layer.highest with
    hb | ⟨loc, o, left, right, rfl, ho, hel, hbl, her, hbr⟩
  · have hr : setup.input.Reads (fun _ => False) s c n d :=
      ⟨(Rule.admits_iff layer.isValue_tighter layer.ne_tighter).mpr
        ⟨he, by rw [layer.least_tighter]; exact hb⟩, hw, hend⟩
    refine (hself s layer.ne_program c n d hr).bind fun m hm => ?_
    rw [finds_rounds_bind]
    exact hnext m _ hm
  · obtain ⟨e, hl, hk, hr⟩ := hw.of_binary
    rw [← hk] at ho
    rw [layer.sides] at hbl hbr
    obtain ⟨hbl, hopen⟩ := Node.standsBefore_iff.mp hbl
    have hr' : setup.input.Reads (fun _ => False) s (e + 1) right d :=
      ⟨(Rule.admits_iff layer.isValue_tighter layer.ne_tighter).mpr
        ⟨her, by rw [layer.least_tighter]; exact hbr⟩, hr,
        Rule.endsBefore_of_isExpression her hend.rule hend.branch⟩
    refine complete_operatorsLeft layer left hel hbl hl (Rule.endsBefore_of_isExpression hel
      (layer.disjoint _ ho) (by simp [hopen])) fun m bound hm => ?_
    cases bound with
    | zero => exact finds_exhausted trivial
    | succ bound =>
      refine finds_operatorsLeft_succ (fun _ => ?_) fun hn => absurd ho hn
      rw [after_of_symbol hk]
      refine (hself s layer.ne_program (e + 1) right d hr').imp fun q hq => hnext _ bound ?_
      simp [Node.unplaced, hm, hq, hp.value_eq hk]
termination_by n

theorem complete_binaryLeft {r s : Rule} {level : Level} (layer : r.IsLeftLayer s level) :
    Complete setup keeps r (binaryLeft level.kinds (self s)) := by
  intro c n stop h
  have ha := (Rule.admits_iff layer.isValue layer.ne).mp h.admitted
  rw [layer.least] at ha
  have hrule := h.ended.rule
  rw [layer.continuers, List.mem_append, not_or] at hrule
  refine complete_operatorsLeft hp hself layer n ha.1 ha.2 h.written
    (Rule.endsBefore_of_isExpression ha.1 hrule.2 h.ended.branch) fun m bound hm => ?_
  cases bound with
  | zero => exact finds_exhausted trivial
  | succ bound => exact finds_operatorsLeft_succ (fun hk => absurd hk hrule.1) fun _ => ⟨hm, rfl⟩

omit hp in
theorem complete_elements {r : Rule} {s : Symbol} {d : Nat} (hr : r ≠ .program) (hs : s ≠ .comma)
    (hk : (setup.input.get d).kind = s) (items : List Node)
    (hitems : ∀ n ∈ items, r.admits n ∧ (∀ k ∈ [TokenKind.symbol .comma, s], r.EndsBefore n k) ∧
      ∀ c stop, setup.input.Writes (fun _ => False) c n stop → (setup.input.get c).kind ≠ s)
    (bound : Nat) (sofar : List Node) (c : Nat)
    (hw : setup.input.ListWrites (fun _ => False) c items d) :
    Finds setup keeps Failure.IsExhausted (elements s (self r) bound sofar) c fun found stop =>
      found.map Node.unplaced = (sofar.reverse ++ items).map Node.unplaced ∧ stop = d := by
  induction bound generalizing items sofar c with
  | zero => exact finds_exhausted trivial
  | succ bound ih =>
    obtain ⟨rfl, rfl⟩ | ⟨n, rest, e, rfl, hw, hrest⟩ := hw.cases
    · exact finds_elements_succ (fun _ => ⟨by simp, rfl⟩) fun hn => absurd hk hn
    rw [List.forall_mem_cons] at hitems
    obtain ⟨⟨had, hend, hstart⟩, hitems⟩ := hitems
    refine finds_elements_succ (fun h => absurd h (hstart c e hw)) fun _ => ?_
    rcases hrest with ⟨rfl, rfl⟩ | ⟨hcomma, hrest⟩
    · refine (hself r hr c n d ⟨had, hw, hk ▸ hend _ (by simp)⟩).imp fun m hm => ?_
      exact ⟨fun h => absurd h (by simpa [hk] using hs), fun _ => ⟨by simp [hm], rfl⟩⟩
    · refine (hself r hr c n e ⟨had, hw, hcomma ▸ hend _ (by simp)⟩).imp fun m hm => ?_
      refine ⟨fun _ => ?_, fun h => absurd hcomma h⟩
      rw [after_of_symbol hcomma]
      refine (ih rest hitems (m :: sofar) (e + 1) hrest).imp fun found stop h => ?_
      exact ⟨by simpa [hm] using h.1, h.2⟩

omit hp in
/-- A list between brackets is found with all its elements. -/
theorem complete_delimited {r : Rule} {s : Symbol} {c d : Nat} {items : List Node}
    (hr : r ≠ .program)
    (hbracket : closingBracket? s = some s) (hc : (setup.input.get c).kind ≠ .eof)
    (hk : (setup.input.get d).kind = s)
    (hitems : ∀ n ∈ items, r.admits n ∧ (∀ k ∈ [TokenKind.symbol .comma, s], r.EndsBefore n k) ∧
      ∀ c stop, setup.input.Writes (fun _ => False) c n stop → (setup.input.get c).kind ≠ s)
    (hw : setup.input.ListWrites (fun _ => False) (c + 1) items d) :
    Finds setup keeps Failure.IsExhausted (delimited s (self r)) c fun found stop =>
      Node.allUnplaced found = Node.allUnplaced items ∧ stop = d + 1 := by
  have hs : s ≠ .comma := by
    rintro rfl
    cases hbracket
  have helements (bound : Nat) := complete_elements hself hr hs hk items hitems bound [] (c + 1) hw
  refine finds_delimited hbracket (by rw [setup.input.after_of_ne hc]; exact helements) ?_ ?_
  · rintro found stop ⟨hf, rfl⟩ -
    exact ⟨by simpa [Node.allUnplaced_eq_map] using hf, after_of_symbol hk⟩
  · rintro found stop ⟨-, rfl⟩ hn
    exact absurd hk hn

omit hp hself in
theorem complete_fieldName {c : Nat} (h : (setup.input.get c).essence.NamesField) :
    Finds setup keeps Failure.IsExhausted fieldName c fun name stop =>
      name.unplaced = .identifier .unknown (setup.input.get c).value ∧ stop = c + 1 := by
  simp only [fieldName]
  rw [finds_current_bind, if_neg, finds_advance_bind, setup.input.after_of_ne h.inside]
  · exact finds_pure ⟨rfl, rfl⟩
  · rintro ⟨hk, hv⟩
    have hn := h.named.resolve_left hk
    rw [Token.value_essence, hv] at hn
    cases hn

omit hp hself in
/-- An expression between brackets is an element of a list. -/
theorem element_of_isExpression {s : Symbol} (hs : s = .rparen ∨ s = .rbrack) {n : Node}
    (he : n.isExpression) : Rule.expression.admits n ∧
      (∀ k ∈ [TokenKind.symbol .comma, s], Rule.expression.EndsBefore n k) ∧
      ∀ c stop, setup.input.Writes (fun _ => False) c n stop → (setup.input.get c).kind ≠ s := by
  refine ⟨(Rule.admits_iff rfl (by decide)).mpr ⟨he, Node.bindsAt_assignment he⟩, fun k hk => ?_, ?_⟩
  · have hn : k ∉ Rule.expression.continuers := by
      rcases hs with rfl | rfl <;> revert hk <;> revert k <;> decide
    exact Rule.endsBefore_of_isExpression he hn fun _ => hn
  · rintro c stop ⟨ls, hw, hsh, -⟩ hk
    obtain ⟨first, rest, rfl, hfirst, -⟩ := Node.startsAs_of_writtenAs n he hw
    rw [← kind_of_shows hsh, hk] at hfirst
    rcases hs with rfl | rfl <;> revert hfirst <;> decide

omit hp in
/-- A chain is read from left to right, as operators are. -/
theorem complete_chain (n : Node) {c d : Nat} {found : Node → Nat → Prop} (he : n.isExpression)
    (hb : n.bindsAt .postfixChain) (hw : setup.input.Writes (fun _ => False) c n d)
    (hend : Rule.primary.EndsBefore n (setup.input.get d).kind)
    (hnext : ∀ (m : Node) bound, m.unplaced = n.unplaced →
      Finds setup keeps Failure.IsExhausted (chain self bound m) d found) :
    Finds setup keeps Failure.IsExhausted (postfixChain self) c found := by
  have closed {m : Node} {k : TokenKind} (he : m.isExpression) (hs : m.standsBefore .postfixChain) :
      Rule.primary.EndsBefore m k :=
    Rule.endsBefore_of_isExpression he (by simp [Rule.continuers])
      (by simp [(Node.standsBefore_iff.mp hs).2])
  rcases Node.link_or_bindsAt he hb with ⟨loc, object, loc', name, rfl, ho, hs⟩ |
    ⟨loc, object, i, rfl, ho, hs, hi⟩ | ⟨loc, callee, arguments, rfl, ho, hs, ha⟩ | hb
  · obtain ⟨e, hwo, hk, hn, hv, rfl⟩ := hw.of_field
    refine complete_chain object ho (Node.standsBefore_iff.mp hs).1 hwo (closed ho hs) fun m bound hm => ?_
    cases bound with
    | zero => exact finds_exhausted trivial
    | succ bound =>
      refine finds_chain_field hk ?_
      rw [after_of_symbol hk]
      refine (complete_fieldName hn).imp fun q stop hfound => ?_
      obtain ⟨hq, rfl⟩ := hfound
      refine hnext _ bound ?_
      simp only [Node.unplaced, hm, hq, hv]
      rfl
  · obtain ⟨e, f, hwo, hk, hwi, hk', rfl⟩ := hw.of_index
    have hr : setup.input.Reads (fun _ => False) .expression (e + 1) i f :=
      .of_not_continuer rfl (by decide) hi (Node.bindsAt_assignment hi) hwi (by rw [hk']; decide)
        (List.Subset.refl _)
    refine complete_chain object ho (Node.standsBefore_iff.mp hs).1 hwo (closed ho hs) fun m bound hm => ?_
    cases bound with
    | zero => exact finds_exhausted trivial
    | succ bound =>
      refine finds_chain_index hk ?_
      rw [after_of_symbol hk]
      refine (hself .expression (by decide) (e + 1) i f hr).imp fun q hq => ⟨fun _ => ?_, fun hn => absurd hk' hn⟩
      rw [after_of_symbol hk']
      exact hnext _ bound (by simp [Node.unplaced, hm, hq])
  · obtain ⟨e, f, hwo, hk, hwa, hk', rfl⟩ := hw.of_call
    refine complete_chain callee ho (Node.standsBefore_iff.mp hs).1 hwo (closed ho hs) fun m bound hm => ?_
    cases bound with
    | zero => exact finds_exhausted trivial
    | succ bound =>
      refine finds_chain_call hk ?_
      refine (complete_delimited hself (r := .expression) (s := .rparen) (by decide) rfl (by simp [hk]) hk'
        (fun n hn => element_of_isExpression (.inl rfl) (Node.allExpressions_iff.mp ha n hn)) hwa).imp
          fun q stop hfound => ?_
      obtain ⟨hq, rfl⟩ := hfound
      exact hnext _ bound (by simp [Node.unplaced, hm, hq])
  · have hr : setup.input.Reads (fun _ => False) .primary c n d :=
      ⟨(Rule.admits_iff rfl (by decide)).mpr ⟨he, hb⟩, hw, hend⟩
    refine (hself .primary (by decide) c n d hr).bind fun m hm => ?_
    rw [finds_rounds_bind]
    exact hnext m _ hm
termination_by n

omit hp in
theorem complete_postfixChain : Complete setup keeps .postfixChain (postfixChain self) := by
  intro c n stop h
  obtain ⟨he, hb⟩ := (Rule.admits_iff rfl (by decide)).mp h.admitted
  refine complete_chain hself n he hb h.written
    ⟨by simp [Rule.continuers], h.ended.branch, h.ended.elseless⟩ fun m bound hm => ?_
  cases bound with
  | zero => exact finds_exhausted trivial
  | succ bound => exact finds_chain_stop h.ended.rule ⟨hm, rfl⟩

omit hp hself in
/-- A node that is one token long. -/
theorem reaches_token {c stop : Nat} {n m : Node} (hm : m.unplaced = n.unplaced)
    (hstop : setup.input.after c = stop) :
    Reaches setup keeps (discard advance >>= fun _ => pure m) c n stop := by
  rw [Reaches, finds_advance_bind, hstop]
  exact finds_pure ⟨hm, rfl⟩

omit hp in
theorem complete_primary : Complete setup keeps .primary (primary self) := by
  intro c n stop h
  obtain ⟨he, hb⟩ := (Rule.admits_iff rfl (by decide)).mp h.admitted
  have hw := h.written
  simp only [primary]
  rw [Reaches, finds_current_bind]
  -- The first token of each kind of primary tells its rule.
  cases n with
  | identifier loc name =>
    obtain ⟨hs, rfl⟩ := hw.of_token rfl
    have hk := kind_of_shows hs
    have hv := value_of_shows hs
    simp only [hk]
    exact reaches_token (by simp [Node.unplaced, hv]) (after_of_shows hs)
  | numeric loc digits base =>
    obtain ⟨hs, rfl⟩ := hw.of_token rfl
    have hk := kind_of_shows hs
    have hv := value_of_shows hs
    simp only at hk
    have hb : (setup.input.get c).base = base := by
      simpa [Token.essence, hk] using congrArg Lexeme.base hs.1
    simp only [hk]
    exact reaches_token (by simp [Node.unplaced, hv, hb]) (after_of_shows hs)
  | string loc value =>
    obtain ⟨hs, rfl⟩ := hw.of_token rfl
    have hk := kind_of_shows hs
    have hv := value_of_shows hs
    simp only [hk]
    exact reaches_token (by simp [Node.unplaced, hv]) (after_of_shows hs)
  | boolean loc value =>
    obtain ⟨hs, rfl⟩ := hw.of_token rfl
    have hk := kind_of_shows hs
    cases value <;>
    · simp only [Lexeme.ofKeyword, Bool.false_eq_true, if_false, if_true] at hk
      simp only [hk]
      exact reaches_token (by simp [Node.unplaced]) (after_of_shows hs)
  | regex loc pattern flags =>
    obtain ⟨hs, rfl⟩ := hw.of_token rfl
    have hk := kind_of_shows hs
    have hv := value_of_shows hs
    simp only at hk
    have hf : (setup.input.get c).flags = flags := by
      simpa [Token.essence, hk] using congrArg Lexeme.flags hs.1
    simp only [hk]
    exact reaches_token (by simp [Node.unplaced, hv, hf]) (after_of_shows hs)
  | array loc elements =>
    obtain ⟨d, hk, hwe, hk', rfl⟩ := hw.of_array
    simp only [hk]
    refine (complete_delimited hself (r := .expression) (s := .rbrack) (by decide) rfl (by simp [hk]) hk'
      (fun n hn => element_of_isExpression (.inr rfl) (Node.allExpressions_iff.mp he n hn))
      hwe).bind fun q stop hq => finds_pure ?_
    exact ⟨by simp [Node.unplaced, hq.1], hq.2⟩
  | parenthesized loc e =>
    obtain ⟨d, hk, hwe, hk', rfl⟩ := hw.of_parenthesized
    have he : e.isExpression := he
    have hr : setup.input.Reads (fun _ => False) .expression (c + 1) e d :=
      .of_not_continuer rfl (by decide) he (Node.bindsAt_assignment he) hwe (by rw [hk']; decide)
        (List.Subset.refl _)
    simp only [hk]
    rw [finds_advance_bind, after_of_symbol hk]
    refine (hself .expression (by decide) (c + 1) e d hr).bind fun q hq => ?_
    refine finds_expect_bind (fun _ => finds_pure ?_) fun hn => absurd hk' hn
    exact ⟨by simp [Node.unplaced, hq], after_of_symbol hk'⟩
  | conditional loc condition consequent alternate explicitThen =>
    obtain ⟨ls, ⟨a, b, d, -, -, -, rfl⟩, hs, -⟩ := hw
    have hk : (setup.input.get c).kind = Keyword.ifWord := kind_of_shows_keyword hs
    simp only [hk]
    refine hself .conditional (by decide) c _ stop ⟨?_, h.written, by simp [Rule.continuers], h.ended.branch,
      h.ended.elseless⟩
    simp only [Rule.admits, he, Node.isConditional, Bool.and_self]
  | binary loc operator left right =>
    cases ho : Level.ofOperator operator with
    | error => simp [Node.bindsAt, Node.level, ho] at hb
    | ok level =>
      rw [Node.bindsAt_binary ho] at hb
      exact absurd (Nat.le_trans (of_decide_eq_true hb) (Level.le_exponent ho)) (by decide)
  | _ => first | cases he | cases hb

omit hp in
theorem complete_condition {c d : Nat} {test : Node} (he : test.isExpression)
    (ho : (setup.input.get c).kind = Symbol.lparen)
    (hw : setup.input.Writes (fun _ => False) (c + 1) test d)
    (hc : (setup.input.get d).kind = Symbol.rparen) :
    Reaches setup keeps (condition self) c test (d + 1) := by
  have hr : setup.input.Reads (fun _ => False) .expression (c + 1) test d :=
    .of_not_continuer rfl (by decide) he (Node.bindsAt_assignment he) hw (by rw [hc]; decide)
      (List.Subset.refl _)
  refine finds_expect_bind (fun _ => ?_) fun hn => absurd ho hn
  rw [after_of_symbol ho]
  refine (hself .expression nofun (c + 1) test d hr).bind fun m hm => ?_
  refine finds_expect_bind (fun _ => finds_pure ⟨hm, after_of_symbol hc⟩) fun hn => absurd hc hn

omit hp in
/-- A condition without parentheses is found before a block. -/
theorem complete_bareCondition {c d : Nat} {test : Node} (he : test.isExpression)
    (hn : test.isAssignment = false) (hw : setup.input.Writes (fun _ => False) c test d)
    (hk : (setup.input.get d).kind ∉ Rule.expression.continuers) :
    Reaches setup keeps (self .operand) c test d :=
  hself .operand nofun c test d (.of_not_continuer rfl (by decide) he
    (Node.bindsAt_of_not_isAssignment he hn) hw hk (List.subset_cons_self ..))

omit hp in
/-- The branches of an `if` with a value, when they are expressions. -/
theorem complete_conditionalRest {loc loc' : Loc} {test test' consequent alternate : Node}
    {explicitThen : Bool} {d e stop : Nat} (ht : test'.unplaced = test.unplaced)
    (hec : consequent.isExpression) (hea : alternate.isExpression)
    (hwc : setup.input.Writes (fun _ => False) d consequent e)
    (helse : (setup.input.get e).kind = Keyword.elseWord)
    (hwa : setup.input.Writes (fun _ => False) (e + 1) alternate stop)
    (hk : (setup.input.get stop).kind ∉ Rule.expression.continuers) :
    Reaches setup keeps (conditionalRest self loc' test' explicitThen) d
      (.conditional loc test consequent alternate explicitThen) stop := by
  have hrc : setup.input.Reads (fun _ => False) .expression d consequent e :=
    .of_not_continuer rfl (by decide) hec (Node.bindsAt_assignment hec) hwc
      (by rw [helse]; decide) (List.Subset.refl _)
  have hra : setup.input.Reads (fun _ => False) .expression (e + 1) alternate stop :=
    .of_not_continuer rfl (by decide) hea (Node.bindsAt_assignment hea) hwa hk (List.Subset.refl _)
  refine (hself .expression nofun d consequent e hrc).bind fun m hm => ?_
  refine finds_expect_bind (fun _ => ?_) fun hn => absurd helse hn
  rw [after_of_keyword helse]
  refine (hself .expression nofun (e + 1) alternate stop hra).bind fun q hq => finds_pure ⟨?_, rfl⟩
  simp [Node.unplaced, ht, hm, hq]

omit hself in
include hsound in
/-- The form with parentheses does not match where a condition stands before a `then` or a block: an
`else` behind a branch would have to be there too. -/
theorem conditionalByParentheses_fails {loc : Loc} {c : Nat} {b : List Lexeme}
    {found : Node → Nat → Prop} (hb : Lexeme.Pass b) (sb : setup.input.Shows c b)
    (hk : (setup.input.get (c + b.length)).kind = Keyword.thenWord ∨
      (setup.input.get (c + b.length)).kind = Symbol.lbrace) :
    Finds setup keeps Failure.IsTame (conditionalByParentheses self loc) c found := by
  refine (sound_condition hsound).bind fun test d ⟨e, ho, ht, hwt, hc, hd⟩ => ?_
  subst hd
  refine (hsound .expression (e + 1)).bind fun consequent f hq => ?_
  refine finds_expect_bind (fun helse => ?_) fun _ _ => trivial
  have hq := hq.reads (by simp [helse])
  obtain ⟨x, hx, sx, rfl⟩ := hwt
  obtain ⟨y, hy, sy, rfl⟩ := hq.written
  have hpass := ((Node.pass_of_isExpression test ht hx).bracketed (s := .lparen) (t := .rparen) rfl
    rfl).append (Node.pass_of_isExpression consequent (Rule.isExpression_of_admits rfl hq.admitted) hy)
  have hlen : c + 1 + x.length + 1 =
      c + (Lexeme.ofSymbol .lparen :: x ++ [Lexeme.ofSymbol .rparen]).length := by
    simp
    omega
  refine (not_both hpass hb (shows_append.mpr ⟨?_, hlen ▸ sy⟩) sb ?_ hk).elim
  · exact hp.shows_symbol_cons ho (shows_append.mpr ⟨sx, hp.shows_symbol hc⟩)
  · rw [List.length_append, ← Nat.add_assoc, ← hlen]
    exact helse

omit hp hself in
/-- The form with `then` does not match where a block stands behind the condition. -/
theorem conditionalByThen_fails {loc : Loc} {c d : Nat} {test : Node} {found : Node → Nat → Prop}
    (ht : Reaches setup keeps (self .operand) c test d)
    (hk : (setup.input.get d).kind = Symbol.lbrace) :
    Finds setup keeps Failure.IsTame (conditionalByThen self loc) c found := by
  refine Finds.bind (ht.mono (fun _ h => h.isTame) fun _ _ h => h) fun m e ⟨_, he⟩ => ?_
  subst he
  exact finds_expect_bind (fun h => by rw [hk] at h; cases h) fun _ _ => trivial

omit hp in
/-- The form with blocks. -/
theorem complete_conditionalByBlocks {loc loc' : Loc} {c d e stop : Nat}
    {test consequent alternate : Node} (ht : Reaches setup keeps (self .operand) c test d)
    (hk : (setup.input.get d).kind = Symbol.lbrace)
    (hc : setup.input.Reads (fun _ => False) .block d consequent e)
    (helse : (setup.input.get e).kind = Keyword.elseWord)
    (ha : setup.input.Reads (fun _ => False)
      (if (setup.input.get (e + 1)).kind = Keyword.ifWord then .conditional else .block)
      (e + 1) alternate stop) :
    Reaches setup keeps (conditionalByBlocks self loc') c
      (.conditional loc test consequent alternate false) stop := by
  have hpair : Finds setup keeps Failure.IsExhausted (conditionAndBlock self) c fun found stop =>
      (found.1.unplaced = test.unplaced ∧ found.2.unplaced = consequent.unplaced) ∧ stop = e := by
    refine ht.bind fun m hm => ?_
    simp only [finds_sees_bind]
    rw [if_neg (by simp [hk])]
    exact (hself .block nofun d consequent e hc).bind fun q hq => finds_pure ⟨⟨hm, hq⟩, rfl⟩
  refine hpair.bind fun ⟨m, q⟩ _ ⟨⟨hm, hq⟩, hd⟩ => ?_
  subst hd
  refine finds_expect_bind (fun _ => ?_) fun hn => absurd helse hn
  rw [after_of_keyword helse, finds_sees_bind]
  split at ha
  next hif =>
    rw [if_pos (decide_eq_true hif)]
    refine (hself .conditional nofun _ alternate stop ha).bind fun r hr => finds_pure ⟨?_, rfl⟩
    simp_all [Node.unplaced]
  next hif =>
    rw [if_neg (by simpa using hif)]
    refine (hself .block nofun _ alternate stop ha).bind fun r hr => finds_pure ⟨?_, rfl⟩
    simp_all [Node.unplaced]

include hsound in
theorem complete_conditional : Complete setup keeps .conditional (conditional self) := by
  intro c n stop h
  have had := h.admitted
  simp only [Rule.admits, Bool.and_eq_true] at had
  obtain ⟨he, hcond⟩ := had
  cases n with
  | conditional loc test consequent alternate explicitThen =>
    obtain ⟨d, e, hw, hwc, helse, hwa⟩ := h.written.of_conditional
    have hif : (setup.input.get c).kind = Keyword.ifWord := by
      obtain ⟨ls, -, hs, -⟩ := hw
      exact kind_of_shows_keyword hs
    refine finds_expectOne_bind (fun _ => ?_) fun hn => absurd (List.mem_singleton.mpr hif) hn
    rw [after_of_keyword hif]
    simp only [Node.isExpression, Bool.and_eq_true] at he
    obtain ⟨het, he⟩ := he
    cases hb : consequent.isBlock with
    | false =>
      simp only [hb, Bool.false_eq_true, if_false, Bool.and_eq_true] at he
      obtain ⟨⟨hn, hec⟩, hea⟩ := he
      have hk : (setup.input.get stop).kind ∉ Rule.expression.continuers :=
        h.ended.branch (by simp [Node.endsOpen, hb])
      cases explicitThen with
      | false =>
        obtain ⟨f, -, ho, hwt, hc, rfl⟩ := hw.of_parentheses hb
        refine Finds.attempt ?_
        rw [conditionalByParentheses_eq]
        refine (complete_condition hself het ho hwt hc).bind fun m hm => ?_
        exact complete_conditionalRest hself hm hec hea hwc helse hwa hk
      | true =>
        obtain ⟨f, -, hwt, hthen, rfl⟩ := hw.of_word hb
        obtain ⟨a, ha, sa, rfl⟩ := id hwt
        refine finds_attempt (fun _ => id) (conditionalByParentheses_fails hp hsound
          (Node.pass_of_isExpression test het ha) sa (.inl hthen)) fun _ => ?_
        refine Finds.attemptAfter ?_
        rw [conditionalByThen_eq]
        refine (complete_bareCondition hself het (by simpa using hn) hwt
          (by rw [hthen]; decide)).bind fun m hm => ?_
        refine finds_expect_bind (fun _ => ?_) fun hn => absurd hthen hn
        rw [after_of_keyword hthen]
        exact complete_conditionalRest hself hm hec hea hwc helse hwa hk
    | true =>
      simp only [hb, if_true, Bool.and_eq_true, Bool.not_eq_true'] at he
      obtain ⟨⟨⟨rfl, hn⟩, hsc⟩, ha⟩ := he
      obtain ⟨-, hwt⟩ := hw.of_block hb
      obtain ⟨a, hwa', sa, rfl⟩ := id hwt
      have hk := kind_of_isBlock hwc hb
      have ht := complete_bareCondition hself het hn hwt (by rw [hk]; decide)
      refine finds_attempt (fun _ => id) (conditionalByParentheses_fails hp hsound
        (Node.pass_of_isExpression test het hwa') sa (.inr hk)) fun _ => ?_
      refine finds_attemptAfter_cons (fun _ => id) (conditionalByThen_fails ht hk) fun _ => ?_
      refine Finds.attemptAfter (complete_conditionalByBlocks hself ht hk
        (.of_isBlock hb hsc hwc) helse ?_)
      cases hab : alternate.isBlock with
      | true =>
        simp only [hab, if_true] at ha
        rw [if_neg (by simp [kind_of_isBlock hwa hab])]
        exact .of_isBlock hab ha hwa
      | false =>
        simp only [hab, Bool.false_eq_true, if_false, Bool.and_eq_true] at ha
        rw [if_pos (kind_of_isConditional hwa ha.1)]
        refine ⟨by simp [Rule.admits, ha.1, ha.2], hwa, Rule.endsBefore_of_isExpression ha.2
          (by simp [Rule.continuers]) fun ho => ?_⟩
        exact h.ended.branch (by simp [Node.endsOpen, hb, hab, ho])
  | _ => cases hcond

end

end Grammar

end MagSyntax
