import MagSyntax.Proofs.Complaints
import MagSyntax.Proofs.Powers
import MagSyntax.Proofs.Spaced

/-! A condition that is read twice. Where no statement stands behind `if (c)`, the parenthesis is read once more as the
start of an operand, some rules further down. The memo has what is in it; without the memo that is
read again, on less of the budget. -/

namespace MagSyntax

open Parse Input

variable {n : Nat}

theorem Node.isSimple_powers : ∀ l ∈ (powers n).lexemes, l.IsSimple := by
  have ha : Lexeme.IsSimple ⟨.ident, "a", 10, []⟩ :=
    .identifier ⟨⟨_, _, rfl, by decide +kernel⟩, by decide +kernel⟩ rfl
  induction n with
  | zero => exact List.forall_mem_singleton.mpr ha
  | succ n ih =>
    have hl : (powers (n + 1)).lexemes = ⟨.ident, "a", 10, []⟩ :: .ofSymbol .pow :: (powers n).lexemes := rfl
    rw [hl]
    simp only [List.forall_mem_cons]
    exact ⟨ha, .symbol nofun nofun, ih⟩

/-- An `if` with an empty block, whose condition is a power of a chain of powers in parentheses. -/
def Lexeme.powersCondition (n : Nat) : List Lexeme :=
  .ofKeyword .ifWord :: .ofSymbol .lparen :: ((Node.powers n).lexemes ++
    [.ofSymbol .rparen, .ofSymbol .pow, ⟨.ident, "a", 10, []⟩, .ofSymbol .lbrace, .ofSymbol .rbrace])

theorem Lexeme.isSimple_powersCondition (n : Nat) : ∀ l ∈ powersCondition n, l.IsSimple := by
  simp only [powersCondition, List.forall_mem_cons, List.forall_mem_append]
  exact ⟨.keyword _, .symbol nofun nofun, Node.isSimple_powers, .symbol nofun nofun, .symbol nofun nofun,
    .identifier ⟨⟨_, _, rfl, by decide +kernel⟩, by decide +kernel⟩ rfl, .symbol nofun nofun, .symbol nofun nofun,
    List.forall_mem_nil _⟩

/-- Where the tokens of such an `if` stand; the parenthesis closes at the last index. -/
structure Input.PowersCondition (input : Input) (n stop : Nat) : Prop where
  word : (input.get 0).kind = Keyword.ifWord
  opens : (input.get 1).kind = Symbol.lparen
  powers : input.Shows 2 (Node.powers n).lexemes
  length : stop = 2 + (Node.powers n).lexemes.length
  closes : (input.get stop).kind = Symbol.rparen
  pow : (input.get (stop + 1)).kind = Symbol.pow
  power : (input.get (stop + 2)).kind = .ident
  blockOpens : (input.get (stop + 3)).kind = Symbol.lbrace
  blockCloses : (input.get (stop + 4)).kind = Symbol.rbrace
  eof : (input.get (stop + 5)).kind = .eof
  size : input.before.size = stop + 5

theorem Input.powersCondition {tokens : List Token} {last : Token} (hlast : last.kind = .eof)
    (hlength : tokens.length = (Lexeme.powersCondition n).length)
    (hs : (Input.mk tokens.toArray last).Shows 0 (Lexeme.powersCondition n)) :
    ∃ stop, (Input.mk tokens.toArray last).PowersCondition n stop := by
  have h1 := hs.2.2
  obtain ⟨hpowers, hrest⟩ := shows_append.mp h1.2.2
  have h2 := hrest.2.2
  have h3 := h2.2.2
  have h4 := h3.2.2
  have hsize : tokens.length = 2 + (Node.powers n).lexemes.length + 5 := by
    rw [hlength, Lexeme.powersCondition]
    simp only [List.length_cons, List.length_append, List.length_nil]
    omega
  refine ⟨_, kind_of_shows hs, kind_of_shows h1, hpowers, rfl, kind_of_shows hrest, kind_of_shows h2, kind_of_shows h3,
    kind_of_shows h4, kind_of_shows h4.2.2, ?_, hsize⟩
  rw [get_mk, List.getElem?_eq_none (Nat.le_of_eq hsize), Option.getD_none]
  exact hlast

namespace Grammar

variable {k : Course} {P Q R : Memo → Prop} {stop : Nat} {v : Node}

section

variable (h : k.input.PowersCondition n stop) (hfits : k.Fits 1)
include h

include hfits in
/-- What is in the parentheses is an expression, if the budget is enough for it there. -/
theorem ends_innerPowers (hn : n ≤ 9969) : ∃ v, ∀ P Q, (k.Recalls P Q 2 (.found v stop)) → (∀ m, P m → Q m) →
    Ends k P Q (nested (expression fun r => parse 9980 r.surcharge r)) 2 1 (.found v stop) := by
  obtain ⟨v, hv⟩ := @ends_powers k 2 9973 n (by omega) h.powers (by rw [← h.length, h.closes]; decide)
  rw [← h.length] at hv
  refine ⟨v, fun P Q hr hPQ => .nested hfits ?_⟩
  have hoperand := ends_operand_of_exponent hr ((hv P 2).mono (fun _ hm => hm) hPQ)
    (.of_found (by rw [h.closes]; decide))
  exact .bind_same hoperand fun v s hs => .bind (.accept_none (by cases hs; rw [h.closes]; decide)) .pure

/-- A parenthesis and an operator are no condition with a statement behind it. -/
theorem ends_conditionAndStatement_powers (hr : k.Recalls Q Q (stop + 1) .mismatch) (hfits : k.Fits 1)
    (hexpression : Ends k P Q (parse 9983 2 .expression) 2 1 (.found v stop)) :
    Ends k P Q (conditionAndStatement fun r => parse 9983 r.surcharge r) 1 1 .mismatch := by
  have hprimary : Ends k Q Q (parse 9969 0 .primary) (stop + 1) 2 .mismatch := by
    intro bound _ p hc _ hm
    change k.Allows _ _ _ ((primary _).run _ _)
    rw [primary_of_not_starter (by rw [hc, h.pow]; decide)]
    exact Course.allows_mismatch rfl hm (fun _ => rfl) _
  have hoperand := ends_operand_of_primary hr hprimary (by simp [h.pow]) .of_mismatch
  have hstatement : Ends k Q Q (statement fun r => parse 9980 r.surcharge r) (stop + 1) 2 .mismatch := by
    refine .bind .current ?_
    simp only [h.pow]
    exact hoperand.bind_mismatch
  exact .bind (ends_condition h.opens hexpression h.closes) (.bind_mismatch (ends_statement hr hfits hstatement))

/-- As the start of an operand it is read again, on eleven less of the budget. -/
theorem ends_operand_powers {w : Node} (hr : k.Recalls P Q 1 (.found w (stop + 3)))
    (hw : w = .binary (locOf (k.input.get 1)) (k.input.get (stop + 1)).value
      (.parenthesized (locOf (k.input.get 1)) v)
      (.identifier (locOf (k.input.get (stop + 2))) (k.input.get (stop + 2)).value))
    (hPQ : ∀ m, P m → Q m) (hexpression : Ends k P P (parse 9972 2 .expression) 2 1 (.found v stop)) :
    Ends k P Q (parse 9983 1 .operand) 1 1 (.found w (stop + 3)) := by
  subst hw
  have hgroup : Ends k P P (primary fun r => parse 9972 r.surcharge r) 1 1 _ :=
    ends_primary_group h.opens hexpression h.closes
  have hchain : Ends k P P (postfixChain fun r => parse 9973 r.surcharge r) 1 1 _ :=
    ends_postfixChain hgroup (.of_found (by rw [h.pow]; decide))
  have hunary : Ends k P P (unary fun r => parse 9974 r.surcharge r) 1 1 _ := ends_unary (by simp [h.opens]) hchain
  have hname : Ends k P P (parse 9975 0 .exponent) (stop + 2) 1 _ :=
    ends_exponent (ends_unary_identifier 9971 h.power (by rw [h.blockOpens]; decide))
      (.of_found (by rw [h.blockOpens]; decide))
  have hexponent : Ends k P P (exponent fun r => parse 9975 r.surcharge r) 1 1 _ :=
    ends_exponent_power hunary h.pow hname
  exact ends_operand_of_exponent (b := 9976) hr (hexponent.mono (fun _ hm => hm) hPQ)
    (.of_found (by rw [h.blockOpens]; decide))

end

section

variable {input : Input} (h : input.PowersCondition n stop)
include h

/-- Without the memo that uses up the budget. -/
theorem ends_powersCondition_plain (hn : 9959 ≤ n) (hn' : n ≤ 9969) :
    Ends (.plain input [some 256] True) Course.anything Course.anything (rule .program) 0 0 .exhausted := by
  let k := Course.plain input [some 256] True
  have hr (c : Nat) (ending : Ending Node) : k.Recalls Course.anything Course.anything c ending :=
    Course.recalls_plain input [some 256] True c ending
  have hfits (d : Nat) (hd : d < 256) : k.Fits d := by simpa [Course.Fits, k, Course.plain] using hd
  obtain ⟨v, hv⟩ := ends_innerPowers (k := k) h (hfits 1 (by decide)) hn'
  have hexpression : Ends k Course.anything Course.anything (parse 9983 2 .expression) 2 1 (.found v stop) :=
    .recalling (hr _ _) (hv _ _ (hr _ _) fun _ hm => hm)
  have hfirst := ends_conditionAndStatement_powers (k := k) h (hr _ _) (hfits 1 (by decide)) hexpression
  have hagain := powers_expression_exhausted (k := k) (b := 9962) (d := 1) n (by omega) h.powers (hr _ _)
    (fun _ hm => hm) (hfits 1 (by decide))
  have hgroup : Ends k Course.anything Course.anything (primary fun r => parse 9972 r.surcharge r) 1 1 .exhausted :=
    ends_primary_group_exhausted h.opens hagain
  have hchain : Ends k Course.anything Course.anything (postfixChain fun r => parse 9973 r.surcharge r) 1 1
      .exhausted := ends_postfixChain hgroup .of_exhausted
  have hoperand := ends_operand_of_chain (b := 9974) (hr 1 _) hchain (by simp [k, Course.plain, h.opens]) .of_exhausted
  have hconditional : Ends k Course.anything Course.anything (conditionalStatement fun r => parse 9983 r.surcharge r)
      0 1 .exhausted :=
    .bind (.expectOne (by simp [k, Course.plain, h.word]) (by simp [k, Course.plain, h.word]))
      (.bind_exhausted (.attempt_next hfirst fun _ => .attemptAfter hoperand.bind_exhausted (by simp)))
  exact ends_program_failed (b := 9989) (by simp [Course.plain, h.word])
    (ends_statement_of_conditional (hr _ _) (hfits 0 (by decide)) h.word hconditional) trivial

end

/-- What has been read of the condition when no statement has been found behind it. -/
def Conditions (v : Node) (stop : Nat) : Memo → Prop :=
  Course.Holds fun c ending => c = 2 ∧ ending = .found v stop ∨ c = stop + 1 ∧ ending = .mismatch

/-- What is in its parentheses is remembered. -/
structure HasCondition (v : Node) (stop : Nat) (m : Memo) : Prop where
  holds : Conditions v stop m
  condition : ∃ f, m.find? ⟨.expression, 2⟩ = some f

theorem HasCondition.untriedAt {m : Memo} (h : HasCondition v stop m) {c : Nat} (h2 : c ≠ 2) (hstop : c ≠ stop + 1) :
    Course.UntriedAt c m := by
  intro r
  cases hf : m.find? ⟨r, c⟩ with
  | none => rfl
  | some f => exact ((h.holds _ _ hf).elim (fun h => h2 h.1) fun h => hstop h.1).elim

/-- The condition is found where it has been found before. -/
theorem HasCondition.finding {m : Memo} (h : HasCondition v stop m) (hstop : 2 < stop) :
    ∃ f, m.find? ⟨.expression, 2⟩ = some f ∧ .ofFinding f = Ending.found v stop := by
  obtain ⟨f, hf⟩ := h.condition
  refine ⟨f, hf, ((h.holds _ _ hf).resolve_right fun h => ?_).2⟩
  have : 2 = stop + 1 := h.1
  omega

theorem recalls_conditions : k.Recalls Course.untried (Conditions v stop) 2 (.found v stop) where
  recalled _ r m f hm hf := by
    rw [show m = .empty from hm, Memo.find?_empty] at hf
    cases hf
  stored _ _ _ hm hf := hm.store (.inl ⟨rfl, hf⟩)

/-- Behind the parenthesis no statement is found. -/
theorem recalls_hasCondition (hstop : 2 < stop) :
    k.Recalls (HasCondition v stop) (HasCondition v stop) (stop + 1) .mismatch where
  recalled _ r m f hm hf := by
    refine ⟨((hm.holds _ _ hf).resolve_left fun h => ?_).2, hm⟩
    have : stop + 1 = 2 := h.1
    omega
  stored r m f hm hf := by
    refine ⟨hm.holds.store (.inr ⟨rfl, hf⟩), ?_⟩
    rw [Memo.find?_store, if_neg fun he => by injection he; omega]
    exact hm.condition

/-- At the parenthesis and at the block nothing has been tried yet. -/
theorem recalls_beforeBlock {ending : Ending Node} (hstop : 2 < stop) :
    k.Recalls (HasCondition v stop) (Course.UntriedAt (stop + 3)) 1 ending where
  recalled _ r m f hm hf := by
    rw [hm.untriedAt (by decide) (by omega) r] at hf
    cases hf
  stored r m f hm _ r' := by
    rw [Memo.find?_store, if_neg fun he => by injection he; omega]
    exact hm r'

section

variable {input : Input} (h : input.PowersCondition n stop)
include h

/-- With the memo it is read. -/
theorem ends_powersCondition (hn : n ≤ 9969) :
    ∃ t, Ends (.usual input) Course.untried Course.anything (rule .program) 0 0 (.found t (stop + 5)) := by
  let k := Course.usual input
  have hstop : 2 < stop := by
    have hne : (Node.powers n).lexemes ≠ [] := by cases n <;> exact List.cons_ne_nil _ _
    have := h.length
    have := List.length_pos_of_ne_nil hne
    omega
  have hfits (d : Nat) (hd : d < 256) : k.Fits d := Course.fits_usual input hd
  obtain ⟨v, hv⟩ := ends_innerPowers (k := k) h (hfits 1 (by decide)) hn
  have hexpression : Ends k Course.untried (HasCondition v stop) (parse 9983 2 .expression) 2 1 (.found v stop) := by
    have hcontent := hv Course.untried (Conditions v stop) recalls_conditions fun m hm => hm ▸ Course.holds_empty
    refine .remembered (fun _ m f hm hf => ?_) (hcontent.mono (fun _ hm => hm.1) fun _ hm => hm)
      (fun m f hm hf => ⟨hm.store (.inl ⟨rfl, hf⟩), f, by rw [Memo.find?_store, if_pos rfl]⟩) (by simp)
    rw [show m = .empty from hm, Memo.find?_empty] at hf
    cases hf
  have hfirst := ends_conditionAndStatement_powers (k := k) h (recalls_hasCondition hstop) (hfits 1 (by decide))
    hexpression
  have hagain : Ends k (HasCondition v stop) (HasCondition v stop) (parse 9972 2 .expression) 2 1 (.found v stop) :=
    .of_stored rfl fun _ hm => hm.finding hstop
  have hoperand := ends_operand_powers (k := k) h (recalls_beforeBlock hstop) rfl
    (fun _ hm => hm.untriedAt (by omega) (by omega)) hagain
  have hblock : Ends k (Course.UntriedAt (stop + 3)) Course.anything (parse 9983 1 .block) (stop + 3) 1 _ :=
    .recalling (k.recalls_untriedAt _ _) ((ends_block_empty h.blockOpens h.blockCloses).mono (fun _ hm => hm)
      fun _ _ => trivial)
  have hsecond : Ends k (HasCondition v stop) Course.anything (conditionAndBlock fun r => parse 9983 r.surcharge r) 1 1
      _ := ends_conditionAndBlock hoperand h.blockOpens hblock
  have hconditional := ends_conditionalStatement_bare h.word hfirst hsecond (by simp [k, Course.usual, h.eof])
  exact ⟨_, ends_program (by simp [Course.usual, h.word])
    (ends_statement_of_conditional (k.recalls_untried _ _) (hfits 0 (by decide)) h.word hconditional) h.eof
    (by rw [Course.usual, h.size]; omega)⟩

end

end Grammar

end MagSyntax
