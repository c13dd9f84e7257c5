import MagSyntax.Proofs.Entries
import MagSyntax.Proofs.RuleEndings

/-! Chains of powers. Nothing in them is nested, so a long chain uses up the budget with few rules open; a
budget of one for each power and a few more is enough to read it. -/

namespace MagSyntax

open Parse Input

namespace Node

/-- A power of powers, as many as given, with an exponent to the right of each sign. -/
def powers : Nat → Node
  | 0 => .identifier .unknown "a"
  | n + 1 => .binary .unknown "**" (.identifier .unknown "a") (powers n)

/-- A program that is one chain of powers. -/
def powersProgram (n : Nat) : Node := .program .unknown [.expressionStatement .unknown (powers n)]

theorem bindsAt_powers (n : Nat) : (powers n).bindsAt .exponent := by
  cases n <;> rfl

theorem isExpression_powers (n : Nat) : (powers n).isExpression := by
  induction n with
  | zero => rfl
  | succ n ih =>
    rw [powers, isExpression_binary (show Level.ofOperator "**" = .ok Level.exponent from rfl)]
    simp only [ih, Bool.and_true, Bool.and_eq_true]
    exact ⟨⟨rfl, rfl⟩, bindsAt_powers n⟩

theorem isProgram_powersProgram (n : Nat) : (powersProgram n).isProgram := by
  simp only [powersProgram, isProgram, allStatements, isStatement, isExpression_powers]
  cases n <;> rfl

theorem lexemes_powers (n : Nat) : (powers (n + 1)).lexemes =
    ⟨.ident, "a", 10, []⟩ :: .ofSymbol .pow :: (powers n).lexemes := rfl

theorem lexemes_powersProgram (n : Nat) :
    (powersProgram n).lexemes = (powers n).lexemes ++ [.ofSymbol .semi] := by
  simp [powersProgram, lexemes, allLexemes]

end Node

theorem Input.kind_of_shows_powers {input : Input} {c n : Nat} (h : input.Shows c (Node.powers n).lexemes) :
    (input.get c).kind = .ident := by
  cases n <;> exact kind_of_shows h

namespace Grammar

variable {k : Course} {P : Memo → Prop} {c d b : Nat}

/-- A name before no link is read as an operand of a power. -/
theorem ends_unary_identifier (b : Nat) (hk : (k.input.get c).kind = .ident)
    (hlinks : (k.input.get (c + 1)).kind ∉ Rule.links) :
    Ends k P P (parse (b + 3) 0 .unary) c d
      (.found (.identifier (locOf (k.input.get c)) (k.input.get c).value) (c + 1)) := by
  have hchain : Ends k P P (postfixChain fun r => parse (b + 1) r.surcharge r) c d
      (.found (.identifier (locOf (k.input.get c)) (k.input.get c).value) (c + 1)) :=
    ends_postfixChain (ends_primary_identifier hk) (.of_found hlinks)
  have hunary : Ends k P P (unary fun r => parse (b + 2) r.surcharge r) c d
      (.found (.identifier (locOf (k.input.get c)) (k.input.get c).value) (c + 1)) :=
    ends_unary (by simp [hk]) hchain
  exact hunary

/-- A budget of less than three is used up before the name is read. -/
theorem ends_unary_exhausted (hb : b < 3) (hk : (k.input.get c).kind = .ident) :
    Ends k P P (parse b 0 .unary) c d .exhausted := by
  have hchain (hb : b - 1 < 2) : Ends k P P (parse (b - 1) 0 .postfixChain) c d .exhausted := by
    obtain h | h : b - 1 = 0 ∨ b - 1 = 1 := by omega
    · rw [h]
      exact .fail_exhausted
    · rw [h]
      exact .bind_exhausted .fail_exhausted
  cases b with
  | zero => exact .fail_exhausted
  | succ b =>
    have hunary : Ends k P P (unary fun r => parse b r.surcharge r) c d .exhausted :=
      ends_unary (by simp [hk]) (hchain (by omega))
    exact hunary

/-- A chain of powers is read on a budget of one for each of them. -/
theorem ends_powers (n : Nat) (hb : n + 4 ≤ b) (hs : k.input.Shows c (Node.powers n).lexemes)
    (hend : (k.input.get (c + (Node.powers n).lexemes.length)).kind ∉ Rule.exponent.continuers) :
    ∃ v, ∀ P d, Ends k P P (parse b 0 .exponent) c d (.found v (c + (Node.powers n).lexemes.length)) := by
  obtain ⟨b, rfl⟩ : ∃ b', b = b' + 4 := ⟨b - 4, by omega⟩
  induction n generalizing b c with
  | zero =>
    have hunary P d := @ends_unary_identifier k P c d b (kind_of_shows hs)
      fun hm => hend (List.mem_cons_of_mem _ hm)
    exact ⟨_, fun P d => ends_exponent (hunary P d) (.of_found fun hm =>
      hend (by rw [List.mem_singleton.mp hm]; decide))⟩
  | succ n ih =>
    have hstop : c + (Node.powers (n + 1)).lexemes.length =
        c + 1 + 1 + (Node.powers n).lexemes.length := by
      simp only [Node.lexemes_powers, List.length_cons]
      omega
    rw [hstop] at hend ⊢
    rw [Node.lexemes_powers] at hs
    have hpow : (k.input.get (c + 1)).kind = Symbol.pow := kind_of_shows hs.2.2
    obtain ⟨b, rfl⟩ : ∃ b', b = b' + 1 := ⟨b - 1, by omega⟩
    obtain ⟨w, hw⟩ := ih hs.2.2.2.2 hend b (by omega)
    exact ⟨_, fun P d => ends_exponent_power (ends_unary_identifier _ (kind_of_shows hs) (by rw [hpow]; decide))
      hpow (hw P d)⟩

/-- A chain of powers that is too long for the budget uses it up. -/
theorem powers_exhausted (n : Nat) (hb : b ≤ n + 3) (hs : k.input.Shows c (Node.powers n).lexemes) :
    Ends k P P (parse b 0 .exponent) c d .exhausted := by
  -- a budget that is too small for one name is used up by the first
  have hsmall {b c n : Nat} (hb : b < 3) (hs : k.input.Shows c (Node.powers n).lexemes) :
      Ends k P P (parse (b + 1) 0 .exponent) c d .exhausted := by
    have hexp : Ends k P P (exponent fun r => parse b r.surcharge r) c d .exhausted :=
      ends_exponent (ends_unary_exhausted hb (kind_of_shows_powers hs)) nofun
    exact hexp
  induction n generalizing b c with
  | zero =>
    cases b with
    | zero => exact .fail_exhausted
    | succ b => exact hsmall (by omega) hs
  | succ n ih =>
    cases b with
    | zero => exact .fail_exhausted
    | succ b =>
      by_cases hlt : b < 3
      · exact hsmall hlt hs
      · obtain ⟨b, rfl⟩ : ∃ b', b = b' + 3 := ⟨b - 3, by omega⟩
        rw [Node.lexemes_powers] at hs
        have hpow : (k.input.get (c + 1)).kind = Symbol.pow := kind_of_shows hs.2.2
        exact ends_exponent_exhausted (ends_unary_identifier b (kind_of_shows hs) (by rw [hpow]; decide)) hpow
          (ih (by omega) hs.2.2.2.2)

theorem powers_expression_exhausted {Q : Memo → Prop} (n : Nat) (hb : b ≤ n + 3)
    (hs : k.input.Shows c (Node.powers n).lexemes) (hr : k.Recalls P Q c .exhausted) (hPQ : ∀ m, P m → Q m)
    (hfits : k.Fits d) :
    Ends k P Q (parse (b + 10) 2 .expression) c d .exhausted := by
  have hpowers : Ends k P Q (parse b 0 .exponent) c (d + 1) .exhausted :=
    (powers_exhausted n hb hs).mono (fun _ h => h) hPQ
  exact ends_expression (b := b + 7) hr hfits (ends_operand_of_exponent hr hpowers nofun) nofun

variable {tokens : List Token} {last : Token} {n : Nat}

/-- On the budget that there is a chain of powers is an expression, if it is not too long. -/
theorem ends_powersExpression (hw : (Node.powers n).WrittenBy tokens last) (hn : n ≤ 9976) :
    ∃ v, Ends (.usual (.ofTokens (tokens ++ [last]))) Course.untried Course.anything (rule .expression) 0 0
      (.found v tokens.length) := by
  have hstop : (Node.powers n).lexemes.length = tokens.length := by rw [← hw.lexemes, List.length_map]
  have hend := hw.get_stop
  have hs := hw.shows
  rw [hw.input_eq]
  generalize Input.mk tokens.toArray last = input at *
  have hr (ending : Ending Node) := (Course.usual input).recalls_untried 0 ending
  obtain ⟨v, hv⟩ := @ends_powers (.usual input) 0 9980 n (by omega) hs
    (by rw [Course.usual, Nat.zero_add, hstop, hend]; decide)
  rw [Nat.zero_add, hstop] at hv
  have hoperand := ends_operand_of_exponent (b := 9980) (hr _) ((hv Course.untried 1).mono (fun _ h => h) fun _ _ => trivial)
    (.of_found (by rw [Course.usual, hend]; decide))
  exact ⟨v, ends_expression (b := 9987) (hr _) (Course.fits_usual _ (by decide)) hoperand
    (.of_found (by rw [Course.usual, hend]; decide))⟩

theorem shows_powersProgram (hw : (Node.powersProgram n).WrittenBy tokens last) :
    let input : Input := ⟨tokens.toArray, last⟩
    input.Shows 0 (Node.powers n).lexemes ∧
      (input.get (Node.powers n).lexemes.length).kind = Symbol.semi ∧
        tokens.length = (Node.powers n).lexemes.length + 1 := by
  have hs := hw.shows
  rw [Node.lexemes_powersProgram] at hs
  obtain ⟨hpowers, hsemi⟩ := shows_append.mp hs
  refine ⟨hpowers, (Nat.zero_add (Node.powers n).lexemes.length) ▸ kind_of_shows hsemi, ?_⟩
  rw [← List.length_map, hw.lexemes, Node.lexemes_powersProgram, List.length_append]
  rfl

/-- On the budget that there is, a program that starts with a long one is not read. -/
theorem powersStatement_exhausted {input : Input} (hn : 9975 ≤ n) (hs : input.Shows 0 (Node.powers n).lexemes) :
    Ends (.usual input) Course.untried Course.anything (rule .program) 0 0 .exhausted := by
  have hident := kind_of_shows_powers hs
  have hr (c : Nat) (ending : Ending Node) := (Course.usual input).recalls_untried c ending
  have hpowers : Ends (.usual input) Course.untried Course.anything (parse 9978 0 .exponent) 0 1 .exhausted :=
    (powers_exhausted n (by omega) hs).mono (fun _ h => h) fun _ _ => trivial
  have hoperand := ends_operand_of_exponent (hr _ _) hpowers nofun
  have hstatement := ends_statement_of_expression (b := 9985) (hr _ _)
    (Course.fits_usual input (by decide)) (.inl hident) hoperand.bind_exhausted
  exact ends_program_failed (b := 9989) (by simp [Course.usual, hident]) hstatement trivial

/-- A shorter one is not read in parentheses. -/
theorem powersGroup_exhausted {input : Input} (hn : 9961 ≤ n) (hk : (input.get 0).kind = Symbol.lparen)
    (hs : input.Shows 1 (Node.powers n).lexemes) :
    Ends (.usual input) Course.untried Course.anything (rule .program) 0 0 .exhausted := by
  have hr (c : Nat) := (Course.usual input).recalls_untried c .exhausted
  have hfits (d : Nat) (hd : d < 256) := Course.fits_usual input hd
  have hexpression := powers_expression_exhausted (b := 9964) n (by omega) hs (hr 1) (fun _ _ => trivial)
    (hfits 1 (by decide))
  exact ends_groupProgram_exhausted (hr 0) (hfits 0 (by decide)) hk hexpression

theorem powersProgram_exhausted (hw : (Node.powersProgram n).WrittenBy tokens last) (hn : 9975 ≤ n) :
    Ends (.usual (.ofTokens (tokens ++ [last]))) Course.untried Course.anything (rule .program) 0 0
      .exhausted := by
  rw [hw.input_eq]
  exact powersStatement_exhausted hn (shows_powersProgram hw).1

end Grammar

end MagSyntax
