import MagSyntax.Proofs.Bracketing
import MagSyntax.Proofs.Misread
import MagSyntax.Proofs.OperandPairs
import MagSyntax.Proofs.Scanned

/-! The parentheses around operands of binary expressions are needed: without one pair of them the text is not read as
the tree that it was printed for. A tree that lacks the pair would be read from the text, and no source has such a
tree. -/

namespace MagSyntax

open Lexeme Print Text

namespace Node

variable {loc : Loc} {n c s : Node} {l r : List Node} {a b u : Text} {us : List Text} {needed : Bool}

theorem IsFlat.varies (h : n.IsFlat) (hu : n.text = .ok u) : n.Varies n.enclosed u := by
  obtain ⟨v, hv, hvaries⟩ := varies_enclosed n h
  obtain rfl := Except.ok.inj (hv.symm.trans hu)
  exact hvaries

theorem AllFlat.varyAll (h : AllFlat l) (hu : allTexts l = .ok us) : VaryAll l (allEnclosed l) us := by
  obtain ⟨vs, hvs, hvary⟩ := varyAll_enclosed l h
  obtain rfl := Except.ok.inj (hvs.symm.trans hu)
  exact hvary

theorem allFlat_append : AllFlat (l ++ r) ↔ AllFlat l ∧ AllFlat r := by
  induction l with
  | nil => simp [AllFlat]
  | cons m l ih => simp only [List.cons_append, AllFlat, ih, and_assoc]

/-- A part of a flat tree is flat. -/
theorem HasPart.isFlat (h : n.HasPart c needed a b) (hn : n.IsFlat) : c.IsFlat := by
  cases h with
  | operand h =>
    cases h with
    | left => exact hn.2.1
    | right => exact hn.2.2
  | inner => exact hn
  | argument => exact hn.2
  | target => exact hn.2.1
  | value => exact hn.2.2
  | condition => exact hn.1
  | consequent => exact hn.2.1
  | alternate => exact hn.2.2
  | fieldObject => exact hn.1
  | indexObject => exact hn.1
  | index => exact hn.2
  | callee => exact hn.1
  | callArgument => exact (allFlat_append.mp hn.2).2.1
  | element | patternElement => exact (allFlat_append.mp hn).2.1

/-- The tree is neither a canonical expression nor a canonical target. -/
structure IsMisplaced (n : Node) : Prop where
  isExpression : n.isExpression = false
  isTarget : n.isTarget = false

theorem IsMisplaced.grouped (h : s.IsMisplaced) (needed : Bool) : (grouped needed s).IsMisplaced := by
  cases needed with
  | false => exact h
  | true => exact ⟨h.isExpression, rfl⟩

theorem allExpressions_middle (h : c.isExpression = false) : allExpressions (l ++ c :: r) = false :=
  Bool.eq_false_iff.mpr fun hall => Bool.eq_false_iff.mp h (allExpressions_iff.mp hall c (by simp))

theorem allTargets_middle (h : c.isTarget = false) : allTargets (l ++ c :: r) = false :=
  Bool.eq_false_iff.mpr fun hall => Bool.eq_false_iff.mp h (allTargets_iff.mp hall c (by simp))

theorem VaryAll.middle {l' r' : List Node} {us vs : List Text} (hl : VaryAll l l' us) (hc : c.Varies s u)
    (hr : VaryAll r r' vs) : VaryAll (l ++ c :: r) (l' ++ s :: r') (us ++ u :: vs) :=
  hl.append (.cons hc hr)

/-- A variant of a part of a flat tree makes a variant of the tree, which is misplaced if the part is. -/
theorem HasPart.replace (h : n.HasPart c needed a b) (hn : n.IsFlat) (hv : c.Varies s u) (hs : s.IsMisplaced) :
    ∃ s', n.Varies s' (a ++ groupText needed u ++ b) ∧ s'.IsMisplaced := by
  have hgroup : c.Varies (grouped needed s) (groupText needed u) := hv.group needed
  have hgs := hs.grouped needed
  cases h with
  | operand h =>
    cases h with
    | left ho hr =>
      refine ⟨_, by simpa using hgroup.binary ho ((hn.2.2.varies hr).group _), ?_, rfl⟩
      simp [isExpression_binary ho, hgs.isExpression]
    | right ho hl =>
      refine ⟨_, by simpa using ((hn.2.1.varies hl).group _).binary ho hgroup, ?_, rfl⟩
      simp [isExpression_binary ho, hgs.isExpression]
  | inner => exact ⟨.parenthesized _ s, by simpa [groupText] using hv.parenthesized, hs.isExpression, rfl⟩
  | argument =>
    obtain ⟨rfl, -⟩ := hn
    exact ⟨_, by simpa using hgroup.unary, by simp [isExpression, hgs.isExpression], rfl⟩
  | target hr =>
    obtain ⟨rfl, -, hnr⟩ := hn
    exact ⟨_, by simpa [groupText] using hv.assignment (hnr.varies hr), by simp [isExpression, hs.isTarget], rfl⟩
  | value hl =>
    obtain ⟨rfl, hnl, -⟩ := hn
    exact ⟨_, by simpa [groupText] using (hnl.varies hl).assignment hv, by simp [isExpression, hs.isExpression], rfl⟩
  | @condition loc c _ _ explicitThen _ _ hq hqt het =>
    have hall := hv.conditional loc explicitThen c.needsGroupBare (hn.2.1.varies hqt) (hn.2.2.varies het)
    refine ⟨_, by simpa using hall, ?_, rfl⟩
    simp [isExpression, (hs.grouped _).isExpression]
  | @consequent loc c _ _ explicitThen _ _ hq hct het =>
    have hall := (hn.1.varies hct).conditional loc explicitThen c.needsGroupBare hv (hn.2.2.varies het)
    refine ⟨_, by simpa [groupText] using hall, ?_, rfl⟩
    simp [isExpression, hv.isFlat.isBlock, hs.isExpression]
  | @alternate loc c _ _ explicitThen _ _ hq hct hqt =>
    have hall := (hn.1.varies hct).conditional loc explicitThen c.needsGroupBare (hn.2.1.varies hqt) hv
    refine ⟨_, by simpa [groupText] using hall, ?_, rfl⟩
    simp [isExpression, isBlock_enclosed, hq, hs.isExpression]
  | fieldObject =>
    exact ⟨_, by simpa using hgroup.field hn.2, by simp [isExpression, hgs.isExpression],
      by simp [isTarget, hgs.isExpression]⟩
  | indexObject hi =>
    exact ⟨_, by simpa using hgroup.index (hn.2.varies hi), by simp [isExpression, hgs.isExpression],
      by simp [isTarget, hgs.isExpression]⟩
  | index ho =>
    exact ⟨_, by simpa [groupText] using ((hn.1.varies ho).group _).index hv, by simp [isExpression, hs.isExpression],
      by simp [isTarget, hs.isExpression]⟩
  | callee hl => exact ⟨_, by simpa using hgroup.call (hn.2.varyAll hl), by simp [isExpression, hgs.isExpression], rfl⟩
  | callArgument hf hl hr =>
    obtain ⟨hnl, -, hnr⟩ := allFlat_append.mp hn.2
    refine ⟨_, by simpa [groupText, intercalate_middle] using
      ((hn.1.varies hf).group _).call ((hnl.varyAll hl).middle hv (hnr.varyAll hr)), ?_, rfl⟩
    simp [isExpression, allExpressions_middle hs.isExpression]
  | element hl hr =>
    obtain ⟨hnl, -, hnr⟩ := allFlat_append.mp hn
    refine ⟨_, by simpa [groupText, intercalate_middle] using
      ((hnl.varyAll hl).middle hv (hnr.varyAll hr)).array, ?_, rfl⟩
    simp [isExpression, allExpressions_middle hs.isExpression]
  | patternElement hl hr =>
    obtain ⟨hnl, -, hnr⟩ := allFlat_append.mp hn
    refine ⟨_, by simpa [groupText, intercalate_middle] using
      ((hnl.varyAll hl).middle hv (hnr.varyAll hr)).arrayPattern, rfl, ?_⟩
    simp [isTarget, allTargets_middle hs.isTarget]

/-- Without its parentheses a loose operand makes a variant that is misplaced. -/
theorem HasOperand.loosened {least : Level} {followed : Bool} (h : n.HasOperand c least followed a b) (hn : n.IsFlat)
    (hu : c.text = .ok u) (hc : c.enclosed.needsGroup least followed) :
    ∃ s, n.Varies s (a ++ u ++ b) ∧ s.IsMisplaced := by
  cases h with
  | left ho hr =>
    refine ⟨_, by simpa using (hn.2.1.varies hu).binary ho ((hn.2.2.varies hr).group _), ?_, rfl⟩
    rw [needsGroup_eq, Bool.not_eq_true'] at hc
    simp [isExpression_binary ho, hc]
  | right ho hl =>
    refine ⟨_, by simpa using ((hn.2.1.varies hl).group _).binary ho (hn.2.2.varies hu), ?_, rfl⟩
    rw [needsGroup_eq_bindsAt, Bool.not_eq_true'] at hc
    simp [isExpression_binary ho, hc]

/-- Without the pair of parentheses around a loose operand, what is printed for a flat tree is printed for a variant
that is misplaced. -/
theorem Puts.loosened {p : OperandPair} (h : n.Puts p) (hn : n.IsFlat) (hp : p.IsLoose) :
    ∃ s, n.Varies s p.omitted ∧ s.IsMisplaced := by
  induction h with
  | own h _ hu => exact h.loosened hn hu hp
  | part h _ ih =>
    obtain ⟨s, hvaries, hs⟩ := ih (h.isFlat hn) hp
    rw [OperandPair.omitted_within]
    exact h.replace hn hvaries hs

/-- The parentheses that printing puts around a loose operand are needed: without this pair the text is rejected or read
as another tree. -/
theorem operandPair_needed {p : OperandPair} (hn : n.isBlockFree) (h : n.Puts p) (hp : p.IsLoose) :
    n.text = .ok p.text ∧
      ∀ t, Entry.expression.ofSource p.omitted = .ok t → t.unwrapped.alike n.unwrapped = false := by
  refine ⟨h.text_eq, fun t ht => Bool.eq_false_iff.mpr fun halike => ?_⟩
  rw [alike_iff] at halike
  obtain ⟨ls, hscans, hcanonical, hw⟩ := Entry.expression.written_of_ofSource ht
  -- the tree that was read can be written down again, and so can the printed one
  have htree : t.ExpressionOf IsReadable := expressionOf_writtenAs gives_isReadable t hcanonical hw hscans.scanned
  have htf : t.IsFlat := isFlat_of_expressionOf (fun _ h => h) t htree (halike ▸ isBlockFree_unwrapped n hn)
  have hnf : n.IsFlat := isFlat_of_unwrapped n hn (halike ▸ isFlat_unwrapped t htf)
  obtain ⟨s, hvaries, hs⟩ := h.loosened hnf hp
  have hsame : t.unwrapped.unplaced = s.unwrapped.unplaced := by rw [halike, hvaries.unwrapped]
  -- so the text has the lexemes that it was printed for, and only one tree has them
  have hlays : p.omitted.Lays s.lexemes := by
    simpa using hvaries.prints.lays [] [] trivial (.done (by simp [IsGap]))
  have hws : s.WrittenAs (fun _ => True) s.lexemes := s.writtenAs_lexemes _
  obtain rfl : ls = s.lexemes := hlays.eq_of_scans hscans <| by
    rw [marks_of_writtenAs t htf hw, hsame, marks_of_writtenAs s hvaries.isFlat hws]
  have hunplaced : t.unplaced = s.unplaced := unplaced_eq_of_writtenAs t s htf hvaries.isFlat hsame hw hws
  have hexpression : t.isExpression = s.isExpression := by
    rw [← htf.isExpression_unplaced, hunplaced, hvaries.isFlat.isExpression_unplaced]
  have hcanonical : t.isExpression := hcanonical
  rw [hexpression, hs.isExpression] at hcanonical
  cases hcanonical

theorem operandPair_needed_argument :
    let x (name : Text) : Node := .identifier .unknown name
    let sum : Node := .binary .unknown "+" (x "a") (x "b")
    let n : Node := .call .unknown (x "f") [.binary .unknown "*" sum (x "c")]
    let p : OperandPair := ⟨sum, .multiplicative, true, "f(", "a + b", " * c)"⟩
    n.isBlockFree ∧ n.Puts p ∧ p.IsLoose ∧ n.text = .ok "f((a + b) * c)" ∧
      ∀ t, Entry.expression.ofSource "f(a + b * c)" = .ok t → t.unwrapped.alike n.unwrapped = false := by
  intro x sum n p
  have hown : (binary .unknown "*" sum (x "c")).Puts ⟨sum, .multiplicative, true, [], "a + b", " * c"⟩ :=
    .own (@HasOperand.left .unknown "*" .multiplicative sum (x "c") "c" rfl rfl) rfl rfl
  have h : n.Puts p := .part (@HasPart.callArgument .unknown (x "f") _ [] [] "f" [] [] rfl rfl rfl) hown
  exact ⟨rfl, h, rfl, operandPair_needed rfl h rfl⟩

/-- Parentheses are put around an operand that ends in an `if`, even if the `if` stands in parentheses of its own
already, and nothing goes on with it. -/
theorem operandPair_needless :
    let x (name : Text) : Node := .identifier .unknown name
    let choice : Node := .conditional .unknown (x "c") (x "d") (x "e") false
    let product : Node := .binary .unknown "*" (x "a") (.binary .unknown "+" (x "b") choice)
    let n : Node := .binary .unknown "+" product (x "f")
    let p : OperandPair := ⟨product, .additive, true, [], "a * (b + if (c) d else e)", " + f"⟩
    n.isBlockFree ∧ n.unwrapped = n ∧ n.Puts p ∧ n.text = .ok "(a * (b + if (c) d else e)) + f" ∧
      p.omitted = "a * (b + if (c) d else e) + f" ∧
        ∃ t, Entry.expression.ofSource p.omitted = .ok t ∧ t.unwrapped.alike n := by
  intro x choice product n p
  have h : n.Puts p := .own (@HasOperand.left .unknown "+" .additive product (x "f") "f" rfl rfl) rfl rfl
  have ht : ∃ t, Entry.expression.ofSource "a * (b + if (c) d else e) + f" = .ok t ∧ t.unwrapped.alike n :=
    ⟨_, rfl, rfl⟩
  exact ⟨rfl, rfl, h, h.text_eq, rfl, ht⟩

end Node

end MagSyntax
