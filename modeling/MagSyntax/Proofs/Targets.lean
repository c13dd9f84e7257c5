import MagSyntax.Node.Equality
import MagSyntax.Proofs.Spelling

/-! Targets are read as expressions first. The expression that a target is read from is written in the
same way, and reading it as a target gives the target back, whatever the places of its nodes. -/

namespace MagSyntax.Node

mutual

/-- The expression that a target is read from: its patterns are arrays. -/
def asValue : Node → Node
  | .arrayPattern loc elements => .array loc (allAsValues elements)
  | n => n

/-- The expressions that targets are read from. -/
def allAsValues : List Node → List Node
  | [] => []
  | n :: rest => n.asValue :: allAsValues rest

end

theorem bindsAt_of_isRooted {n : Node} (h : n.isRooted) : n.bindsAt .postfixChain := by
  cases n <;> first | rfl | cases h

theorem not_endsOpen_of_isRooted {n : Node} (h : n.isRooted) : n.endsOpen = false := by
  cases n <;> first | rfl | cases h

theorem standsBefore_of_isRooted {n : Node} (h : n.isRooted) : n.standsBefore .postfixChain := by
  simp [standsBefore, bindsAt_of_isRooted h, not_endsOpen_of_isRooted h]

mutual

/-- What an expression is read as when something is assigned to it is a target. -/
theorem isTarget_of_asTarget (n : Node) {t : Node} (he : n.isExpression)
    (h : n.asTarget = .ok t) : t.isTarget := by
  cases n with
  | identifier => cases h; rfl
  | field loc object name =>
    simp only [asTarget] at h
    split at h
    next hr =>
      cases h
      simp only [isExpression, Bool.and_eq_true] at he
      simp [isTarget, hr, he]
    next => cases h
  | index loc object i =>
    simp only [asTarget] at h
    split at h
    next hr =>
      cases h
      simp only [isExpression, Bool.and_eq_true] at he
      simp [isTarget, hr, he]
    next => cases h
  | array loc elements =>
    simp only [asTarget] at h
    split at h
    next targets ht =>
      cases h
      simp only [isTarget]
      exact allTargets_of_asTargets elements he ht
    next => cases h
  | _ => cases h

theorem allTargets_of_asTargets (l : List Node) {ts : List Node} (he : allExpressions l)
    (h : asTargets l = .ok ts) : allTargets ts := by
  cases l with
  | nil => cases h; rfl
  | cons n rest =>
    simp only [asTargets] at h
    simp only [allExpressions, Bool.and_eq_true] at he
    split at h
    next => cases h
    next target hn =>
      split at h
      next => cases h
      next targets hr =>
        cases h
        simp [allTargets, isTarget_of_asTarget n he.1 hn, allTargets_of_asTargets rest he.2 hr]

end

mutual

theorem writtenAs_of_asTarget (n : Node) {bare : Node → Prop} {t : Node} {ls : List Lexeme}
    (h : n.asTarget = .ok t) (hw : n.WrittenAs bare ls) : t.WrittenAs bare ls := by
  cases n with
  | array loc elements =>
    simp only [asTarget] at h
    split at h
    next targets ht =>
      cases h
      obtain ⟨a, ha, rfl⟩ := hw
      exact ⟨a, listWrittenAs_of_asTargets elements ht ha, rfl⟩
    next => cases h
  | identifier => cases h; exact hw
  | field =>
    simp only [asTarget] at h
    split at h <;> cases h
    exact hw
  | index =>
    simp only [asTarget] at h
    split at h <;> cases h
    exact hw
  | _ => cases h

theorem listWrittenAs_of_asTargets (l : List Node) {bare : Node → Prop} {ts : List Node}
    {ls : List Lexeme} (h : asTargets l = .ok ts) (hw : ListWrittenAs bare l ls) :
    ListWrittenAs bare ts ls := by
  cases l with
  | nil => cases h; exact hw
  | cons n rest =>
    simp only [asTargets] at h
    split at h
    next => cases h
    next target hn =>
      split at h
      next => cases h
      next targets hr =>
        cases h
        obtain ⟨a, b, ha, hb, rfl⟩ := hw
        exact ⟨a, b, writtenAs_of_asTarget n hn ha, restWrittenAs_of_asTargets rest hr hb, rfl⟩

theorem restWrittenAs_of_asTargets (l : List Node) {bare : Node → Prop} {ts : List Node}
    {ls : List Lexeme} (h : asTargets l = .ok ts) (hw : RestWrittenAs bare l ls) :
    RestWrittenAs bare ts ls := by
  cases l with
  | nil => cases h; exact hw
  | cons n rest =>
    simp only [asTargets] at h
    split at h
    next => cases h
    next target hn =>
      split at h
      next => cases h
      next targets hr =>
        cases h
        obtain ⟨a, b, ha, hb, rfl⟩ := hw
        exact ⟨a, b, writtenAs_of_asTarget n hn ha, restWrittenAs_of_asTargets rest hr hb, rfl⟩

end

mutual

theorem isExpression_asValue (n : Node) (h : n.isTarget) : n.asValue.isExpression := by
  cases n with
  | identifier => rfl
  | field loc object name =>
    simp only [isTarget, Bool.and_eq_true] at h
    simp [asValue, isExpression, h, standsBefore_of_isRooted h.1.1]
  | index loc object i =>
    simp only [isTarget, Bool.and_eq_true] at h
    simp [asValue, isExpression, h, standsBefore_of_isRooted h.1.1]
  | arrayPattern loc elements =>
    simp only [asValue, isExpression]
    exact allExpressions_allAsValues elements h
  | _ => cases h

theorem allExpressions_allAsValues (l : List Node) (h : allTargets l) :
    allExpressions (allAsValues l) := by
  cases l with
  | nil => rfl
  | cons n rest =>
    simp only [allTargets, Bool.and_eq_true] at h
    simp [allAsValues, allExpressions, isExpression_asValue n h.1,
      allExpressions_allAsValues rest h.2]

end

/-- The expression that a target is read from can stand before the sign of assignment. -/
theorem standsBefore_asValue {n : Node} (h : n.isTarget) : n.asValue.standsBefore .postfixChain := by
  cases n <;> first | rfl | cases h

mutual

theorem writtenAs_asValue (n : Node) {bare : Node → Prop} {ls : List Lexeme}
    (hw : n.WrittenAs bare ls) : n.asValue.WrittenAs bare ls := by
  cases n with
  | arrayPattern loc elements =>
    obtain ⟨a, ha, rfl⟩ := hw
    exact ⟨a, listWrittenAs_allAsValues elements ha, rfl⟩
  | _ => exact hw

theorem listWrittenAs_allAsValues (l : List Node) {bare : Node → Prop} {ls : List Lexeme}
    (hw : ListWrittenAs bare l ls) : ListWrittenAs bare (allAsValues l) ls := by
  cases l with
  | nil => exact hw
  | cons n rest =>
    obtain ⟨a, b, ha, hb, rfl⟩ := hw
    exact ⟨a, b, writtenAs_asValue n ha, restWrittenAs_allAsValues rest hb, rfl⟩

theorem restWrittenAs_allAsValues (l : List Node) {bare : Node → Prop} {ls : List Lexeme}
    (hw : RestWrittenAs bare l ls) : RestWrittenAs bare (allAsValues l) ls := by
  cases l with
  | nil => exact hw
  | cons n rest =>
    obtain ⟨a, b, ha, hb, rfl⟩ := hw
    exact ⟨a, b, writtenAs_asValue n ha, restWrittenAs_allAsValues rest hb, rfl⟩

end

theorem isRooted_unplaced (n : Node) : n.unplaced.isRooted = n.isRooted := by
  cases n with
  | field _ object => simp only [unplaced, isRooted]; exact isRooted_unplaced object
  | index _ object => simp only [unplaced, isRooted]; exact isRooted_unplaced object
  | call _ callee => simp only [unplaced, isRooted]; exact isRooted_unplaced callee
  | _ => rfl

mutual

/-- Reading the expression of a target as a target gives the target. -/
theorem asTarget_of_unplaced (n : Node) {m : Node} (h : n.isTarget)
    (hm : m.unplaced = n.asValue.unplaced) :
    ∃ t, m.asTarget = .ok t ∧ t.unplaced = n.unplaced := by
  cases n with
  | identifier loc name =>
    cases m <;> simp only [asValue, unplaced, reduceCtorEq] at hm
    exact ⟨_, rfl, by simpa [unplaced] using hm⟩
  | field loc object name =>
    cases m <;> simp only [asValue, unplaced, reduceCtorEq] at hm
    simp only [field.injEq, true_and] at hm
    simp only [isTarget, Bool.and_eq_true] at h
    have hr := h.1.1
    rw [← isRooted_unplaced, ← hm.1, isRooted_unplaced] at hr
    exact ⟨_, by simp only [asTarget]; exact if_pos hr, by simp [unplaced, hm]⟩
  | index loc object i =>
    cases m <;> simp only [asValue, unplaced, reduceCtorEq] at hm
    simp only [index.injEq, true_and] at hm
    simp only [isTarget, Bool.and_eq_true] at h
    have hr := h.1.1
    rw [← isRooted_unplaced, ← hm.1, isRooted_unplaced] at hr
    exact ⟨_, by simp only [asTarget]; exact if_pos hr, by simp [unplaced, hm]⟩
  | arrayPattern loc elements =>
    cases m <;> simp only [asValue, unplaced, reduceCtorEq] at hm
    simp only [array.injEq, true_and] at hm
    obtain ⟨ts, hts, hu⟩ := asTargets_of_unplaced elements h hm
    exact ⟨.arrayPattern _ ts, by simp only [asTarget, hts]; rfl, by simp [unplaced, hu]⟩
  | _ => cases h

theorem asTargets_of_unplaced (l : List Node) {ms : List Node} (h : allTargets l)
    (hm : allUnplaced ms = allUnplaced (allAsValues l)) :
    ∃ ts, asTargets ms = .ok ts ∧ allUnplaced ts = allUnplaced l := by
  cases l with
  | nil =>
    cases ms with
    | nil => exact ⟨[], rfl, rfl⟩
    | cons => simp [allAsValues, allUnplaced] at hm
  | cons n rest =>
    cases ms with
    | nil => simp [allAsValues, allUnplaced] at hm
    | cons m ms =>
      simp only [allAsValues, allUnplaced, List.cons.injEq] at hm
      simp only [allTargets, Bool.and_eq_true] at h
      obtain ⟨t, ht, hu⟩ := asTarget_of_unplaced n h.1 hm.1
      obtain ⟨ts, hts, hus⟩ := asTargets_of_unplaced rest h.2 hm.2
      exact ⟨t :: ts, by simp only [asTargets, ht, hts], by simp [allUnplaced, hu, hus]⟩

end

end MagSyntax.Node
