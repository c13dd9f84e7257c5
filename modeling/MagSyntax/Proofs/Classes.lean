import MagSyntax.Text.Blank
import MagSyntax.Text.NamePart

/-! Classes of code points that have nothing in common: what starts a name is neither a digit nor a
blank. The tables of ranges are in order, so walking both at once shows them apart. -/

namespace MagSyntax.CodePoint

/-- A table of ranges, lowest first. -/
abbrev Ranges := List (Nat × Nat)

/-- Each range ends before the next starts. -/
def inOrder : Ranges → Bool
  | a :: b :: rest => a.1 ≤ a.2 && a.2 < b.1 && inOrder (b :: rest)
  | _ => true

/-- Walks two tables at once, dropping the range that ends first. -/
def apart : (steps : Nat) → Ranges → Ranges → Bool
  | 0, _, _ => false
  | _ + 1, [], _ => true
  | _ + 1, _ :: _, [] => true
  | n + 1, a :: as, b :: bs =>
    if a.2 < b.1 then apart n as (b :: bs)
    else if b.2 < a.1 then apart n (a :: as) bs
    else false

theorem inOrder_tail {a : Nat × Nat} {rest : Ranges} (h : inOrder (a :: rest)) : inOrder rest := by
  cases rest with
  | nil => rfl
  | cons b rest =>
    simp only [inOrder, Bool.and_eq_true] at h
    exact h.2

theorem le_of_inOrder {a : Nat × Nat} {rest : Ranges} (h : inOrder (a :: rest)) :
    ∀ b ∈ a :: rest, a.1 ≤ b.1 := by
  induction rest generalizing a with
  | nil => simp
  | cons b rest ih =>
    simp only [inOrder, Bool.and_eq_true, decide_eq_true_eq] at h
    intro d hd
    rcases List.mem_cons.mp hd with rfl | hd
    · exact Nat.le_refl _
    · have := ih h.2 d hd
      omega

theorem inRanges_iff {c : CodePoint} {ranges : Ranges} :
    c.inRanges ranges ↔ ∃ r ∈ ranges, r.1 ≤ c.val ∧ c.val ≤ r.2 := by
  simp [inRanges]

theorem inRanges_cons {c : CodePoint} {a : Nat × Nat} {rest : Ranges} :
    c.inRanges (a :: rest) ↔ (a.1 ≤ c.val ∧ c.val ≤ a.2) ∨ c.inRanges rest := by
  simp [inRanges]

/-- No range of a table in order holds what lies before its first. -/
theorem not_inRanges_of_lt {c : CodePoint} {a : Nat × Nat} {rest : Ranges}
    (h : inOrder (a :: rest)) (hc : c.val < a.1) : ¬c.inRanges (a :: rest) := by
  rw [inRanges_iff]
  rintro ⟨r, hr, hle, -⟩
  have := le_of_inOrder h r hr
  omega

theorem not_inRanges_of_apart {n : Nat} {as bs : Ranges} (h : apart n as bs) (ha : inOrder as)
    (hb : inOrder bs) {c : CodePoint} (hc : c.inRanges as) : ¬c.inRanges bs := by
  induction n generalizing as bs with
  | zero => cases h
  | succ n ih =>
    cases as with
    | nil => cases hc
    | cons a as =>
      cases bs with
      | nil => simp [inRanges]
      | cons b bs =>
        simp only [apart] at h
        split at h
        next hab =>
          -- the first table gives up its range, which ends before all of the second
          rcases inRanges_cons.mp hc with ⟨-, hle⟩ | hc
          · exact not_inRanges_of_lt hb (Nat.lt_of_le_of_lt hle hab)
          · exact ih h (inOrder_tail ha) hb hc
        next =>
          split at h
          next hba =>
            intro hin
            rcases inRanges_cons.mp hin with ⟨-, hle⟩ | hin
            · exact not_inRanges_of_lt ha (Nat.lt_of_le_of_lt hle hba) hc
            · exact ih h ha (inOrder_tail hb) hc hin
          next => cases h

/-- No letter, and so nothing that starts a name, is a digit. -/
theorem isDigit_of_startsName {c : CodePoint} (h : c.startsName) : c.isDigit = false := by
  have ho : inOrder letterRanges ∧ inOrder digitRanges ∧ apart 2000 letterRanges digitRanges := by
    decide +kernel
  simp only [startsName, Bool.or_eq_true, decide_eq_true_eq] at h
  rcases h with (h | rfl) | rfl
  · unfold isLetter at h
    unfold isDigit
    split at h
    next hlow =>
      rw [if_pos hlow]
      simp only [Bool.or_eq_true, Bool.and_eq_true, decide_eq_true_eq] at h
      simp only [Bool.and_eq_false_iff, decide_eq_false_iff_not]
      omega
    next hlow =>
      rw [if_neg hlow]
      exact Bool.eq_false_iff.mpr (not_inRanges_of_apart ho.2.2 ho.1 ho.2.1 h)
  · decide
  · decide

/-- Nothing that starts a name is a blank. -/
theorem isBlank_of_startsName {c : CodePoint} (h : c.startsName) : c.isBlank = false := by
  have ho : inOrder letterRanges ∧ inOrder spaceRanges ∧ apart 2000 letterRanges spaceRanges ∧
      apart 100 [(0x41, 0x5A), (0x61, 0x7A)] spaceRanges := by
    decide +kernel
  simp only [startsName, Bool.or_eq_true, decide_eq_true_eq] at h
  rcases h with (h | rfl) | rfl
  · unfold isLetter at h
    simp only [isBlank, isSpace, Bool.or_eq_false_iff, Bool.and_eq_false_iff, decide_eq_false_iff_not]
    split at h
    next hlow =>
      simp only [Bool.or_eq_true, Bool.and_eq_true, decide_eq_true_eq] at h
      refine ⟨Bool.eq_false_iff.mpr (not_inRanges_of_apart ho.2.2.2 rfl ho.2.1 ?_), by omega⟩
      simpa [inRanges] using h
    next hlow =>
      exact ⟨Bool.eq_false_iff.mpr (not_inRanges_of_apart ho.2.2.1 ho.1 ho.2.1 h), by omega⟩
  · decide
  · decide

/-- No digit is a blank. -/
theorem isBlank_of_isDigit {c : CodePoint} (h : c.isDigit) : c.isBlank = false := by
  have ho : inOrder digitRanges ∧ inOrder spaceRanges ∧ apart 2000 digitRanges spaceRanges ∧
      apart 100 [(0x30, 0x39)] spaceRanges := by
    decide +kernel
  unfold isDigit at h
  simp only [isBlank, isSpace, Bool.or_eq_false_iff, Bool.and_eq_false_iff, decide_eq_false_iff_not]
  split at h
  next hlow =>
    refine ⟨Bool.eq_false_iff.mpr (not_inRanges_of_apart ho.2.2.2 rfl ho.2.1 ?_), ?_⟩
    · simpa [inRanges] using h
    · simp only [Bool.and_eq_true, decide_eq_true_eq] at h
      omega
  next hlow => exact ⟨Bool.eq_false_iff.mpr (not_inRanges_of_apart ho.2.2.1 ho.1 ho.2.1 h), by omega⟩

end MagSyntax.CodePoint
