import Mathlib.Data.List.Induction
import MagSyntax.Token.SlashContext

/-! Which parentheses are open behind a sequence of tokens, and which of them open the condition of an `if`.
That a right parenthesis closes a left one is said of the tokens between them alone: they are balanced.
The context that is kept token by token holds one entry for each left parenthesis that none closes. -/

namespace MagSyntax

open TokenKind

/-- The kinds of some tokens, in order. -/
abbrev Kinds := List TokenKind

namespace Kinds

/-- Every parenthesis among the kinds belongs to another of them. -/
inductive Balanced : Kinds → Prop
  | nil : Balanced []
  | other {k : TokenKind} : k ≠ Symbol.lparen → k ≠ Symbol.rparen → Balanced [k]
  | group {ks : Kinds} : Balanced ks → Balanced (symbol .lparen :: ks ++ [symbol .rparen])
  | append {ks ls : Kinds} : Balanced ks → Balanced ls → Balanced (ks ++ ls)

/-- The right parenthesis at an index closes the left one at another. -/
def Closes (ks : Kinds) (i j : Nat) : Prop :=
  ∃ a b d, ks = a ++ symbol .lparen :: (b ++ symbol .rparen :: d) ∧ Balanced b ∧ i = a.length ∧
    j = i + 1 + b.length

/-- A left parenthesis stands at the index, and no right one closes it. -/
def IsOpen (ks : Kinds) (i : Nat) : Prop := ks[i]? = some (symbol .lparen) ∧ ∀ j, ¬ks.Closes i j

/-- An `if` stands before the index, and it is not the name of a field. -/
def OpensCondition (ks : Kinds) (i : Nat) : Prop :=
  i ≠ 0 ∧ ks[i - 1]? = some (keyword .ifWord) ∧ (1 < i → ks[i - 2]? ≠ some (symbol .dot))

instance (ks : Kinds) (i : Nat) : Decidable (ks.OpensCondition i) := by
  unfold OpensCondition
  infer_instance

/-- The last token closes the condition of an `if`. -/
def EndsCondition (ks : Kinds) : Prop :=
  ∃ i j, ks.length = j + 1 ∧ ks.Closes i j ∧ ks.OpensCondition i

/-- How many more of the parentheses are left ones. -/
def rise (ks : Kinds) : Int := ks.count (symbol .lparen) - ks.count (symbol .rparen)

theorem rise_append (ks ls : Kinds) : rise (ks ++ ls) = rise ks + rise ls := by
  simp only [rise, List.count_append]
  omega

theorem rise_lparen (ks : Kinds) : rise (symbol .lparen :: ks) = rise ks + 1 := by
  simp [rise]
  omega

/-- Nothing in the kinds closes a parenthesis before them. -/
def Keeps (ks : Kinds) : Prop := ∀ p, p <+: ks → 0 ≤ rise p

theorem keeps_nil : Keeps [] := by
  intro p hp
  rw [List.prefix_nil.mp hp]
  exact Int.le_refl 0

theorem Keeps.append {ks ls : Kinds} (hk : ks.Keeps) (hl : ls.Keeps) : Keeps (ks ++ ls) := by
  intro p hp
  rcases List.prefix_or_prefix_of_prefix hp (List.prefix_append ks ls) with h | ⟨q, rfl⟩
  · exact hk p h
  · have hks := hk ks (List.prefix_refl ks)
    have hq := hl q ((List.prefix_append_right_inj ks).mp hp)
    rw [rise_append]
    omega

theorem Keeps.lparen {ks : Kinds} (h : ks.Keeps) : Keeps (symbol .lparen :: ks) := by
  intro p hp
  rcases List.prefix_cons_iff.mp hp with rfl | ⟨q, rfl, hq⟩
  · exact Int.le_refl 0
  · have hq := h q hq
    rw [rise_lparen]
    omega

namespace Balanced

variable {ks : Kinds}

theorem rise_eq (h : Balanced ks) : rise ks = 0 := by
  induction h with
  | nil => rfl
  | other hl hr => simp [rise, hl, hr]
  | group _ ih =>
    rw [List.cons_append, rise_lparen, rise_append, ih]
    rfl
  | append _ _ ihk ihl => rw [rise_append, ihk, ihl, Int.add_zero]

theorem keeps (h : Balanced ks) : ks.Keeps := by
  induction h with
  | nil => exact keeps_nil
  | other hl hr =>
    intro p hp
    rcases List.prefix_cons_iff.mp hp with rfl | ⟨q, rfl, hq⟩
    · exact Int.le_refl 0
    · rw [List.prefix_nil.mp hq]
      exact Int.le_of_eq (Balanced.other hl hr).rise_eq.symm
  | @group ks hks ih =>
    intro p hp
    rcases List.prefix_concat_iff.mp hp with rfl | hp
    · exact Int.le_of_eq (Balanced.group hks).rise_eq.symm
    · exact ih.lparen p hp
  | append _ _ ihk ihl => exact ihk.append ihl

end Balanced

theorem Closes.within {ks : Kinds} {i j : Nat} (h : ks.Closes i j) (x y : Kinds) :
    Closes (x ++ ks ++ y) (x.length + i) (x.length + j) := by
  obtain ⟨a, b, d, rfl, hb, rfl, rfl⟩ := h
  refine ⟨x ++ a, b, d ++ y, by simp, hb, by simp, ?_⟩
  omega

/-- What is open behind two sequences is open behind one of them alone. -/
theorem isOpen_append {a b : Kinds} {i : Nat} (h : IsOpen (a ++ b) i) :
    a.IsOpen i ∨ ∃ j, i = a.length + j ∧ b.IsOpen j := by
  rcases Nat.lt_or_ge i a.length with hlt | hge
  · refine .inl ⟨?_, fun j hj => h.2 j (by simpa using hj.within [] b)⟩
    rw [← List.getElem?_append_left hlt]
    exact h.1
  · obtain ⟨j, rfl⟩ := Nat.exists_eq_add_of_le hge
    refine .inr ⟨j, rfl, ?_, fun m hm => h.2 _ (by simpa using hm.within a [])⟩
    have hb := h.1
    rwa [List.getElem?_append_right hge, Nat.add_sub_cancel_left] at hb

theorem isOpen_singleton {k : TokenKind} {i : Nat} (h : IsOpen [k] i) :
    i = 0 ∧ k = symbol .lparen := by
  have hk := List.getElem?_eq_some_iff.mp h.1
  obtain rfl : i = 0 := Nat.lt_one_iff.mp hk.1
  exact ⟨rfl, hk.2⟩

/-- What is open behind kinds, a parenthesis and more kinds. -/
theorem isOpen_cons {a b : Kinds} {k : TokenKind} {i : Nat} (h : IsOpen (a ++ k :: b) i) :
    a.IsOpen i ∨ i = a.length ∧ k = symbol .lparen ∨ ∃ j, b.IsOpen j := by
  refine (isOpen_append h).imp_right ?_
  rintro ⟨j, rfl, hj⟩
  rcases isOpen_append (a := [k]) hj with hj | ⟨m, -, hm⟩
  · obtain ⟨rfl, hk⟩ := isOpen_singleton hj
    exact .inl ⟨rfl, hk⟩
  · exact .inr ⟨m, hm⟩

theorem not_isOpen_nil (i : Nat) : ¬IsOpen [] i := by
  rintro ⟨hi, -⟩
  cases hi

/-- Among balanced kinds no parenthesis is open. -/
theorem Balanced.not_isOpen {ks : Kinds} (h : Balanced ks) (i : Nat) : ¬ks.IsOpen i := by
  induction h generalizing i with
  | nil => exact not_isOpen_nil i
  | other hl _ => exact fun hi => hl (isOpen_singleton hi).2
  | @group ks hks ih =>
    intro hopen
    rcases isOpen_cons hopen with hi | ⟨-, hk⟩ | ⟨j, hj⟩
    · rcases isOpen_cons (a := []) hi with hi | ⟨rfl, -⟩ | ⟨j, hj⟩
      · exact not_isOpen_nil i hi
      · exact hopen.2 _ ⟨[], ks, [], rfl, hks, rfl, rfl⟩
      · exact ih j hj
    · cases hk
    · exact not_isOpen_nil j hj
  | append _ _ ihk ihl =>
    intro hi
    rcases isOpen_append hi with hi | ⟨j, -, hj⟩
    · exact ihk i hi
    · exact ihl j hj

/-- Kinds with the indices of the parentheses that they leave open, the innermost first. -/
inductive Leaves : Kinds → List Nat → Prop
  | balanced {b : Kinds} : Balanced b → Leaves b []
  | surplus {a b : Kinds} : Leaves a [] → Balanced b → Leaves (a ++ symbol .rparen :: b) []
  | opened {a b : Kinds} {l : List Nat} : Leaves a l → Balanced b →
    Leaves (a ++ symbol .lparen :: b) (a.length :: l)

namespace Leaves

variable {ks : Kinds} {l : List Nat}

theorem append_balanced (h : Leaves ks l) {b : Kinds} (hb : Balanced b) : Leaves (ks ++ b) l := by
  cases h with
  | balanced ha => exact .balanced (ha.append hb)
  | surplus h ha =>
    rw [List.append_assoc]
    exact .surplus h (ha.append hb)
  | opened h ha =>
    rw [List.append_assoc]
    exact .opened h (ha.append hb)

theorem lparen (h : Leaves ks l) : Leaves (ks ++ [symbol .lparen]) (ks.length :: l) := .opened h .nil

/-- A right parenthesis closes the innermost one that is open, if there is one. -/
theorem rparen (h : Leaves ks l) : Leaves (ks ++ [symbol .rparen]) l.tail := by
  cases h with
  | balanced hb => exact .surplus (.balanced hb) .nil
  | surplus h hb => exact .surplus (.surplus h hb) .nil
  | opened h hb =>
    rw [List.append_assoc]
    exact h.append_balanced (.group hb)

/-- What stands behind a parenthesis that is left open closes nothing before it. -/
theorem keeps_of_mem (h : Leaves ks l) {i : Nat} (hi : i ∈ l) :
    ∃ a s, ks = a ++ symbol .lparen :: s ∧ i = a.length ∧ Keeps s := by
  induction h with
  | balanced | surplus => cases hi
  | @opened a b l _ hb ih =>
    rcases List.mem_cons.mp hi with rfl | hi
    · exact ⟨a, b, rfl, rfl, hb.keeps⟩
    · obtain ⟨c, s, rfl, hc, hs⟩ := ih hi
      exact ⟨c, s ++ symbol .lparen :: b, by simp, hc, hs.append hb.keeps.lparen⟩

theorem isOpen_of_mem (h : Leaves ks l) {i : Nat} (hi : i ∈ l) : ks.IsOpen i := by
  obtain ⟨a, s, rfl, rfl, hs⟩ := h.keeps_of_mem hi
  refine ⟨by simp, ?_⟩
  rintro j ⟨c, b, d, hc, hb, hlength, -⟩
  obtain ⟨rfl, hs'⟩ := List.append_inj hc hlength
  obtain rfl : s = b ++ symbol .rparen :: d := (List.cons.inj hs').2
  -- up to a parenthesis that closed it there would be one right parenthesis too many
  have hrise := hs (b ++ [symbol .rparen]) ⟨d, by simp⟩
  rw [rise_append, hb.rise_eq] at hrise
  exact absurd hrise (by decide)

theorem mem_of_isOpen (h : Leaves ks l) {i : Nat} (hi : ks.IsOpen i) : i ∈ l := by
  induction h with
  | balanced hb => exact absurd hi (hb.not_isOpen i)
  | surplus _ hb ih =>
    rcases isOpen_cons hi with hi | ⟨-, hk⟩ | ⟨j, hj⟩
    · exact ih hi
    · cases hk
    · exact absurd hj (hb.not_isOpen j)
  | opened _ hb ih =>
    rcases isOpen_cons hi with hi | ⟨rfl, -⟩ | ⟨j, hj⟩
    · exact List.mem_cons_of_mem _ (ih hi)
    · exact List.mem_cons_self
    · exact absurd hj (hb.not_isOpen j)

theorem pairwise (h : Leaves ks l) : l.Pairwise (· > ·) := by
  induction h with
  | balanced | surplus => exact .nil
  | @opened a b l h _ ih =>
    refine .cons (fun i hi => ?_) ih
    exact (List.getElem?_eq_some_iff.mp (h.isOpen_of_mem hi).1).1

end Leaves

theorem opensCondition_append {ks : Kinds} {i : Nat} (h : i ≤ ks.length) (ls : Kinds) :
    OpensCondition (ks ++ ls) i ↔ ks.OpensCondition i := by
  unfold OpensCondition
  refine and_congr_right fun hi => and_congr ?_ (forall_congr' fun hlt => ?_)
  · rw [List.getElem?_append_left (by omega)]
  · rw [List.getElem?_append_left (by omega)]

/-- Behind the last token a condition opens if that is an `if` which no point stands before. -/
theorem opensCondition_concat (ks : Kinds) (k : TokenKind) :
    OpensCondition (ks ++ [k]) (ks ++ [k]).length ↔
      k = keyword .ifWord ∧ ks.getLast? ≠ some (symbol .dot) := by
  have hlast : (ks ++ [k])[ks.length]? = some k := by simp
  rw [List.length_append, List.length_singleton, OpensCondition, Nat.add_sub_cancel, hlast,
    Option.some.injEq, List.getLast?_eq_getElem?]
  cases ks with
  | nil => simp
  | cons first rest =>
    have hbefore : (first :: rest ++ [k])[(first :: rest).length + 1 - 2]? =
        (first :: rest)[(first :: rest).length - 1]? := by
      rw [List.getElem?_append_left (by simp)]
      rfl
    rw [hbefore]
    simp

end Kinds

namespace SlashContext

open Kinds

/-- The context behind tokens of the kinds. -/
def behind (ks : Kinds) : SlashContext := ks.foldl after start

theorem behind_concat (ks : Kinds) (k : TokenKind) : behind (ks ++ [k]) = (behind ks).after k := by
  rw [behind, List.foldl_append]
  rfl

theorem previous_behind (ks : Kinds) : (behind ks).previous = ks.getLast? := by
  induction ks using List.reverseRecOn with
  | nil => rfl
  | append_singleton ks k _ =>
    rw [behind_concat, List.getLast?_concat]
    rfl

theorem opensCondition_behind (ks : Kinds) :
    (behind ks).opensCondition = decide (ks.OpensCondition ks.length) := by
  induction ks using List.reverseRecOn with
  | nil => rfl
  | append_singleton ks k _ =>
    simp only [behind_concat, after, previous_behind, opensCondition_concat, Bool.decide_and]

/-- The context holds an entry for each parenthesis that is open, which tells whether it opens a condition. -/
theorem groups_behind (ks : Kinds) :
    ∃ l, Leaves ks l ∧ (behind ks).groups = l.map fun i => decide (ks.OpensCondition i) := by
  induction ks using List.reverseRecOn with
  | nil => exact ⟨[], .balanced .nil, rfl⟩
  | append_singleton ks k ih =>
    obtain ⟨l, hl, hg⟩ := ih
    have hmap : (behind ks).groups = l.map fun i => decide (OpensCondition (ks ++ [k]) i) := by
      rw [hg]
      refine List.map_congr_left fun i hi => decide_eq_decide.mpr (opensCondition_append ?_ _).symm
      exact Nat.le_of_lt (List.getElem?_eq_some_iff.mp (hl.isOpen_of_mem hi).1).1
    rw [behind_concat, after, groupsAfter]
    by_cases hopen : k = symbol .lparen
    · subst hopen
      refine ⟨_, hl.lparen, ?_⟩
      rw [if_pos rfl, opensCondition_behind, List.map_cons, ← hmap,
        decide_eq_decide.mpr (opensCondition_append (Nat.le_refl _) _)]
    by_cases hclose : k = symbol .rparen
    · subst hclose
      refine ⟨_, hl.rparen, ?_⟩
      rw [if_neg hopen, if_pos rfl, hmap, List.map_tail]
    · refine ⟨l, hl.append_balanced (.other hopen hclose), ?_⟩
      rw [if_neg hopen, if_neg hclose, hmap]

/-- Behind balanced tokens the parentheses are open that were open before. -/
theorem groups_of_balanced {b : Kinds} (hb : Balanced b) (c : SlashContext) :
    (b.foldl after c).groups = c.groups := by
  induction hb generalizing c with
  | nil => rfl
  | other hl hr => simp [after, groupsAfter, hl, hr]
  | group _ ih => simp [after, groupsAfter, ih]
  | append _ _ ihk ihl => rw [List.foldl_append, ihl, ihk]

/-- The context tells behind a parenthesis whether it closes a condition. -/
theorem afterCondition_behind (ks : Kinds) : (behind ks).afterCondition ↔ ks.EndsCondition := by
  induction ks using List.reverseRecOn with
  | nil =>
    constructor
    · intro h
      cases h
    · rintro ⟨i, j, hj, -⟩
      cases hj
  | append_singleton ks k _ =>
    rw [behind_concat, after, Bool.and_eq_true, decide_eq_true_eq, decide_eq_true_eq]
    constructor
    · rintro ⟨rfl, hhead⟩
      obtain ⟨l, hl, hg⟩ := groups_behind ks
      rw [hg] at hhead
      cases hl with
      | balanced | surplus => cases hhead
      | @opened a b l h hb =>
        have hopens := of_decide_eq_true (Option.some.inj hhead)
        refine ⟨a.length, _, List.length_append, ⟨a, b, [], by simp, hb, rfl, ?_⟩, ?_⟩
        · simp
          omega
        · exact (opensCondition_append (by simp) _).mpr hopens
    · rintro ⟨i, j, hlength, ⟨a, b, d, he, hb, rfl, rfl⟩, hopens⟩
      obtain rfl : d = [] := by
        have hd := congrArg List.length he
        simp only [List.length_append, List.length_cons, List.length_nil] at hd hlength
        exact List.length_eq_zero_iff.mp (by omega)
      have hconcat : ks ++ [k] = a ++ symbol .lparen :: b ++ [symbol .rparen] := by simpa using he
      obtain ⟨rfl, hk⟩ := List.append_inj' hconcat rfl
      refine ⟨(List.cons.inj hk).1, ?_⟩
      have hgroups : (behind (a ++ symbol .lparen :: b)).groups =
          (behind a).opensCondition :: (behind a).groups := by
        rw [behind, List.foldl_append, List.foldl_cons, groups_of_balanced hb]
        rfl
      rw [hgroups, List.head?_cons, opensCondition_behind, Option.some.injEq, decide_eq_true_eq]
      rw [List.append_assoc] at hopens
      exact (opensCondition_append (Nat.le_refl _) _).mp hopens

/-- A slash behind tokens of the kinds starts a regular expression. -/
def TakesRegex (ks : Kinds) : Prop :=
  ks = [] ∨ (∃ k, ks.getLast? = some k ∧ k ∉ valueEnds) ∨ ks.EndsCondition

theorem regexAllowed_behind (ks : Kinds) : (behind ks).regexAllowed ↔ TakesRegex ks := by
  rw [regexAllowed, Bool.or_eq_true, afterCondition_behind, previous_behind, TakesRegex]
  cases h : ks.getLast? with
  | none => simp [List.getLast?_eq_none_iff.mp h]
  | some k =>
    have hne : ks ≠ [] := fun hks => by rw [hks] at h; cases h
    simp [hne, or_comm]

end SlashContext

end MagSyntax
