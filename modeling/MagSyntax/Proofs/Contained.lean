import MagSyntax.Proofs.TokensKept

/-! Tokens that stand one behind the other in an input, from a place on. -/

namespace MagSyntax

namespace Input

/-- These tokens stand from a place on. -/
def Contains (input : Input) : Nat → List Token → Prop
  | _, [] => True
  | c, t :: tokens => input.get c = t ∧ Contains input (c + 1) tokens

variable {input : Input}

theorem contains_append {c : Nat} {a b : List Token} :
    input.Contains c (a ++ b) ↔ input.Contains c a ∧ input.Contains (c + a.length) b := by
  induction a generalizing c with
  | nil => simp [Contains]
  | cons t a ih =>
    simp only [List.cons_append, Contains, ih, List.length_cons, and_assoc]
    rw [show c + 1 + a.length = c + (a.length + 1) by omega]

theorem get_of_contains {c i : Nat} {tokens : List Token} (h : input.Contains c tokens)
    (hi : i < tokens.length) : input.get (c + i) = tokens[i] := by
  induction tokens generalizing c i with
  | nil => cases hi
  | cons t tokens ih =>
    cases i with
    | zero => exact h.1
    | succ i =>
      rw [List.length_cons, Nat.add_lt_add_iff_right] at hi
      rw [List.getElem_cons_succ, ← ih h.2 hi]
      congr 1
      omega

theorem contains_mk {tokens : List Token} {last : Token} (before : List Token) :
    (mk (before ++ tokens).toArray last).Contains before.length tokens := by
  induction tokens generalizing before with
  | nil => trivial
  | cons t tokens ih =>
    refine ⟨by rw [get_mk]; simp, ?_⟩
    have h := ih (before ++ [t])
    rwa [List.append_assoc, List.singleton_append, List.length_append, List.length_singleton] at h

/-- These tokens stand between two places, in front of the end of the input. -/
structure Holds (input : Input) (c : Nat) (tokens : List Token) (stop : Nat) : Prop where
  contains : input.Contains c tokens
  length : c + tokens.length = stop
  room : stop ≤ input.before.size

theorem holds_nil {c stop : Nat} : input.Holds c [] stop ↔ c = stop ∧ stop ≤ input.before.size :=
  ⟨fun h => ⟨h.length, h.room⟩, fun h => ⟨trivial, h.1, h.2⟩⟩

theorem holds_append {c stop : Nat} {a b : List Token} :
    input.Holds c (a ++ b) stop ↔ ∃ d, input.Holds c a d ∧ input.Holds d b stop := by
  constructor
  · rintro ⟨hs, hl, hr⟩
    rw [contains_append] at hs
    rw [List.length_append] at hl
    exact ⟨c + a.length, ⟨hs.1, rfl, by omega⟩, hs.2, by omega, hr⟩
  · rintro ⟨d, ha, hb⟩
    obtain rfl := ha.length
    exact ⟨contains_append.mpr ⟨ha.contains, hb.contains⟩, by
      rw [List.length_append, ← Nat.add_assoc, hb.length], hb.room⟩

theorem holds_cons {c stop : Nat} {t : Token} {tokens : List Token} :
    input.Holds c (t :: tokens) stop ↔ input.get c = t ∧ input.Holds (c + 1) tokens stop := by
  constructor
  · rintro ⟨hs, hl, hr⟩
    rw [List.length_cons] at hl
    exact ⟨hs.1, hs.2, by omega, hr⟩
  · rintro ⟨hc, hs, hl, hr⟩
    exact ⟨⟨hc, hs⟩, by rw [List.length_cons]; omega, hr⟩

theorem Holds.le {c stop : Nat} {tokens : List Token} (h : input.Holds c tokens stop) :
    c + tokens.length ≤ input.before.size :=
  h.length ▸ h.room

theorem holds_mk (tokens : List Token) (last : Token) :
    (mk tokens.toArray last).Holds 0 tokens tokens.length :=
  ⟨contains_mk [], Nat.zero_add _, by simp⟩

end Input

end MagSyntax
