import MagSyntax.Grammar.Rule
import MagSyntax.Node.Basic
import MagSyntax.SyntaxError
import Std.Data.TreeMap

/-!
What earlier attempts found: for a rule and the token it was tried at, the node and the token behind it,
or the error.
-/

namespace MagSyntax

/-- A rule tried at a token. -/
structure Attempt where
  rule : Rule
  cursor : Nat
deriving DecidableEq

namespace Attempt

def order : Attempt → Attempt → Ordering :=
  compareLex (compareOn Attempt.cursor) (compareOn fun a => a.rule.index)

instance : Std.TransCmp order := inferInstanceAs (Std.TransCmp (compareLex _ _))

theorem eq_of_order {a b : Attempt} (h : order a b = .eq) : a = b := by
  simp only [order, compareLex, compareOn, Ordering.then_eq_eq, Nat.compare_eq_eq] at h
  rcases a with ⟨r, c⟩
  rcases b with ⟨s, d⟩
  obtain ⟨hc, hr⟩ := h
  simp only at hc hr
  rw [hc, Rule.index_injective hr]

instance : Std.ReflCmp order where
  compare_self := by
    intro a
    simp [order, compareLex, compareOn]

instance : Std.LawfulEqCmp order where
  eq_of_compare := eq_of_order

end Attempt

inductive Finding
  | node (node : Node) (stop : Nat)
  | error (error : SyntaxError)

structure Memo where
  findings : Std.TreeMap Attempt Finding Attempt.order

namespace Memo

def empty : Memo := ⟨∅⟩

def find? (m : Memo) (a : Attempt) : Option Finding := m.findings[a]?

def store (m : Memo) (a : Attempt) (f : Finding) : Memo := ⟨m.findings.insert a f⟩

@[simp] theorem find?_empty (a : Attempt) : empty.find? a = none := by
  simp [find?, empty]

theorem find?_store (m : Memo) (a b : Attempt) (f : Finding) :
    (m.store a f).find? b = if a = b then some f else m.find? b := by
  simp only [find?, store, Std.TreeMap.getElem?_insert]
  by_cases h : a = b
  · simp [h, Std.ReflCmp.compare_self]
  · have hn : Attempt.order a b ≠ .eq := fun e => h (Attempt.eq_of_order e)
    simp [h, hn]

end Memo

end MagSyntax
