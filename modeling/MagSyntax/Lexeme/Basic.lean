import MagSyntax.Fault
import MagSyntax.Token.Kind

/-!
Lexemes and the form of all functions that read one: a function on the text ahead that says how many
code points it took and what they amount to. A reading that fails says how far it got, because
the failure is reported from there.
-/

namespace MagSyntax

structure Lexeme where
  kind : TokenKind
  /-- The text that the lexeme stands for: the decoded text of a string, the digits of a number behind
  its radix mark, the body of a regular expression, and for all others the lexeme itself. -/
  value : Text
  base : Int := 10
  flags : Text := []
deriving DecidableEq

structure Reading (α : Type) where
  /-- How many code points were read, also when the reading failed. -/
  taken : Nat
  outcome : Except Fault α

namespace Reading

def found {α : Type} (taken : Nat) (value : α) : Reading α := ⟨taken, .ok value⟩

def failed {α : Type} (taken : Nat) (fault : Fault) : Reading α := ⟨taken, .error fault⟩

def behind {α : Type} (count : Nat) (r : Reading α) : Reading α := ⟨count + r.taken, r.outcome⟩

def map {α β : Type} (f : α → β) (r : Reading α) : Reading β := ⟨r.taken, r.outcome.map f⟩

def following (points : Text) (r : Reading Text) : Reading Text :=
  (r.behind points.length).map (points ++ ·)

@[simp] theorem taken_found {α : Type} (n : Nat) (a : α) : (found n a).taken = n := rfl

@[simp] theorem taken_failed {α : Type} (n : Nat) (f : Fault) :
    (failed n f : Reading α).taken = n := rfl

@[simp] theorem taken_behind {α : Type} (n : Nat) (r : Reading α) :
    (r.behind n).taken = n + r.taken := rfl

@[simp] theorem taken_map {α β : Type} (f : α → β) (r : Reading α) :
    (r.map f).taken = r.taken := rfl

@[simp] theorem taken_following (points : Text) (r : Reading Text) :
    (r.following points).taken = points.length + r.taken := rfl

end Reading

end MagSyntax
