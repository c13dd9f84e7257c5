import MagSyntax.Proofs.Starts
import MagSyntax.Proofs.Steps
import MagSyntax.Proofs.Tracking

/-! Steps with the very complaint that they fail with, and rules with the budget that they take. -/

namespace MagSyntax

/-- Too many rules are open, or the tokens do not match with such an error. -/
def Failure.Misses (errors : SyntaxError → Prop) : Failure → Prop
  | .mismatch e => errors e
  | .unclosable _ => False
  | .exhausted => True

namespace Failure

variable {errors errors' : SyntaxError → Prop} {f : Failure}

theorem Misses.mono (h : f.Misses errors) (he : ∀ e, errors e → errors' e) : f.Misses errors' := by
  cases f with
  | mismatch e => exact he e h
  | unclosable | exhausted => exact h

theorem IsExhausted.misses (h : f.IsExhausted) : f.Misses errors := by
  cases f <;> first | exact h.elim | trivial

end Failure

namespace Parse

variable {α β : Type} {setup : Setup} {keeps : Memo → Prop} {may : Failure → Prop} {c : Nat}

theorem finds_mismatch {e : SyntaxError} {found : α → Nat → Prop} (h : may (.mismatch e)) :
    Finds setup keeps may (fail (.mismatch e)) c found :=
  fun _ _ hk => ⟨hk, h⟩

end Parse

namespace Grammar

open Parse

variable {setup : Setup} {keeps : Memo → Prop} {may : Failure → Prop} {b c : Nat}

/-- A token of another kind starts no primary. -/
theorem primary_of_not_starter {self : Rule → Parse Node} {p : Progress}
    (h : (setup.input.get p.cursor).kind ∉ Rule.starters) :
    (primary self).run setup p =
      .failed (.mismatch (.ofToken .expression (setup.input.get p.cursor))) p := by
  have hcurrent : current.run setup p = .ok (setup.input.get p.cursor) p := rfl
  rw [primary, run_bind, hcurrent]
  dsimp only
  cases hk : (setup.input.get p.cursor).kind with
  | ident | number | string | regex => exact absurd (hk ▸ by decide) h
  | keyword w =>
    cases w with
    | trueWord | falseWord | ifWord => exact absurd (hk ▸ by decide) h
    | _ => exact run_complain ..
  | symbol x =>
    cases x with
    | lbrack | lparen => exact absurd (hk ▸ by decide) h
    | _ => exact run_complain ..
  | _ => exact run_complain ..

/-- A rule with no guard of its own finds what its body does, or uses up the budget. -/
theorem finds_open {r : Rule} {due : Nat} {found : Node → Nat → Prop} (hn : r.isNested = false)
    (hr : r.isRemembered = false) (hb : due < b ∨ may .exhausted)
    (h : ∀ n, b = n + due + 1 → Finds setup keeps may (body (fun s => parse n s.surcharge s) r) c found) :
    Finds setup keeps may (parse b due r) c found := by
  rw [parse_due]
  cases hd : b - due with
  | zero => exact finds_exhausted (hb.resolve_left (by omega))
  | succ n =>
    rw [parse_content, if_neg (by simp [hr]), content, counted, if_neg (by simp [hn])]
    exact h n (by omega)

end Grammar

end MagSyntax
