import MagSyntax.Print.Sheet
import MagSyntax.Proofs.Canonical

/-! Trees with the parentheses and braces that printing adds. `Node.enclosed` puts into a tree what the
printer puts into its text: parentheses around an operand that its place does not take as it is, and
braces around an `if` that would catch the `else` of another. -/

namespace MagSyntax

namespace Node

/-- The node, in parentheses if they are needed. -/
def grouped (needed : Bool) (n : Node) : Node :=
  if needed then .parenthesized .unknown n else n

/-- An operand needs parentheses where nothing looser than a level can stand. -/
def needsGroup (n : Node) (least : Level) (followed : Bool) : Bool :=
  !n.bindsAt least || (followed && n.endsOpen)

/-- A sign of division stands behind a group in parentheses at the front of the expression. -/
def divides (n : Node) : Bool :=
  match n.dividesLeadingGroup with
  | .ok b => b
  | .error _ => false

/-- A condition needs parentheses before a `then` or a block. -/
def needsGroupBare (n : Node) : Bool := n.needsGroup .comparison true || n.divides

mutual

/-- The tree with the parentheses and the braces that printing adds. -/
def enclosed : Node → Node
  | .program loc body => .program loc (allEnclosed body)
  | .block loc body => .block loc (allEnclosed body)
  | .expressionStatement loc e =>
    .expressionStatement loc (grouped (e.isAssignment || e.startsWithIf) e.enclosed)
  | .conditionalStatement loc condition consequent alternate =>
    .conditionalStatement loc condition.enclosed
      (if alternate.isSome && consequent.dangles then .block .unknown [consequent.enclosed]
        else consequent.enclosed)
      (enclosed? alternate)
  | .declaration loc left type right constant mutable =>
    .declaration loc left.enclosed (typeEnclosed? right.isSome type) (enclosed? right) constant
      mutable
  | .parenthesized loc e => .parenthesized loc e.enclosed
  | .conditional loc condition consequent alternate explicitThen =>
    .conditional loc
      (grouped ((explicitThen || consequent.isBlock) && condition.needsGroupBare) condition.enclosed)
      consequent.enclosed alternate.enclosed explicitThen
  | .assignment loc left right operator => .assignment loc left.enclosed right.enclosed operator
  | .binary loc operator left right =>
    match Level.operands operator with
    | .error _ => .binary loc operator left.enclosed right.enclosed
    | .ok (leastLeft, leastRight) =>
      .binary loc operator (grouped (left.needsGroup leastLeft true) left.enclosed)
        (grouped (right.needsGroup leastRight false) right.enclosed)
  | .unary loc operator argument leading =>
    .unary loc operator (grouped (argument.needsGroup .postfixChain false) argument.enclosed) leading
  | .field loc object name =>
    .field loc (grouped (object.needsGroup .postfixChain true) object.enclosed) name
  | .index loc object i =>
    .index loc (grouped (object.needsGroup .postfixChain true) object.enclosed) i.enclosed
  | .call loc callee arguments =>
    .call loc (grouped (callee.needsGroup .postfixChain true) callee.enclosed)
      (allEnclosed arguments)
  | .array loc elements => .array loc (allEnclosed elements)
  | .arrayPattern loc elements => .arrayPattern loc (allEnclosed elements)
  | other => other

/-- The trees, each with what printing adds. -/
def allEnclosed : List Node → List Node
  | [] => []
  | n :: rest => n.enclosed :: allEnclosed rest

/-- The tree, if it is there, with what printing adds. -/
def enclosed? : Option Node → Option Node
  | none => none
  | some n => some n.enclosed

/-- The type, if it is there, with what printing adds. -/
def typeEnclosed? (followed : Bool) : Option Node → Option Node
  | none => none
  | some n => some (grouped (n.needsGroup .comparison followed) n.enclosed)

end

@[simp] theorem grouped_true (n : Node) : grouped true n = .parenthesized .unknown n := rfl

@[simp] theorem grouped_false (n : Node) : grouped false n = n := rfl

theorem level_enclosed (n : Node) : n.enclosed.level = n.level := by
  cases n with
  | binary loc operator left right =>
    rw [enclosed]
    split <;> rfl
  | _ => rfl

/-- A link binds more tightly than a sign, so the sign is put in parentheses before it. -/
example :
    let a : Node := .identifier .unknown "a"
    let negative : Node := .unary .unknown "-" a true
    (field .unknown negative a).enclosed = field .unknown (.parenthesized .unknown negative) a := by cbv

theorem bindsAt_enclosed (n : Node) (least : Level) : n.enclosed.bindsAt least = n.bindsAt least := by
  rw [bindsAt, bindsAt, level_enclosed]

theorem isBlock_enclosed (n : Node) : n.enclosed.isBlock = n.isBlock := by
  cases n with
  | binary loc operator left right =>
    rw [enclosed]
    split <;> rfl
  | _ => rfl

theorem isAssignment_enclosed (n : Node) : n.enclosed.isAssignment = n.isAssignment := by
  cases n with
  | binary loc operator left right =>
    rw [enclosed]
    split <;> rfl
  | _ => rfl

theorem isParenthesized_enclosed (n : Node) : n.enclosed.isParenthesized = n.isParenthesized := by
  cases n with
  | binary loc operator left right =>
    rw [enclosed]
    split <;> rfl
  | _ => rfl

/-- What encloses a node closes it, so nothing gets open that was not. -/
theorem endsOpen_grouped {needed : Bool} {n m : Node} (h : (grouped needed m).endsOpen)
    (hm : m.endsOpen → n.endsOpen) : n.endsOpen := by
  cases needed with
  | true => cases h
  | false => exact hm h

theorem endsOpen_of_enclosed (n : Node) (h : n.enclosed.endsOpen) : n.endsOpen := by
  cases n with
  | binary loc operator left right =>
    rw [enclosed] at h
    split at h
    · exact endsOpen_of_enclosed right h
    · exact endsOpen_grouped (n := right) h (endsOpen_of_enclosed right)
  | assignment loc left right operator => exact endsOpen_of_enclosed right h
  | unary loc operator argument leading =>
    exact endsOpen_grouped (n := argument) h (endsOpen_of_enclosed argument)
  | conditional loc condition consequent alternate explicitThen =>
    simp only [enclosed, endsOpen, isBlock_enclosed, Bool.or_eq_true, Bool.and_eq_true] at h ⊢
    exact h.imp_right fun ha => ⟨ha.1, endsOpen_of_enclosed alternate ha.2⟩
  | _ => cases h

theorem startsWithIf_grouped {needed : Bool} {n m : Node} (h : (grouped needed m).startsWithIf)
    (hm : m.startsWithIf → n.startsWithIf) : n.startsWithIf := by
  cases needed with
  | true => cases h
  | false => exact hm h

theorem startsWithIf_of_enclosed (n : Node) (h : n.enclosed.startsWithIf) : n.startsWithIf := by
  cases n with
  | binary loc operator left right =>
    rw [enclosed] at h
    split at h
    · exact startsWithIf_of_enclosed left h
    · exact startsWithIf_grouped (n := left) h (startsWithIf_of_enclosed left)
  | assignment loc left right operator => exact startsWithIf_of_enclosed left h
  | field loc object name => exact startsWithIf_grouped (n := object) h (startsWithIf_of_enclosed object)
  | index loc object i => exact startsWithIf_grouped (n := object) h (startsWithIf_of_enclosed object)
  | call loc callee arguments =>
    exact startsWithIf_grouped (n := callee) h (startsWithIf_of_enclosed callee)
  | conditional => rfl
  | _ => cases h

theorem dangles_enclosed (n : Node) : n.enclosed.dangles = n.dangles := by
  cases n with
  | binary loc operator left right =>
    rw [enclosed]
    split <;> rfl
  | conditionalStatement loc condition consequent alternate =>
    cases alternate with
    | none => rfl
    | some alternate => exact dangles_enclosed alternate
  | _ => rfl

/-- An operand with the parentheses that it needs needs none. -/
theorem needsGroup_grouped (n : Node) (least : Level) (followed : Bool)
    (hl : least ≤ Level.primary) :
    (grouped (n.needsGroup least followed) n.enclosed).needsGroup least followed = false := by
  cases hn : n.needsGroup least followed with
  | true => simpa [needsGroup, bindsAt, level, endsOpen] using hl
  | false =>
    simp only [needsGroup, Bool.or_eq_false_iff, Bool.not_eq_false', Bool.and_eq_false_imp] at hn
    simp only [grouped_false, needsGroup, bindsAt_enclosed, hn.1, Bool.not_true, Bool.false_or,
      Bool.and_eq_false_imp]
    exact fun hf => Bool.eq_false_iff.mpr fun ho =>
      absurd (endsOpen_of_enclosed n ho) (by simp [hn.2 hf])

end Node

end MagSyntax
