import MagSyntax.Proofs.Variants

/-! The pairs of parentheses that printing puts around operands of binary expressions, each with the text of the
whole tree around it, and what is printed when one of them is left out. -/

namespace MagSyntax

open Lexeme Print Text

/-- A pair of parentheses around an operand of a binary expression, with the text that stands in them and around
them. -/
structure OperandPair where
  operand : Node
  /-- The least level of what can stand there without parentheses. -/
  least : Level
  /-- Whether more text follows the operand in its expression. -/
  followed : Bool
  before : Text
  inside : Text
  behind : Text

namespace OperandPair

/-- The text with the parentheses. -/
def text (p : OperandPair) : Text := p.before ++ parenthesize p.inside ++ p.behind

/-- The text without the parentheses. -/
def omitted (p : OperandPair) : Text := p.before ++ p.inside ++ p.behind

/-- The pair in a longer text, with the expression that it stands in grouped there or not. -/
def within (p : OperandPair) (needed : Bool) (a b : Text) : OperandPair :=
  { p with
    before := a ++ (if needed then "(" ++ p.before else p.before)
    behind := (if needed then p.behind ++ ")" else p.behind) ++ b }

/-- With the parentheses that printing puts into it, the operand still binds looser than its place allows, or still ends
open before more text. -/
def IsLoose (p : OperandPair) : Prop := p.operand.enclosed.needsGroup p.least p.followed

theorem text_within (p : OperandPair) (needed : Bool) (a b : Text) :
    (p.within needed a b).text = a ++ groupText needed p.text ++ b := by
  cases needed <;> simp [within, text, groupText, parenthesize]

theorem omitted_within (p : OperandPair) (needed : Bool) (a b : Text) :
    (p.within needed a b).omitted = a ++ groupText needed p.omitted ++ b := by
  cases needed <;> simp [within, omitted, groupText, parenthesize]

end OperandPair

namespace Node

/-- The texts before an item of a list. -/
def beforeComma (us : List Text) : Text := us.flatMap fun u => u ++ (", " : Text)

/-- The texts behind an item of a list. -/
def behindComma (us : List Text) : Text := us.flatMap fun u => (", " : Text) ++ u

/-- The binary expression is printed as the first text, the operand, in parentheses if its place asks for them, and
the second text. -/
inductive HasOperand : Node → Node → Level → Bool → Text → Text → Prop
  | left {loc : Loc} {operator : Text} {level : Level} {l r : Node} {v : Text} :
      Level.ofOperator operator = .ok level → r.text = .ok v →
      HasOperand (.binary loc operator l r) l level.sides.1 true []
        (" " ++ operator ++ " " ++ groupText (r.needsGroup level.sides.2 false) v)
  | right {loc : Loc} {operator : Text} {level : Level} {l r : Node} {u : Text} :
      Level.ofOperator operator = .ok level → l.text = .ok u →
      HasOperand (.binary loc operator l r) r level.sides.2 false
        (groupText (l.needsGroup level.sides.1 true) u ++ " " ++ operator ++ " ") []

/-- The tree is printed as the first text, the part, in parentheses if they are needed, and the second text. -/
inductive HasPart : Node → Node → Bool → Text → Text → Prop
  | operand {n c : Node} {least : Level} {followed : Bool} {a b : Text} :
      n.HasOperand c least followed a b → HasPart n c (c.needsGroup least followed) a b
  | inner {loc : Loc} {e : Node} : HasPart (.parenthesized loc e) e true [] []
  | argument {loc : Loc} {operator : Text} {e : Node} {leading : Bool} :
      HasPart (.unary loc operator e leading) e (e.needsGroup .postfixChain false) operator []
  | target {loc : Loc} {operator : Text} {l r : Node} {v : Text} : r.text = .ok v →
      HasPart (.assignment loc l r operator) l false [] (" " ++ operator ++ " " ++ v)
  | value {loc : Loc} {operator : Text} {l r : Node} {u : Text} : l.text = .ok u →
      HasPart (.assignment loc l r operator) r false (u ++ " " ++ operator ++ " ") []
  | condition {loc : Loc} {c q e : Node} {explicitThen : Bool} {v w : Text} : q.isBlock = false →
      q.text = .ok v → e.text = .ok w →
      HasPart (.conditional loc c q e explicitThen) c (!explicitThen || c.needsGroupBare) "if "
        (thenText explicitThen ++ v ++ " else " ++ w)
  | consequent {loc : Loc} {c q e : Node} {explicitThen : Bool} {u w : Text} : q.isBlock = false →
      c.text = .ok u → e.text = .ok w →
      HasPart (.conditional loc c q e explicitThen) q false
        ("if " ++ groupText (!explicitThen || c.needsGroupBare) u ++ thenText explicitThen) (" else " ++ w)
  | alternate {loc : Loc} {c q e : Node} {explicitThen : Bool} {u v : Text} : q.isBlock = false →
      c.text = .ok u → q.text = .ok v →
      HasPart (.conditional loc c q e explicitThen) e false
        ("if " ++ groupText (!explicitThen || c.needsGroupBare) u ++ thenText explicitThen ++ v ++ " else ") []
  | fieldObject {loc : Loc} {o name : Node} : name.isIdentifier →
      HasPart (.field loc o name) o (o.needsGroup .postfixChain true) [] ("." ++ name.nameText)
  | indexObject {loc : Loc} {o i : Node} {v : Text} : i.text = .ok v →
      HasPart (.index loc o i) o (o.needsGroup .postfixChain true) [] ("[" ++ v ++ "]")
  | index {loc : Loc} {o i : Node} {u : Text} : o.text = .ok u →
      HasPart (.index loc o i) i false (groupText (o.needsGroup .postfixChain true) u ++ "[") "]"
  | callee {loc : Loc} {f : Node} {arguments : List Node} {vs : List Text} : allTexts arguments = .ok vs →
      HasPart (.call loc f arguments) f (f.needsGroup .postfixChain true) []
        ("(" ++ List.intercalate ", " vs ++ ")")
  | callArgument {loc : Loc} {f c : Node} {l r : List Node} {u : Text} {us vs : List Text} : f.text = .ok u →
      allTexts l = .ok us → allTexts r = .ok vs →
      HasPart (.call loc f (l ++ c :: r)) c false
        (groupText (f.needsGroup .postfixChain true) u ++ "(" ++ beforeComma us)
        (behindComma vs ++ ")")
  | element {loc : Loc} {c : Node} {l r : List Node} {us vs : List Text} :
      allTexts l = .ok us → allTexts r = .ok vs →
      HasPart (.array loc (l ++ c :: r)) c false ("[" ++ beforeComma us) (behindComma vs ++ "]")
  | patternElement {loc : Loc} {c : Node} {l r : List Node} {us vs : List Text} :
      allTexts l = .ok us → allTexts r = .ok vs →
      HasPart (.arrayPattern loc (l ++ c :: r)) c false ("[" ++ beforeComma us)
        (behindComma vs ++ "]")

/-- Printing the tree puts the pair of parentheses around an operand somewhere in it. -/
inductive Puts : Node → OperandPair → Prop
  | own {n c : Node} {least : Level} {followed : Bool} {a u b : Text} : n.HasOperand c least followed a b →
      c.needsGroup least followed → c.text = .ok u → Puts n ⟨c, least, followed, a, u, b⟩
  | part {n c : Node} {needed : Bool} {a b : Text} {p : OperandPair} : n.HasPart c needed a b → c.Puts p →
      Puts n (p.within needed a b)

section Texts

variable {n c : Node} {l r : List Node} {us vs : List Text} {u a b : Text} {needed : Bool}

theorem allTexts_middle (hl : allTexts l = .ok us) (hc : c.text = .ok u) (hr : allTexts r = .ok vs) :
    allTexts (l ++ c :: r) = .ok (us ++ u :: vs) := by
  induction l generalizing us with
  | nil =>
    cases hl
    rw [List.nil_append, allTexts, hc, hr]
    rfl
  | cons m l ih =>
    obtain ⟨v, hv, hl⟩ := Except.of_bind_ok hl
    obtain ⟨us', hus, hl⟩ := Except.of_bind_ok hl
    cases hl
    rw [List.cons_append, allTexts, hv, ih hus]
    rfl

theorem intercalate_cons (u : Text) (us : List Text) :
    List.intercalate (", " : Text) (u :: us) = u ++ behindComma us := by
  induction us generalizing u with
  | nil => simp [behindComma]
  | cons v us ih => rw [List.intercalate_cons_cons, ih, behindComma, behindComma, List.flatMap_cons]; simp

theorem intercalate_middle (us vs : List Text) (u : Text) :
    List.intercalate (", " : Text) (us ++ u :: vs) = beforeComma us ++ u ++ behindComma vs := by
  induction us with
  | nil => exact intercalate_cons u vs
  | cons v us ih =>
    have hne : us ++ u :: vs ≠ [] := by simp
    rw [List.cons_append, List.intercalate_cons_of_ne_nil hne, ih, beforeComma, beforeComma, List.flatMap_cons]
    simp

theorem HasOperand.text_eq {least : Level} {followed : Bool} (h : n.HasOperand c least followed a b)
    (hc : c.text = .ok u) : n.text = .ok (a ++ groupText (c.needsGroup least followed) u ++ b) := by
  cases h with
  | left ho hr => exact (text_binary ho).mpr ⟨_, _, hc, hr, by simp⟩
  | right ho hl => exact (text_binary ho).mpr ⟨_, _, hl, hc, by simp⟩

/-- What is printed for a tree is what is printed for a part of it, and what stands around that. -/
theorem HasPart.text_eq (h : n.HasPart c needed a b) (hc : c.text = .ok u) :
    n.text = .ok (a ++ groupText needed u ++ b) := by
  cases h with
  | operand h => exact h.text_eq hc
  | inner => exact text_parenthesized.mpr ⟨u, hc, by simp [groupText]⟩
  | argument => exact text_unary.mpr ⟨u, hc, by simp⟩
  | target hr => exact text_assignment.mpr ⟨_, _, hc, hr, by simp [groupText]⟩
  | value hl => exact text_assignment.mpr ⟨_, _, hl, hc, by simp [groupText]⟩
  | condition hq hv hw => exact (text_branches hq hc hv hw).trans (by simp)
  | consequent hq hu hw => exact (text_branches hq hu hc hw).trans (by simp [groupText])
  | alternate hq hu hv => exact (text_branches hq hu hv hc).trans (by simp [groupText])
  | fieldObject hn => exact text_field.mpr ⟨u, hc, hn, by simp⟩
  | indexObject hi => exact text_index.mpr ⟨_, _, hc, hi, by simp⟩
  | index ho => exact text_index.mpr ⟨_, _, ho, hc, by simp [groupText]⟩
  | callee hl => exact text_call.mpr ⟨_, _, hc, hl, by simp⟩
  | callArgument hf hl hr =>
    exact text_call.mpr ⟨_, _, hf, allTexts_middle hl hc hr, by simp [groupText, intercalate_middle]⟩
  | element hl hr | patternElement hl hr =>
    exact bracketed_iff.mpr ⟨_, allTexts_middle hl hc hr, by simp [groupText, intercalate_middle]⟩

/-- The text of a pair is the one that is printed. -/
theorem Puts.text_eq {p : OperandPair} (h : n.Puts p) : n.text = .ok p.text := by
  induction h with
  | own h hneeded hc =>
    have htext := h.text_eq hc
    rwa [hneeded] at htext
  | part h _ ih => rw [h.text_eq ih, OperandPair.text_within]

end Texts

end Node

end MagSyntax
