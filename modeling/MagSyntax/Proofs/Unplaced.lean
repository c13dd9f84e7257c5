import MagSyntax.Node.Equality
import MagSyntax.Proofs.Printing
import MagSyntax.Proofs.Sheets

/-! Trees that differ in their places alone are printed alike: nothing that the printer looks at depends on
where a node stands in the source it was read from. -/

namespace MagSyntax

open Print

namespace Node

@[simp] theorem level_unplaced (n : Node) : n.unplaced.level = n.level := by
  cases n <;> rfl

@[simp] theorem isBlock_unplaced (n : Node) : n.unplaced.isBlock = n.isBlock := by
  cases n <;> rfl

@[simp] theorem isParenthesized_unplaced (n : Node) : n.unplaced.isParenthesized = n.isParenthesized := by
  cases n <;> rfl

@[simp] theorem isAssignment_unplaced (n : Node) : n.unplaced.isAssignment = n.isAssignment := by
  cases n <;> rfl

@[simp] theorem endsOpen_unplaced (n : Node) : n.unplaced.endsOpen = n.endsOpen := by
  cases n with
  | conditional loc condition consequent alternate =>
    simp [unplaced, endsOpen, endsOpen_unplaced alternate]
  | assignment loc left right => exact endsOpen_unplaced right
  | binary loc operator left right => exact endsOpen_unplaced right
  | unary loc operator argument => exact endsOpen_unplaced argument
  | _ => rfl

theorem bindsAt_unplaced (n : Node) (least : Level) : n.unplaced.bindsAt least = n.bindsAt least := by
  rw [bindsAt, level_unplaced, bindsAt]

theorem standsBefore_unplaced (n : Node) (least : Level) : n.unplaced.standsBefore least = n.standsBefore least := by
  rw [standsBefore, bindsAt_unplaced, endsOpen_unplaced, standsBefore]

@[simp] theorem startsWithIf_unplaced (n : Node) : n.unplaced.startsWithIf = n.startsWithIf := by
  cases n with
  | binary loc operator left => exact startsWithIf_unplaced left
  | assignment loc left => exact startsWithIf_unplaced left
  | field loc object => exact startsWithIf_unplaced object
  | index loc object => exact startsWithIf_unplaced object
  | call loc callee => exact startsWithIf_unplaced callee
  | _ => rfl

@[simp] theorem dangles_unplaced (n : Node) : n.unplaced.dangles = n.dangles := by
  cases n with
  | conditionalStatement loc condition consequent alternate =>
    cases alternate with
    | none => rfl
    | some alternate => exact dangles_unplaced alternate
  | _ => rfl

@[simp] theorem dividesLeadingGroup_unplaced (n : Node) :
    n.unplaced.dividesLeadingGroup = n.dividesLeadingGroup := by
  cases n with
  | binary loc operator left =>
    simp only [unplaced, dividesLeadingGroup, level_unplaced, isParenthesized_unplaced,
      endsOpen_unplaced, dividesLeadingGroup_unplaced left]
  | _ => rfl

@[simp] theorem isSome_unplaced? (n : Option Node) : (unplaced? n).isSome = n.isSome := by
  cases n <;> rfl

theorem operand_unplaced (n : Node) (least : Level) (followed : Bool) (text : Except PrintError Text) :
    operand n.unplaced least followed text = operand n least followed text := by
  simp only [operand, level_unplaced, endsOpen_unplaced]

theorem bareCondition_unplaced (n : Node) (text : Except PrintError Text) :
    bareCondition n.unplaced text = bareCondition n text := by
  simp only [bareCondition, level_unplaced, endsOpen_unplaced, operand_unplaced,
    dividesLeadingGroup_unplaced]

theorem fieldName_unplaced (n : Node) : fieldName n.unplaced = fieldName n := by
  cases n <;> rfl

theorem statementText_unplaced (n : Node) : statementText n.unplaced = statementText n := by
  funext text
  simp only [statementText, isAssignment_unplaced, startsWithIf_unplaced]

mutual

/-- What is printed for an expression does not depend on its places. -/
theorem text_unplaced (n : Node) : n.unplaced.text = n.text := by
  cases n with
  | parenthesized loc e => simp only [unplaced, text, text_unplaced e]
  | array loc elements => simp only [unplaced, text, allTexts_unplaced elements]
  | arrayPattern loc elements => simp only [unplaced, text, allTexts_unplaced elements]
  | field loc object name =>
    simp only [unplaced, text, linked, operand_unplaced, fieldName_unplaced, text_unplaced object]
  | index loc object i =>
    simp only [unplaced, text, linked, operand_unplaced, text_unplaced object, text_unplaced i]
  | call loc callee arguments =>
    simp only [unplaced, text, linked, operand_unplaced, text_unplaced callee,
      allTexts_unplaced arguments]
  | unary loc operator argument =>
    simp only [unplaced, text, operand_unplaced, text_unplaced argument]
  | binary loc operator left right =>
    simp only [unplaced, text, binaryText, operand_unplaced, text_unplaced left, text_unplaced right]
  | assignment loc left right => simp only [unplaced, text, text_unplaced left, text_unplaced right]
  | conditional loc condition consequent alternate explicitThen =>
    simp only [unplaced, text_conditional_eq, isBlock_unplaced, ifBranches, bareCondition_unplaced,
      text_unplaced condition, text_unplaced consequent, text_unplaced alternate,
      branchText_unplaced consequent, branchText_unplaced alternate]
  | _ => rfl

theorem branchText_unplaced (n : Node) : n.unplaced.branchText = n.branchText := by
  cases n with
  | block loc body => simp only [unplaced, branchText, allLines_unplaced body]
  | _ => exact text_unplaced _

theorem allTexts_unplaced (l : List Node) : allTexts (allUnplaced l) = allTexts l := by
  cases l with
  | nil => rfl
  | cons n rest => simp only [allUnplaced, allTexts, text_unplaced n, allTexts_unplaced rest]

theorem text?_unplaced (n : Option Node) : text? (unplaced? n) = text? n := by
  cases n with
  | none => rfl
  | some n => simp only [unplaced?, text?, text_unplaced n]

theorem typeText?_unplaced (followed : Bool) (n : Option Node) :
    typeText? followed (unplaced? n) = typeText? followed n := by
  cases n with
  | none => rfl
  | some n => simp only [unplaced?, typeText?, operand_unplaced, text_unplaced n]

/-- The lines of a statement do not depend on its places. -/
theorem lines_unplaced (n : Node) (i : Int) : n.unplaced.lines i = n.lines i := by
  cases n with
  | program loc body => exact allLines_unplaced body i
  | block loc body =>
    cases body with
    | nil => rfl
    | cons n rest => exact congrArg (braced i) (allLines_unplaced (n :: rest) (i + 1))
  | expressionStatement loc e =>
    simp only [unplaced, lines, statementText_unplaced, text_unplaced e]
  | conditionalStatement loc condition consequent alternate =>
    simp only [unplaced, lines, isSome_unplaced?, dangles_unplaced, text_unplaced condition,
      lines_unplaced consequent, lines?_unplaced alternate]
  | declaration loc left type right =>
    simp only [unplaced, lines, isSome_unplaced?, text_unplaced left, typeText?_unplaced _ type,
      text?_unplaced right]
  | _ => rfl

theorem allLines_unplaced (l : List Node) (i : Int) : allLines i (allUnplaced l) = allLines i l := by
  cases l with
  | nil => rfl
  | cons n rest => simp only [allUnplaced, allLines, lines_unplaced n, allLines_unplaced rest]

theorem lines?_unplaced (n : Option Node) (i : Int) : lines? i (unplaced? n) = lines? i n := by
  cases n with
  | none => rfl
  | some n => simp only [unplaced?, lines?, lines_unplaced n]

end

theorem treeLines_unplaced (n : Node) (i : Int) : n.unplaced.treeLines i = n.treeLines i := by
  have htext := congrArg (oneLine i) (text_unplaced n)
  cases n with
  | program loc body => exact allLines_unplaced body i
  | _ => exact htext

theorem addTree_unplaced (s : Sheet) (n : Node) : s.addTree n.unplaced = s.addTree n := by
  rw [Sheet.addTree_eq, treeLines_unplaced, Sheet.addTree_eq]

theorem source_unplaced (n : Node) : n.unplaced.source = n.source := by
  rw [source, addTree_unplaced, source]

/-- Trees that are alike are printed alike. -/
theorem text_eq_of_alike {n m : Node} (h : n.alike m) : n.text = m.text := by
  rw [← text_unplaced n, (alike_iff n m).mp h, text_unplaced]

theorem source_eq_of_alike {n m : Node} (h : n.alike m) : n.source = m.source := by
  rw [← source_unplaced n, (alike_iff n m).mp h, source_unplaced]

end Node

end MagSyntax
