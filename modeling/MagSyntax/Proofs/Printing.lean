import MagSyntax.Proofs.Enclosing
import MagSyntax.Proofs.Spelling

/-! What the printer makes of each kind of node, given the texts of its parts. From this follows that a
tree prints to the same text with the parentheses and braces put into it that printing adds. -/

namespace MagSyntax

theorem Except.of_bind_ok {ε α β : Type} {x : Except ε α} {f : α → Except ε β} {b : β}
    (h : x >>= f = .ok b) : ∃ a, x = .ok a ∧ f a = .ok b := by
  cases x with
  | error e => cases h
  | ok a => exact ⟨a, rfl, h⟩

theorem Except.bind_ok_iff {ε α β : Type} {x : Except ε α} {f : α → Except ε β} {b : β} :
    x >>= f = .ok b ↔ ∃ a, x = .ok a ∧ f a = .ok b :=
  ⟨Except.of_bind_ok, fun ⟨_, hx, hf⟩ => by rw [hx]; exact hf⟩

theorem Except.pure_ok_iff {ε α : Type} {a b : α} : (pure a : Except ε α) = .ok b ↔ b = a :=
  ⟨fun h => by cases h; rfl, fun h => h ▸ rfl⟩

theorem Except.map_ok_iff {ε α β : Type} {x : Except ε α} {f : α → β} {b : β} :
    x.map f = .ok b ↔ ∃ a, x = .ok a ∧ b = f a := by
  cases x with
  | error e => simp [Except.map]
  | ok a => simp [Except.map, eq_comm]

namespace Print

/-- The text, in parentheses if they are needed. -/
def groupText (needed : Bool) (text : Text) : Text := if needed then parenthesize text else text

theorem needsGroup_of_level {n : Node} {l : Level} (hl : n.level = .ok l) (least : Level)
    (followed : Bool) :
    n.needsGroup least followed = (decide (l < least) || (followed && n.endsOpen)) := by
  rw [Node.needsGroup, Node.bindsAt, hl]
  congr 1
  by_cases h : l < least
  · simp [h]
  · simp [h, Nat.le_of_not_lt h]

theorem operand_ok {n : Node} {l : Level} {u : Text} (hl : n.level = .ok l) (least : Level)
    (followed : Bool) :
    operand n least followed (.ok u) = .ok (groupText (n.needsGroup least followed) u) := by
  rw [needsGroup_of_level hl, operand, hl]
  show (if (decide (l < least) || (followed && n.endsOpen)) = true then _ else _) = _
  split
  next h => rw [h]; rfl
  next h => rw [Bool.not_eq_true] at h; rw [h]; rfl

theorem of_operand {n : Node} {least : Level} {followed : Bool} {text : Except PrintError Text}
    {s : Text} (h : operand n least followed text = .ok s) :
    ∃ u l, text = .ok u ∧ n.level = .ok l ∧ s = groupText (n.needsGroup least followed) u := by
  obtain ⟨u, rfl, h'⟩ := Except.of_bind_ok h
  obtain ⟨l, hl, -⟩ := Except.of_bind_ok h'
  rw [operand_ok hl] at h
  cases h
  exact ⟨u, l, rfl, hl, rfl⟩

theorem bareCondition_ok {n : Node} {l : Level} {b : Bool} {u : Text} (hl : n.level = .ok l)
    (hb : n.dividesLeadingGroup = .ok b) :
    bareCondition n (.ok u) = .ok (groupText n.needsGroupBare u) := by
  have hn := needsGroup_of_level hl .comparison true
  have hd : n.divides = b := by rw [Node.divides, hb]
  rw [bareCondition, hl, Node.needsGroupBare, hn, hd, operand_ok hl, hn]
  show (if (decide (l < Level.comparison) || n.endsOpen) = true then _ else _) = _
  rw [Bool.true_and]
  split
  next h => rw [h]; rfl
  next h =>
    rw [Bool.not_eq_true] at h
    rw [h, hb]
    cases b <;> rfl

end Print

namespace Node

open Print

/-- The text of a branch of an `if` with a value. -/
def branchText : Node → Except PrintError Text
  | .block _ body => inlined (allLines 0 body)
  | n => n.text

theorem branchText_of_isBlock {n : Node} (h : n.isBlock = false) : n.branchText = n.text := by
  cases n <;> first | rfl | cases h

/-- A binary expression that is printed has an operator of the language and operands that are printed. -/
theorem of_text_binary {loc : Loc} {operator : Text} {left right : Node} {s : Text}
    (h : (binary loc operator left right).text = .ok s) :
    ∃ a b level, left.text = .ok a ∧ right.text = .ok b ∧ Level.ofOperator operator = .ok level := by
  rw [text, binaryText] at h
  obtain ⟨sides, ho, h⟩ := Except.of_bind_ok h
  obtain ⟨a', ha, h⟩ := Except.of_bind_ok h
  obtain ⟨b', hb, -⟩ := Except.of_bind_ok h
  obtain ⟨a, -, ha, -⟩ := of_operand ha
  obtain ⟨b, -, hb, -⟩ := of_operand hb
  obtain ⟨level, hl, -⟩ := Except.of_bind_ok ho
  exact ⟨a, b, level, ha, hb, hl⟩

/-- An operator that the language lacks is not printed. -/
example :
    let a : Node := .identifier .unknown "a"
    (binary .unknown "**" a a).text = .ok "a ** a" ∧
      (binary .unknown "&" a a).text = .error (.unknownOperator "&") := by cbv

theorem level_of_text {n : Node} {s : Text} (h : n.text = .ok s) : ∃ level, n.level = .ok level := by
  cases n with
  | binary loc operator left right =>
    obtain ⟨-, -, level, -, -, hl⟩ := of_text_binary h
    exact ⟨level, hl⟩
  | _ => exact ⟨_, rfl⟩

theorem dividesLeadingGroup_of_text {n : Node} {s : Text} (h : n.text = .ok s) :
    ∃ b, n.dividesLeadingGroup = .ok b := by
  cases n with
  | binary loc operator left right =>
    obtain ⟨a, -, level, ha, -, hl⟩ := of_text_binary h
    obtain ⟨leftLevel, hleft⟩ := level_of_text ha
    obtain ⟨b, hb⟩ := dividesLeadingGroup_of_text ha
    rw [dividesLeadingGroup, Level.operands_of_ofOperator hl, hleft]
    simp only [bind, Except.bind]
    split
    · exact ⟨_, rfl⟩
    · exact ⟨b, hb⟩
  | _ => exact ⟨_, rfl⟩

theorem operand_text {n : Node} {u : Text} (h : n.text = .ok u) (least : Level) (followed : Bool) :
    operand n least followed n.text = .ok (groupText (n.needsGroup least followed) u) := by
  obtain ⟨l, hl⟩ := level_of_text h
  rw [h, operand_ok hl]

theorem operand_iff {n : Node} {least : Level} {followed : Bool} {s : Text} :
    operand n least followed n.text = .ok s ↔
      ∃ u, n.text = .ok u ∧ s = groupText (n.needsGroup least followed) u := by
  constructor
  · intro h
    obtain ⟨u, -, hu, -, hs⟩ := of_operand h
    exact ⟨u, hu, hs⟩
  · rintro ⟨u, hu, rfl⟩
    exact operand_text hu least followed

theorem bareCondition_iff {n : Node} {s : Text} :
    bareCondition n n.text = .ok s ↔ ∃ u, n.text = .ok u ∧ s = groupText n.needsGroupBare u := by
  constructor
  · intro h
    have h' := h
    obtain ⟨l, hl, h'⟩ := Except.of_bind_ok h'
    obtain ⟨v, hv, -⟩ := Except.of_bind_ok h'
    obtain ⟨u, hu, -⟩ := operand_iff.mp hv
    obtain ⟨b, hb⟩ := dividesLeadingGroup_of_text hu
    rw [hu, bareCondition_ok hl hb] at h
    cases h
    exact ⟨u, hu, rfl⟩
  · rintro ⟨u, hu, rfl⟩
    obtain ⟨l, hl⟩ := level_of_text hu
    obtain ⟨b, hb⟩ := dividesLeadingGroup_of_text hu
    rw [hu, bareCondition_ok hl hb]

theorem text_parenthesized {loc : Loc} {e : Node} {s : Text} :
    (parenthesized loc e).text = .ok s ↔ ∃ a, e.text = .ok a ∧ s = parenthesize a := by
  rw [text, Except.map_ok_iff]

theorem text_unary {loc : Loc} {operator : Text} {argument : Node} {leading : Bool} {s : Text} :
    (unary loc operator argument leading).text = .ok s ↔ ∃ a, argument.text = .ok a ∧
      s = operator ++ groupText (argument.needsGroup .postfixChain false) a := by
  simp only [text, Except.bind_ok_iff, Except.pure_ok_iff, operand_iff]
  constructor
  · rintro ⟨-, ⟨a, ha, rfl⟩, rfl⟩
    exact ⟨a, ha, rfl⟩
  · rintro ⟨a, ha, rfl⟩
    exact ⟨_, ⟨a, ha, rfl⟩, rfl⟩

theorem text_assignment {loc : Loc} {left right : Node} {operator s : Text} :
    (assignment loc left right operator).text = .ok s ↔ ∃ a b, left.text = .ok a ∧
      right.text = .ok b ∧ s = a ++ " " ++ operator ++ " " ++ b := by
  simp only [text, Except.bind_ok_iff, Except.pure_ok_iff, exists_and_left]

theorem text_binary {loc : Loc} {operator : Text} {left right : Node} {level : Level} {s : Text}
    (h : Level.ofOperator operator = .ok level) :
    (binary loc operator left right).text = .ok s ↔ ∃ a b, left.text = .ok a ∧ right.text = .ok b ∧
      s = groupText (left.needsGroup level.sides.1 true) a ++ " " ++ operator ++ " " ++
        groupText (right.needsGroup level.sides.2 false) b := by
  simp only [text, binaryText, Level.operands_of_ofOperator h, Except.bind_ok_iff,
    Except.pure_ok_iff, operand_iff, Except.ok.injEq]
  constructor
  · rintro ⟨-, rfl, -, ⟨a, ha, rfl⟩, -, ⟨b, hb, rfl⟩, rfl⟩
    exact ⟨a, b, ha, hb, rfl⟩
  · rintro ⟨a, b, ha, hb, rfl⟩
    exact ⟨_, rfl, _, ⟨a, ha, rfl⟩, _, ⟨b, hb, rfl⟩, rfl⟩

theorem fieldName_iff {n : Node} {w : Text} :
    fieldName n = .ok w ↔ n.isIdentifier ∧ w = n.nameText := by
  cases n <;> simp [fieldName, isIdentifier, nameText, eq_comm]

theorem text_field {loc : Loc} {object name : Node} {s : Text} :
    (field loc object name).text = .ok s ↔ ∃ a, object.text = .ok a ∧ name.isIdentifier ∧
      s = groupText (object.needsGroup .postfixChain true) a ++ "." ++ name.nameText := by
  simp only [text, linked, Except.bind_ok_iff, Except.pure_ok_iff, operand_iff, fieldName_iff]
  constructor
  · rintro ⟨-, ⟨a, ha, rfl⟩, -, ⟨hn, rfl⟩, rfl⟩
    exact ⟨a, ha, hn, rfl⟩
  · rintro ⟨a, ha, hn, rfl⟩
    exact ⟨_, ⟨a, ha, rfl⟩, _, ⟨hn, rfl⟩, rfl⟩

theorem text_index {loc : Loc} {object i : Node} {s : Text} :
    (index loc object i).text = .ok s ↔ ∃ a b, object.text = .ok a ∧ i.text = .ok b ∧
      s = groupText (object.needsGroup .postfixChain true) a ++ "[" ++ b ++ "]" := by
  simp only [text, linked, Except.bind_ok_iff, Except.pure_ok_iff, operand_iff]
  constructor
  · rintro ⟨-, ⟨a, ha, rfl⟩, b, hb, rfl⟩
    exact ⟨a, b, ha, hb, rfl⟩
  · rintro ⟨a, b, ha, hb, rfl⟩
    exact ⟨_, ⟨a, ha, rfl⟩, b, hb, rfl⟩

theorem text_call {loc : Loc} {callee : Node} {arguments : List Node} {s : Text} :
    (call loc callee arguments).text = .ok s ↔ ∃ a l, callee.text = .ok a ∧
      allTexts arguments = .ok l ∧
        s = groupText (callee.needsGroup .postfixChain true) a ++ "(" ++ List.intercalate ", " l ++
          ")" := by
  simp only [text, linked, listed, Except.bind_ok_iff, Except.pure_ok_iff, operand_iff,
    Except.map_ok_iff]
  constructor
  · rintro ⟨-, ⟨a, ha, rfl⟩, -, ⟨l, hl, rfl⟩, rfl⟩
    exact ⟨a, l, ha, hl, rfl⟩
  · rintro ⟨a, l, ha, hl, rfl⟩
    exact ⟨_, ⟨a, ha, rfl⟩, _, ⟨l, hl, rfl⟩, rfl⟩

theorem bracketed_iff {texts : Except PrintError (List Text)} {s : Text} :
    bracketed texts = .ok s ↔ ∃ l, texts = .ok l ∧ s = "[" ++ List.intercalate ", " l ++ "]" := by
  simp only [bracketed, listed, Except.bind_ok_iff, Except.pure_ok_iff, Except.map_ok_iff]
  constructor
  · rintro ⟨-, ⟨l, hl, rfl⟩, rfl⟩
    exact ⟨l, hl, rfl⟩
  · rintro ⟨l, hl, rfl⟩
    exact ⟨_, ⟨l, hl, rfl⟩, rfl⟩

/-- The first branch of an `if` with a value tells what form it is printed in. -/
theorem text_conditional_eq {loc : Loc} {condition consequent alternate : Node} {explicitThen : Bool} :
    (conditional loc condition consequent alternate explicitThen).text =
      if consequent.isBlock then
        ifBlocks (bareCondition condition condition.text) consequent.branchText alternate.branchText
      else ifBranches condition explicitThen condition.text consequent.text alternate.text := by
  cases consequent with
  | block => cases alternate <;> rfl
  | _ => rfl

/-- A conditional whose first branch is a block. -/
theorem text_conditional_block {loc : Loc} {condition consequent alternate : Node}
    {explicitThen : Bool} {s : Text} (hq : consequent.isBlock) :
    (conditional loc condition consequent alternate explicitThen).text = .ok s ↔
      ∃ c u v, condition.text = .ok c ∧ consequent.branchText = .ok u ∧
        alternate.branchText = .ok v ∧
          s = "if " ++ groupText condition.needsGroupBare c ++ " " ++ u ++ " else " ++ v := by
  simp only [text_conditional_eq, if_pos hq, ifBlocks, Except.bind_ok_iff, Except.pure_ok_iff, bareCondition_iff]
  constructor
  · rintro ⟨-, ⟨c, hc, rfl⟩, v, hv, u, hu, rfl⟩
    exact ⟨c, u, v, hc, hu, hv, rfl⟩
  · rintro ⟨c, u, v, hc, hu, hv, rfl⟩
    exact ⟨_, ⟨c, hc, rfl⟩, v, hv, u, hu, rfl⟩

/-- A conditional whose branches are expressions. -/
theorem text_conditional {loc : Loc} {condition consequent alternate : Node} {explicitThen : Bool}
    {s : Text} (hq : consequent.isBlock = false) :
    (conditional loc condition consequent alternate explicitThen).text = .ok s ↔
      ∃ c u v, condition.text = .ok c ∧ consequent.text = .ok u ∧ alternate.text = .ok v ∧
        s = (if explicitThen then "if " ++ groupText condition.needsGroupBare c ++ " then "
          else "if " ++ parenthesize c ++ " ") ++ u ++ " else " ++ v := by
  rw [text_conditional_eq, hq, if_neg Bool.false_ne_true]
  cases explicitThen with
  | true =>
    simp only [ifBranches, if_true, Except.bind_ok_iff, Except.pure_ok_iff, bareCondition_iff]
    constructor
    · rintro ⟨u, hu, v, hv, -, ⟨c, hc, rfl⟩, rfl⟩
      exact ⟨c, u, v, hc, hu, hv, rfl⟩
    · rintro ⟨c, u, v, hc, hu, hv, rfl⟩
      exact ⟨u, hu, v, hv, _, ⟨c, hc, rfl⟩, rfl⟩
  | false =>
    simp only [ifBranches, Bool.false_eq_true, if_false, Except.bind_ok_iff, Except.pure_ok_iff]
    constructor
    · rintro ⟨u, hu, v, hv, c, hc, rfl⟩
      exact ⟨c, u, v, hc, hu, hv, rfl⟩
    · rintro ⟨c, u, v, hc, hu, hv, rfl⟩
      exact ⟨u, hu, v, hv, c, hc, rfl⟩

end Node

namespace Print

theorem oneLine_iff {i : Int} {text : Except PrintError Text} {ls : List Text} :
    oneLine i text = .ok ls ↔ ∃ s, text = .ok s ∧ ls = [line i s] := by
  cases text <;> simp [oneLine, eq_comm]

theorem inOrder_iff {first later : Lines} {ls : List Text} :
    inOrder first later = .ok ls ↔ ∃ a b, first = .ok a ∧ later = .ok b ∧ ls = a ++ b := by
  cases first <;> cases later <;> simp [inOrder, before, eq_comm]

theorem braced_iff {i : Int} {body : Lines} {ls : List Text} :
    braced i body = .ok ls ↔ ∃ l, body = .ok l ∧ ls = [line i "\x7b"] ++ l ++ [line i "\x7d"] := by
  cases body <;> simp [braced, eq_comm]

/-- Lines between braces, all in one. -/
def inlineText (lines : List Text) : Text :=
  if (List.intercalate (" " : Text) (lines.map Text.trim)).isEmpty then "\x7b\x7d"
  else "\x7b " ++ List.intercalate (" " : Text) (lines.map Text.trim) ++ " \x7d"

theorem inlined_iff {body : Lines} {s : Text} :
    inlined body = .ok s ↔ ∃ l, body = .ok l ∧ s = inlineText l := by
  cases body with
  | error e => simp [inlined]
  | ok l =>
    simp only [inlined, inlineText, Except.ok.injEq, exists_eq_left']
    split <;> simp [eq_comm]

theorem withElse_iff {i : Int} {alternate : Option Lines} {ifLines ls : List Text} :
    withElse i alternate ifLines = .ok ls ↔ alternate = none ∧ ls = ifLines ∨
      ∃ l, alternate = some (.ok l) ∧ joinElse i ifLines l = .ok ls := by
  cases alternate with
  | none => simp [withElse, eq_comm]
  | some a => cases a <;> simp [withElse, before]

theorem ifStatement_iff {i : Int} {consequent : Lines} {condition : Except PrintError Text}
    {alternate : Option Lines} {ls : List Text} :
    ifStatement i consequent condition alternate = .ok ls ↔
      ∃ first rest c, consequent = .ok (first :: rest) ∧ condition = .ok c ∧
        withElse i alternate
          (line i ("if " ++ parenthesize c ++ " " ++ first.trimLeft) :: rest) = .ok ls := by
  cases consequent with
  | error e => simp [ifStatement]
  | ok l =>
    cases condition with
    | error e => simp [ifStatement]
    | ok c =>
      cases l with
      | nil => simp [ifStatement, headed, bind, Except.bind]
      | cons first rest =>
        constructor
        · exact fun h => ⟨first, rest, c, rfl, rfl, h⟩
        · rintro ⟨_, _, _, h₁, h₂, h⟩
          cases h₁
          cases h₂
          exact h

theorem marked_iff {mark : Text} {o : Option (Except PrintError Text)} {s : Text} :
    marked mark o = .ok s ↔ o = none ∧ s = [] ∨ ∃ u, o = some (.ok u) ∧ s = mark ++ u := by
  cases o with
  | none => simp [marked, eq_comm]
  | some e => simp [marked, Except.map_ok_iff]

theorem declarationLine_iff {i : Int} {constant mutable : Bool} {content : Except PrintError Text}
    {ls : List Text} :
    declarationLine i constant mutable content = .ok ls ↔ (constant && mutable) = false ∧
      ∃ s, content = .ok s ∧ ls = [line i (declarationWords constant mutable ++ s)] := by
  unfold declarationLine
  split
  next h => simp [h]
  next h =>
    simp only [Bool.not_eq_true] at h
    simp only [h, true_and, oneLine_iff, Except.map_ok_iff]
    constructor
    · rintro ⟨-, ⟨s, hs, rfl⟩, rfl⟩
      exact ⟨s, hs, rfl⟩
    · rintro ⟨s, hs, rfl⟩
      exact ⟨_, ⟨s, hs, rfl⟩, rfl⟩

end Print

namespace Node

open Print

theorem lines_expressionStatement {loc : Loc} {e : Node} {i : Int} {ls : List Text} :
    (expressionStatement loc e).lines i = .ok ls ↔
      ∃ s, e.text = .ok s ∧ ls = [line i (statementText e s)] := by
  simp only [lines, oneLine_iff, Except.map_ok_iff]
  constructor
  · rintro ⟨-, ⟨s, hs, rfl⟩, rfl⟩
    exact ⟨s, hs, rfl⟩
  · rintro ⟨s, hs, rfl⟩
    exact ⟨_, ⟨s, hs, rfl⟩, rfl⟩

theorem allLines_cons {n : Node} {rest : List Node} {i : Int} {ls : List Text} :
    allLines i (n :: rest) = .ok ls ↔
      ∃ a b, n.lines i = .ok a ∧ allLines i rest = .ok b ∧ ls = a ++ b := by
  rw [allLines, inOrder_iff]

theorem lines_block {loc : Loc} {body : List Node} {i : Int} {ls : List Text} :
    (block loc body).lines i = .ok ls ↔ body = [] ∧ ls = [line i "\x7b\x7d"] ∨
      body ≠ [] ∧ ∃ l, allLines (i + 1) body = .ok l ∧
        ls = [line i "\x7b"] ++ l ++ [line i "\x7d"] := by
  cases body with
  | nil => simp [lines, eq_comm]
  | cons n rest => simp [lines, braced_iff]

theorem lines_conditionalStatement {loc : Loc} {condition consequent : Node}
    {alternate : Option Node} {i : Int} {ls : List Text} :
    (conditionalStatement loc condition consequent alternate).lines i = .ok ls ↔
      ∃ first rest c,
        (if alternate.isSome && consequent.dangles then braced i (consequent.lines (i + 1))
          else consequent.lines i) = .ok (first :: rest) ∧
        condition.text = .ok c ∧
        withElse i (lines? i alternate)
          (line i ("if " ++ parenthesize c ++ " " ++ first.trimLeft) :: rest) = .ok ls := by
  rw [lines, ifStatement_iff]
  cases alternate.isSome && consequent.dangles <;> rfl

theorem lines_declaration {loc : Loc} {left : Node} {type right : Option Node}
    {constant mutable : Bool} {i : Int} {ls : List Text} :
    (declaration loc left type right constant mutable).lines i = .ok ls ↔
      (constant && mutable) = false ∧ ∃ a b d, left.text = .ok a ∧
        marked ": " (typeText? right.isSome type) = .ok b ∧ marked " = " (text? right) = .ok d ∧
          ls = [line i (Print.declarationWords constant mutable ++ (a ++ b ++ d ++ ";"))] := by
  rw [lines, declarationLine_iff]
  simp only [declared, Except.bind_ok_iff, Except.pure_ok_iff]
  refine and_congr_right fun _ => ⟨?_, ?_⟩
  · rintro ⟨-, ⟨a, ha, b, hb, d, hd, rfl⟩, rfl⟩
    exact ⟨a, b, d, ha, hb, hd, rfl⟩
  · rintro ⟨a, b, d, ha, hb, hd, rfl⟩
    exact ⟨_, ⟨a, ha, b, hb, d, hd, rfl⟩, rfl⟩

theorem sides_le_primary {operator : Text} {level : Level} (h : Level.ofOperator operator = .ok level) :
    level.sides.1 ≤ Level.primary ∧ level.sides.2 ≤ Level.primary := by
  obtain ⟨s, rfl, -⟩ := Level.symbol_of_ofOperator h
  cases s <;> cases h <;> decide

theorem divides_binary {loc : Loc} {operator : Text} {left right : Node} {level leftLevel : Level}
    (ho : Level.ofOperator operator = .ok level) (hl : left.level = .ok leftLevel) :
    (binary loc operator left right).divides =
      if left.isParenthesized || left.needsGroup level.sides.1 true then
        decide (operator = Symbol.div.spelling)
      else left.divides := by
  rw [divides, dividesLeadingGroup, Level.operands_of_ofOperator ho, hl, needsGroup_of_level hl,
    Bool.true_and, ← Bool.or_assoc]
  simp only [bind, Except.bind]
  cases left.isParenthesized || decide (leftLevel < level.sides.1) || left.endsOpen <;> rfl

theorem enclosed_binary {loc : Loc} {operator : Text} {left right : Node} {level : Level}
    (h : Level.ofOperator operator = .ok level) :
    (binary loc operator left right).enclosed =
      binary loc operator (grouped (left.needsGroup level.sides.1 true) left.enclosed)
        (grouped (right.needsGroup level.sides.2 false) right.enclosed) := by
  rw [enclosed, Level.operands_of_ofOperator h]

/-- Printing adds no group in front of a sign of division that it does not see before. -/
theorem divides_enclosed {n : Node} {s : Text} (h : n.text = .ok s) :
    n.enclosed.divides = n.divides := by
  cases n with
  | binary loc operator left right =>
    obtain ⟨a, b, level, ha, -, ho⟩ := of_text_binary h
    obtain ⟨leftLevel, hl⟩ := level_of_text ha
    have ih := divides_enclosed ha
    have hn := needsGroup_grouped left _ true (sides_le_primary ho).1
    rw [enclosed_binary ho, divides_binary ho hl]
    cases hg : left.needsGroup level.sides.1 true with
    | true =>
      rw [grouped_true, divides_binary ho rfl, Bool.or_true]
      rfl
    | false =>
      rw [hg, grouped_false] at hn
      rw [grouped_false, divides_binary ho (level_enclosed left ▸ hl), isParenthesized_enclosed, hn, ih]
  | _ => rfl

theorem needsGroupBare_grouped {n : Node} {s : Text} (h : n.text = .ok s) :
    (grouped n.needsGroupBare n.enclosed).needsGroupBare = false := by
  cases hb : n.needsGroupBare with
  | true => rfl
  | false =>
    simp only [needsGroupBare, Bool.or_eq_false_iff] at hb
    have hn := needsGroup_grouped n .comparison true (by decide)
    rw [hb.1, grouped_false] at hn
    rw [grouped_false, needsGroupBare, hn, divides_enclosed h, hb.2]
    rfl

theorem text_grouped {needed : Bool} {n : Node} {u : Text} (h : n.text = .ok u) :
    (grouped needed n).text = .ok (groupText needed u) := by
  cases needed with
  | true => exact text_parenthesized.mpr ⟨u, h, rfl⟩
  | false => exact h

theorem statementText_grouped (e : Node) (s : Text) :
    statementText (grouped (e.isAssignment || e.startsWithIf) e.enclosed)
      (groupText (e.isAssignment || e.startsWithIf) s) = statementText e s := by
  cases h : e.isAssignment || e.startsWithIf with
  | true =>
    rw [statementText, statementText, h]
    rfl
  | false =>
    rw [Bool.or_eq_false_iff] at h
    have hif : e.enclosed.startsWithIf = false :=
      Bool.eq_false_iff.mpr fun hif => absurd (startsWithIf_of_enclosed e hif) (by simp [h.2])
    rw [statementText, statementText, grouped_false, isAssignment_enclosed, hif, h.1, h.2]
    rfl

theorem lines_singleton {n : Node} {loc : Loc} {i : Int} :
    (block loc [n]).lines i = braced i (n.lines (i + 1)) := by
  rw [lines, allLines, allLines]
  cases n.lines (i + 1) <;> simp [inOrder, before]

mutual

/-- A tree prints to the same text with what printing adds put into it. -/
theorem text_enclosed (n : Node) {s : Text} (h : n.text = .ok s) : n.enclosed.text = .ok s := by
  cases n with
  | parenthesized loc e =>
    obtain ⟨a, ha, rfl⟩ := text_parenthesized.mp h
    exact text_parenthesized.mpr ⟨a, text_enclosed e ha, rfl⟩
  | array loc elements | arrayPattern loc elements =>
    obtain ⟨l, hl, rfl⟩ := bracketed_iff.mp h
    exact bracketed_iff.mpr ⟨l, allTexts_enclosed elements hl, rfl⟩
  | field loc object name =>
    obtain ⟨a, ha, hn, rfl⟩ := text_field.mp h
    exact text_field.mpr ⟨_, text_grouped (text_enclosed object ha), hn,
      by rw [needsGroup_grouped _ _ _ (by decide)]; rfl⟩
  | index loc object i =>
    obtain ⟨a, b, ha, hb, rfl⟩ := text_index.mp h
    exact text_index.mpr ⟨_, b, text_grouped (text_enclosed object ha), text_enclosed i hb,
      by rw [needsGroup_grouped _ _ _ (by decide)]; rfl⟩
  | call loc callee arguments =>
    obtain ⟨a, l, ha, hl, rfl⟩ := text_call.mp h
    exact text_call.mpr ⟨_, l, text_grouped (text_enclosed callee ha),
      allTexts_enclosed arguments hl, by rw [needsGroup_grouped _ _ _ (by decide)]; rfl⟩
  | unary loc operator argument leading =>
    obtain ⟨a, ha, rfl⟩ := text_unary.mp h
    exact text_unary.mpr ⟨_, text_grouped (text_enclosed argument ha),
      by rw [needsGroup_grouped _ _ _ (by decide)]; rfl⟩
  | binary loc operator left right =>
    obtain ⟨-, -, level, -, -, ho⟩ := of_text_binary h
    obtain ⟨a, b, ha, hb, rfl⟩ := (text_binary ho).mp h
    rw [enclosed_binary ho]
    refine (text_binary ho).mpr ⟨_, _, text_grouped (text_enclosed left ha),
      text_grouped (text_enclosed right hb), ?_⟩
    rw [needsGroup_grouped _ _ _ (sides_le_primary ho).1,
      needsGroup_grouped _ _ _ (sides_le_primary ho).2]
    rfl
  | assignment loc left right operator =>
    obtain ⟨a, b, ha, hb, rfl⟩ := text_assignment.mp h
    exact text_assignment.mpr ⟨a, b, text_enclosed left ha, text_enclosed right hb, rfl⟩
  | conditional loc condition consequent alternate explicitThen =>
    cases hq : consequent.isBlock with
    | true =>
      obtain ⟨c, u, v, hc, hu, hv, rfl⟩ := (text_conditional_block hq).mp h
      rw [enclosed, hq, Bool.or_true, Bool.true_and]
      refine (text_conditional_block ((isBlock_enclosed _).trans hq)).mpr
        ⟨_, u, v, text_grouped (text_enclosed condition hc), branchText_enclosed consequent hu,
          branchText_enclosed alternate hv, ?_⟩
      rw [needsGroupBare_grouped hc]
      rfl
    | false =>
      obtain ⟨c, u, v, hc, hu, hv, rfl⟩ := (text_conditional hq).mp h
      rw [enclosed, hq, Bool.or_false]
      cases explicitThen with
      | true =>
        refine (text_conditional ((isBlock_enclosed _).trans hq)).mpr
          ⟨_, u, v, text_grouped (text_enclosed condition hc), text_enclosed consequent hu,
            text_enclosed alternate hv, ?_⟩
        rw [Bool.true_and, needsGroupBare_grouped hc]
        rfl
      | false =>
        exact (text_conditional ((isBlock_enclosed _).trans hq)).mpr
          ⟨c, u, v, text_enclosed condition hc, text_enclosed consequent hu,
            text_enclosed alternate hv, rfl⟩
  | _ => exact h
termination_by (sizeOf n, 0)
decreasing_by all_goals subst_eqs; apply Prod.Lex.left; simp <;> omega

theorem branchText_enclosed (n : Node) {s : Text} (h : n.branchText = .ok s) :
    n.enclosed.branchText = .ok s := by
  cases hb : n.isBlock with
  | false =>
    rw [branchText_of_isBlock hb] at h
    rw [branchText_of_isBlock ((isBlock_enclosed n).trans hb)]
    exact text_enclosed n h
  | true =>
    cases n with
    | block loc body =>
      obtain ⟨l, hl, rfl⟩ := inlined_iff.mp h
      exact inlined_iff.mpr ⟨l, allLines_enclosed body hl, rfl⟩
    | _ => cases hb
termination_by (sizeOf n, 1)
decreasing_by
  · exact Prod.Lex.right _ (by decide)
  · subst_eqs
    exact Prod.Lex.left _ _ (by simp only [block.sizeOf_spec]; omega)

theorem allTexts_enclosed (l : List Node) {ts : List Text} (h : allTexts l = .ok ts) :
    allTexts (allEnclosed l) = .ok ts := by
  cases l with
  | nil => exact h
  | cons n rest =>
    simp only [allTexts, allEnclosed, Except.bind_ok_iff, Except.pure_ok_iff] at h ⊢
    obtain ⟨a, ha, b, hb, rfl⟩ := h
    exact ⟨a, text_enclosed n ha, b, allTexts_enclosed rest hb, rfl⟩
termination_by (sizeOf l, 0)
decreasing_by all_goals subst_eqs; apply Prod.Lex.left; simp <;> omega

theorem lines_enclosed (n : Node) {i : Int} {ls : List Text} (h : n.lines i = .ok ls) :
    n.enclosed.lines i = .ok ls := by
  cases n with
  | program loc body => exact allLines_enclosed body h
  | block loc body =>
    refine lines_block.mpr ((lines_block.mp h).imp ?_ ?_)
    · rintro ⟨rfl, rfl⟩
      exact ⟨rfl, rfl⟩
    · rintro ⟨hne, l, hl, rfl⟩
      refine ⟨?_, l, allLines_enclosed body hl, rfl⟩
      cases body with
      | nil => exact absurd rfl hne
      | cons => simp [allEnclosed]
  | expressionStatement loc e =>
    obtain ⟨s, hs, rfl⟩ := lines_expressionStatement.mp h
    exact lines_expressionStatement.mpr ⟨_, text_grouped (text_enclosed e hs),
      by rw [statementText_grouped]⟩
  | conditionalStatement loc condition consequent alternate =>
    obtain ⟨first, rest, c, hq, hc, ha⟩ := lines_conditionalStatement.mp h
    refine lines_conditionalStatement.mpr ⟨first, rest, c, ?_, text_enclosed condition hc, ?_⟩
    · have hsome : (enclosed? alternate).isSome = alternate.isSome := by cases alternate <;> rfl
      rw [hsome]
      cases hd : alternate.isSome && consequent.dangles with
      | true =>
        rw [hd, if_pos rfl, braced_iff] at hq
        obtain ⟨l, hl, hq⟩ := hq
        rw [if_pos rfl, if_neg (by simp [dangles]), lines_singleton, braced_iff]
        exact ⟨l, lines_enclosed consequent hl, hq⟩
      | false =>
        simp only [hd, Bool.false_eq_true, if_false] at hq
        simp only [Bool.false_eq_true, if_false, dangles_enclosed, hd]
        exact lines_enclosed consequent hq
    · cases alternate with
      | none => exact ha
      | some alternate =>
        obtain ⟨h', -⟩ | ⟨l, hl, hj⟩ := withElse_iff.mp ha
        · cases h'
        · exact withElse_iff.mpr (.inr ⟨l, congrArg some (lines_enclosed alternate (Option.some.inj hl)), hj⟩)
  | declaration loc left type right constant mutable =>
    obtain ⟨hcm, a, b, d, ha, hb, hd, rfl⟩ := lines_declaration.mp h
    refine lines_declaration.mpr ⟨hcm, a, b, d, text_enclosed left ha, ?_, ?_, rfl⟩
    · have hsome : (enclosed? right).isSome = right.isSome := by cases right <;> rfl
      rw [hsome]
      cases type with
      | none => exact hb
      | some type =>
        obtain ⟨h', -⟩ | ⟨u, hu, rfl⟩ := marked_iff.mp hb
        · cases h'
        · obtain ⟨v, hv, rfl⟩ := operand_iff.mp (Option.some.inj hu)
          refine marked_iff.mpr (.inr ⟨_, congrArg some (operand_iff.mpr
            ⟨_, text_grouped (text_enclosed type hv), ?_⟩), rfl⟩)
          rw [needsGroup_grouped _ _ _ (by decide)]
          rfl
    · cases right with
      | none => exact hd
      | some right =>
        obtain ⟨h', -⟩ | ⟨u, hu, rfl⟩ := marked_iff.mp hd
        · cases h'
        · exact marked_iff.mpr (.inr
            ⟨u, congrArg some (text_enclosed right (Option.some.inj hu)), rfl⟩)
  | _ => cases h
termination_by (sizeOf n, 0)
decreasing_by all_goals subst_eqs; apply Prod.Lex.left; simp <;> omega

theorem allLines_enclosed (l : List Node) {i : Int} {ls : List Text} (h : allLines i l = .ok ls) :
    allLines i (allEnclosed l) = .ok ls := by
  cases l with
  | nil => exact h
  | cons n rest =>
    obtain ⟨a, b, ha, hb, rfl⟩ := allLines_cons.mp h
    exact allLines_cons.mpr ⟨a, b, lines_enclosed n ha, allLines_enclosed rest hb, rfl⟩
termination_by (sizeOf l, 0)
decreasing_by all_goals subst_eqs; apply Prod.Lex.left; simp <;> omega

end

end Node

end MagSyntax
