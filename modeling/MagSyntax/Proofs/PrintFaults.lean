import MagSyntax.Proofs.Printing
import MagSyntax.Proofs.Sheets
import MagSyntax.Proofs.Spans

/-! When printing fails. A node is at fault by itself: a declaration that is constant and mutable, a numeral in a base
that no source can write, or an operator that the language lacks. A tree whose statements and expressions stand where
they belong is printed exactly if none of its nodes is at fault, however deep they are, and if printing fails it names
the fault of one of them. -/

namespace MagSyntax

open Print

namespace Node

/-- The binary operators of the language. -/
def operatorTexts : List Text :=
  ["==", "!=", "===", "!==", "<", "<=", ">", ">=", "+", "-", "*", "/", "%", "**"]

/-- The fault of the node itself, if it has one. -/
def fault? : Node → Option PrintError
  | .declaration _ _ _ _ constant mutable => if constant && mutable then some .mutableConstant else none
  | .numeric _ _ base => if base ∈ ([2, 8, 10, 16] : List Int) then none else some (.unsupportedBase base)
  | .binary _ operator _ _ => if operator ∈ operatorTexts then none else some (.unknownOperator operator)
  | _ => none

/-- The second node is in the tree of the first, at any depth. -/
inductive Contains : Node → Node → Prop
  | refl (n : Node) : Contains n n
  | part {n part m : Node} : part ∈ n.parts → Contains part m → Contains n m

/-- A node of the tree has the fault. -/
def Faults (n : Node) (e : PrintError) : Prop := ∃ m, n.Contains m ∧ m.fault? = some e

theorem faults_iff {n : Node} {e : PrintError} : n.Faults e ↔ n.fault? = some e ∨ ∃ m ∈ n.parts, m.Faults e := by
  constructor
  · rintro ⟨m, hm, he⟩
    cases hm with
    | refl => exact .inl he
    | part hp hm => exact .inr ⟨_, hp, m, hm, he⟩
  · rintro (he | ⟨part, hp, m, hm, he⟩)
    · exact ⟨n, .refl n, he⟩
    · exact ⟨m, .part hp hm, he⟩

mutual

/-- The tree is an expression, made of expressions and, in an `if` with blocks, of statements. Operators, bases and
the words in it can be any. -/
def SortedExpression : Node → Prop
  | .identifier .. | .numeric .. | .string .. | .boolean .. | .regex .. => True
  | .parenthesized _ e | .unary _ _ e _ => e.SortedExpression
  | .array _ elements | .arrayPattern _ elements => SortedExpressions elements
  | .field _ object name => object.SortedExpression ∧ name.isIdentifier
  | .index _ object i => object.SortedExpression ∧ i.SortedExpression
  | .call _ callee arguments => callee.SortedExpression ∧ SortedExpressions arguments
  | .binary _ _ left right | .assignment _ left right _ => left.SortedExpression ∧ right.SortedExpression
  | .conditional _ condition consequent alternate _ =>
    condition.SortedExpression ∧
      (consequent.SortedExpression ∧ alternate.SortedExpression ∨
        consequent.isBlock ∧ consequent.SortedStatement ∧
          (alternate.SortedExpression ∨ alternate.isBlock ∧ alternate.SortedStatement))
  | _ => False

/-- The trees are expressions. -/
def SortedExpressions : List Node → Prop
  | [] => True
  | n :: rest => n.SortedExpression ∧ SortedExpressions rest

/-- The tree is a statement, made of statements and expressions. -/
def SortedStatement : Node → Prop
  | .block _ body => SortedStatements body
  | .expressionStatement _ e => e.SortedExpression
  | .conditionalStatement _ condition consequent alternate =>
    condition.SortedExpression ∧ consequent.SortedStatement ∧ NoneOrSortedStatement alternate
  | .declaration _ left type right _ _ =>
    left.SortedExpression ∧ NoneOrSortedExpression type ∧ NoneOrSortedExpression right
  | _ => False

/-- The trees are statements. -/
def SortedStatements : List Node → Prop
  | [] => True
  | n :: rest => n.SortedStatement ∧ SortedStatements rest

/-- The tree, if it is there, is a statement. -/
def NoneOrSortedStatement : Option Node → Prop
  | none => True
  | some n => n.SortedStatement

/-- The tree, if it is there, is an expression. -/
def NoneOrSortedExpression : Option Node → Prop
  | none => True
  | some n => n.SortedExpression

end

theorem SortedExpression.isBlock {n : Node} (h : n.SortedExpression) : n.isBlock = false := by
  cases n <;> first | rfl | cases h

end Node

namespace Print

/-- The result says which faults there are: it is one of them, or there is none. -/
def Reports {ε α : Type} (faults : ε → Prop) : Except ε α → Prop
  | .ok _ => ∀ e, ¬ faults e
  | .error e => faults e

section Reports

variable {ε α β : Type} {F G : ε → Prop} {x : Except ε α}

theorem reports_ok {a : α} (h : ∀ e, ¬ F e) : Reports F (.ok a : Except ε α) := h

theorem Reports.congr (h : Reports F x) (hFG : ∀ e, F e ↔ G e) : Reports G x := by
  cases x with
  | ok a => exact fun e he => h e ((hFG e).mpr he)
  | error e => exact (hFG e).mp h

theorem Reports.bind {f : α → Except ε β} (hx : Reports F x) (hf : ∀ a, Reports G (f a)) :
    Reports (fun e => F e ∨ G e) (x >>= f) := by
  cases x with
  | error e => exact .inl hx
  | ok a =>
    show Reports _ (f a)
    exact (hf a).congr fun e => ⟨.inr, fun h => h.resolve_left (hx e)⟩

theorem Reports.map {f : α → β} (h : Reports F x) : Reports F (x.map f) := by
  cases x <;> exact h

/-- With what is put behind it a result that goes through says the same. -/
theorem Reports.finish {f : α → Except ε β} (hx : Reports F x) (hf : ∀ a, ∃ b, f a = .ok b) :
    Reports F (x >>= f) := by
  cases x with
  | error e => exact hx
  | ok a =>
    obtain ⟨b, hb⟩ := hf a
    show Reports _ (f a)
    rw [hb]
    exact hx

end Reports

section Lines

variable {F G H : PrintError → Prop} {i : Int} {a b : Lines} {text : Except PrintError Text}

/-- The lines say which faults there are. -/
def Lines.Reports (faults : PrintError → Prop) (l : Lines) : Prop :=
  Print.Reports (fun broken : Broken => faults broken.error) l

theorem Lines.Reports.congr (h : a.Reports F) (hFG : ∀ e, F e ↔ G e) : a.Reports G :=
  Print.Reports.congr h fun broken => hFG broken.error

theorem reports_oneLine (h : Print.Reports F text) : (oneLine i text).Reports F := by
  cases text with
  | error e => exact h
  | ok text => exact fun broken => h broken.error

/-- Both flags are noticed before anything else of a declaration. -/
theorem reports_declarationLine (constant mutable : Bool) (h : Print.Reports F text) :
    (declarationLine i constant mutable text).Reports fun e =>
      (constant && mutable) ∧ e = .mutableConstant ∨ F e := by
  rw [declarationLine]
  cases hflags : constant && mutable with
  | true => exact .inl ⟨rfl, rfl⟩
  | false => exact (reports_oneLine h.map).congr fun e => by simp

theorem reports_inOrder (ha : a.Reports F) (hb : b.Reports G) :
    (inOrder a b).Reports fun e => F e ∨ G e := by
  cases a with
  | error broken => exact .inl ha
  | ok lines =>
    cases b with
    | error broken => exact .inr hb
    | ok later => exact fun broken => not_or_intro (ha broken) (hb broken)

theorem reports_braced (h : a.Reports F) : (braced i a).Reports F := by
  cases a <;> exact h

theorem reports_bracedIf (dangling : Bool) (h : a.Reports F) : (bracedIf dangling i a).Reports F := by
  cases dangling with
  | false => exact h
  | true => exact reports_braced h

theorem reports_inlined (h : a.Reports F) : Print.Reports F (inlined a) := by
  cases a with
  | error broken => exact h
  | ok lines =>
    have hnone (e : PrintError) : ¬ F e := h ⟨e, [], 0⟩
    simp only [inlined]
    split <;> exact reports_ok hnone

/-- An `else` needs a line of its branch to stand in. -/
theorem reports_withElse {alternate : Option Lines} (hb : ∀ b ∈ alternate, b.Reports H ∧ b.IsFull)
    (ifLines : List Text) : (withElse i alternate ifLines).Reports fun e => alternate.isSome ∧ H e := by
  cases alternate with
  | none => exact reports_ok fun broken => by simp
  | some b =>
    obtain ⟨hb, hfull⟩ := hb b rfl
    cases b with
    | error broken => exact ⟨rfl, hb⟩
    | ok lines =>
      cases lines with
      | nil => exact absurd rfl (hfull [] rfl)
      | cons first rest =>
        simp only [withElse, joinElse]
        split <;> exact reports_ok fun broken h => hb broken h.2

/-- The head of an `if` needs a line of its branch to stand in. -/
theorem reports_ifStatement {alternate : Option Lines} (ha : a.Reports F) (hfull : a.IsFull)
    (ht : Print.Reports G text) (hb : ∀ b ∈ alternate, b.Reports H ∧ b.IsFull) :
    (ifStatement i a text alternate).Reports fun e => F e ∨ G e ∨ alternate.isSome ∧ H e := by
  cases a with
  | error broken => exact .inl ha
  | ok lines =>
    cases text with
    | error e => exact .inr (.inl ht)
    | ok text =>
      cases lines with
      | nil => exact absurd rfl (hfull [] rfl)
      | cons first rest =>
        show (withElse i alternate _).Reports _
        exact (reports_withElse hb _).congr fun e =>
          ⟨fun h => .inr (.inr h), fun h => (h.resolve_left (ha ⟨e, [], 0⟩)).resolve_left (ht e)⟩

end Lines

end Print

/-- A node without a fault of its own has the faults of its parts. -/
theorem Print.Reports.ofParts {α : Type} {F : PrintError → Prop} {x : Except PrintError α} {n : Node}
    (h : Print.Reports F x) (hn : n.fault? = none) (hF : ∀ e, F e ↔ ∃ m ∈ n.parts, m.Faults e) :
    Print.Reports n.Faults x :=
  h.congr fun e => by rw [hF, Node.faults_iff, hn]; simp

namespace Node

/-- The level of a binary expression depends on its operator alone, which its text names too. -/
theorem level_of_text_error {n : Node} {e : PrintError} (h : n.level = .error e) : n.text = .error e := by
  cases n with
  | binary loc operator left right =>
    rw [level] at h
    rw [text, binaryText, Level.operands, h]
    rfl
  | _ => cases h

/-- An operand is printed, in parentheses or not, exactly if its expression is, and fails alike. -/
theorem operand_error {n : Node} {e : PrintError} (h : n.text = .error e) (least : Level) (followed : Bool) :
    operand n least followed n.text = .error e := by
  rw [h]
  rfl

theorem bareCondition_error {n : Node} {e : PrintError} (h : n.text = .error e) :
    bareCondition n n.text = .error e := by
  cases hl : n.level with
  | error e' =>
    have he := (level_of_text_error hl).symm.trans h
    rw [bareCondition, hl]
    cases he
    rfl
  | ok level =>
    rw [bareCondition, hl, operand_error h]
    rfl

section Texts

variable {F : PrintError → Prop} {n : Node}

theorem reports_operand (h : Reports F n.text) (least : Level) (followed : Bool) :
    Reports F (operand n least followed n.text) := by
  cases hn : n.text with
  | error e =>
    rw [← hn, operand_error hn]
    rwa [hn] at h
  | ok u =>
    rw [← hn, operand_text hn]
    rwa [hn] at h

theorem reports_bareCondition (h : Reports F n.text) : Reports F (bareCondition n n.text) := by
  cases hn : n.text with
  | error e =>
    rw [← hn, bareCondition_error hn]
    rwa [hn] at h
  | ok u =>
    rw [← hn, bareCondition_iff.mpr ⟨u, hn, rfl⟩]
    rwa [hn] at h

end Texts

theorem reports_numeral (loc : Loc) (digits : Text) (base : Int) :
    Reports (numeric loc digits base).Faults (numeral digits base) := by
  refine Reports.congr (F := fun e => (numeric loc digits base).fault? = some e) ?_ fun e => by
    rw [faults_iff]
    simp [parts]
  by_cases h : base ∈ ([2, 8, 10, 16] : List Int)
  · have hok : ∃ text, numeral digits base = .ok text := by
      simp only [List.mem_cons, List.not_mem_nil, or_false] at h
      obtain rfl | rfl | rfl | rfl := h <;> exact ⟨_, rfl⟩
    obtain ⟨text, hok⟩ := hok
    rw [hok]
    exact reports_ok fun e => by simp [fault?, h]
  · have hnone : Numeral.Radix.ofBase? base = none := by
      simp only [List.mem_cons, List.not_mem_nil, or_false, not_or] at h
      simp [Numeral.Radix.ofBase?, Numeral.Radix.all, Numeral.Radix.hexadecimal, Numeral.Radix.octal,
        Numeral.Radix.binary, Ne.symm h.1, Ne.symm h.2.1, Ne.symm h.2.2.2]
    have h10 : base ≠ 10 := fun h10 => h (by rw [h10]; decide)
    rw [numeral, if_neg h10, hnone]
    exact if_neg h

theorem reports_operands (loc : Loc) (operator : Text) (left right : Node) :
    Reports (fun e => (binary loc operator left right).fault? = some e) (Level.operands operator) := by
  have htexts : operatorTexts = Level.operators.map (·.1.spelling) := rfl
  cases hf : Level.operators.find? (·.1.spelling = operator) with
  | none =>
    have hmem : operator ∉ operatorTexts := by
      rw [htexts, List.mem_map]
      rintro ⟨o, ho, rfl⟩
      exact List.find?_eq_none.mp hf o ho (by simp)
    rw [Level.operands, Level.ofOperator, hf]
    exact if_neg hmem
  | some o =>
    have hmem : operator ∈ operatorTexts := by
      rw [htexts, List.mem_map]
      exact ⟨o, List.mem_of_find?_eq_some hf, by simpa using List.find?_some hf⟩
    have hlevel : Level.ofOperator operator = .ok o.2 := by rw [Level.ofOperator, hf]
    rw [Level.operands_of_ofOperator hlevel]
    exact reports_ok fun e => by simp [fault?, hmem]

/-- A text behind a mark is missing or printed like any other. -/
theorem reports_marked {o : Option Node} {f : Node → Except PrintError Text}
    (h : ∀ n ∈ o, Reports n.Faults (f n)) (mark : Text) :
    Reports (fun e => ∃ n ∈ o, n.Faults e) (marked mark (o.map f)) := by
  cases o with
  | none => exact reports_ok (by simp)
  | some n => exact (h n rfl).map.congr fun e => by simp

theorem typeText?_eq (followed : Bool) (type : Option Node) :
    typeText? followed type = type.map fun n => operand n .comparison followed n.text := by
  cases type <;> rfl

theorem text?_eq (n : Option Node) : text? n = n.map text := by
  cases n <;> rfl

/-- A block stands on one line, with the faults of its statements. -/
theorem reports_branchText {loc : Loc} {body : List Node}
    (h : (allLines 0 body).Reports fun e => ∃ n ∈ body, n.Faults e) :
    Reports (block loc body).Faults (block loc body).branchText :=
  (reports_inlined h).ofParts rfl fun _ => Iff.rfl

section Conditionals

variable {condition consequent alternate : Except PrintError Text} {F G H : PrintError → Prop}

theorem reports_ifBlocks (hc : Reports F condition) (hq : Reports G consequent) (ha : Reports H alternate) :
    Reports (fun e => F e ∨ G e ∨ H e) (ifBlocks condition consequent alternate) :=
  (hc.bind fun c => ha.bind fun a => hq.finish fun q => ⟨_, rfl⟩).congr fun e => by rw [or_comm (a := H e)]

theorem reports_ifBranches {n : Node} (hc : Reports F n.text) (hq : Reports G consequent) (ha : Reports H alternate)
    (explicitThen : Bool) :
    Reports (fun e => F e ∨ G e ∨ H e) (ifBranches n explicitThen n.text consequent alternate) := by
  have hlast : ∀ q a, Reports F (ifBranches n explicitThen n.text (.ok q) (.ok a)) := fun q a => by
    cases explicitThen with
    | true => exact (reports_bareCondition hc).finish fun c => ⟨_, rfl⟩
    | false => exact hc.finish fun c => ⟨_, rfl⟩
  cases consequent with
  | error e => exact .inr (.inl hq)
  | ok q =>
    cases alternate with
    | error e => exact .inr (.inr ha)
    | ok a => exact (hlast q a).congr fun e => ⟨.inl, fun h => h.resolve_right (not_or_intro (hq e) (ha e))⟩

end Conditionals

theorem SortedStatement.not_program {n : Node} (h : n.SortedStatement) (loc : Loc) (body : List Node) :
    n ≠ .program loc body := by
  rintro rfl
  exact h.elim

mutual

/-- Printing an expression fails exactly if a node in it is at fault, and names such a fault. -/
theorem reports_text (n : Node) (h : n.SortedExpression) : Reports n.Faults n.text := by
  cases n with
  | identifier | string | boolean | regex =>
    exact Reports.ofParts (reports_ok fun e => id) rfl fun e => by simp [parts]
  | numeric loc digits base => exact reports_numeral loc digits base
  | parenthesized loc e => exact (reports_text e h).map.ofParts rfl fun e => by simp [parts]
  | array loc elements | arrayPattern loc elements =>
    exact ((reports_allTexts elements h).map.finish fun a => ⟨_, rfl⟩).ofParts rfl fun e => Iff.rfl
  | field loc object name =>
    -- the name has neither parts nor a fault
    obtain ⟨hobject, hname⟩ := h
    cases name with
    | identifier nameLoc word =>
      have hobject := reports_operand (reports_text object hobject) .postfixChain true
      exact (hobject.finish fun a => ⟨_, rfl⟩).ofParts rfl fun e => by
        simp [parts, faults_iff (n := identifier nameLoc word), fault?]
    | _ => cases hname
  | index loc object i =>
    have hobject := reports_operand (reports_text object h.1) .postfixChain true
    exact (hobject.bind fun a => (reports_text i h.2).finish fun b => ⟨_, rfl⟩).ofParts rfl fun e => by simp [parts]
  | call loc callee arguments =>
    have hcallee := reports_operand (reports_text callee h.1) .postfixChain true
    exact (hcallee.bind fun a => (reports_allTexts arguments h.2).map.finish fun b => ⟨_, rfl⟩).ofParts rfl
      fun e => by simp [parts]
  | unary loc operator argument leading =>
    exact ((reports_operand (reports_text argument h) _ _).finish fun a => ⟨_, rfl⟩).ofParts rfl fun e => by
      simp [parts]
  | binary loc operator left right =>
    have hleft (least : Level) := reports_operand (reports_text left h.1) least true
    have hright (least : Level) := reports_operand (reports_text right h.2) least false
    exact ((reports_operands loc operator left right).bind fun sides =>
      (hleft sides.1).bind fun a => (hright sides.2).finish fun b => ⟨_, rfl⟩).congr fun e => by
        simp [faults_iff (n := binary loc operator left right), parts]
  | assignment loc left right operator =>
    exact ((reports_text left h.1).bind fun a => (reports_text right h.2).finish fun b => ⟨_, rfl⟩).ofParts rfl
      fun e => by simp [parts]
  | conditional loc condition consequent alternate explicitThen =>
    obtain ⟨hc, h⟩ := h
    have hc := reports_text condition hc
    rw [text_conditional_eq]
    obtain ⟨hq, ha⟩ | ⟨hb, hq, ha⟩ := h
    · have hq' := reports_text consequent hq
      have ha := reports_text alternate ha
      rw [hq.isBlock, if_neg Bool.false_ne_true]
      exact (reports_ifBranches hc hq' ha explicitThen).ofParts rfl fun e => by simp [parts]
    · cases consequent with
      | block blockLoc body =>
        have hq := @reports_branchText blockLoc body (reports_allLines body hq 0)
        have ha : Reports alternate.Faults alternate.branchText := by
          obtain ha | ⟨hb, ha⟩ := ha
          · rw [branchText_of_isBlock ha.isBlock]
            exact reports_text alternate ha
          · cases alternate with
            | block otherLoc other => exact reports_branchText (reports_allLines other ha 0)
            | _ => cases hb
        rw [isBlock, if_pos rfl]
        exact (reports_ifBlocks (reports_bareCondition hc) hq ha).ofParts rfl fun e => by simp [parts]
      | _ => cases hb
  | _ => exact h.elim

theorem reports_allTexts (l : List Node) (h : SortedExpressions l) :
    Reports (fun e => ∃ n ∈ l, n.Faults e) (allTexts l) := by
  cases l with
  | nil => exact reports_ok (by simp)
  | cons n rest =>
    exact ((reports_text n h.1).bind fun a => (reports_allTexts rest h.2).finish fun b => ⟨_, rfl⟩).congr fun e => by
      simp

theorem reports_text? (o : Option Node) (h : NoneOrSortedExpression o) : ∀ n ∈ o, Reports n.Faults n.text := by
  cases o with
  | none => exact fun n hn => nomatch hn
  | some m =>
    rintro _ ⟨⟩
    exact reports_text m h

/-- Printing a statement fails exactly if a node in it is at fault, and names such a fault. -/
theorem reports_lines (n : Node) (h : n.SortedStatement) (i : Int) : (n.lines i).Reports n.Faults := by
  cases n with
  | block loc body =>
    have hbody := reports_allLines body h (i + 1)
    have hparts (e : PrintError) : (∃ n ∈ body, n.Faults e) ↔ (block loc body).Faults e := by
      simp [faults_iff (n := block loc body), fault?, parts]
    cases body with
    | nil => exact Reports.congr (F := fun _ => False) (reports_ok fun e => id) fun broken => by simp [← hparts]
    | cons first rest => exact (reports_braced hbody).congr hparts
  | expressionStatement loc e =>
    exact (reports_oneLine (reports_text e h).map).congr fun fault => by
      simp [faults_iff (n := expressionStatement loc e), fault?, parts]
  | conditionalStatement loc condition consequent alternate =>
    obtain ⟨hc, hq, ha⟩ := h
    have ha' := reports_lines? alternate ha i
    let dangling := alternate.isSome && consequent.dangles
    let inner := if dangling then i + 1 else i
    have hbranch := reports_bracedIf (i := i) dangling (reports_lines consequent hq inner)
    have hfull := isFull_bracedIf dangling i (isFull_lines hq.not_program inner)
    refine (reports_ifStatement (H := fun e => ∃ n ∈ alternate, n.Faults e) hbranch hfull (reports_text condition hc)
      ?_).congr fun e => ?_
    · cases alternate with
      | none => exact fun b hb => nomatch hb
      | some n =>
        rintro _ ⟨⟩
        exact ⟨(ha' n rfl).congr fun e => by simp, isFull_lines (SortedStatement.not_program ha) i⟩
    · rw [faults_iff (n := conditionalStatement loc condition consequent alternate)]
      cases alternate with
      | none => simp [fault?, parts, lines?, or_comm]
      | some n => simp [fault?, parts, lines?, or_left_comm]
  | declaration loc left type right constant mutable =>
    obtain ⟨hl, ht, hr⟩ := h
    have hl := reports_text left hl
    have ht := reports_marked (fun n hn => reports_operand (reports_text? type ht n hn) .comparison right.isSome) ": "
    have hr := reports_marked (reports_text? right hr) " = "
    rw [← typeText?_eq] at ht
    rw [← text?_eq] at hr
    refine (reports_declarationLine constant mutable (hl.bind fun a => ht.bind fun b => hr.finish fun c => ⟨_, rfl⟩)
      ).congr fun e => ?_
    have hown : (declaration loc left type right constant mutable).fault? = some e ↔
        (constant && mutable) ∧ e = .mutableConstant := by
      rw [fault?]
      split <;> simp [*, eq_comm]
    rw [faults_iff (n := declaration loc left type right constant mutable), hown]
    cases type <;> cases right <;> simp [parts]
  | _ => exact h.elim

theorem reports_allLines (l : List Node) (h : SortedStatements l) (i : Int) :
    (allLines i l).Reports fun e => ∃ n ∈ l, n.Faults e := by
  cases l with
  | nil => exact reports_ok (by simp)
  | cons n rest =>
    exact (reports_inOrder (reports_lines n h.1 i) (reports_allLines rest h.2 i)).congr fun e => by simp

theorem reports_lines? (o : Option Node) (h : NoneOrSortedStatement o) (i : Int) :
    ∀ n ∈ o, (n.lines i).Reports n.Faults := by
  cases o with
  | none => exact fun n hn => nomatch hn
  | some m =>
    rintro _ ⟨⟩
    exact reports_lines m h i

end

theorem faults_program {loc : Loc} {body : List Node} {e : PrintError} :
    (program loc body).Faults e ↔ ∃ n ∈ body, n.Faults e := by
  simp [faults_iff (n := program loc body), fault?, parts]

end Node

/-- When printing fails. A program whose statements and expressions stand where they belong, whatever operators and
bases are in it, is refused exactly if a node somewhere in it is at fault: a declaration that is constant and mutable, a
numeral in a base other than 2, 8, 10 and 16, or a binary operator that is none of the fourteen. The refusal names the
fault of one of these nodes, and without any the program is put out as text. -/
theorem printing_fails_exactly_at_faults (s : Sheet) (loc : Loc) (body : List Node) (h : Node.SortedStatements body) :
    ((∃ e later, (Output.sources s).write (some (.program loc body)) = (.error e, later)) ↔
        ∃ m, (Node.program loc body).Contains m ∧ m.fault?.isSome) ∧
      (∀ e later, (Output.sources s).write (some (.program loc body)) = (.error e, later) →
        ∃ m fault, (Node.program loc body).Contains m ∧ m.fault? = some fault ∧ e = .unprintable fault) ∧
      ((∀ m, (Node.program loc body).Contains m → m.fault? = none) →
        ∃ text later, (Output.sources s).write (some (.program loc body)) = (.ok text, later)) := by
  have hreports : (Node.allLines s.indent body).Reports (Node.program loc body).Faults :=
    (Node.reports_allLines body h s.indent).congr fun e => Node.faults_program.symm
  cases hl : Node.allLines s.indent body with
  | ok lines =>
    rw [Output.write_sources (n := .program loc body) hl]
    have hnone : ∀ m, (Node.program loc body).Contains m → m.fault? = none := fun m hm => by
      rw [hl] at hreports
      cases hf : m.fault? with
      | none => rfl
      | some e => exact absurd ⟨m, hm, hf⟩ (hreports ⟨e, [], 0⟩)
    refine ⟨⟨?_, ?_⟩, ?_, fun _ => ⟨_, _, rfl⟩⟩
    · rintro ⟨_, _, ⟨⟩⟩
    · rintro ⟨m, hm, hf⟩
      rw [hnone m hm] at hf
      cases hf
    · rintro _ _ ⟨⟩
  | error broken =>
    rw [Output.write_sources_error (n := .program loc body) hl]
    rw [hl] at hreports
    obtain ⟨m, hm, hf⟩ : (Node.program loc body).Faults broken.error := hreports
    refine ⟨⟨fun _ => ⟨m, hm, by rw [hf]; rfl⟩, fun _ => ⟨_, _, rfl⟩⟩, ?_, fun hnone => ?_⟩
    · rintro _ _ ⟨⟩
      exact ⟨m, broken.error, hm, hf, rfl⟩
    · rw [hnone m hm] at hf
      cases hf

theorem printing_fails_exactly_at_faults_deep :
    let a : Node := .identifier .unknown "a"
    let odd : Node := .declaration .unknown a (some (.numeric .unknown "12" 3)) none false true
    let power : Node := .binary .unknown "**" a a
    let value : Node := .conditional .unknown power (.block .unknown [odd]) (.call .unknown a []) true
    let body : List Node := [.conditionalStatement .unknown a (.expressionStatement .unknown value) (some odd)]
    let later : Output := .sources ⟨["a;"], 2⟩
    Node.SortedStatements body ∧
      (Output.sources ⟨["a;"], 2⟩).write (some (.program .unknown body)) =
        (.error (.unprintable (.unsupportedBase 3)), later) ∧
      ∃ m fault, (Node.program .unknown body).Contains m ∧ m.fault? = some fault ∧
        OutputError.unprintable (.unsupportedBase 3) = .unprintable fault := by
  intro a odd power value body later
  have hsorted : Node.SortedStatements body := by
    simp [body, value, power, odd, a, Node.SortedStatements, Node.SortedStatement, Node.SortedExpression,
      Node.SortedExpressions, Node.NoneOrSortedStatement, Node.NoneOrSortedExpression, Node.isBlock]
  have hwrite : (Output.sources ⟨["a;"], 2⟩).write (some (.program .unknown body)) =
      (.error (.unprintable (.unsupportedBase 3)), later) := by cbv
  exact ⟨hsorted, hwrite, (printing_fails_exactly_at_faults _ _ body hsorted).2.1 _ _ hwrite⟩

end MagSyntax
