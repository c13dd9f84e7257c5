import MagSyntax.Proofs.Sheets

/-! Printing at another level of indentation. A statement has the same lines there, with other spaces in front of
each, and where it cannot be printed it breaks off at the same place. -/

namespace MagSyntax

namespace Print

/-- The same line, as many levels of indentation behind the one as behind the other. -/
def SameLine (i j : Int) (a b : Text) : Prop :=
  ∃ (depth : Nat) (text : Text), a = line (i + depth) text ∧ b = line (j + depth) text

/-- The same lines at two levels of indentation. -/
abbrev SameLines (i j : Int) : List Text → List Text → Prop := List.Forall₂ (SameLine i j)

/-- The same lines at two levels of indentation, or the same fault behind them. -/
inductive Lines.Same (i j : Int) : Lines → Lines → Prop
  | ok {a b : List Text} : SameLines i j a b → Lines.Same i j (.ok a) (.ok b)
  | error {a b : List Text} (e : PrintError) (depth : Nat) : SameLines i j a b →
      Lines.Same i j (.error ⟨e, a, i + depth⟩) (.error ⟨e, b, j + depth⟩)

variable {i j : Int}

theorem trimLeft_indented (i : Int) (t : Text) : (line i t).trimLeft = t.trimLeft :=
  List.dropWhile_append_of_pos fun c hc => by
    rw [List.eq_of_mem_replicate hc]
    decide

namespace SameLine

variable {a b : Text}

theorem ofText (i j : Int) (text : Text) : SameLine i j (line i text) (line j text) :=
  ⟨0, text, by simp, by simp⟩

theorem deeper (h : SameLine (i + 1) (j + 1) a b) : SameLine i j a b := by
  obtain ⟨depth, text, rfl, rfl⟩ := h
  exact ⟨depth + 1, text, by congr 1; omega, by congr 1; omega⟩

theorem append (h : SameLine i j a b) (tail : Text) : SameLine i j (a ++ tail) (b ++ tail) := by
  obtain ⟨depth, text, rfl, rfl⟩ := h
  exact ⟨depth, text ++ tail, List.append_assoc _ _ _, List.append_assoc _ _ _⟩

theorem trimLeft (h : SameLine i j a b) : a.trimLeft = b.trimLeft := by
  obtain ⟨depth, text, rfl, rfl⟩ := h
  rw [trimLeft_indented, trimLeft_indented]

/-- No brace comes from the indentation. -/
theorem closes (h : SameLine i j a b) : a.getLast? = some '\x7d' ↔ b.getLast? = some '\x7d' := by
  have hline (i : Int) (t : Text) : (line i t).getLast? = some '\x7d' ↔ t.getLast? = some '\x7d' := by
    cases t with
    | nil =>
      rw [line, List.append_nil, indentation, List.getLast?_replicate]
      split <;> decide
    | cons c t => rw [line, List.getLast?_append_of_ne_nil _ (List.cons_ne_nil c t)]
  obtain ⟨depth, text, rfl, rfl⟩ := h
  rw [hline, hline]

end SameLine

/-- The last of the lines is the same. -/
theorem SameLines.concat {a b : List Text} (h : SameLines i j a b) :
    a = [] ∧ b = [] ∨ ∃ init last init' last',
      a = init ++ [last] ∧ b = init' ++ [last'] ∧ SameLines i j init init' ∧ SameLine i j last last' := by
  induction h with
  | nil => exact .inl ⟨rfl, rfl⟩
  | @cons x y xs ys hxy hrest ih =>
    obtain ⟨rfl, rfl⟩ | ⟨init, last, init', last', rfl, rfl, hinit, hlast⟩ := ih
    · exact .inr ⟨[], x, [], y, rfl, rfl, .nil, hxy⟩
    · exact .inr ⟨x :: init, last, y :: init', last', rfl, rfl, .cons hxy hinit, hlast⟩

theorem same_error (e : PrintError) : Lines.Same i j (.error ⟨e, [], i⟩) (.error ⟨e, [], j⟩) := by
  simpa using Lines.Same.error (i := i) (j := j) e 0 .nil

theorem same_oneLine (text : Except PrintError Text) : Lines.Same i j (oneLine i text) (oneLine j text) := by
  cases text with
  | error e => exact same_error e
  | ok text => exact .ok (.cons (.ofText i j text) .nil)

namespace Lines.Same

variable {a a' b b' : Lines}

theorem before {lines lines' : List Text} (hl : SameLines i j lines lines') (h : Lines.Same i j a b) :
    Lines.Same i j (Print.before lines a) (Print.before lines' b) := by
  cases h with
  | ok h => exact .ok (List.rel_append hl h)
  | error e depth h => exact .error e depth (List.rel_append hl h)

theorem inOrder (ha : Lines.Same i j a a') (hb : Lines.Same i j b b') :
    Lines.Same i j (Print.inOrder a b) (Print.inOrder a' b') := by
  cases ha with
  | ok ha => exact hb.before ha
  | error e depth ha => exact .error e depth ha

theorem deeper (h : Lines.Same (i + 1) (j + 1) a b) : Lines.Same i j a b := by
  cases h with
  | ok h => exact .ok (h.imp fun _ _ => SameLine.deeper)
  | error e depth h =>
    have hdepth (i : Int) : i + 1 + (depth : Int) = i + (depth + 1 : Nat) := by omega
    rw [hdepth, hdepth]
    exact .error e (depth + 1) (h.imp fun _ _ => SameLine.deeper)

theorem braced (h : Lines.Same i j a b) : Lines.Same i j (Print.braced i a) (Print.braced j b) := by
  cases h with
  | ok h => exact .ok (List.rel_append (.cons (.ofText i j _) h) (.cons (.ofText i j _) .nil))
  | error e depth h => exact .error e depth (.cons (.ofText i j _) h)

variable {ifLines ifLines' elseLines elseLines' : List Text}

theorem joinElse (h : SameLines i j ifLines ifLines') (he : SameLines i j elseLines elseLines') :
    Lines.Same i j (Print.joinElse i ifLines elseLines) (Print.joinElse j ifLines' elseLines') := by
  cases he with
  | nil => simpa [Print.joinElse] using Lines.Same.error .emptyBranch 0 h
  | @cons first first' rest rest' hfirst hrest =>
    have hown (text : Text) : SameLines i j (ifLines ++ line i text :: rest) (ifLines' ++ line j text :: rest') :=
      List.rel_append h (.cons (.ofText i j text) hrest)
    simp only [Print.joinElse, hfirst.trimLeft]
    obtain ⟨rfl, rfl⟩ | ⟨init, last, init', last', rfl, rfl, hinit, hlast⟩ := h.concat
    · exact .ok (hown _)
    · simp only [List.getLast?_concat, Option.getD_some, List.dropLast_concat, hlast.closes]
      split
      · exact .ok (List.rel_append hinit (.cons ((hlast.append _).append _) hrest))
      · exact .ok (hown _)

theorem withElse {alternate alternate' : Option Lines} (h : SameLines i j ifLines ifLines')
    (ha : Option.Rel (Lines.Same i j) alternate alternate') :
    Lines.Same i j (Print.withElse i alternate ifLines) (Print.withElse j alternate' ifLines') := by
  cases ha with
  | none => exact .ok h
  | some ha =>
    cases ha with
    | ok ha => exact .joinElse h ha
    | error e depth ha => exact .before h (.error e depth ha)

theorem ifStatement {alternate alternate' : Option Lines} (h : Lines.Same i j a b)
    (condition : Except PrintError Text) (ha : Option.Rel (Lines.Same i j) alternate alternate') :
    Lines.Same i j (Print.ifStatement i a condition alternate) (Print.ifStatement j b condition alternate') := by
  cases h with
  | error e depth h => exact .error e depth h
  | ok h =>
    cases condition with
    | error e => simpa [Print.ifStatement] using Lines.Same.error (i := i) (j := j) e 0 h
    | ok text =>
      cases h with
      | nil => exact same_error .emptyBranch
      | @cons first first' rest rest' hfirst hrest =>
        show Lines.Same i j (Print.withElse i _ (line i (_ ++ first.trimLeft) :: rest))
          (Print.withElse j _ (line j (_ ++ first'.trimLeft) :: rest'))
        rw [hfirst.trimLeft]
        exact .withElse (.cons (.ofText i j _) hrest) ha

end Lines.Same

end Print

namespace Node

open Print

mutual

/-- A statement has the same lines at every level of indentation. -/
theorem lines_same (n : Node) (i j : Int) : Lines.Same i j (n.lines i) (n.lines j) := by
  cases n with
  | program loc body => exact allLines_same body i j
  | expressionStatement loc e => exact same_oneLine _
  | block loc body =>
    cases body with
    | nil => exact .ok (.cons (.ofText i j _) .nil)
    | cons n rest => exact (allLines_same (n :: rest) (i + 1) (j + 1)).deeper.braced
  | conditionalStatement loc condition consequent alternate =>
    refine Lines.Same.ifStatement ?_ condition.text (lines?_same alternate i j)
    cases alternate.isSome && consequent.dangles with
    | false => exact lines_same consequent i j
    | true => exact (lines_same consequent (i + 1) (j + 1)).deeper.braced
  | declaration loc left type right constant mutable =>
    simp only [lines, declarationLine]
    split
    · exact same_error _
    · exact same_oneLine _
  | _ => exact same_error _

theorem allLines_same (l : List Node) (i j : Int) : Lines.Same i j (allLines i l) (allLines j l) := by
  cases l with
  | nil => exact .ok .nil
  | cons n rest => exact (lines_same n i j).inOrder (allLines_same rest i j)

theorem lines?_same (o : Option Node) (i j : Int) : Option.Rel (Lines.Same i j) (lines? i o) (lines? j o) := by
  cases o with
  | none => exact .none
  | some n => exact .some (lines_same n i j)

end

theorem treeLines_same (n : Node) (i j : Int) : Lines.Same i j (n.treeLines i) (n.treeLines j) := by
  cases n with
  | program loc body => exact allLines_same body i j
  | _ =>
    simp only [treeLines]
    exact same_oneLine _

end Node

end MagSyntax
