import Mathlib.Data.List.Forall2
import MagSyntax.Output

/-! What stands on a sheet stays there. The lines of an `if` are changed where they stand, and still a statement adds
to a sheet exactly the lines that it has by itself at that level of indentation, so what is put out for trees one
after the other is what is put out for each of them. -/

namespace MagSyntax

open Print

/-- The lines that a tree adds to a sheet at a level of indentation. -/
def Node.treeLines (indent : Int) (n : Node) : Lines :=
  match n with
  | .program .. => n.lines indent
  | _ => oneLine indent n.text

namespace Sheet

section Braces

variable {body : Sheet → Outcome} (lines : Int → Lines)
  (h : ∀ inner : Sheet, body inner = inner.add (lines inner.indent))
include h

theorem inBraces_add (s : Sheet) : s.inBraces body = s.add (braced s.indent (lines (s.indent + 1))) := by
  rw [inBraces, h]
  show (add _ (lines (s.indent + 1))).andThen _ = _
  cases lines (s.indent + 1) <;> simp [add, push, braced, Outcome.andThen]

theorem branch_add (s : Sheet) (dangling : Bool) :
    (if dangling then s.inBraces body else body s) =
      s.add (bracedIf dangling s.indent (lines (if dangling then s.indent + 1 else s.indent))) := by
  cases dangling with
  | false => exact h s
  | true => exact inBraces_add lines h s

end Braces

theorem putHead_add (s : Sheet) (lines : List Text) (head : Text) :
    (⟨s.lines ++ lines, s.indent⟩ : Sheet).putHead s.lines.length head = s.add (headed s.indent head lines) := by
  cases lines with
  | nil => simp [putHead, headed, add]
  | cons first rest => simp [putHead, headed, add, List.set_append_right]

/-- An `else` changes the line that it is put in front of, or merges it with the line before. -/
theorem putElse_window (i : Int) (front : List Text) (last first : Text) (rest : List Text) :
    (⟨front ++ last :: first :: rest, i⟩ : Sheet).putElse (front.length + 1) =
      (.ok (), if last.getLast? = some '\x7d' then
          ⟨front ++ (last ++ " else " ++ first.trimLeft) :: rest, i⟩
        else ⟨front ++ last :: line i ("else " ++ first.trimLeft) :: rest, i⟩) := by
  have hfirst : (front ++ last :: first :: rest)[front.length + 1]? = some first := by
    rw [List.getElem?_append_right (Nat.le_add_right _ _), Nat.add_sub_cancel_left]
    rfl
  have hlast : (front ++ last :: first :: rest)[front.length]? = some last := by
    rw [List.getElem?_append_right (Nat.le_refl _), Nat.sub_self]
    rfl
  have hmerged (line : Text) :
      ((front ++ last :: first :: rest).set front.length line).eraseIdx (front.length + 1) = front ++ line :: rest := by
    rw [List.set_append_right _ _ (Nat.le_refl _), Nat.sub_self,
      List.eraseIdx_append_of_length_le (Nat.le_add_right _ _), Nat.add_sub_cancel_left]
    rfl
  have hchanged (line : Text) :
      (front ++ last :: first :: rest).set (front.length + 1) line = front ++ last :: line :: rest := by
    rw [List.set_append_right _ _ (Nat.le_add_right _ _), Nat.add_sub_cancel_left]
    rfl
  simp only [putElse, hfirst, hlast, Nat.add_sub_cancel, Option.getD_some, hmerged, hchanged]
  split <;> rfl

theorem putElse_add (s : Sheet) {ifLines : List Text} (hne : ifLines ≠ []) (elseLines : List Text) :
    (⟨s.lines ++ ifLines ++ elseLines, s.indent⟩ : Sheet).putElse (s.lines ++ ifLines).length =
      s.add (joinElse s.indent ifLines elseLines) := by
  cases elseLines with
  | nil => simp [putElse, joinElse, add]
  | cons first rest =>
    obtain ⟨init, last, rfl⟩ : ∃ init last, ifLines = init ++ [last] :=
      ⟨_, _, (List.dropLast_concat_getLast hne).symm⟩
    have hlines : s.lines ++ (init ++ [last]) ++ first :: rest = (s.lines ++ init) ++ last :: first :: rest := by simp
    have hstart : (s.lines ++ (init ++ [last])).length = (s.lines ++ init).length + 1 := by simp [Nat.add_assoc]
    rw [hlines, hstart, putElse_window, joinElse]
    simp only [List.getLast?_concat, List.dropLast_concat, Option.getD_some]
    split <;> simp [add]

mutual

/-- Changing lines where they stand comes to adding the lines of the statement behind those of the sheet. -/
theorem addStatement_eq (s : Sheet) (n : Node) : s.addStatement n = s.add (n.lines s.indent) := by
  cases n with
  | program loc body => exact addStatements_eq s body
  | expressionStatement loc e => rfl
  | declaration => rfl
  | block loc body =>
    cases body with
    | nil => rfl
    | cons n rest =>
      show s.inBraces (addStatements · (n :: rest)) = _
      exact inBraces_add (Node.allLines · (n :: rest)) (fun inner => addStatements_eq inner (n :: rest)) s
  | conditionalStatement loc condition consequent alternate =>
    simp only [addStatement, Node.lines, ifStatement]
    rw [branch_add (consequent.lines ·) fun inner => addStatement_eq inner consequent]
    cases bracedIf (alternate.isSome && consequent.dangles) s.indent
      (consequent.lines (if alternate.isSome && consequent.dangles then s.indent + 1 else s.indent)) with
    | error broken => rfl
    | ok lines =>
      cases condition.text with
      | error e => rfl
      | ok text =>
        -- the branch starts where the sheet ended, so its head goes to the first of its own lines
        show (putHead ⟨s.lines ++ lines, s.indent⟩ s.lines.length _).andThen (addElse · alternate) = _
        rw [putHead_add]
        cases lines with
        | nil => rfl
        | cons first rest => exact addElse_eq s (List.cons_ne_nil _ _) alternate
  | _ => simp [addStatement, Node.lines, add]

theorem addStatements_eq (s : Sheet) (l : List Node) : s.addStatements l = s.add (Node.allLines s.indent l) := by
  cases l with
  | nil => simp [addStatements, Node.allLines, add]
  | cons n rest =>
    rw [addStatements, addStatement_eq s n, Node.allLines]
    cases n.lines s.indent with
    | error broken => rfl
    | ok lines =>
      show addStatements ⟨s.lines ++ lines, s.indent⟩ rest = _
      rw [addStatements_eq _ rest]
      cases Node.allLines s.indent rest <;> simp [add, inOrder, before]

/-- The lines of the `if` are on the sheet, and there is at least one for the `else` to follow. -/
theorem addElse_eq (s : Sheet) {ifLines : List Text} (hne : ifLines ≠ []) (alternate : Option Node) :
    (⟨s.lines ++ ifLines, s.indent⟩ : Sheet).addElse alternate =
      s.add (withElse s.indent (Node.lines? s.indent alternate) ifLines) := by
  cases alternate with
  | none => rfl
  | some n =>
    rw [addElse, addStatement_eq _ n, Node.lines?]
    cases n.lines s.indent with
    | error broken => simp [add, withElse, before, Outcome.andThen]
    | ok elseLines => exact putElse_add s hne elseLines

end

theorem add_eq_ok {s later : Sheet} {l : Lines} (h : s.add l = (.ok (), later)) :
    ∃ lines, l = .ok lines ∧ later = ⟨s.lines ++ lines, s.indent⟩ := by
  cases l with
  | error broken => cases h
  | ok lines =>
    cases h
    exact ⟨lines, rfl, rfl⟩

theorem addTree_eq (s : Sheet) (n : Node) : s.addTree n = s.add (n.treeLines s.indent) := by
  cases n with
  | program loc body => exact addStatement_eq s (.program loc body)
  | _ => rfl

end Sheet

namespace Print

/-- There is at least one line, unless printing broke off. -/
def Lines.IsFull (l : Lines) : Prop := ∀ lines, l = .ok lines → lines ≠ []

theorem isFull_ok {lines : List Text} (h : lines ≠ []) : Lines.IsFull (.ok lines) := by
  rintro _ ⟨⟩
  exact h

theorem isFull_error (broken : Broken) : Lines.IsFull (.error broken) := fun _ h => nomatch h

theorem isFull_oneLine (i : Int) (text : Except PrintError Text) : (oneLine i text).IsFull := by
  cases text with
  | error e => exact isFull_error _
  | ok text => exact isFull_ok (List.cons_ne_nil _ _)

theorem isFull_braced (i : Int) (body : Lines) : (braced i body).IsFull := by
  cases body with
  | error broken => exact isFull_error _
  | ok lines => exact isFull_ok (List.append_ne_nil_of_right_ne_nil _ (List.cons_ne_nil _ _))

theorem isFull_bracedIf (dangling : Bool) (i : Int) {body : Lines} (h : body.IsFull) :
    (bracedIf dangling i body).IsFull := by
  cases dangling with
  | false => exact h
  | true => exact isFull_braced i body

theorem isFull_joinElse (i : Int) (ifLines elseLines : List Text) : (joinElse i ifLines elseLines).IsFull := by
  cases elseLines with
  | nil => exact isFull_error _
  | cons first rest =>
    simp only [joinElse]
    split <;> exact isFull_ok (List.append_ne_nil_of_right_ne_nil _ (List.cons_ne_nil _ _))

theorem isFull_withElse (i : Int) (alternate : Option Lines) {ifLines : List Text} (h : ifLines ≠ []) :
    (withElse i alternate ifLines).IsFull := by
  cases alternate with
  | none => exact isFull_ok h
  | some alternate =>
    cases alternate with
    | error broken => exact isFull_error _
    | ok elseLines => exact isFull_joinElse i ifLines elseLines

theorem isFull_ifStatement (i : Int) (consequent : Lines) (condition : Except PrintError Text)
    (alternate : Option Lines) : (ifStatement i consequent condition alternate).IsFull := by
  cases consequent with
  | error broken => exact isFull_error _
  | ok lines =>
    cases condition with
    | error e => exact isFull_error _
    | ok text =>
      cases lines with
      | nil => exact isFull_error _
      | cons first rest => exact isFull_withElse i alternate (List.cons_ne_nil _ _)

end Print

/-- A statement has at least one line; a program may have none. -/
theorem Node.isFull_lines {n : Node} (h : ∀ loc body, n ≠ .program loc body) (i : Int) : (n.lines i).IsFull := by
  cases n with
  | program loc body => exact absurd rfl (h loc body)
  | expressionStatement loc e => exact isFull_oneLine _ _
  | block loc body =>
    cases body with
    | nil => exact isFull_ok (List.cons_ne_nil _ _)
    | cons n rest => exact isFull_braced _ _
  | conditionalStatement => exact isFull_ifStatement _ _ _ _
  | declaration =>
    simp only [lines, declarationLine]
    split
    · exact isFull_error _
    · exact isFull_oneLine _ _
  | _ => exact isFull_error _

namespace Output

/-- Writes trees one after the other, as long as that goes through. -/
def writeAll (o : Output) : List Node → Except OutputError Output
  | [] => .ok o
  | n :: rest =>
    match o.write (some n) with
    | (.ok _, later) => later.writeAll rest
    | (.error e, _) => .error e

section Runs

variable {s : Sheet} {n : Node}

theorem write_sources {lines : List Text} (h : n.treeLines s.indent = .ok lines) :
    (sources s).write (some n) =
      (.ok (Sheet.text ⟨s.lines ++ lines, s.indent⟩), sources ⟨s.lines ++ lines, s.indent⟩) := by
  simp only [write, Sheet.addTree_eq, h, Sheet.add]

theorem write_sources_error {broken : Print.Broken} (h : n.treeLines s.indent = .error broken) :
    (sources s).write (some n) =
      (.error (.unprintable broken.error), sources ⟨s.lines ++ broken.lines, broken.indent⟩) := by
  simp only [write, Sheet.addTree_eq, h, Sheet.add]

theorem treeLines_of_write {answer : Text} {later : Output} (h : (sources s).write (some n) = (.ok answer, later)) :
    ∃ lines, n.treeLines s.indent = .ok lines := by
  cases hl : n.treeLines s.indent with
  | error broken =>
    rw [write_sources_error hl] at h
    cases h
  | ok lines => exact ⟨lines, rfl⟩

/-- The trees of a run add to a sheet what an empty one gets of each of them. -/
theorem writeAll_sources (hs : s.indent = 0) {trees : List Node} {later : Output}
    (h : (sources s).writeAll trees = .ok later) :
    ∃ texts : List Text, List.Forall₂ (fun n text => ((sources .empty).write (some n)).1 = .ok text) trees texts ∧
      later.text = s.text ++ texts.flatten := by
  induction trees generalizing s with
  | nil =>
    cases h
    exact ⟨[], .nil, (List.append_nil _).symm⟩
  | cons n rest ih =>
    cases hw : (sources s).write (some n) with
    | mk answer next =>
      rw [writeAll, hw] at h
      cases answer with
      | error e => cases h
      | ok answer =>
        obtain ⟨lines, hl⟩ := treeLines_of_write hw
        rw [write_sources hl] at hw
        cases hw
        obtain ⟨texts, htexts, hlater⟩ := ih (s := ⟨s.lines ++ lines, s.indent⟩) hs h
        rw [hs] at hl
        have hfresh : ((sources .empty).write (some n)).1 = .ok (Sheet.text ⟨lines, 0⟩) :=
          congrArg Prod.fst (write_sources (s := .empty) hl)
        refine ⟨Sheet.text ⟨lines, 0⟩ :: texts, .cons hfresh htexts, ?_⟩
        rw [hlater, List.flatten_cons, ← List.append_assoc]
        simp only [Sheet.text, List.flatMap_append]

end Runs

end Output

/-- Printing only appends. Whatever stands on a sheet, a statement that goes through leaves it there and adds at
least one line, the lines that it adds to an empty sheet at that level, to which the indentation returns. So the
text put out for trees one after the other is what new outputs give for each, one behind the other. -/
theorem printing_only_appends :
    (∀ (s later : Sheet) (n : Node), (∀ loc body, n ≠ .program loc body) → s.addStatement n = (.ok (), later) →
      ∃ lines : List Text, lines ≠ [] ∧ later = ⟨s.lines ++ lines, s.indent⟩ ∧
        (⟨[], s.indent⟩ : Sheet).addStatement n = (.ok (), ⟨lines, s.indent⟩)) ∧
    ∀ (locations : Bool) (indent : Option Int) (trees : List Node) (later : Output),
      (Output.ofTarget .mag locations indent).writeAll trees = .ok later →
      ∃ texts : List Text,
        List.Forall₂ (fun n text => ((Output.ofTarget .mag locations indent).write (some n)).1 = .ok text)
          trees texts ∧
        later.text = texts.flatten := by
  refine ⟨fun s later n hn h => ?_, fun locations indent trees later h => Output.writeAll_sources rfl h⟩
  rw [Sheet.addStatement_eq] at h
  obtain ⟨lines, hlines, rfl⟩ := Sheet.add_eq_ok h
  refine ⟨lines, Node.isFull_lines hn _ lines hlines, rfl, ?_⟩
  rw [Sheet.addStatement_eq]
  show Sheet.add _ (n.lines s.indent) = _
  rw [hlines]
  rfl

theorem printing_only_appends_nested :
    let a : Node := .identifier .unknown "a"
    let call : Node := .expressionStatement .unknown a
    let inner : Node := .conditionalStatement .unknown a call none
    let chain : Node := .conditionalStatement .unknown a (.block .unknown [call]) (some (.block .unknown []))
    let nested : Node := .conditionalStatement .unknown a inner (some chain)
    let before : Sheet := ⟨["x;", "if (x) \x7b\x7d"], 1⟩
    let added : List Text := ["    if (a) \x7b", "        if (a) a;", "    \x7d else if (a) \x7b", "        a;",
      "    \x7d else \x7b\x7d"]
    let source : List Text := ["if (a) \x7b", "    if (a) a;", "\x7d else if (a) \x7b", "    a;",
      "\x7d else \x7b\x7d", "a"]
    let output := Output.ofTarget .mag false none
    (before.addStatement nested = (.ok (), ⟨before.lines ++ added, 1⟩) ∧
      ∃ lines : List Text, lines ≠ [] ∧ (⟨before.lines ++ added, 1⟩ : Sheet) = ⟨before.lines ++ lines, 1⟩ ∧
        (⟨[], 1⟩ : Sheet).addStatement nested = (.ok (), ⟨lines, 1⟩)) ∧
    output.writeAll [.program .unknown [nested], a] = .ok (.sources ⟨source, 0⟩) ∧
      ∃ texts : List Text,
        List.Forall₂ (fun n text => (output.write (some n)).1 = .ok text) [.program .unknown [nested], a] texts ∧
        Sheet.text ⟨source, 0⟩ = texts.flatten := by
  intro a call inner chain nested before added source output
  have hadded : before.addStatement nested = (.ok (), ⟨before.lines ++ added, 1⟩) := by cbv
  have hsource : output.writeAll [.program .unknown [nested], a] = .ok (.sources ⟨source, 0⟩) := by cbv
  exact ⟨⟨hadded, printing_only_appends.1 before _ nested (fun _ _ => Node.noConfusion) hadded⟩,
    hsource, printing_only_appends.2 false none _ _ hsource⟩

end MagSyntax
