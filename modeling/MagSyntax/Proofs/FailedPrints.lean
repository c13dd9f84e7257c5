import MagSyntax.Proofs.Reindented

/-! What is left of a tree that could not be printed. Nothing is taken back, so the lines that were finished before
the fault stay on the sheet, and the next tree is printed behind them. Nothing is left exactly if the fault comes before
the first line. -/

namespace MagSyntax

open Print

/-- The node is made of statements. -/
def Node.isCompound : Node → Bool
  | .program .. | .block .. | .conditionalStatement .. => true
  | _ => false

/-- The statement cannot be printed, and the fault comes before its first line: at once, in its first statement that
has lines, or in the branch of an `if` that is printed before the head. -/
inductive Node.FailsAtOnce (i : Int) : Node → Prop
  | line {n : Node} {broken : Broken} : n.isCompound = false → n.lines i = .error broken → FailsAtOnce i n
  | program {loc : Loc} {n : Node} {front rest : List Node} : (∀ m ∈ front, m.lines i = .ok []) →
      FailsAtOnce i n → FailsAtOnce i (.program loc (front ++ n :: rest))
  | branch {loc : Loc} {condition consequent : Node} {alternate : Option Node} :
      (alternate.isSome && consequent.dangles) = false → FailsAtOnce i consequent →
      FailsAtOnce i (.conditionalStatement loc condition consequent alternate)
  | emptyBranch {loc : Loc} {condition consequent : Node} {alternate : Option Node} :
      (alternate.isSome && consequent.dangles) = false → consequent.lines i = .ok [] →
      FailsAtOnce i (.conditionalStatement loc condition consequent alternate)

namespace Print

variable {i : Int} {broken : Broken}

theorem oneLine_error {text : Except PrintError Text} (h : oneLine i text = .error broken) :
    ∃ e, broken = ⟨e, [], i⟩ := by
  cases text with
  | error e =>
    cases h
    exact ⟨e, rfl⟩
  | ok text => cases h

theorem braced_error {body : Lines} (h : braced i body = .error broken) : broken.lines ≠ [] := by
  cases body with
  | error broken =>
    cases h
    exact List.cons_ne_nil _ _
  | ok lines => cases h

theorem withElse_error {alternate : Option Lines} {ifLines : List Text} (hne : ifLines ≠ [])
    (h : withElse i alternate ifLines = .error broken) : broken.lines ≠ [] := by
  cases alternate with
  | none => cases h
  | some alternate =>
    cases alternate with
    | error broken =>
      cases h
      exact List.append_ne_nil_of_left_ne_nil hne _
    | ok lines =>
      cases lines with
      | nil =>
        cases h
        exact hne
      | cons first rest =>
        simp only [withElse, joinElse] at h
        split at h <;> cases h

/-- An `if` that breaks off without a line has none of its branch. -/
theorem ifStatement_error {consequent : Lines} {condition : Except PrintError Text} {alternate : Option Lines}
    {e : PrintError} {j : Int} (h : ifStatement i consequent condition alternate = .error ⟨e, [], j⟩) :
    consequent = .error ⟨e, [], j⟩ ∨ consequent = .ok [] := by
  cases consequent with
  | error broken =>
    cases h
    exact .inl rfl
  | ok lines =>
    cases lines with
    | nil => exact .inr rfl
    | cons first rest =>
      cases condition with
      | error e => cases h
      | ok text => exact absurd rfl (withElse_error (List.cons_ne_nil _ _) h)

theorem inOrder_error {a b : Lines} {e : PrintError} {j : Int} (h : inOrder a b = .error ⟨e, [], j⟩) :
    a = .error ⟨e, [], j⟩ ∨ a = .ok [] ∧ b = .error ⟨e, [], j⟩ := by
  cases a with
  | error broken =>
    cases h
    exact .inl rfl
  | ok lines =>
    cases b with
    | error broken =>
      simp only [inOrder, before, Except.error.injEq, Broken.mk.injEq, List.append_eq_nil_iff] at h
      obtain ⟨rfl, ⟨rfl, hlines⟩, rfl⟩ := h
      exact .inr ⟨rfl, by rw [← hlines]⟩
    | ok later => cases h

end Print

namespace Node

variable {i j : Int} {e : PrintError}

theorem lines_of_failsAtOnce {n : Node} (h : n.FailsAtOnce i) : ∃ e, n.lines i = .error ⟨e, [], i⟩ := by
  induction h with
  | @line n broken hn h =>
    cases n with
    | program | block | conditionalStatement => cases hn
    | expressionStatement loc value =>
      obtain ⟨e, rfl⟩ := oneLine_error h
      exact ⟨e, h⟩
    | declaration loc left type right constant mutable =>
      simp only [lines, declarationLine] at h ⊢
      split at h
      · next hflags => exact ⟨_, if_pos hflags⟩
      · next hflags =>
        obtain ⟨e, rfl⟩ := oneLine_error h
        exact ⟨e, (if_neg hflags).trans h⟩
    | _ => exact ⟨_, rfl⟩
  | @program loc n front rest hfront _ ih =>
    obtain ⟨e, ih⟩ := ih
    refine ⟨e, ?_⟩
    rw [lines]
    clear * - hfront ih
    induction front with
    | nil => rw [List.nil_append, allLines, ih]; rfl
    | cons m front ihf =>
      obtain ⟨hm, hfront⟩ := List.forall_mem_cons.mp hfront
      rw [List.cons_append, allLines, hm, ihf hfront]
      rfl
  | @branch loc condition consequent alternate hd _ ih =>
    obtain ⟨e, ih⟩ := ih
    refine ⟨e, ?_⟩
    simp only [lines, hd, bracedIf, Bool.false_eq_true, if_false, ih, ifStatement]
  | @emptyBranch loc condition consequent alternate hd hempty =>
    simp only [lines, hd, bracedIf, Bool.false_eq_true, if_false, hempty, ifStatement]
    cases condition.text with
    | error e => exact ⟨e, rfl⟩
    | ok text => exact ⟨.emptyBranch, rfl⟩

mutual

theorem failsAtOnce_of_lines (n : Node) (h : n.lines i = .error ⟨e, [], j⟩) : n.FailsAtOnce i := by
  cases n with
  | program loc body =>
    obtain ⟨front, n, rest, rfl, hfront, hn⟩ := failsAtOnce_of_allLines body h
    exact .program hfront hn
  | block loc body =>
    cases body with
    | nil => cases h
    | cons n rest => exact absurd rfl (braced_error h)
  | conditionalStatement loc condition consequent alternate =>
    rw [lines] at h
    cases hd : alternate.isSome && consequent.dangles with
    | true =>
      simp only [hd, bracedIf, if_true] at h
      obtain h | h := ifStatement_error h
      · exact absurd rfl (braced_error h)
      · exact absurd rfl (isFull_braced _ _ _ h)
    | false =>
      simp only [hd, bracedIf, Bool.false_eq_true, if_false] at h
      obtain h | h := ifStatement_error h
      · exact .branch hd (failsAtOnce_of_lines consequent h)
      · exact .emptyBranch hd h
  | _ => exact .line rfl h

theorem failsAtOnce_of_allLines (l : List Node) (h : allLines i l = .error ⟨e, [], j⟩) :
    ∃ front n rest, l = front ++ n :: rest ∧ (∀ m ∈ front, m.lines i = .ok []) ∧ n.FailsAtOnce i := by
  cases l with
  | nil => cases h
  | cons n rest =>
    obtain hn | ⟨hn, hrest⟩ := inOrder_error h
    · exact ⟨[], n, rest, rfl, fun _ => (nomatch ·), failsAtOnce_of_lines n hn⟩
    · obtain ⟨front, m, rest, rfl, hfront, hm⟩ := failsAtOnce_of_allLines rest hrest
      exact ⟨n :: front, m, rest, rfl, List.forall_mem_cons.mpr ⟨hn, hfront⟩, hm⟩

end

/-- A failed statement leaves lines and a level of indentation that is no lower; it leaves no line exactly if it fails
at once, and the level is the same then. -/
theorem broken_of_lines {n : Node} {broken : Broken} (h : n.lines i = .error broken) :
    i ≤ broken.indent ∧ (broken.lines = [] ↔ n.FailsAtOnce i) ∧ (broken.lines = [] → broken.indent = i) := by
  have hle : i ≤ broken.indent := by
    have hsame := n.lines_same i i
    rw [h] at hsame
    cases hsame with
    | error e depth _ => exact Int.le_add_of_nonneg_right (Int.natCast_nonneg depth)
  have hiff : broken.lines = [] ↔ n.FailsAtOnce i := by
    constructor
    · intro hnil
      refine failsAtOnce_of_lines n (e := broken.error) (j := broken.indent) ?_
      rw [h, ← hnil]
    · intro hn
      obtain ⟨e, he⟩ := lines_of_failsAtOnce hn
      rw [h] at he
      cases he
      rfl
  refine ⟨hle, hiff, fun hnil => ?_⟩
  obtain ⟨e, he⟩ := lines_of_failsAtOnce (hiff.mp hnil)
  rw [h] at he
  cases he
  rfl

end Node

namespace Sheet

theorem text_append (a b : List Text) (i : Int) :
    (⟨a ++ b, i⟩ : Sheet).text = (⟨a, i⟩ : Sheet).text ++ (⟨b, i⟩ : Sheet).text :=
  List.flatMap_append

/-- Deeper lines are no shorter. -/
theorem length_text_le {i j : Int} (hij : i ≤ j) {a b : List Text} (h : SameLines i j a b) :
    (⟨a, i⟩ : Sheet).text.length ≤ (⟨b, j⟩ : Sheet).text.length := by
  induction h with
  | nil => exact Nat.le_refl _
  | @cons x y xs ys hxy _ ih =>
    obtain ⟨depth, t, rfl, rfl⟩ := hxy
    have hline : (line (i + depth) t).length ≤ (line (j + depth) t).length := by
      simp only [line, indentation, List.length_append, List.length_replicate]
      omega
    simp only [text, List.flatMap_cons, List.length_append] at ih ⊢
    omega

/-- A sheet with more lines has more text. -/
theorem length_text_lt {a : List Text} (h : a ≠ []) (i : Int) : 0 < (⟨a, i⟩ : Sheet).text.length := by
  cases a with
  | nil => exact absurd rfl h
  | cons first rest =>
    simp only [text, List.flatMap_cons, List.length_append]
    show 0 < first.length + 1 + _
    omega

variable {s later : Sheet}

/-- What a failed statement leaves on a sheet is what it leaves on an empty one, behind the lines that stood there. -/
theorem addStatement_error {n : Node} {e : PrintError} (h : s.addStatement n = (.error e, later)) :
    ∃ added : List Text, later.lines = s.lines ++ added ∧ s.indent ≤ later.indent ∧
      (⟨[], s.indent⟩ : Sheet).addStatement n = (.error e, ⟨added, later.indent⟩) ∧ (added = [] → later = s) ∧
      (later = s ↔ n.FailsAtOnce s.indent) := by
  rw [addStatement_eq] at h
  cases hl : n.lines s.indent with
  | ok lines =>
    rw [hl] at h
    cases h
  | error broken =>
    rw [hl] at h
    cases h
    obtain ⟨hle, hiff, hsame⟩ := Node.broken_of_lines hl
    have hnone (hnil : broken.lines = []) : (⟨s.lines ++ broken.lines, broken.indent⟩ : Sheet) = s := by
      rw [hsame hnil, hnil, List.append_nil]
    refine ⟨broken.lines, rfl, hle, ?_, hnone, ?_⟩
    · rw [addStatement_eq]
      show Sheet.add _ (n.lines s.indent) = _
      rw [hl]
      rfl
    · rw [← hiff]
      exact ⟨fun heq => List.append_right_eq_self.mp (congrArg Sheet.lines heq), hnone⟩

theorem addExpression_error {n : Node} {e : PrintError} (h : s.addExpression n = (.error e, later)) : later = s := by
  rw [addExpression] at h
  cases ht : n.text with
  | ok text =>
    rw [ht] at h
    cases h
  | error e =>
    rw [ht] at h
    cases h
    simp

end Sheet

namespace Output

variable {s later : Sheet}

/-- What a failed run leaves on a sheet, in which only programs have lines to leave. -/
theorem write_error {tree : Option Node} {e : OutputError} {o : Output} (h : (sources s).write tree = (.error e, o)) :
    ∃ later, o = .sources later ∧ ∃ added : List Text, later.lines = s.lines ++ added ∧ s.indent ≤ later.indent ∧
      (added = [] → later = s) ∧
      (later = s ↔ ∀ loc body, tree = some (.program loc body) → (Node.program loc body).FailsAtOnce s.indent) := by
  cases tree with
  | none =>
    cases h
    exact ⟨s, rfl, [], (List.append_nil _).symm, Int.le_refl _, fun _ => rfl, fun _ _ _ h => (by cases h), fun _ => rfl⟩
  | some n =>
    cases ht : s.addTree n with
    | mk outcome later =>
      cases outcome with
      | ok done =>
        simp only [write, ht] at h
        cases h
      | error fault =>
        simp only [write, ht] at h
        cases h
        refine ⟨later, rfl, ?_⟩
        cases n with
        | program loc body =>
          obtain ⟨added, hlines, hle, -, hnone, hiff⟩ := Sheet.addStatement_error ht
          refine ⟨added, hlines, hle, hnone, hiff.trans ⟨fun h => ?_, fun h => h loc body rfl⟩⟩
          rintro _ _ ⟨⟩
          exact h
        | _ =>
          obtain rfl := Sheet.addExpression_error ht
          exact ⟨[], (List.append_nil _).symm, Int.le_refl _, fun _ => rfl, fun _ _ _ h => (by cases h), fun _ => rfl⟩

/-- With lines that stood there before, or at a deeper level, the text put out is longer. -/
theorem write_behind {added : List Text} (hlines : later.lines = s.lines ++ added) (hle : s.indent ≤ later.indent)
    (hsame : added = [] → later = s) {n : Node} {text : Text} {after : Output}
    (h : (sources later).write (some n) = (.ok text, after)) :
    ∃ plain, ((sources s).write (some n)).1 = .ok plain ∧ (text = plain ↔ later = s) := by
  obtain ⟨lines, hl⟩ := treeLines_of_write h
  have hsames := n.treeLines_same s.indent later.indent
  rw [hl] at hsames
  cases hs : n.treeLines s.indent with
  | error broken =>
    rw [hs] at hsames
    cases hsames
  | ok plain =>
    rw [hs] at hsames
    have hsames : SameLines s.indent later.indent plain lines := by
      cases hsames with
      | ok hsames => exact hsames
    rw [write_sources hl] at h
    cases h
    refine ⟨_, congrArg Prod.fst (write_sources hs), fun heq => ?_, ?_⟩
    · refine hsame (by_contra fun hne => ?_)
      have hadded := Sheet.length_text_lt hne later.indent
      have hdeeper := Sheet.length_text_le hle hsames
      have hstood : (⟨s.lines, later.indent⟩ : Sheet).text = (⟨s.lines, s.indent⟩ : Sheet).text := rfl
      have hlen := congrArg List.length heq
      simp only [hlines, Sheet.text_append, List.length_append, hstood] at hlen
      omega
    · rintro rfl
      cases hl.symm.trans hs
      rfl

end Output

/-- A failed emission leaves no more than the lines it had finished. The lines that stood on the sheet stay in front,
behind them comes what the same failure leaves on an empty sheet at that level of indentation, which is never lowered,
and nothing is left exactly if the fault comes before the first line, as it does in every expression. So the next tree
that is put out has the text that it would have had without the failure exactly if nothing was left. -/
theorem failure_leaves_finished_lines :
    (∀ (s later : Sheet) (n : Node) (e : PrintError), s.addStatement n = (.error e, later) →
      ∃ added : List Text, later.lines = s.lines ++ added ∧ s.indent ≤ later.indent ∧
        (⟨[], s.indent⟩ : Sheet).addStatement n = (.error e, ⟨added, later.indent⟩) ∧
        (later = s ↔ n.FailsAtOnce s.indent)) ∧
    (∀ (s later : Sheet) (n : Node) (e : PrintError), s.addExpression n = (.error e, later) → later = s) ∧
    ∀ (s : Sheet) (tree : Option Node) (e : OutputError) (o : Output), (Output.sources s).write tree = (.error e, o) →
      ∃ later, o = .sources later ∧ s.lines <+: later.lines ∧ s.indent ≤ later.indent ∧
        (later = s ↔ ∀ loc body, tree = some (.program loc body) → (Node.program loc body).FailsAtOnce s.indent) ∧
        ∀ (next : Node) (text : Text) (after : Output), o.write (some next) = (.ok text, after) →
          ∃ plain, ((Output.sources s).write (some next)).1 = .ok plain ∧ (text = plain ↔ later = s) := by
  refine ⟨fun s later n e h => ?_, fun s later n e h => Sheet.addExpression_error h, fun s tree e o h => ?_⟩
  · obtain ⟨added, hlines, hle, hfresh, -, hiff⟩ := Sheet.addStatement_error h
    exact ⟨added, hlines, hle, hfresh, hiff⟩
  · obtain ⟨later, rfl, added, hlines, hle, hnone, hiff⟩ := Output.write_error h
    exact ⟨later, rfl, ⟨added, hlines.symm⟩, hle, hiff, fun next text after => Output.write_behind hlines hle hnone⟩

theorem failure_leaves_finished_lines_nested :
    let a : Node := .identifier .unknown "a"
    let done : Node := .expressionStatement .unknown a
    let odd : Node := .declaration .unknown a none none true true
    let branches : Node := .conditionalStatement .unknown a (.block .unknown [done, odd]) none
    let s : Sheet := ⟨["x;"], 0⟩
    let later : Sheet := ⟨["x;", "a;", "\x7b", "    a;"], 1⟩
    let tree : Node := .program .unknown [done, branches]
    let after : Sheet := ⟨["x;", "a;", "\x7b", "    a;", "    a"], 1⟩
    (s.addStatement tree = (.error .mutableConstant, later) ∧
      ∃ added : List Text, later.lines = s.lines ++ added ∧ s.indent ≤ later.indent ∧
        (⟨[], s.indent⟩ : Sheet).addStatement tree = (.error .mutableConstant, ⟨added, later.indent⟩) ∧
        (later = s ↔ tree.FailsAtOnce s.indent)) ∧
    (∃ same, s.addExpression odd = (.error (.noExpression "VariableDeclaration"), same) ∧ same = s) ∧
    ((Output.sources s).write (some tree) = (.error (.unprintable .mutableConstant), .sources later) ∧
      (Output.sources later).write (some a) = (.ok after.text, .sources after) ∧
      ∃ plain, ((Output.sources s).write (some a)).1 = .ok plain ∧ (after.text = plain ↔ later = s)) := by
  intro a done odd branches s later tree after
  have hfails : s.addStatement tree = (.error .mutableConstant, later) := by cbv
  have hexpression : s.addExpression odd = (.error (.noExpression "VariableDeclaration"), s) := by cbv
  have hwrite : (Output.sources s).write (some tree) = (.error (.unprintable .mutableConstant), .sources later) := by
    cbv
  have hnext : (Output.sources later).write (some a) = (.ok after.text, .sources after) := by cbv
  obtain ⟨hstatements, hexpressions, hrest⟩ := failure_leaves_finished_lines
  obtain ⟨found, hfound, -, -, -, hafter⟩ := hrest s (some tree) _ _ hwrite
  cases hfound
  exact ⟨⟨hfails, hstatements s later tree _ hfails⟩, ⟨s, hexpression, hexpressions s s odd _ hexpression⟩, hwrite,
    hnext, hafter a after.text _ hnext⟩

/-- A program that fails leaves its first line on the sheet, and the next program is put out behind it. -/
theorem failedProgram_leaves_line :
    let statement (name : Text) : Node := .expressionStatement .unknown (.identifier .unknown name)
    let odd : Node := .declaration .unknown (.identifier .unknown "y") none none true true
    let failing : Node := .program .unknown [statement "x", odd]
    let next : Node := .program .unknown [statement "z"]
    let output := Output.ofTarget .mag false none
    let later : Output := .sources ⟨["x;"], 0⟩
    output.write (some failing) = (.error (.unprintable .mutableConstant), later) ∧ later ≠ output ∧
      (later.write (some next)).1 = .ok "x;\nz;\n" ∧ (output.write (some next)).1 = .ok "z;\n" := by
  refine ⟨by cbv, ?_, by cbv, by cbv⟩
  rintro ⟨⟩

end MagSyntax
