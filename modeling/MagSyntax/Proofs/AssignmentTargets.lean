import MagSyntax.Print.Sheet
import MagSyntax.Proofs.GroupStatements
import MagSyntax.Proofs.Powers

/-! Assignments. Whatever operand stands before the sign of assignment is read first and looked at then: a name,
a part of something that a name is at the root of, and an array of such targets can be assigned to, and
nothing else. Outside of parentheses an assignment is no statement at all. -/

namespace MagSyntax

open Parse Parse.Stretch Input

namespace Node

mutual

/-- Something can be assigned to the expression. -/
def isAssignable : Node → Bool
  | .identifier .. => true
  | .field _ object _ => object.isRooted
  | .index _ object _ => object.isRooted
  | .array _ elements => allAssignable elements
  | _ => false

/-- Something can be assigned to each of the expressions. -/
def allAssignable : List Node → Bool
  | [] => true
  | n :: rest => n.isAssignable && allAssignable rest

end

mutual

/-- An array as a pattern, and the arrays among its elements too; whatever else stands inside stays as it is. -/
def patterned : Node → Node
  | .array loc elements => .arrayPattern loc (allPatterned elements)
  | n => n

/-- The arrays among the expressions as patterns. -/
def allPatterned : List Node → List Node
  | [] => []
  | n :: rest => n.patterned :: allPatterned rest

end

mutual

theorem asTarget_of_isAssignable (n : Node) (h : n.isAssignable) : n.asTarget = .ok n.patterned := by
  cases n with
  | identifier => rfl
  | field loc object name => exact if_pos h
  | index loc object i => exact if_pos h
  | array loc elements => simp only [asTarget, patterned, asTargets_of_allAssignable elements h]
  | _ => cases h

theorem asTargets_of_allAssignable (l : List Node) (h : allAssignable l) :
    asTargets l = .ok (allPatterned l) := by
  cases l with
  | nil => rfl
  | cons n rest =>
    simp only [allAssignable, Bool.and_eq_true] at h
    simp only [asTargets, allPatterned, asTarget_of_isAssignable n h.1, asTargets_of_allAssignable rest h.2]

end

mutual

/-- What cannot be assigned to has a part that cannot, which is no array. -/
theorem asTarget_of_not_isAssignable (n : Node) (h : n.isAssignable = false) :
    ∃ part, n.asTarget = .error part ∧ part.isAssignable = false := by
  cases n with
  | identifier => cases h
  | field loc object name => exact ⟨_, if_neg (Bool.eq_false_iff.mp h), h⟩
  | index loc object i => exact ⟨_, if_neg (Bool.eq_false_iff.mp h), h⟩
  | array loc elements =>
    obtain ⟨part, hpart, hn⟩ := asTargets_of_not_allAssignable elements h
    exact ⟨part, by simp only [asTarget, hpart], hn⟩
  | _ => exact ⟨_, rfl, rfl⟩

theorem asTargets_of_not_allAssignable (l : List Node) (h : allAssignable l = false) :
    ∃ part, asTargets l = .error part ∧ part.isAssignable = false := by
  cases l with
  | nil => cases h
  | cons n rest =>
    cases hn : n.isAssignable with
    | false =>
      obtain ⟨part, hpart, hp⟩ := asTarget_of_not_isAssignable n hn
      exact ⟨part, by simp only [asTargets, hpart], hp⟩
    | true =>
      rw [allAssignable, hn, Bool.true_and] at h
      obtain ⟨part, hpart, hp⟩ := asTargets_of_not_allAssignable rest h
      exact ⟨part, by simp only [asTargets, asTarget_of_isAssignable n hn, hpart], hp⟩

end

mutual

/-- A pattern is written as the array is. -/
theorem text_patterned (n : Node) : n.patterned.text = n.text := by
  cases n with
  | array loc elements => simp only [patterned, text, allTexts_allPatterned elements]
  | _ => rfl

theorem allTexts_allPatterned (l : List Node) : allTexts (allPatterned l) = allTexts l := by
  cases l with
  | nil => rfl
  | cons n rest => simp only [allPatterned, allTexts, text_patterned n, allTexts_allPatterned rest]

end

end Node

namespace Grammar

variable {input : Input} {may : Failure → Prop} {c d stop b : Nat} {e r : Node} {left right : List Token}

/-- An operand before a sign of assignment. If it can be assigned to, an assignment of what is behind the sign
is found, and otherwise the sign is complained about before anything behind it is read. -/
theorem finds_assignment {call : Rule → Parse Node}
    (hl : Finds (plain input) (fun _ => True) may (call .operand) c fun v s => v = e ∧ s = d)
    (hassign : (input.get d).kind = Symbol.assign)
    (hr : e.isAssignable →
      Finds (plain input) (fun _ => True) may (call .expression) (d + 1) fun v s => v = r ∧ s = stop)
    (hbad : ∀ part, e.asTarget = .error part →
      may (.mismatch (.ofToken (.assignmentTarget part.typeName) (input.get d)))) :
    Finds (plain input) (fun _ => True) may (expression call) c fun v s =>
      e.isAssignable ∧ v = .assignment e.loc e.patterned r "=" ∧ s = stop := by
  refine hl.bind ?_
  rintro left _ ⟨rfl, rfl⟩
  rw [finds_accept_bind, input_plain, if_pos (by simp [hassign]), after_of_ne _ (by simp [hassign])]
  cases hn : left.isAssignable with
  | true =>
    simp only [toTarget, left.asTarget_of_isAssignable hn]
    rw [finds_pure_bind]
    refine (hr hn).bind ?_
    rintro _ _ ⟨rfl, rfl⟩
    exact finds_pure ⟨trivial, rfl, rfl⟩
  | false =>
    obtain ⟨part, hpart, -⟩ := left.asTarget_of_not_isAssignable hn
    simp only [toTarget, hpart]
    exact finds_fail_bind (hbad part hpart)

/-- A program of one assignment in parentheses. -/
theorem finds_groupedAssignment (hl : IsPhrase .operand left e) (hopen : e.endsOpen = false)
    (hr : e.isAssignable → IsPhrase .expression right r) {opening assign closing semi : Token}
    (hopening : opening.kind = Symbol.lparen) (hassign : assign.kind = Symbol.assign)
    (hclosing : closing.kind = Symbol.rparen) (hsemi : semi.kind = Symbol.semi)
    (hcontains : input.Contains 0 (opening :: (left ++ assign :: (right ++ [closing, semi]))))
    (hend : (input.get (left.length + right.length + 4)).kind = .eof) :
    Finds (plain input) (fun _ => True) (Failure.Misses fun error => ∃ part, e.asTarget = .error part ∧
        error = .ofToken (.assignmentTarget part.typeName) assign)
      (parse b 0 .program) 0 fun v s => e.isAssignable ∧ s = left.length + right.length + 4 ∧
        v = .program (locOf opening) [.expressionStatement (locOf opening)
          (.parenthesized (locOf opening) (.assignment e.loc e.patterned r "="))] := by
  obtain ⟨rfl, hcontains⟩ := hcontains
  obtain ⟨hleft, rfl, hrest⟩ := contains_append.mp hcontains
  obtain ⟨hright, rfl, rfl, -⟩ := contains_append.mp hrest
  have hexpression (b : Nat) : Finds (plain input) (fun _ => True)
      (Failure.Misses fun error => ∃ part, e.asTarget = .error part ∧
        error = .ofToken (.assignmentTarget part.typeName) (input.get (0 + 1 + left.length)))
      (parse b 2 .expression) 1 fun v s => e.isAssignable ∧ v = .assignment e.loc e.patterned r "=" ∧
        s = 0 + 1 + left.length + 1 + right.length := by
    refine finds_plain trivial (fun n => ?_) b 2
    rw [body]
    refine finds_assignment ?_ hassign (fun hn => ?_) fun part hpart => ⟨part, hpart, rfl⟩
    · exact (hl.finds hleft (by rw [hassign]; decide) (fun _ => ⟨by decide, hopen⟩) n).mono
        (fun _ => Failure.IsExhausted.misses) fun _ _ => id
    · exact ((hr hn).finds hright (by rw [hclosing]; decide)
        (fun h => absurd (hclosing.symm.trans h) (by decide)) n).mono
        (fun _ => Failure.IsExhausted.misses) fun _ _ => id
  have hstop : 0 + 1 + left.length + 1 + right.length + 2 = left.length + right.length + 4 := by omega
  refine (finds_groupProgram trivial hopening hexpression ?_ b).imp ?_
  · rintro _ _ ⟨-, -, rfl⟩
    exact ⟨hclosing, hsemi, hstop ▸ hend⟩
  · rintro _ _ ⟨_, _, ⟨hn, rfl, rfl⟩, rfl, rfl⟩
    exact ⟨hn, hstop, rfl⟩

/-- A statement that starts as an operand does, but not with an `if`, is an operand and a semicolon. -/
theorem finds_statement_of_starter {call : Rule → Parse Node} {found : Node → Nat → Prop}
    (hk : (input.get c).kind ∈ Rule.starters) (hif : (input.get c).kind ≠ Keyword.ifWord)
    (h : Finds (plain input) (fun _ => True) may (call .expressionStatement) c found) :
    Finds (plain input) (fun _ => True) may (statement call) c found := by
  simp only [statement]
  rw [finds_current_bind, input_plain]
  generalize (input.get c).kind = kind at hk hif
  split <;> first | exact h | simp_all [Rule.starters]

/-- A program that starts with an operand and a sign of assignment behind it. -/
theorem finds_bareAssignment (hx : may .exhausted)
    (hl : ∀ b, Finds (plain input) (fun _ => True) may (parse b 1 .operand) 0 fun _ s => s = d)
    (hk : (input.get 0).kind ∈ Rule.starters) (hif : (input.get 0).kind ≠ Keyword.ifWord)
    (hassign : (input.get d).kind = Symbol.assign)
    (hbare : may (.mismatch (.ofToken .bareAssignment (input.get d)))) :
    Finds (plain input) (fun _ => True) may (parse b 0 .program) 0 fun _ _ => False := by
  have hstatement (b : Nat) :
      Finds (plain input) (fun _ => True) may (parse b 0 .expressionStatement) 0 fun _ _ => False := by
    refine finds_plain hx (fun n => (hl n).bind ?_) b 0
    rintro _ _ rfl
    rw [finds_sees_bind, input_plain, decide_eq_true hassign]
    exact finds_complain_bind_of hbare
  have hstatement (b : Nat) :
      Finds (plain input) (fun _ => True) may (parse b 2 .statement) 0 fun _ _ => False := by
    refine finds_plain hx (fun n => ?_) b 2
    rw [body]
    exact finds_statement_of_starter hk hif (hstatement n)
  refine (finds_oneStatement hx (asked_ne_eof (List.mem_append_left _ hk)) hstatement (fun _ _ h => h.elim) b).imp ?_
  rintro _ _ ⟨_, h, -⟩
  exact h

/-- An assignment to a target runs out of the budget if what is assigned does. -/
theorem ends_assignment_exhausted {k : Course} {P Q R : Memo → Prop} {s : Nat} (hr : k.Recalls P R c .exhausted)
    (hfits : k.Fits d) (hl : Ends k P Q (parse b 1 .operand) c (d + 1) (.found e s)) (he : e.isAssignable)
    (hassign : (k.input.get s).kind = Symbol.assign)
    (h : Ends k Q R (parse b 2 .expression) (s + 1) (d + 1) .exhausted) :
    Ends k P R (parse (b + 3) 2 .expression) c d .exhausted := by
  have htarget : Ends k Q Q (toTarget e (k.input.get s)) (s + 1) (d + 1) (.found e.patterned (s + 1)) := by
    simp only [toTarget, e.asTarget_of_isAssignable he]
    exact .pure
  refine .recalling hr (.nested hfits (.bind hl ?_))
  exact .bind (.accept (by simp [hassign]) (by simp [hassign])) (.bind htarget (.bind_exhausted h))

end Grammar

/-- An operand starts with a token that operands start with. -/
theorem IsPhrase.starts {tokens : List Token} {n : Node} (h : IsPhrase .operand tokens n) :
    ((Input.ofTokens tokens).get 0).kind ∈ Rule.starters := by
  by_contra hk
  obtain ⟨b, p, hp, -⟩ := h.read
  have hprimary (b : Nat) : Finds (plain (.ofTokens tokens)) (fun _ => True) (fun _ => True)
      (Grammar.parse b 0 .primary) 0 fun _ _ => False := by
    refine Grammar.finds_plain trivial (fun n p hp _ => ?_) b 0
    rw [Grammar.body, Grammar.primary_of_not_starter (hp ▸ hk)]
    exact ⟨trivial, trivial⟩
  have hoperand := Grammar.finds_operand_of_primary trivial (fun hs => hk (hs ▸ by decide)) hprimary
    (fun _ _ h => h.elim) b .start rfl trivial
  rw [show Rule.operand.surcharge = 1 from rfl] at hp
  rw [hp] at hoperand
  exact hoperand.2

namespace Entry

open Grammar

variable {left right : List Token} {e r : Node} {opening assign closing semi : Token}

/-- An assignment in parentheses is read as one if its left side can be assigned to, with the arrays in it as
patterns; if it cannot, the sign of assignment is complained about. -/
theorem groupedAssignment (hopening : opening.kind = Symbol.lparen) (hassign : assign.kind = Symbol.assign)
    (hclosing : closing.kind = Symbol.rparen) (hsemi : semi.kind = Symbol.semi)
    (hl : Rule.operand.ReadsAll left e) (hopen : e.endsOpen = false)
    (hr : Rule.expression.ReadsAll right r) (hleft : ¬Rule.operand.CutsShort left)
    (hright : ¬Rule.expression.CutsShort right) :
    let grouped := opening :: (left ++ assign :: (right ++ [closing, semi]))
    Rule.program.CutsShort grouped ∨
      (e.isAssignable ∧ program.ofInput (.ofTokens grouped) = .ok (.program (locOf opening)
        [.expressionStatement (locOf opening) (.parenthesized (locOf opening)
          (.assignment e.loc e.patterned r "="))])) ∨
      e.isAssignable = false ∧ ∃ part, e.asTarget = .error part ∧
        program.ofInput (.ofTokens grouped) = .error (.ofToken (.assignmentTarget part.typeName) assign) := by
  intro grouped
  have hinside : ∀ t ∈ grouped, t.kind ≠ .eof := by
    simp only [grouped, List.forall_mem_cons, List.forall_mem_append]
    exact ⟨by rw [hopening]; decide, hl.inside, by rw [hassign]; decide, hr.inside, by rw [hclosing]; decide,
      by rw [hsemi]; decide, List.forall_mem_nil _⟩
  obtain ⟨hcontains, place, hend⟩ := contains_ofTokens hinside
  have hlength : grouped.length = left.length + right.length + 4 := by
    simp only [grouped, List.length_cons, List.length_append, List.length_nil]
    omega
  rw [hlength] at hend
  have hfinds (b : Nat) := finds_groupedAssignment (b := b) (hl.isPhrase (.inl rfl) hleft) hopen
    (fun _ => hr.isPhrase (.inl rfl) hright) hopening hassign hclosing hsemi hcontains (by rw [hend]; rfl)
  refine (rule_of_finds (r := .program) (kind_last_ofTokens grouped) hfinds).imp_right ?_
  rintro (⟨v, p, hp, hn, hstop, rfl⟩ | ⟨_, p, hp, part, hpart, rfl⟩)
  · exact .inl ⟨hn, program.ofInput_of_ok hp (by rw [hstop, hend]; rfl)⟩
  · refine .inr ⟨?_, part, hpart, program.ofInput_of_failed hp⟩
    cases hn : e.isAssignable with
    | false => rfl
    | true =>
      rw [e.asTarget_of_isAssignable hn] at hpart
      cases hpart

/-- An assignment without parentheses is complained about whatever its left side is, unless that starts with an
`if`. -/
theorem bareAssignment_rejected (hassign : assign.kind = Symbol.assign) (hsemi : semi.kind = Symbol.semi)
    (hl : Rule.operand.ReadsAll left e) (hopen : e.endsOpen = false)
    (hr : Rule.expression.ReadsAll right r) (hleft : ¬Rule.operand.CutsShort left)
    (hif : ∀ first ∈ left.head?, first.kind ≠ Keyword.ifWord) :
    let bare := left ++ assign :: (right ++ [semi])
    Rule.program.CutsShort bare ∨
      program.ofInput (.ofTokens bare) = .error (.ofToken .bareAssignment assign) := by
  intro bare
  have hinside : ∀ t ∈ bare, t.kind ≠ .eof := by
    simp only [bare, List.forall_mem_cons, List.forall_mem_append]
    exact ⟨hl.inside, by rw [hassign]; decide, hr.inside, by rw [hsemi]; decide, List.forall_mem_nil _⟩
  have hphrase := hl.isPhrase (.inl rfl) hleft
  obtain ⟨hwhole, hget, -⟩ := contains_append.mp (contains_ofTokens hinside).1
  have hfirst := get_of_contains hwhole hphrase.nonempty
  have hstarts := hphrase.starts
  rw [get_of_contains (contains_ofTokens hl.inside).1 hphrase.nonempty] at hstarts
  have hfinds (b : Nat) : Finds (plain (.ofTokens bare)) (fun _ => True)
      (Failure.Misses (· = .ofToken .bareAssignment assign)) (Grammar.parse b 0 .program) 0 fun _ _ => False := by
    refine finds_bareAssignment (d := 0 + left.length) trivial (fun n => ?_) ?_ ?_ (by rw [hget, hassign])
      (by rw [hget]; rfl)
    · exact (hphrase.finds hwhole (by rw [hget, hassign]; decide) (fun _ => ⟨by decide, hopen⟩) n).mono
        (fun _ => Failure.IsExhausted.misses) fun _ _ h => h.2
    · exact hfirst ▸ hstarts
    · exact hfirst ▸ hif _ (List.head?_eq_getElem? ▸ List.getElem?_eq_getElem hphrase.nonempty)
  refine (rule_of_finds (r := .program) (kind_last_ofTokens bare) hfinds).imp_right ?_
  rintro (⟨v, p, hp, h⟩ | ⟨_, p, hp, rfl⟩)
  · exact h.elim
  · exact program.ofInput_of_failed hp

/-- An assignment in parentheses is accepted exactly if its left side can be assigned to, and what is found is
written as that is. Otherwise, and always without parentheses, the sign of assignment is complained about. -/
theorem assignment_targets (hopening : opening.kind = Symbol.lparen) (hassign : assign.kind = Symbol.assign)
    (hclosing : closing.kind = Symbol.rparen) (hsemi : semi.kind = Symbol.semi)
    (hl : Rule.operand.ReadsAll left e) (hopen : e.endsOpen = false)
    (hr : Rule.expression.ReadsAll right r) :
    let grouped := opening :: (left ++ assign :: (right ++ [closing, semi]))
    let bare := left ++ assign :: (right ++ [semi])
    Rule.operand.CutsShort left ∨
      (Rule.expression.CutsShort right ∨ Rule.program.CutsShort grouped ∨
        (e.isAssignable ∧ e.patterned.text = e.text ∧
          program.ofInput (.ofTokens grouped) = .ok (.program (locOf opening)
            [.expressionStatement (locOf opening) (.parenthesized (locOf opening)
              (.assignment e.loc e.patterned r "="))])) ∨
        e.isAssignable = false ∧ ∃ part, e.asTarget = .error part ∧
          program.ofInput (.ofTokens grouped) = .error (.ofToken (.assignmentTarget part.typeName) assign)) ∧
      ((∀ first ∈ left.head?, first.kind ≠ Keyword.ifWord) → Rule.program.CutsShort bare ∨
        program.ofInput (.ofTokens bare) = .error (.ofToken .bareAssignment assign)) := by
  intro grouped bare
  by_cases hleft : Rule.operand.CutsShort left
  · exact .inl hleft
  refine .inr ⟨?_, bareAssignment_rejected hassign hsemi hl hopen hr hleft⟩
  by_cases hright : Rule.expression.CutsShort right
  · exact .inl hright
  refine .inr ((groupedAssignment hopening hassign hclosing hsemi hl hopen hr hleft hright).imp_right ?_)
  rintro (⟨hn, hok⟩ | hrejected)
  · exact .inl ⟨hn, e.text_patterned, hok⟩
  · exact .inr hrejected

/-- The assignment `([a, b[[c]]] = d);`, with and without its parentheses. -/
theorem assignment_targets_nested :
    let symbol (s : Symbol) : Token := .ofLexeme (.ofSymbol s) ⟨0, 1, 1⟩
    let word (name : Text) : Token := ⟨⟨.ident, name, 10, []⟩, ⟨0, 1, 1⟩⟩
    let left := [symbol .lbrack, word "a", symbol .comma, word "b", symbol .lbrack, symbol .lbrack, word "c",
      symbol .rbrack, symbol .rbrack, symbol .rbrack]
    let right := [word "d"]
    let name (n : Text) : Node := .identifier ⟨1, 1⟩ n
    let parts := [name "a", .index ⟨1, 1⟩ (name "b") (.array ⟨1, 1⟩ [name "c"])]
    Rule.operand.ReadsAll left (.array ⟨1, 1⟩ parts) ∧ Rule.expression.ReadsAll right (name "d") ∧
      program.ofInput (.ofTokens (symbol .lparen :: (left ++ symbol .assign ::
          (right ++ [symbol .rparen, symbol .semi])))) =
        .ok (.program ⟨1, 1⟩ [.expressionStatement ⟨1, 1⟩ (.parenthesized ⟨1, 1⟩
          (.assignment ⟨1, 1⟩ (.arrayPattern ⟨1, 1⟩ parts) (name "d") "="))]) ∧
      program.ofInput (.ofTokens (left ++ symbol .assign :: (right ++ [symbol .semi]))) =
        .error (.ofToken .bareAssignment (symbol .assign)) := by
  intro symbol word left right name parts
  have hl : Rule.operand.ReadsAll left (.array ⟨1, 1⟩ parts) := .of_finding (by cbv)
  have hr : Rule.expression.ReadsAll right (name "d") := .of_finding (by cbv)
  obtain ⟨hgrouped, hbare⟩ := (@assignment_targets left right _ _ (symbol .lparen) (symbol .assign)
    (symbol .rparen) (symbol .semi) rfl rfl rfl rfl hl rfl hr).resolve_left (by decide +kernel)
  obtain ⟨-, -, hok⟩ := ((hgrouped.resolve_left (by decide +kernel)).resolve_left
    (by decide +kernel)).resolve_right fun h => Bool.true_eq_false.mp h.1
  exact ⟨hl, hr, hok, (hbare (by rintro _ ⟨⟩; decide)).resolve_left (by decide +kernel)⟩

/-- Powers that are assigned to a name use up the budget, if they leave less of it than the assignment takes. -/
theorem assignedPowers_exhausted {input : Input} {n : Nat} (hn : 9961 ≤ n)
    (hopening : (input.get 0).kind = Symbol.lparen) (hname : (input.get 1).kind = .ident)
    (hassign : (input.get 2).kind = Symbol.assign) (hpowers : input.Shows 3 (Node.powers n).lexemes) :
    Ends (.usual input) Course.untried Course.anything (Grammar.rule .program) 0 0 .exhausted := by
  have hfits (d : Nat) (hd : d < 256) := Course.fits_usual input hd
  -- nothing is tried at the powers before the name and the sign have been read
  have hprimary : Ends (.usual input) Course.untried (Course.UntriedAt 3) (Grammar.parse 9961 0 .primary) 1 2
      (.found (.identifier (locOf (input.get 1)) (input.get 1).value) 2) :=
    (ends_primary_identifier hname).mono (fun _ h => h) fun m (h : m = .empty) r => h ▸ Memo.find?_empty _
  have hoperand := ends_operand_of_primary ((Course.usual input).recalls_elsewhere (by decide) _) hprimary
    (by rw [Course.usual, hname]; decide) (.of_found (by rw [Course.usual, hassign]; decide))
  have hright := powers_expression_exhausted n (Nat.le_add_right_of_le hn) hpowers
    ((Course.usual input).recalls_untriedAt 3 _)
    (fun _ _ => trivial) (hfits 2 (by decide))
  have hexpression := ends_assignment_exhausted ((Course.usual input).recalls_untried 1 _) (hfits 1 (by decide))
    hoperand rfl hassign hright
  exact ends_groupProgram_exhausted ((Course.usual input).recalls_untried 0 _) (hfits 0 (by decide)) hopening
    hexpression

/-- Powers that the budget is just enough for are an expression, and are not read where they are assigned to a
name. -/
theorem assignedPowers_read_alone {n : Nat} (hn : 9961 ≤ n) (hn' : n ≤ 9976) :
    let symbol (s : Symbol) : Token := .ofLexeme (.ofSymbol s) ⟨0, 1, 1⟩
    let left : List Token := [⟨⟨.ident, "a", 10, []⟩, ⟨0, 1, 1⟩⟩]
    let right := (Node.powers n).tokens
    let grouped := symbol .lparen :: (left ++ symbol .assign :: (right ++ [symbol .rparen, symbol .semi]))
    (¬Rule.operand.CutsShort left ∧ ∃ e, Rule.operand.ReadsAll left e ∧ e.endsOpen = false ∧ e.isAssignable) ∧
      (¬Rule.expression.CutsShort right ∧ ∃ r, Rule.expression.ReadsAll right r) ∧
      ((Grammar.rule .program).run { input := .ofTokens grouped } .start).progress.refused = false ∧
      ∀ tree, program.ofInput (.ofTokens grouped) ≠ .ok tree := by
  intro symbol left right grouped
  have hleft : Rule.operand.ReadsAll left (.identifier ⟨1, 1⟩ "a") := .of_finding (by cbv)
  obtain ⟨hright, hread⟩ := Rule.readsAll_powers hn'
  have hinside : ∀ t ∈ grouped, t.kind ≠ .eof := by
    simp only [grouped, left, List.forall_mem_cons, List.forall_mem_append]
    exact ⟨by decide, ⟨by decide, List.forall_mem_nil _⟩, by decide, hread.choose_spec.inside, by decide,
      by decide, List.forall_mem_nil _⟩
  obtain ⟨place, he⟩ := ofTokens_eq hinside
  have hbehind : ∀ t ∈ [symbol .rparen, symbol .semi], t.kind ≠ .eof := by decide
  have hpowers := shows_powers n (symbol .lparen :: (left ++ [symbol .assign])) hbehind (.endAt place)
  obtain ⟨q, hq, hrefused⟩ := (@assignedPowers_exhausted (.ofTokens grouped) n hn (by rw [he]; rfl)
    (by rw [he]; rfl) (by rw [he]; rfl) (by rw [he]; exact hpowers)).run_exhausted
  refine ⟨⟨by decide +kernel, _, hleft, rfl, rfl⟩, ⟨hright, hread⟩, ?_, fun tree h => ?_⟩
  · exact (congrArg (·.progress.refused) hq).trans hrefused
  · rw [program.ofInput_of_failed hq] at h
    cases h

/-- A chain of powers that is an expression, and is not read where it is assigned to a name, although nothing
is nested too deeply. -/
theorem assignedPowers_not_read :
    let symbol (s : Symbol) : Token := .ofLexeme (.ofSymbol s) ⟨0, 1, 1⟩
    let left : List Token := [⟨⟨.ident, "a", 10, []⟩, ⟨0, 1, 1⟩⟩]
    let right := (Node.powers 9975).tokens
    let grouped := symbol .lparen :: (left ++ symbol .assign :: (right ++ [symbol .rparen, symbol .semi]))
    (¬Rule.operand.CutsShort left ∧ ∃ e, Rule.operand.ReadsAll left e ∧ e.endsOpen = false ∧ e.isAssignable) ∧
      (¬Rule.expression.CutsShort right ∧ ∃ r, Rule.expression.ReadsAll right r) ∧
      ((Grammar.rule .program).run { input := .ofTokens grouped } .start).progress.refused = false ∧
      ∀ tree, program.ofInput (.ofTokens grouped) ≠ .ok tree :=
  assignedPowers_read_alone (by decide) (by decide)

end Entry

end MagSyntax
