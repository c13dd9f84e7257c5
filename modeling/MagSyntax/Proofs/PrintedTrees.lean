import MagSyntax.Proofs.Printed

/-! What is printed for a tree lays out the lexemes that the tree has with what printing adds, if what
its nodes write themselves can be read. -/

namespace MagSyntax

open Print Text

namespace Node

/-- What the node writes besides its parts can be read from what is printed for it. -/
def IsLegible : Node → Prop
  | .identifier _ name => (Lexeme.mk .ident name 10 []).IsLegible
  | .numeric _ digits base =>
    (Lexeme.mk .number digits base []).IsLegible ∧
      numeral digits base = .ok (Lexeme.mk .number digits base []).spelled
  | .regex _ pattern flags => (Lexeme.mk .regex pattern 10 flags).IsLegible
  | .field _ _ name => Lexeme.IsName name.nameText
  | _ => True

/-- What the node writes besides the name of a field can be read from what is printed for it. -/
def IsReadable (n : Node) : Prop := (∀ loc object name, n ≠ field loc object name) → n.IsLegible

end Node

namespace Text

variable {s u v w : Text} {a b d : List Lexeme}

theorem laysOut_symbol_space (sym : Symbol) : (sym.spelling ++ " ").LaysOut [.ofSymbol sym] :=
  (prints_of_isLegible (Lexeme.isLegible_ofSymbol sym)).lays.space

theorem laysOut_space_symbol (sym : Symbol) :
    (" " ++ sym.spelling ++ " ").LaysOut [.ofSymbol sym] := by
  rw [List.append_assoc]
  exact (laysOut_gap isGap_space).andThen (laysOut_symbol_space sym)

theorem Prints.joinBy (sym : Symbol) (hs : s.Prints a) (hu : u.Prints b) :
    (s ++ " " ++ sym.spelling ++ " " ++ u).Prints (a ++ .ofSymbol sym :: b) := by
  have h := (laysOut_space_symbol sym).andThen hu.lays
  have hends : Ends (" " ++ sym.spelling ++ " " ++ u) := ends_cons (by decide) _
  simpa using hs.append h (fun t _ => hends t) fun _ h => h

theorem ends_dot (h : Lexeme.IsName w) : Ends ("." ++ w) := by
  obtain ⟨⟨c, r, rfl, hc⟩, -⟩ := h
  exact fun t => .inr ⟨rfl, CodePoint.isDigit_of_startsName hc⟩

theorem Prints.field (hs : s.Prints a) (hw : Lexeme.IsName w) :
    (s ++ "." ++ w).Prints (a ++ [.ofSymbol .dot, .ofWord w]) := by
  have hname := (prints_of_isLegible (Lexeme.isLegible_ofWord hw)).lays
  rw [Lexeme.spelled_ofWord] at hname
  have hdot : LaysOut "." [.ofSymbol .dot] := laysOut_symbol .dot (by decide)
  rw [List.append_assoc]
  exact hs.append (hdot.andThen hname) (fun t _ => ends_dot hw t) fun _ h => h

/-- A text between brackets that are ends both. -/
theorem laysOut_between (left right : Symbol) (hl : left.isTight) (hr : right.isTight)
    (he : right.spelling.Ends) (h : s.PrintsBefore Stops a) :
    (left.spelling ++ s ++ right.spelling).LaysOut (.ofSymbol left :: a ++ [.ofSymbol right]) :=
  ((laysOut_symbol left hl).andThen h).before (laysOut_symbol right hr) he

theorem Prints.between (hs : s.Prints a) (left right : Symbol) (hl : left.isTight) (hr : right.isTight)
    (hle : ∀ t, Ends (left.spelling ++ t)) (he : right.spelling.Ends) (h : u.PrintsBefore Stops b) :
    (s ++ left.spelling ++ u ++ right.spelling).Prints
      (a ++ .ofSymbol left :: b ++ [.ofSymbol right]) := by
  have hbetween := laysOut_between left right hl hr he h
  have hends : Ends (left.spelling ++ u ++ right.spelling) := by
    rw [List.append_assoc]
    exact hle _
  simpa using hs.append hbetween (fun t _ => hends t) fun _ _ => trivial

/-- The words of an `if` before its first branch, the branches, and an `else` between them. -/
theorem prints_branches (hhead : ∃ c r, s = c :: r ∧ c.isBlank = false) (hs : s.LaysOut a)
    (hu : u.PrintsBefore Stops b) (hv : v.PrintsBefore Stops d) :
    (s ++ u ++ " else " ++ v).Prints (a ++ b ++ .ofKeyword .elseWord :: d) := by
  have helse : LaysOut " else " [.ofKeyword .elseWord] := laysOut_space_word .elseWord
  have hrest := hu.before (helse.andThen hv) fun t => .inl (by decide)
  simpa using Prints.behind hhead hs hrest

/-- A bare condition behind its `if`. -/
theorem laysOut_if (hu : u.PrintsBefore Stops a) :
    ("if " ++ u ++ " ").LaysOut (.ofKeyword .ifWord :: a) := by
  have hif : LaysOut "if " [.ofKeyword .ifWord] := laysOut_word .ifWord
  exact (hif.andThen hu).space

theorem laysOut_if_then (hu : u.PrintsBefore Stops a) :
    ("if " ++ u ++ " then ").LaysOut (.ofKeyword .ifWord :: (a ++ [.ofKeyword .thenWord])) := by
  have hif : LaysOut "if " [.ofKeyword .ifWord] := laysOut_word .ifWord
  have hthen : LaysOut " then " [.ofKeyword .thenWord] := laysOut_space_word .thenWord
  exact (hif.andThen hu).before hthen fun t => .inl (by decide)

theorem isContent_symbol (sym : Symbol) {c : CodePoint} (hs : sym.spelling = [c]) (ht : sym.isTight)
    (hc : c.isBlank = false) : IsContent sym.spelling [.ofSymbol sym] :=
  ⟨⟨c, [], hs, hc⟩, ⟨[], c, hs, hc⟩, laysOut_symbol sym ht⟩

/-- A statement that ends in a semicolon. -/
theorem Prints.isContent (h : s.Prints a) : (s ++ ";").IsContent (a ++ [.ofSymbol .semi]) := by
  obtain ⟨c, r, rfl, hc⟩ := h.head
  exact ⟨⟨c, r ++ ";", rfl, hc⟩, ⟨_, _, rfl, by decide⟩,
    h.lays.before (laysOut_symbol .semi (by decide)) (ends_cons (by decide) _)⟩

variable {x y : List Text} {i : Int}

theorem LinesOf.braced (h : LinesOf x a) (i : Int) :
    LinesOf ([line i "\x7b"] ++ x ++ [line i "\x7d"]) (.ofSymbol .lbrace :: a ++ [.ofSymbol .rbrace]) := by
  have hopen : IsContent "\x7b" [.ofSymbol .lbrace] :=
    isContent_symbol .lbrace rfl (by decide) (by decide)
  have hclose : IsContent "\x7d" [.ofSymbol .rbrace] :=
    isContent_symbol .rbrace rfl (by decide) (by decide)
  exact ((singleton hopen).append h).append (singleton hclose)

/-- Words in front of the first line. -/
theorem LinesOf.headed {first : Text} {rest : List Text} (hhead : ∃ c r, s = c :: r ∧ c.isBlank = false)
    (hs : s.LaysOut a) (h : LinesOf (first :: rest) b) (i : Int) :
    LinesOf (line i (s ++ first.trimLeft) :: rest) (a ++ b) := by
  cases h with
  | cons hfirst hrest =>
    rw [trimLeft_line hfirst, ← List.append_assoc]
    exact cons (hfirst.behind hhead hs) hrest

theorem IsContent.joined {first : Text} {rest : List Text} (hs : s.IsContent a)
    (h : LinesOf (first :: rest) b) :
    LinesOf (line i (s ++ " else " ++ first.trimLeft) :: rest) (a ++ .ofKeyword .elseWord :: b) := by
  have helse : LaysOut " else " [.ofKeyword .elseWord] := laysOut_space_word .elseWord
  obtain ⟨c, r, rfl, hc⟩ := hs.head
  have := h.headed ⟨c, _, rfl, hc⟩ (hs.lays.andThen helse) i
  rwa [List.append_assoc] at this

/-- An `else` and lines behind those of an `if`. -/
theorem LinesOf.joinElse (hx : LinesOf x a) (hne : x ≠ []) (hy : LinesOf y b) (hne' : y ≠ [])
    (i : Int) : ∃ z, Print.joinElse i x y = .ok z ∧ z ≠ [] ∧
      LinesOf z (a ++ .ofKeyword .elseWord :: b) := by
  have helse : LaysOut "else " [.ofKeyword .elseWord] := laysOut_word .elseWord
  cases y with
  | nil => exact absurd rfl hne'
  | cons first rest =>
    obtain ⟨init, last, rfl⟩ := (List.eq_nil_or_concat x).resolve_left hne
    simp only [List.concat_eq_append] at *
    rw [Print.joinElse, List.getLast?_concat, List.dropLast_concat]
    simp only [Option.getD_some]
    split
    · obtain ⟨a₁, a₂, rfl, hinit, hlast⟩ := hx.of_append
      refine ⟨_, rfl, by simp, ?_⟩
      cases hlast with
      | @cons j s a₂ _ _ hs hnil =>
        cases hnil
        have hjoined := hinit.append (hs.joined hy (i := j))
        simpa [line] using hjoined
    · exact ⟨_, rfl, by simp, hx.append (hy.headed ⟨'e', _, rfl, by decide⟩ helse i)⟩

/-- A part of a declaration behind its mark, which may be missing. -/
def IsMarked (e : Except PrintError Text) (ls : List Lexeme) : Prop :=
  ∃ d, e = .ok d ∧ d.PrintsBefore Stops ls ∧ ∀ t : Text, t.Stops → (d ++ t).Stops

theorem isMarked_none {mark : Text} : IsMarked (marked mark none) [] :=
  ⟨[], rfl, laysOut_nil.weaken, fun _ h => h⟩

theorem isMarked_some {mark : Text} {sym : Symbol} (hm : mark.LaysOut [.ofSymbol sym])
    (he : ∀ t, Ends (mark ++ t)) (h : s.Prints a) :
    IsMarked (marked mark (some (.ok s))) (.ofSymbol sym :: a) :=
  ⟨mark ++ s, rfl, hm.andThen h.lays, fun t _ => he s t⟩

theorem laysOut_declarationWords (constant mutable : Bool) :
    (∃ c r, declarationWords constant mutable = c :: r ∧ c.isBlank = false) ∧
      (declarationWords constant mutable).LaysOut (Node.declarationWords constant mutable) := by
  have hlet : LaysOut "let " [.ofKeyword .letWord] := laysOut_word .letWord
  have hmut : LaysOut "mut " [.ofKeyword .mutWord] := laysOut_word .mutWord
  have hconst : LaysOut "const " [.ofKeyword .constWord] := laysOut_word .constWord
  cases constant with
  | true => exact ⟨⟨'c', _, rfl, by decide⟩, hconst⟩
  | false =>
    cases mutable with
    | true => exact ⟨⟨'l', _, rfl, by decide⟩, hlet.andThen hmut⟩
    | false => exact ⟨⟨'l', _, rfl, by decide⟩, hlet⟩

end Text

namespace Node

variable {P : Node → Prop}

theorem block_prints {loc : Loc} {body : List Node} {l : List Text} (hl : allLines 0 body = .ok l)
    (h : LinesOf l (allLexemes (allEnclosed body))) :
    ∃ s, (block loc body).branchText = .ok s ∧
      s.PrintsBefore Stops (block loc body).enclosed.lexemes :=
  ⟨_, inlined_iff.mpr ⟨l, hl, rfl⟩, h.inline.lays.weaken⟩

mutual

theorem text_prints (hP : ∀ m, P m → m.IsLegible) (n : Node) (h : n.ExpressionOf P) :
    ∃ s, n.text = .ok s ∧ s.Prints n.enclosed.lexemes := by
  cases n with
  | identifier loc name => exact ⟨name, rfl, prints_of_isLegible (hP _ h)⟩
  | numeric loc digits base =>
    obtain ⟨hl, hn⟩ := hP _ h
    exact ⟨_, hn, prints_of_isLegible hl⟩
  | string loc value => exact ⟨_, rfl, prints_of_isLegible (Lexeme.isLegible_string value)⟩
  | boolean loc value =>
    refine ⟨_, rfl, ?_⟩
    cases value
    · exact prints_of_isLegible (Lexeme.isLegible_ofKeyword .falseWord)
    · exact prints_of_isLegible (Lexeme.isLegible_ofKeyword .trueWord)
  | regex loc pattern flags => exact ⟨_, rfl, prints_of_isLegible (hP _ h)⟩
  | parenthesized loc e =>
    obtain ⟨s, hs, hprints⟩ := text_prints hP e h.2
    exact ⟨_, text_parenthesized.mpr ⟨s, hs, rfl⟩, hprints.parenthesize⟩
  | array loc elements =>
    obtain ⟨l, hl, hprints⟩ := allTexts_prints hP elements h.2
    refine ⟨_, bracketed_iff.mpr ⟨l, hl, rfl⟩, ⟨'[', _, rfl, by decide⟩, ?_⟩
    exact (laysOut_between .lbrack .rbrack (by decide) (by decide)
      (ends_cons (by decide) _) hprints.lays).weaken
  | field loc object name =>
    obtain ⟨hp, ho, hn⟩ := h
    obtain ⟨s, hs, hprints⟩ := text_prints hP object ho
    exact ⟨_, text_field.mpr ⟨s, hs, hn, rfl⟩, (hprints.group _ rfl).field (hP _ hp)⟩
  | index loc object i =>
    obtain ⟨s, hs, hprints⟩ := text_prints hP object h.2.1
    obtain ⟨u, hu, hprints'⟩ := text_prints hP i h.2.2
    exact ⟨_, text_index.mpr ⟨s, u, hs, hu, rfl⟩, (hprints.group _ rfl).between .lbrack .rbrack
      (by decide) (by decide) (ends_cons (by decide)) (ends_cons (by decide) _)
        hprints'.lays⟩
  | call loc callee arguments =>
    obtain ⟨s, hs, hprints⟩ := text_prints hP callee h.2.1
    obtain ⟨l, hl, hprints'⟩ := allTexts_prints hP arguments h.2.2
    exact ⟨_, text_call.mpr ⟨s, l, hs, hl, rfl⟩, (hprints.group _ rfl).between .lparen .rparen
      (by decide) (by decide) (ends_cons (by decide)) (ends_cons (by decide) _)
        hprints'.lays⟩
  | unary loc operator argument leading =>
    obtain ⟨-, rfl, -, ha⟩ := h
    obtain ⟨s, hs, hprints⟩ := text_prints hP argument ha
    refine ⟨_, text_unary.mpr ⟨s, hs, rfl⟩, ?_⟩
    rw [enclosed, lexemes, Lexeme.ofOperator_spelling]
    exact Prints.behind ⟨'-', [], rfl, by decide⟩ (laysOut_symbol .sub (by decide))
      (hprints.group _ rfl).lays
  | binary loc operator left right =>
    obtain ⟨-, ⟨level, ho⟩, hl, hr⟩ := h
    obtain ⟨s, hs, hprints⟩ := text_prints hP left hl
    obtain ⟨u, hu, hprints'⟩ := text_prints hP right hr
    refine ⟨_, (text_binary ho).mpr ⟨s, u, hs, hu, rfl⟩, ?_⟩
    rw [enclosed_binary ho, lexemes]
    obtain ⟨sym, rfl, -⟩ := Level.symbol_of_ofOperator ho
    rw [Lexeme.ofOperator_spelling]
    exact (hprints.group _ rfl).joinBy sym (hprints'.group _ rfl)
  | assignment loc left right operator =>
    obtain ⟨-, rfl, hl, hr⟩ := h
    obtain ⟨s, hs, hprints⟩ := target_prints hP left hl
    obtain ⟨u, hu, hprints'⟩ := text_prints hP right hr
    refine ⟨_, text_assignment.mpr ⟨s, u, hs, hu, rfl⟩, ?_⟩
    rw [enclosed, lexemes, Lexeme.ofOperator_spelling]
    exact hprints.joinBy .assign hprints'
  | conditional loc condition consequent alternate explicitThen =>
    obtain ⟨-, hc, hb⟩ := h
    obtain ⟨c, hc, hcprints⟩ := text_prints hP condition hc
    rcases hb with ⟨hq, ha⟩ | ⟨rfl, hb, hq, ha⟩
    · obtain ⟨u, hu, huprints⟩ := text_prints hP consequent hq
      obtain ⟨v, hv, hvprints⟩ := text_prints hP alternate ha
      refine ⟨_, (text_conditional hq.isBlock).mpr ⟨c, u, v, hc, hu, hv, rfl⟩, ?_⟩
      refine prints_branches ?_ ?_ huprints.lays hvprints.lays
      · cases explicitThen <;> exact ⟨'i', _, rfl, by decide⟩
      · rw [conditionWords, isBlock_enclosed, hq.isBlock, Bool.or_false]
        cases explicitThen with
        | true => exact laysOut_if_then (hcprints.group _ rfl).lays
        | false => exact laysOut_if hcprints.parenthesize.lays
    · have hqprints : ∃ u, consequent.branchText = .ok u ∧
          u.PrintsBefore Stops consequent.enclosed.lexemes := by
        cases consequent with
        | block loc body =>
          obtain ⟨l, hl, hlines⟩ := allLines_prints hP body hq.2 0
          exact block_prints hl hlines
        | _ => cases hb
      have haprints : ∃ v, alternate.branchText = .ok v ∧
          v.PrintsBefore Stops alternate.enclosed.lexemes := by
        rcases ha with ⟨hb, ha⟩ | ⟨-, ha⟩
        · cases alternate with
          | block loc body =>
            obtain ⟨l, hl, hlines⟩ := allLines_prints hP body ha.2 0
            exact block_prints hl hlines
          | _ => cases hb
        · obtain ⟨v, hv, hvprints⟩ := text_prints hP alternate ha
          exact ⟨v, (branchText_of_isBlock ha.isBlock).trans hv, hvprints.lays⟩
      obtain ⟨u, hu, huprints⟩ := hqprints
      obtain ⟨v, hv, hvprints⟩ := haprints
      refine ⟨_, (text_conditional_block hb).mpr ⟨c, u, v, hc, hu, hv, rfl⟩, ?_⟩
      refine prints_branches ⟨'i', _, rfl, by decide⟩ ?_ huprints hvprints
      rw [conditionWords, isBlock_enclosed, hb, if_pos rfl, Bool.or_true]
      exact laysOut_if (hcprints.group _ rfl).lays
  | _ => exact h.elim

theorem allTexts_prints (hP : ∀ m, P m → m.IsLegible) (l : List Node) (h : ExpressionsOf P l) :
    ∃ ts, allTexts l = .ok ts ∧ PrintsAll ts (allEnclosed l) := by
  cases l with
  | nil => exact ⟨[], rfl, .nil⟩
  | cons n rest =>
    obtain ⟨s, hs, hprints⟩ := text_prints hP n h.1
    obtain ⟨ts, hts, hall⟩ := allTexts_prints hP rest h.2
    refine ⟨s :: ts, ?_, .cons hprints hall⟩
    rw [allTexts, hs, hts]
    rfl

theorem target_prints (hP : ∀ m, P m → m.IsLegible) (n : Node) (h : n.TargetOf P) :
    ∃ s, n.text = .ok s ∧ s.Prints n.enclosed.lexemes := by
  cases n with
  | identifier loc name => exact ⟨name, rfl, prints_of_isLegible (hP _ h)⟩
  | field loc object name =>
    obtain ⟨hp, -, ho, hn⟩ := h
    obtain ⟨s, hs, hprints⟩ := text_prints hP object ho
    exact ⟨_, text_field.mpr ⟨s, hs, hn, rfl⟩, (hprints.group _ rfl).field (hP _ hp)⟩
  | index loc object i =>
    obtain ⟨-, -, ho, hi⟩ := h
    obtain ⟨s, hs, hprints⟩ := text_prints hP object ho
    obtain ⟨u, hu, hprints'⟩ := text_prints hP i hi
    exact ⟨_, text_index.mpr ⟨s, u, hs, hu, rfl⟩, (hprints.group _ rfl).between .lbrack .rbrack
      (by decide) (by decide) (ends_cons (by decide)) (ends_cons (by decide) _)
        hprints'.lays⟩
  | arrayPattern loc elements =>
    obtain ⟨l, hl, hprints⟩ := allTargets_prints hP elements h.2
    refine ⟨_, bracketed_iff.mpr ⟨l, hl, rfl⟩, ⟨'[', _, rfl, by decide⟩, ?_⟩
    exact (laysOut_between .lbrack .rbrack (by decide) (by decide)
      (ends_cons (by decide) _) hprints.lays).weaken
  | _ => exact h.elim

theorem allTargets_prints (hP : ∀ m, P m → m.IsLegible) (l : List Node) (h : TargetsOf P l) :
    ∃ ts, allTexts l = .ok ts ∧ PrintsAll ts (allEnclosed l) := by
  cases l with
  | nil => exact ⟨[], rfl, .nil⟩
  | cons n rest =>
    obtain ⟨s, hs, hprints⟩ := target_prints hP n h.1
    obtain ⟨ts, hts, hall⟩ := allTargets_prints hP rest h.2
    refine ⟨s :: ts, ?_, .cons hprints hall⟩
    rw [allTexts, hs, hts]
    rfl

theorem lines_prints (hP : ∀ m, P m → m.IsLegible) (n : Node) (h : n.StatementOf P) (i : Int) :
    ∃ ls, n.lines i = .ok ls ∧ ls ≠ [] ∧ LinesOf ls n.enclosed.lexemes := by
  cases n with
  | block loc body =>
    obtain ⟨l, hl, hlines⟩ := allLines_prints hP body h.2 (i + 1)
    cases body with
    | nil =>
      exact ⟨_, lines_block.mpr (.inl ⟨rfl, rfl⟩), by simp, .singleton (LinesOf.nil.inline)⟩
    | cons n rest =>
      exact ⟨_, lines_block.mpr (.inr ⟨by simp, l, hl, rfl⟩), by simp, hlines.braced i⟩
  | expressionStatement loc e =>
    obtain ⟨s, hs, hprints⟩ := text_prints hP e h.2
    exact ⟨_, lines_expressionStatement.mpr ⟨s, hs, rfl⟩, by simp,
      .singleton (hprints.group _ rfl).isContent⟩
  | conditionalStatement loc condition consequent alternate =>
    obtain ⟨-, hc, hq, ha⟩ := h
    obtain ⟨c, hc, hcprints⟩ := text_prints hP condition hc
    have hbody : ∃ ls, (if alternate.isSome && consequent.dangles then
        braced i (consequent.lines (i + 1)) else consequent.lines i) = .ok ls ∧ ls ≠ [] ∧
          LinesOf ls (if alternate.isSome && consequent.dangles then
            block .unknown [consequent.enclosed] else consequent.enclosed).lexemes := by
      split
      · obtain ⟨ls, hls, -, hlines⟩ := lines_prints hP consequent hq (i + 1)
        refine ⟨_, braced_iff.mpr ⟨ls, hls, rfl⟩, by simp, ?_⟩
        simpa [lexemes, allLexemes] using hlines.braced i
      · exact lines_prints hP consequent hq i
    obtain ⟨ls, hls, hne, hlines⟩ := hbody
    cases ls with
    | nil => exact absurd rfl hne
    | cons first rest =>
      have hif := hlines.headed (s := "if " ++ parenthesize c ++ " ") ⟨'i', _, rfl, by decide⟩
        (laysOut_if hcprints.parenthesize.lays) i
      cases alternate with
      | none =>
        refine ⟨_, lines_conditionalStatement.mpr ⟨first, rest, c, hls, hc, rfl⟩, by simp, ?_⟩
        simpa [enclosed, enclosed?, lexemes, markedLexemes] using hif
      | some alternate =>
        obtain ⟨l, hl, hne', hlines'⟩ := lines_prints hP alternate ha i
        obtain ⟨z, hz, hne, hjoined⟩ := hif.joinElse (by simp) hlines' hne' i
        refine ⟨z, lines_conditionalStatement.mpr ⟨first, rest, c, hls, hc,
          withElse_iff.mpr (.inr ⟨l, congrArg some hl, hz⟩)⟩, hne, ?_⟩
        simpa [enclosed, enclosed?, lexemes, markedLexemes] using hjoined
  | declaration loc left type right constant mutable =>
    obtain ⟨-, -, hl, ht, hr, hcm⟩ := h
    obtain ⟨s, hs, hprints⟩ := target_prints hP left hl
    have htype : IsMarked (marked ": " (typeText? right.isSome type))
        (markedLexemes (.ofSymbol .colon) (typeEnclosed? right.isSome type)) := by
      cases type with
      | none => exact isMarked_none
      | some type =>
        obtain ⟨u, hu, huprints⟩ := text_prints hP type ht
        rw [typeText?, operand_text hu]
        exact isMarked_some (laysOut_symbol_space .colon) (fun _ _ => .inl (by decide))
          (huprints.group _ rfl)
    have hright : IsMarked (marked " = " (text? right))
        (markedLexemes (.ofSymbol .assign) (enclosed? right)) := by
      cases right with
      | none => exact isMarked_none
      | some right =>
        obtain ⟨u, hu, huprints⟩ := text_prints hP right hr
        rw [text?, hu]
        exact isMarked_some (laysOut_space_symbol .assign) (fun _ _ => .inl (by decide)) huprints
    obtain ⟨b, hb, hbprints, hbstops⟩ := htype
    obtain ⟨d, hd, hdprints, hdstops⟩ := hright
    refine ⟨_, lines_declaration.mpr ⟨hcm, s, b, d, hs, hb, hd, rfl⟩, by simp, ?_⟩
    have hall := (hprints.append hbprints hbstops fun _ h => h).append hdprints hdstops fun _ h => h
    obtain ⟨hhead, hwords⟩ := laysOut_declarationWords constant mutable
    have hcontent := hall.isContent.behind hhead hwords
    simpa [enclosed, lexemes] using LinesOf.singleton (i := i) hcontent
  | _ => exact h.elim

theorem allLines_prints (hP : ∀ m, P m → m.IsLegible) (l : List Node) (h : StatementsOf P l) (i : Int) :
    ∃ ls, allLines i l = .ok ls ∧ LinesOf ls (allLexemes (allEnclosed l)) := by
  cases l with
  | nil => exact ⟨[], rfl, .nil⟩
  | cons n rest =>
    obtain ⟨a, ha, -, hprints⟩ := lines_prints hP n h.1 i
    obtain ⟨b, hb, hall⟩ := allLines_prints hP rest h.2 i
    exact ⟨a ++ b, allLines_cons.mpr ⟨a, b, ha, hb, rfl⟩, hprints.append hall⟩

end

end Node

end MagSyntax
