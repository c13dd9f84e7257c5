import Mathlib.Data.List.TakeWhile
import MagSyntax.Proofs.PrintedTrees
import MagSyntax.Proofs.Reindented
import MagSyntax.Proofs.Rejoined

/-! The two ways to print a block, over several lines and on one. Every line that is printed for a statement ends in a
semicolon or a brace, so its line feed stands between two lexemes or in a comment, and the blank that is there in
the one line does as well. -/

namespace MagSyntax

namespace Text

/-- What the line of a statement ends in. -/
def statementEnds : Text := [';', '\x7b', '\x7d']

theorem statementEnds_plain : ∀ c ∈ statementEnds, c.isBlank = false ∧ c ≠ '\\' := by decide

/-- The text ends in a semicolon or a brace. -/
def EndsStatement (t : Text) : Prop := ∃ r c, t = r ++ [c] ∧ c ∈ statementEnds

variable {t : Text}

theorem endsStatement_append (h : t.EndsStatement) (s : Text) : (s ++ t).EndsStatement := by
  obtain ⟨r, c, rfl, hc⟩ := h
  exact ⟨s ++ r, c, (List.append_assoc _ _ _).symm, hc⟩

theorem EndsStatement.trimLeft (h : t.EndsStatement) : t.trimLeft.EndsStatement := by
  obtain ⟨r, c, rfl, hc⟩ := h
  have hlast : [c].dropWhile CodePoint.isBlank = [c] :=
    List.dropWhile_cons_of_neg (by simp [(statementEnds_plain c hc).1])
  rw [Text.trimLeft, List.dropWhile_append]
  split
  · exact ⟨[], c, hlast, hc⟩
  · exact ⟨_, c, rfl, hc⟩

theorem EndsStatement.trim (h : t.EndsStatement) : t.trim = t.trimLeft := by
  obtain ⟨r, c, hr, hc⟩ := h.trimLeft
  rw [Text.trim, trimEnd, hr, List.reverse_append, List.reverse_singleton, List.singleton_append,
    List.dropWhile_cons_of_neg (by simp [(statementEnds_plain c hc).1]), List.reverse_cons, List.reverse_reverse]

theorem EndsStatement.isIndented (h : t.EndsStatement) : t.IsIndented := by
  rw [IsIndented, h.trim]
  refine ⟨t.takeWhile CodePoint.isBlank, fun c hc => List.mem_takeWhile_imp hc, ?_, ?_⟩
  · exact (List.takeWhile_append_dropWhile ..).symm
  · obtain ⟨r, c, hr, hc⟩ := h.trimLeft
    rw [hr, List.getLast?_concat]
    exact fun he => (statementEnds_plain c hc).2 (Option.some.inj he)

end Text

open Text

namespace Print

/-- Every line ends in a semicolon or a brace. -/
def EndStatements (lines : List Text) : Prop := ∀ line ∈ lines, line.EndsStatement

theorem endsStatement_brace (i : Int) : (line i "\x7b").EndsStatement ∧ (line i "\x7d").EndsStatement :=
  ⟨⟨indentation i, '\x7b', rfl, by decide⟩, ⟨indentation i, '\x7d', rfl, by decide⟩⟩

theorem endsStatement_semi (t : Text) : (t ++ ";").EndsStatement := ⟨t, ';', rfl, by decide⟩

theorem endStatements_braced {lines : List Text} (h : EndStatements lines) (i : Int) :
    EndStatements ([line i "\x7b"] ++ lines ++ [line i "\x7d"]) :=
  List.forall_mem_append.mpr ⟨List.forall_mem_cons.mpr ⟨(endsStatement_brace i).1, h⟩,
    List.forall_mem_singleton.mpr (endsStatement_brace i).2⟩

theorem endStatements_headed {first : Text} {rest : List Text} (h : EndStatements (first :: rest)) (t : Text) :
    EndStatements ((t ++ first.trimLeft) :: rest) := by
  obtain ⟨hfirst, hrest⟩ := List.forall_mem_cons.mp h
  exact List.forall_mem_cons.mpr ⟨endsStatement_append hfirst.trimLeft t, hrest⟩

theorem endStatements_joinElse {i : Int} {ifLines elseLines lines : List Text}
    (h : joinElse i ifLines elseLines = .ok lines) (hif : EndStatements ifLines) (helse : EndStatements elseLines) :
    EndStatements lines := by
  cases elseLines with
  | nil => cases h
  | cons first rest =>
    simp only [joinElse] at h
    split at h
    · cases h
      exact List.forall_mem_append.mpr ⟨fun l hl => hif l (List.dropLast_subset _ hl), endStatements_headed helse _⟩
    · cases h
      rw [line, ← List.append_assoc]
      exact List.forall_mem_append.mpr ⟨hif, endStatements_headed helse _⟩

end Print

namespace Node

open Print

mutual

/-- The lines of a statement end in semicolons and braces. -/
theorem endStatements_lines (n : Node) {i : Int} {lines : List Text} (h : n.lines i = .ok lines) :
    EndStatements lines := by
  cases n with
  | program loc body => exact endStatements_allLines body h
  | expressionStatement loc e =>
    obtain ⟨s, -, rfl⟩ := lines_expressionStatement.mp h
    refine List.forall_mem_singleton.mpr ?_
    rw [line, statementText, ← List.append_assoc]
    exact endsStatement_semi _
  | block loc body =>
    rcases lines_block.mp h with ⟨rfl, rfl⟩ | ⟨-, l, hl, rfl⟩
    · have hclose : EndsStatement "\x7d" := ⟨[], '\x7d', rfl, by decide⟩
      exact List.forall_mem_singleton.mpr (endsStatement_append (endsStatement_append hclose "\x7b") (indentation i))
    · exact endStatements_braced (endStatements_allLines body hl) i
  | conditionalStatement loc condition consequent alternate =>
    obtain ⟨first, rest, c, hbranch, -, hrest⟩ := lines_conditionalStatement.mp h
    have hif : EndStatements (first :: rest) := by
      split at hbranch
      · obtain ⟨l, hl, hlines⟩ := braced_iff.mp hbranch
        rw [hlines]
        exact endStatements_braced (endStatements_lines consequent hl) i
      · exact endStatements_lines consequent hbranch
    rw [line, ← List.append_assoc] at hrest
    have hheaded := endStatements_headed hif (indentation i ++ ("if " ++ parenthesize c ++ " "))
    rcases withElse_iff.mp hrest with ⟨-, rfl⟩ | ⟨l, hl, hjoin⟩
    · exact hheaded
    · cases alternate with
      | none => cases hl
      | some alternate =>
        exact endStatements_joinElse hjoin hheaded (endStatements_lines alternate (Option.some.inj hl))
  | declaration loc left type right constant mutable =>
    obtain ⟨-, a, b, d, -, -, -, rfl⟩ := lines_declaration.mp h
    refine List.forall_mem_singleton.mpr ?_
    rw [line, ← List.append_assoc, ← List.append_assoc]
    exact endsStatement_semi _
  | _ => cases h

theorem endStatements_allLines (l : List Node) {i : Int} {lines : List Text} (h : allLines i l = .ok lines) :
    EndStatements lines := by
  cases l with
  | nil =>
    cases h
    exact fun _ hl => nomatch hl
  | cons n rest =>
    obtain ⟨a, b, ha, hb, rfl⟩ := allLines_cons.mp h
    exact List.forall_mem_append.mpr ⟨endStatements_lines n ha, endStatements_allLines rest hb⟩

end

end Node

namespace Print

variable {i j : Int} {lines lines' : List Text}

theorem inlineText_same (h : SameLines i j lines lines') : inlineText lines = inlineText lines' := by
  have htrim : lines.map Text.trim = lines'.map Text.trim := by
    induction h with
    | nil => rfl
    | cons hl _ ih => exact congrArg₂ List.cons (congrArg (trimEnd CodePoint.isBlank) hl.trimLeft) ih
  rw [inlineText, inlineText, htrim]

/-- The text of a sheet has a line feed in front of each line but the first, and one more behind them. -/
theorem text_eq (first : Text) : Sheet.text ⟨first :: lines, i⟩ =
    first ++ (lines.flatMap (CodePoint.ofChar '\n' :: ·) ++ [CodePoint.ofChar '\n']) := by
  induction lines generalizing first with
  | nil => simp [Sheet.text, Text.ofString]
  | cons l rest ih =>
    have hfront : Sheet.text ⟨first :: l :: rest, i⟩ = first ++ "\n" ++ Sheet.text ⟨l :: rest, i⟩ := by
      simp [Sheet.text]
    rw [hfront, ih, List.flatMap_cons]
    simp [Text.ofString]

theorem flatMap_trim (hne : lines ≠ []) : lines.flatMap (CodePoint.ofChar ' ' :: ·.trim) =
    CodePoint.ofChar ' ' :: List.intercalate (" " : Text) (lines.map Text.trim) := by
  induction lines with
  | nil => exact absurd rfl hne
  | cons l rest ih =>
    cases rest with
    | nil => simp
    | cons m rest =>
      rw [List.flatMap_cons, ih (List.cons_ne_nil m rest)]
      simp only [List.map_cons, List.intercalate_cons_cons]
      simp [Text.ofString]

theorem trim_closingBrace (i : Int) : (line i "\x7d").trim = "\x7d" := by
  rw [(endsStatement_brace i).2.trim, trimLeft_indented]
  decide

/-- Lines between braces on one line have a blank in front of each. -/
theorem inlineText_eq (hlines : EndStatements lines) (hne : lines ≠ []) (i : Int) : inlineText lines =
    "\x7b" ++ (lines ++ [line i "\x7d"]).flatMap (CodePoint.ofChar ' ' :: ·.trim) := by
  have hcontent : List.intercalate (" " : Text) (lines.map Text.trim) ≠ [] := by
    obtain ⟨l, rest, rfl⟩ := List.exists_cons_of_ne_nil hne
    obtain ⟨r, c, hl, -⟩ := (hlines l List.mem_cons_self).trimLeft
    rw [List.map_cons, (hlines l List.mem_cons_self).trim, hl]
    cases rest with
    | nil => simp
    | cons m rest =>
      rw [List.map_cons, List.intercalate_cons_cons]
      simp
  rw [inlineText, if_neg (by simpa using hcontent), List.flatMap_append, flatMap_trim hne, List.flatMap_singleton,
    trim_closingBrace]
  simp [Text.ofString]

theorem isBlank_indentation (i : Int) : (indentation i).IsBlank := by
  intro c hc
  rw [List.eq_of_mem_replicate hc]
  decide

/-- The lines of a block have the same lexemes on one line. -/
theorem tokenize_inlineText {tokens : List Token} (hlines : EndStatements lines)
    (h : tokenize (Sheet.text ⟨line i "\x7b" :: (lines ++ [line i "\x7d"]), i⟩) = .ok tokens)
    (hcomment : ¬Text.HasLineComment (Sheet.text ⟨line i "\x7b" :: (lines ++ [line i "\x7d"]), i⟩)) :
    ∃ tokens', tokenize (inlineText lines) = .ok tokens' ∧
      tokens'.map Token.toLexeme = tokens.map Token.toLexeme := by
  have hbraces : EndStatements (lines ++ [line i "\x7d"]) :=
    List.forall_mem_append.mpr ⟨hlines, List.forall_mem_singleton.mpr (endsStatement_brace i).2⟩
  have hlexes := lexesInline_of_tokenize h hcomment
  rw [text_eq, line, List.append_assoc] at hlexes
  have hone := (hlexes.behindBlanks (isBlank_indentation i)).oneLine (by decide) fun l hl => (hbraces l hl).isIndented
  rw [← List.append_assoc] at hone
  have hlast : ("\x7b" ++ (lines ++ [line i "\x7d"]).flatMap (CodePoint.ofChar ' ' :: ·.trim)).getLast? =
      some (CodePoint.ofChar '\x7d') := by
    rw [List.flatMap_append, List.flatMap_singleton, trim_closingBrace, ← List.append_assoc, List.getLast?_append]
    rfl
  have hclosed := hone.beforeEnd (by rw [hlast]; decide)
  cases lines with
  | cons l rest =>
    rw [← inlineText_eq hlines (List.cons_ne_nil l rest)] at hclosed
    exact tokenize_of_lexes hclosed.lexes
  | nil =>
    -- nothing stands between the braces, not even a blank
    rw [List.nil_append, List.flatMap_singleton, trim_closingBrace] at hclosed
    obtain ⟨apart, hapart, hmap⟩ := tokenize_of_lexes hclosed.lexes
    have hsame : (tokenize "\x7b\x7d").toOption.map (·.map Token.toLexeme) =
        (tokenize ("\x7b" ++ CodePoint.ofChar ' ' :: "\x7d")).toOption.map (·.map Token.toLexeme) := by decide +kernel
    rw [hapart] at hsame
    cases ht : tokenize "\x7b\x7d" with
    | error e =>
      rw [ht] at hsame
      cases hsame
    | ok tokens' =>
      rw [ht] at hsame
      exact ⟨tokens', ht, (Option.some.inj hsame).trans hmap⟩

theorem tokenize_emptyBlock {tokens : List Token} (h : tokenize (Sheet.text ⟨[line i "\x7b\x7d"], i⟩) = .ok tokens)
    (hcomment : ¬Text.HasLineComment (Sheet.text ⟨[line i "\x7b\x7d"], i⟩)) :
    ∃ tokens', tokenize "\x7b\x7d" = .ok tokens' ∧ tokens'.map Token.toLexeme = tokens.map Token.toLexeme := by
  have hlexes := lexesInline_of_tokenize h hcomment
  rw [text_eq, line, List.append_assoc] at hlexes
  exact tokenize_of_lexes ((hlexes.behindBlanks (isBlank_indentation i)).beforeEnd (by decide)).lexes

end Print

namespace Node

open Print

variable {loc : Loc} {body : List Node} {i : Int}

/-- A block that is printed over several lines is printed on one, with the same lexemes. -/
theorem tokenize_inlineBlock {lines : List Text} {tokens : List Token} (h : (block loc body).lines i = .ok lines)
    (ht : tokenize (Sheet.text ⟨lines, i⟩) = .ok tokens) (hcomment : ¬Text.HasLineComment (Sheet.text ⟨lines, i⟩)) :
    ∃ text tokens', (block loc body).inlineBlock = .ok text ∧ tokenize text = .ok tokens' ∧
      tokens'.map Token.toLexeme = tokens.map Token.toLexeme := by
  rcases lines_block.mp h with ⟨rfl, rfl⟩ | ⟨-, l, hl, rfl⟩
  · obtain ⟨tokens', ht', hmap⟩ := tokenize_emptyBlock ht hcomment
    exact ⟨_, tokens', rfl, ht', hmap⟩
  · obtain ⟨tokens', ht', hmap⟩ := tokenize_inlineText (endStatements_allLines body hl) ht hcomment
    -- the lines are indented less where they are put on one
    have hsame := allLines_same body (i + 1) 0
    rw [hl] at hsame
    cases hzero : allLines 0 body with
    | error broken =>
      rw [hzero] at hsame
      cases hsame
    | ok l' =>
      rw [hzero] at hsame
      cases hsame with
      | ok hsame =>
        rw [inlineText_same hsame] at ht'
        exact ⟨_, tokens', inlined_iff.mpr ⟨l', hzero, rfl⟩, ht', hmap⟩

/-- A block that reads back as its tree has the lexemes of the tree, printed either way. -/
theorem tokenize_block (h : (block loc body).StatementOf IsLegible)
    (ha : SlashContext.start.Admits (block loc body).enclosed.lexemes) (i : Int) :
    ∃ lines text tokens tokens', (block loc body).lines i = .ok lines ∧ (block loc body).inlineBlock = .ok text ∧
      tokenize (Sheet.text ⟨lines, i⟩) = .ok tokens ∧ tokenize text = .ok tokens' ∧
        tokens.map Token.toLexeme = (block loc body).enclosed.lexemes ++ [.endOfInput] ∧
          tokens'.map Token.toLexeme = (block loc body).enclosed.lexemes ++ [.endOfInput] := by
  obtain ⟨lines, hlines, -, hprints⟩ := lines_prints (fun _ hm => hm) (block loc body) h i
  obtain ⟨l, hl, hbody⟩ := allLines_prints (fun _ hm => hm) body h.2 0
  have hlays (s : Text) (hs : s.LaysOut (block loc body).enclosed.lexemes) :
      s.Lays (block loc body).enclosed.lexemes := by
    simpa using hs [] [] trivial (.done (g := []) (fun _ hc => nomatch hc))
  obtain ⟨tokens, ht, hmap⟩ := tokenize_of_lays (hlays _ hprints.laysOut) ha
  obtain ⟨tokens', ht', hmap'⟩ := tokenize_of_lays (hlays _ hbody.inline.lays) ha
  exact ⟨lines, _, tokens, tokens', hlines, inlined_iff.mpr ⟨l, hl, rfl⟩, ht, ht', hmap, hmap'⟩

end Node

open Sheet

/-- The two ways to print a block agree: whenever the text over several lines has tokens, no comment that goes on up to
the end of a line among them, the text on one line is there and has the same tokens but for their places, and every
entry comes to the same with both. A block whose names, numerals and regular expressions can be read and whose slashes
stand where they should has its own lexemes in both texts. -/
theorem blockTexts_agree (loc : Loc) (body : List Node) (i : Int) :
    (∀ (later : Sheet) (tokens : List Token), (Sheet.mk [] i).addStatement (.block loc body) = (.ok (), later) →
      tokenize later.text = .ok tokens → ¬later.text.HasLineComment →
        ∃ text tokens', (Node.block loc body).inlineBlock = .ok text ∧ tokenize text = .ok tokens' ∧
          tokens'.map Token.toLexeme = tokens.map Token.toLexeme ∧
            ∀ entry : Entry, SameAtTokens tokens tokens' (entry.ofSource later.text) (entry.ofSource text)) ∧
      ((Node.block loc body).StatementOf Node.IsLegible →
        SlashContext.start.Admits (Node.block loc body).enclosed.lexemes →
          ∃ later text tokens tokens', (Sheet.mk [] i).addStatement (.block loc body) = (.ok (), later) ∧
            (Node.block loc body).inlineBlock = .ok text ∧ tokenize later.text = .ok tokens ∧
              tokenize text = .ok tokens' ∧
                tokens.map Token.toLexeme = (Node.block loc body).enclosed.lexemes ++ [.endOfInput] ∧
                  tokens'.map Token.toLexeme = (Node.block loc body).enclosed.lexemes ++ [.endOfInput]) := by
  constructor
  · intro later tokens hadd ht hcomment
    rw [addStatement_eq] at hadd
    cases hlines : (Node.block loc body).lines i with
    | error broken =>
      simp only [hlines, add] at hadd
      cases hadd
    | ok lines =>
      simp only [hlines, add] at hadd
      cases hadd
      obtain ⟨text, tokens', htext, ht', hmap⟩ := Node.tokenize_inlineBlock hlines ht hcomment
      exact ⟨text, tokens', htext, ht', hmap, fun entry => entry.ofSource_sameAtTokens ht ht' hmap.symm⟩
  · intro h ha
    obtain ⟨lines, text, tokens, tokens', hlines, htext, ht, ht', hmap, hmap'⟩ := Node.tokenize_block h ha i
    refine ⟨⟨lines, i⟩, text, tokens, tokens', ?_, htext, ht, ht', hmap, hmap'⟩
    rw [addStatement_eq, hlines]
    rfl

/-- A block with an `else` chain, a declaration and an `if` with a value, indented once, and one with a division. -/
theorem blockTexts_agree_elseChain :
    (let a : Node := .identifier .unknown "a"
     let call : Node := .expressionStatement .unknown (.call .unknown a [])
     let branch : Node := .block .unknown [call]
     let body : List Node := [.conditionalStatement .unknown a branch (some (.conditionalStatement .unknown a call
       (some (.block .unknown [])))), .declaration .unknown a none
         (some (.conditional .unknown a branch (.block .unknown []) false)) false true]
     ∃ (later : Sheet) (text : Text) (tokens tokens' : List Token),
      (Sheet.mk [] 1).addStatement (.block .unknown body) = (.ok (), later) ∧
        (Node.block .unknown body).inlineBlock = .ok text ∧ tokenize later.text = .ok tokens ∧
          tokenize text = .ok tokens' ∧ tokens'.map Token.toLexeme = tokens.map Token.toLexeme) ∧
      (let division : Node := .binary .unknown "/" (.string .unknown "a / b") (.boolean .unknown true)
       ∃ later text tokens tokens', (Sheet.mk [] 0).addStatement
          (.block .unknown [.expressionStatement .unknown division]) = (.ok (), later) ∧
        (Node.block .unknown [.expressionStatement .unknown division]).inlineBlock = .ok text ∧
          tokenize later.text = .ok tokens ∧ tokenize text = .ok tokens' ∧
            tokens'.map Token.toLexeme = tokens.map Token.toLexeme) := by
  constructor
  · intro a call branch body
    let later : Sheet := ⟨["    \x7b", "        if (a) \x7b", "            a();", "        \x7d else if (a) a();",
      "        else \x7b\x7d", "        let mut a = if a \x7b a(); \x7d else \x7b\x7d;", "    \x7d"], 1⟩
    have hadd : (Sheet.mk [] 1).addStatement (.block .unknown body) = (.ok (), later) := by cbv
    have hslash : CodePoint.ofChar '/' ∉ later.text := by decide +kernel
    have hok : (tokenize later.text).toBool = true := by decide +kernel
    cases ht : tokenize later.text with
    | error e =>
      rw [ht] at hok
      cases hok
    | ok tokens =>
      obtain ⟨text, tokens', htext, ht', hmap, -⟩ :=
        (blockTexts_agree .unknown body 1).1 later tokens hadd ht (Text.not_hasLineComment hslash)
      exact ⟨later, text, tokens, tokens', hadd, htext, ht, ht', hmap⟩
  · intro division
    have hlegible : (Node.block .unknown [.expressionStatement .unknown division]).StatementOf Node.IsLegible :=
      ⟨trivial, ⟨trivial, trivial, ⟨_, rfl⟩, trivial, trivial⟩, trivial⟩
    obtain ⟨later, text, tokens, tokens', hadd, htext, ht, ht', hmap, hmap'⟩ :=
      (blockTexts_agree .unknown [.expressionStatement .unknown division] 0).2 hlegible (by decide +kernel)
    exact ⟨later, text, tokens, tokens', hadd, htext, ht, ht', hmap'.trans hmap.symm⟩

/-- Behind the brace of an `if` that is divided a regular expression is read up to a slash in a string, and what is
left of the string opens a comment. Over several lines it hides the rest of its line, and on one all that follows. -/
theorem divided_if_hides_block :
    let e : Node := .block .unknown []
    let body : List Node := [.expressionStatement .unknown (.binary .unknown "/"
      (.conditional .unknown (.identifier .unknown "a") e e false) (.string .unknown "b / //c")),
        .expressionStatement .unknown (.identifier .unknown "y")]
    let later : Sheet := ⟨["\x7b", "    (if a \x7b\x7d else \x7b\x7d / \"b / //c\");", "    y;", "\x7d"], 0⟩
    let text : Text := "\x7b (if a \x7b\x7d else \x7b\x7d / \"b / //c\"); y; \x7d"
    let kinds (source : Text) := (tokenize source).toOption.map (·.map fun token => token.kind)
    let front : List TokenKind := [.symbol .lbrace, .symbol .lparen, .keyword .ifWord, .ident, .symbol .lbrace,
      .symbol .rbrace, .keyword .elseWord, .symbol .lbrace, .symbol .rbrace, .regex]
    (Sheet.mk [] 0).addStatement (.block .unknown body) = (.ok (), later) ∧
      (Node.block .unknown body).inlineBlock = .ok text ∧
      kinds later.text = some (front ++ [.ident, .symbol .semi, .symbol .rbrace, .eof]) ∧
      kinds text = some (front ++ [.eof]) := by
  refine ⟨by cbv, by cbv, by decide +kernel, by decide +kernel⟩

end MagSyntax
