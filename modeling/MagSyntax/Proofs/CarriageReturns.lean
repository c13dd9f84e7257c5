import MagSyntax.Proofs.LineFeeds
import MagSyntax.Proofs.OneLine
import MagSyntax.Proofs.RoundTrip
import MagSyntax.Proofs.StringLiterals

/-! Carriage returns. Nothing that is read holds any but strings and regular expressions, and strings are printed with
an escape in the place of each. So what is printed for a source has those of its regular expressions and no others,
neither those that the source has between its tokens nor any of the layout. -/

namespace MagSyntax

open Text

namespace Lexeme

/-- A regular expression among the lexemes holds a carriage return. -/
def HoldReturn (ls : List Lexeme) : Prop := ∃ l ∈ ls, l.kind = .regex ∧ CodePoint.ofChar '\r' ∈ l.value

variable {a b : List Lexeme} {l : Lexeme}

theorem holdReturn_cons : HoldReturn (l :: a) ↔ (l.kind = .regex ∧ CodePoint.ofChar '\r' ∈ l.value) ∨ HoldReturn a := by
  simp [HoldReturn]

@[simp] theorem not_holdReturn_nil : ¬HoldReturn [] := by simp [HoldReturn]

@[simp] theorem holdReturn_append : HoldReturn (a ++ b) ↔ HoldReturn a ∨ HoldReturn b := by
  simp [HoldReturn, or_and_right, exists_or]

@[simp] theorem holdReturn_symbol (s : Symbol) : HoldReturn (.ofSymbol s :: a) ↔ HoldReturn a := by
  simp [holdReturn_cons, ofSymbol]

@[simp] theorem holdReturn_keyword (w : Keyword) : HoldReturn (.ofKeyword w :: a) ↔ HoldReturn a := by
  simp [holdReturn_cons, ofKeyword]

theorem IsName.return_not_mem {w : Text} (h : IsName w) : CodePoint.ofChar '\r' ∉ w := by
  have hreturn : CodePoint.continuesName (CodePoint.ofChar '\r') = false := by decide +kernel
  exact fun hm => Bool.eq_false_iff.mp hreturn (h.2 _ hm)

/-- A numeral ends before a carriage return. -/
theorem return_not_mem_number {a : Text} {l : Lexeme} (hd : Numeral.startsWithDigit a)
    (h : (Numeral.read a).outcome = .ok l) : CodePoint.ofChar '\r' ∉ l.spelled := by
  have hk := (Numeral.kind_of_read hd h).2
  obtain ⟨s, t, rfl, htaken, hspells⟩ := Numeral.splits_read hd l h
  have hs : CodePoint.ofChar '\r' ∉ s := by
    intro hm
    obtain ⟨x, y, rfl⟩ := List.append_of_mem hm
    have hfence : IsFence (CodePoint.ofChar '\r' :: (y ++ t)) := by
      rintro _ ⟨⟩
      exact .inl (by decide)
    rw [List.append_assoc, List.cons_append] at hd h htaken
    have hx : x ≠ [] := by
      rintro rfl
      have hdigit : CodePoint.isDigit (CodePoint.ofChar '\r') = false := by decide +kernel
      exact absurd hd (by simp [Numeral.startsWithDigit, hdigit])
    have hdx : Numeral.startsWithDigit x := by
      obtain ⟨c, r, rfl⟩ := List.exists_cons_of_ne_nil hx
      exact hd
    have hle := Numeral.taken_read_le hfence hx hdx h
    rw [htaken, List.length_append, List.length_cons] at hle
    omega
  cases hspells with
  | decimal => exact hs
  | @radix r letter digits _ hr =>
    have hmark : ∀ r ∈ Numeral.Radix.all, CodePoint.ofChar '\r' ∉ Numeral.mark r.base := by decide
    refine List.not_mem_append (hmark r hr) fun hm => hs ?_
    exact List.mem_cons_of_mem _ (List.mem_cons_of_mem _ hm)
  | symbol | string | regex => cases hk
  | name | keyword => cases hk

/-- Of all that is read only a regular expression has a carriage return in the text that is printed for it. -/
theorem IsScanned.return_mem_spelled {l : Lexeme} (h : l.IsScanned) (hk : l.kind ≠ .eof) :
    CodePoint.ofChar '\r' ∈ l.spelled ↔ l.kind = .regex ∧ CodePoint.ofChar '\r' ∈ l.value := by
  cases h.readAs hk with
  | @word w hw =>
    refine iff_of_false (fun hm => ?_) fun hregex => ?_
    · rw [spelled_ofWord] at hm
      exact hw.return_not_mem hm
    · rcases kind_ofWord w with hw | ⟨k, hw⟩ <;> cases hw.symm.trans hregex.1
  | number hd hread =>
    have hk := (Numeral.kind_of_read hd hread).2
    exact iff_of_false (return_not_mem_number hd hread) fun hregex => by cases hk.symm.trans hregex.1
  | string value =>
    exact iff_of_false (fun hm => Print.isInLine_stringLiteral value _ hm (.inr rfl)) fun hregex => by cases hregex.1
  | regex _ hread =>
    obtain ⟨p, f, hp⟩ := Regex.standsIn_of_read hread
    rw [Regex.read_of_standsIn hp] at hread
    cases hread
    have hflags : CodePoint.ofChar '\r' ∉ f := fun hm => absurd (hp.2.1.1 hm) (by decide)
    have hslash : CodePoint.ofChar '\r' ∉ ofString "/" := by decide
    simp [spelled, Print.regexLiteral, hflags, hslash]
  | symbol s => cases s <;> decide

/-- The name of a field has none, whatever it is read from. -/
theorem NamesField.return_not_mem {word : Lexeme} (h : word.NamesField) (hs : word.IsScanned) :
    CodePoint.ofChar '\r' ∉ word.value := by
  rcases h.named with hk | hk
  · obtain ⟨hname, -⟩ := hs.of_word (by rw [hk]; rfl)
    exact hname.return_not_mem
  · obtain ⟨k, hk⟩ := Option.isSome_iff_exists.mp hk
    rw [← Keyword.spelling_of_ofSpelling? hk]
    cases k <;> decide

/-- An operator that is read belongs to a symbol. -/
theorem IsScanned.of_operator {operator : Text} (h : (ofOperator operator).IsScanned) :
    ∃ s : Symbol, operator = s.spelling := by
  cases hf : Symbol.all.find? (·.spelling = operator) with
  | some s => exact ⟨s, by simpa [eq_comm] using List.find?_some hf⟩
  | none =>
    have hk : (ofOperator operator).kind = .other operator := by rw [ofOperator, hf]
    generalize ofOperator operator = l at h hk
    cases h.readAs (by simp [hk]) with
    | word => rcases kind_ofWord _ with hw | ⟨k, hw⟩ <;> cases hw.symm.trans hk
    | number hd hread => cases (Numeral.kind_of_read hd hread).2.symm.trans hk
    | string => cases hk
    | regex _ hread =>
      obtain ⟨p, f, r, rfl, -⟩ := Regex.read_again hread
      cases hk
    | symbol => cases hk

end Lexeme

namespace Text

/-- A text that is printed for some lexemes: it starts with no blank, and it holds a carriage return just if a regular
expression among them does. -/
structure ShowsReturns (s : Text) (ls : List Lexeme) : Prop where
  head : ∃ c r, s = c :: r ∧ c.isBlank = false
  returns : CodePoint.ofChar '\r' ∈ s ↔ Lexeme.HoldReturn ls

variable {s t : Text} {a b : List Lexeme}

theorem showsReturns_of_isScanned {l : Lexeme} (h : l.kind ≠ .eof ∧ l.IsScanned) : l.spelled.ShowsReturns [l] := by
  refine ⟨(h.2.isLegible h.1).head, ?_⟩
  rw [h.2.return_mem_spelled h.1, Lexeme.holdReturn_cons, or_iff_left Lexeme.not_holdReturn_nil]

/-- More may follow the text. -/
theorem ShowsReturns.before (h : s.ShowsReturns a) (ht : CodePoint.ofChar '\r' ∈ t ↔ Lexeme.HoldReturn b) :
    (s ++ t).ShowsReturns (a ++ b) := by
  obtain ⟨c, r, rfl, hc⟩ := h.head
  refine ⟨⟨c, r ++ t, rfl, hc⟩, ?_⟩
  rw [List.mem_append, h.returns, ht, Lexeme.holdReturn_append]

theorem ShowsReturns.parenthesize (h : s.ShowsReturns a) : (Print.parenthesize s).ShowsReturns a :=
  ⟨⟨'(', _, rfl, by decide⟩, by simp +decide [Print.parenthesize, h.returns]⟩

/-- Parentheses that printing adds have no carriage return. -/
theorem ShowsReturns.group (h : s.ShowsReturns a) (needed : Bool) : (Print.groupText needed s).ShowsReturns a := by
  cases needed with
  | false => exact h
  | true => exact h.parenthesize

/-- An operator between two texts. -/
theorem ShowsReturns.joinBy {operator : Text} (hs : s.ShowsReturns a) (ht : t.ShowsReturns b)
    (ho : (Lexeme.ofOperator operator).kind ≠ .eof ∧ (Lexeme.ofOperator operator).IsScanned) :
    (s ++ " " ++ operator ++ " " ++ t).ShowsReturns (a ++ .ofOperator operator :: b) := by
  obtain ⟨sign, rfl⟩ := ho.2.of_operator
  rw [Lexeme.ofOperator_spelling] at ho ⊢
  have hsign := (showsReturns_of_isScanned ho).returns
  rw [show (Lexeme.ofSymbol sign).spelled = sign.spelling from rfl] at hsign
  rw [List.append_assoc, List.append_assoc, List.append_assoc]
  exact hs.before (by simp +decide [hsign, ht.returns])

/-- A list between its brackets holds the carriage returns of its elements. -/
theorem return_mem_intercalate {separator : Text} (hs : CodePoint.ofChar '\r' ∉ separator) (texts : List Text) :
    CodePoint.ofChar '\r' ∈ List.intercalate separator texts ↔ ∃ t ∈ texts, CodePoint.ofChar '\r' ∈ t := by
  induction texts with
  | nil => simp
  | cons t rest ih =>
    cases rest with
    | nil => simp
    | cons u rest =>
      rw [List.intercalate_cons_cons, List.mem_append, List.mem_append, or_iff_left hs, ih,
        List.exists_mem_cons_iff (a := t)]

end Text

namespace Print

/-- Lines that are printed for some lexemes: behind its indentation none starts with a blank, and one holds a carriage
return just if a regular expression among them does. -/
structure ShowReturns (lines : List Text) (ls : List Lexeme) : Prop where
  heads : ∀ l ∈ lines, ∃ i s, l = line i s ∧ ∃ c r, s = c :: r ∧ c.isBlank = false
  returns : (∃ l ∈ lines, CodePoint.ofChar '\r' ∈ l) ↔ Lexeme.HoldReturn ls

variable {s t : Text} {a b : List Lexeme} {i : Int} {first : Text} {rest lines lines' : List Text}

theorem return_mem_line : CodePoint.ofChar '\r' ∈ line i s ↔ CodePoint.ofChar '\r' ∈ s := by
  rw [line, List.mem_append, or_iff_right fun hm => ?_]
  exact absurd (List.eq_of_mem_replicate hm) (by decide)

/-- Where a line starts, only spaces are trimmed. -/
theorem return_mem_trimLeft (h : ∃ i s, first = line i s ∧ ∃ c r, s = c :: r ∧ c.isBlank = false) :
    CodePoint.ofChar '\r' ∈ first.trimLeft ↔ CodePoint.ofChar '\r' ∈ first := by
  obtain ⟨i, s, rfl, c, r, rfl, hc⟩ := h
  rw [trimLeft_indented, trimLeft_of_head hc, return_mem_line]

theorem showReturns_nil : ShowReturns [] [] := ⟨by simp, by simp⟩

theorem showReturns_singleton (h : s.ShowsReturns a) : ShowReturns [line i s] a :=
  ⟨List.forall_mem_singleton.mpr ⟨i, s, rfl, h.head⟩, by simp [return_mem_line, h.returns]⟩

namespace ShowReturns

theorem append (h : ShowReturns lines a) (h' : ShowReturns lines' b) : ShowReturns (lines ++ lines') (a ++ b) := by
  refine ⟨List.forall_mem_append.mpr ⟨h.heads, h'.heads⟩, ?_⟩
  rw [Lexeme.holdReturn_append, ← h.returns, ← h'.returns]
  simp [or_and_right, exists_or]

theorem braced (h : ShowReturns lines a) (i : Int) : ShowReturns ([line i "\x7b"] ++ lines ++ [line i "\x7d"]) a := by
  have hbrace : ShowsReturns "\x7b" [] ∧ ShowsReturns "\x7d" [] :=
    ⟨⟨⟨_, _, rfl, by decide⟩, by simp +decide⟩, ⟨_, _, rfl, by decide⟩, by simp +decide⟩
  simpa using ((showReturns_singleton (i := i) hbrace.1).append h).append (showReturns_singleton (i := i) hbrace.2)

/-- A text in front of the first line, which is trimmed. -/
theorem headed (h : ShowReturns (first :: rest) b) (hs : s.ShowsReturns a) (i : Int) :
    ShowReturns (line i (s ++ first.trimLeft) :: rest) (a ++ b) := by
  obtain ⟨hfirst, hrest⟩ := List.forall_mem_cons.mp h.heads
  obtain ⟨c, r, rfl, hc⟩ := hs.head
  refine ⟨List.forall_mem_cons.mpr ⟨⟨i, _, rfl, c, _, rfl, hc⟩, hrest⟩, ?_⟩
  rw [Lexeme.holdReturn_append, ← hs.returns, ← h.returns, List.exists_mem_cons_iff, List.exists_mem_cons_iff,
    return_mem_line, List.mem_append, return_mem_trimLeft hfirst, or_assoc]

theorem joinElse (h : Print.joinElse i lines lines' = .ok rest) (ha : ShowReturns lines a)
    (hb : ShowReturns lines' b) : ShowReturns rest (a ++ b) := by
  cases lines' with
  | nil => cases h
  | cons first others =>
    obtain ⟨hfirst, hothers⟩ := List.forall_mem_cons.mp hb.heads
    simp only [Print.joinElse] at h
    split at h
    next hlast =>
      cases h
      obtain rfl | ⟨init, last, rfl⟩ := List.eq_nil_or_concat lines
      · cases hlast
      rw [List.concat_eq_append] at ha ⊢
      obtain ⟨hinit, hlast⟩ := List.forall_mem_append.mp ha.heads
      obtain ⟨j, s, rfl, c, r, rfl, hc⟩ := List.forall_mem_singleton.mp hlast
      rw [List.getLast?_concat, Option.getD_some, List.dropLast_concat]
      have hjoined : line j (c :: r) ++ " else " ++ first.trimLeft =
          line j (c :: (r ++ " else " ++ first.trimLeft)) := by simp [line]
      refine ⟨List.forall_mem_append.mpr ⟨hinit, List.forall_mem_cons.mpr ⟨⟨j, _, hjoined, c, _, rfl, hc⟩, ?_⟩⟩, ?_⟩
      · exact hothers
      rw [Lexeme.holdReturn_append, ← ha.returns, ← hb.returns]
      simp +decide [or_and_right, exists_or, return_mem_trimLeft hfirst, or_assoc]
    next =>
      cases h
      have helse : ShowsReturns "else " [] := ⟨⟨'e', _, rfl, by decide⟩, by simp +decide⟩
      exact ha.append (hb.headed helse i)

/-- Lines on one line. -/
theorem inline (h : ShowReturns lines a) (hends : EndStatements lines) : (inlineText lines).ShowsReturns a := by
  have hcontent : CodePoint.ofChar '\r' ∈ List.intercalate (" " : Text) (lines.map Text.trim) ↔
      Lexeme.HoldReturn a := by
    rw [return_mem_intercalate (by decide), ← h.returns]
    simp only [List.mem_map, exists_exists_and_eq_and]
    refine exists_congr fun l => and_congr_right fun hl => ?_
    rw [(hends l hl).trim, return_mem_trimLeft (h.heads l hl)]
  rw [inlineText]
  split
  next hempty =>
    rw [List.isEmpty_iff.mp hempty] at hcontent
    exact ⟨⟨'\x7b', _, rfl, by decide⟩, by simp +decide [← hcontent]⟩
  next => exact ⟨⟨'\x7b', _, rfl, by decide⟩, by simp +decide [hcontent]⟩

end ShowReturns

end Print

namespace Node

open Print

variable {bare : Node → Prop}

/-- The words around a condition are reserved words and parentheses. -/
@[simp] theorem holdReturn_conditionWords (consequent : Node) (explicitThen : Bool) (a : List Lexeme) :
    Lexeme.HoldReturn (conditionWords consequent explicitThen a) ↔ Lexeme.HoldReturn a := by
  rw [conditionWords]
  split
  · simp
  · split <;> simp

@[simp] theorem not_holdReturn_declarationWords (constant mutable : Bool) :
    ¬Lexeme.HoldReturn (declarationWords constant mutable) := by
  cases constant <;> cases mutable <;> simp [declarationWords]

theorem mem_conditionWords (consequent : Node) (explicitThen : Bool) {a : List Lexeme} {l : Lexeme} (h : l ∈ a) :
    l ∈ conditionWords consequent explicitThen a := by
  rw [conditionWords]
  split
  · simp [h]
  · split <;> simp [h]

/-- A block on one line. -/
theorem showsReturns_block {body : List Node} {lines : List Text} {a : List Lexeme} (hl : allLines 0 body = .ok lines)
    (h : ShowReturns lines a) : (inlineText lines).ShowsReturns (.ofSymbol .lbrace :: a ++ [.ofSymbol .rbrace]) := by
  have hinline := h.inline (endStatements_allLines body hl)
  exact ⟨hinline.head, hinline.returns.trans (by simp)⟩

mutual

/-- What is printed for an expression. -/
theorem text_returns (n : Node) {s : Text} {ls : List Lexeme} (h : n.text = .ok s) (hw : n.WrittenAs bare ls)
    (hs : ∀ l ∈ ls, l.kind ≠ .eof ∧ l.IsScanned) : s.ShowsReturns ls := by
  cases n with
  | identifier | string | regex =>
    cases h
    cases hw
    exact showsReturns_of_isScanned (hs _ (List.mem_singleton_self _))
  | numeric loc digits base =>
    cases hw
    have hl := hs _ (List.mem_singleton_self _)
    cases h.symm.trans (hl.2.numeral rfl)
    exact showsReturns_of_isScanned hl
  | boolean loc value =>
    cases h
    cases hw
    cases value <;> exact showsReturns_of_isScanned (hs _ (List.mem_singleton_self _))
  | parenthesized loc e =>
    obtain ⟨a, ha, rfl⟩ := text_parenthesized.mp h
    obtain ⟨x, hx, rfl⟩ := hw
    have ih := (text_returns e ha hx fun l hl => hs l (by simp [hl])).parenthesize
    exact ⟨ih.head, ih.returns.trans (by simp)⟩
  | array loc elements | arrayPattern loc elements =>
    obtain ⟨l, hl, rfl⟩ := bracketed_iff.mp h
    obtain ⟨x, hx, rfl⟩ := hw
    have ih := listTexts_returns elements hl hx fun l hl => hs l (by simp [hl])
    exact ⟨⟨'[', _, rfl, by decide⟩, by simp +decide [return_mem_intercalate, ih]⟩
  | field loc object name =>
    obtain ⟨a, ha, -, rfl⟩ := text_field.mp h
    obtain ⟨x, word, hx, hn, hv, rfl⟩ := hw
    have ih := (text_returns object ha hx fun l hl => hs l (by simp [hl])).group (object.needsGroup .postfixChain true)
    have hword := hn.return_not_mem (hs word (by simp)).2
    rw [List.append_assoc]
    exact ih.before (by simp +decide [← hv, hword, Lexeme.holdReturn_cons])
  | index loc object i =>
    obtain ⟨a, b, ha, hb, rfl⟩ := text_index.mp h
    obtain ⟨x, y, hx, hy, rfl⟩ := hw
    have ih := (text_returns object ha hx fun l hl => hs l (by simp [hl])).group (object.needsGroup .postfixChain true)
    have ih' := text_returns i hb hy fun l hl => hs l (by simp [hl])
    rw [List.append_assoc, List.append_assoc, List.append_assoc]
    exact ih.before (by simp +decide [ih'.returns])
  | call loc callee arguments =>
    obtain ⟨a, l, ha, hl, rfl⟩ := text_call.mp h
    obtain ⟨x, y, hx, hy, rfl⟩ := hw
    have ih := (text_returns callee ha hx fun l hl => hs l (by simp [hl])).group (callee.needsGroup .postfixChain true)
    have ih' := listTexts_returns arguments hl hy fun l hl => hs l (by simp [hl])
    rw [List.append_assoc, List.append_assoc, List.append_assoc]
    exact ih.before (by simp +decide [return_mem_intercalate, ih'])
  | unary loc operator argument leading =>
    obtain ⟨a, ha, rfl⟩ := text_unary.mp h
    obtain ⟨x, hx, rfl⟩ := hw
    have ih := (text_returns argument ha hx fun l hl => hs l (by simp [hl])).group
      (argument.needsGroup .postfixChain false)
    have hop := hs (.ofOperator operator) (by simp)
    obtain ⟨sign, rfl⟩ := hop.2.of_operator
    rw [Lexeme.ofOperator_spelling] at hop ⊢
    exact (showsReturns_of_isScanned hop).before ih.returns
  | binary loc operator left right =>
    obtain ⟨-, -, level, -, -, ho⟩ := of_text_binary h
    obtain ⟨a, b, ha, hb, rfl⟩ := (text_binary ho).mp h
    obtain ⟨x, y, hx, hy, rfl⟩ := hw
    have ih := (text_returns left ha hx fun l hl => hs l (by simp [hl])).group (left.needsGroup level.sides.1 true)
    have ih' := (text_returns right hb hy fun l hl => hs l (by simp [hl])).group
      (right.needsGroup level.sides.2 false)
    exact ih.joinBy ih' (hs _ (by simp))
  | assignment loc left right operator =>
    obtain ⟨a, b, ha, hb, rfl⟩ := text_assignment.mp h
    obtain ⟨x, y, hx, hy, rfl⟩ := hw
    have ih := text_returns left ha hx fun l hl => hs l (by simp [hl])
    have ih' := text_returns right hb hy fun l hl => hs l (by simp [hl])
    exact ih.joinBy ih' (hs _ (by simp))
  | conditional loc condition consequent alternate explicitThen =>
    obtain ⟨x, y, z, hx, hy, hz, rfl⟩ := hw
    have hsx : ∀ l ∈ x, l.kind ≠ .eof ∧ l.IsScanned := fun l hl =>
      hs l (List.mem_append_left _ (List.mem_append_left _ (mem_conditionWords consequent explicitThen hl)))
    cases hq : consequent.isBlock with
    | false =>
      obtain ⟨c, u, v, hc, hu, hv, rfl⟩ := (text_conditional hq).mp h
      have ihc := text_returns condition hc hx hsx
      have ihu := text_returns consequent hu hy fun l hl => hs l (by simp [hl])
      have ihv := text_returns alternate hv hz fun l hl => hs l (by simp [hl])
      have ihg := ihc.group condition.needsGroupBare
      cases explicitThen with
      | true => exact ⟨⟨'i', _, rfl, by decide⟩, by simp +decide [ihg.returns, ihu.returns, ihv.returns]⟩
      | false =>
        exact ⟨⟨'i', _, rfl, by decide⟩, by simp +decide [ihc.parenthesize.returns, ihu.returns, ihv.returns]⟩
    | true =>
      obtain ⟨c, u, v, hc, hu, hv, rfl⟩ := (text_conditional_block hq).mp h
      have ihc := (text_returns condition hc hx hsx).group condition.needsGroupBare
      have ihu : u.ShowsReturns y := by
        cases consequent with
        | block loc body =>
          obtain ⟨l, hl, rfl⟩ := inlined_iff.mp hu
          obtain ⟨e, he, rfl⟩ := hy
          exact showsReturns_block hl (allLines_returns body hl he fun l hl => hs l (by simp [hl]))
        | _ => cases hq
      have ihv : v.ShowsReturns z := by
        cases hblock : alternate.isBlock with
        | false =>
          rw [branchText_of_isBlock hblock] at hv
          exact text_returns alternate hv hz fun l hl => hs l (by simp [hl])
        | true =>
          cases alternate with
          | block loc body =>
            obtain ⟨l, hl, rfl⟩ := inlined_iff.mp hv
            obtain ⟨e, he, rfl⟩ := hz
            exact showsReturns_block hl (allLines_returns body hl he fun l hl => hs l (by simp [hl]))
          | _ => cases hblock
      exact ⟨⟨'i', _, rfl, by decide⟩, by simp +decide [ihc.returns, ihu.returns, ihv.returns]⟩
  | _ => cases h

theorem listTexts_returns (l : List Node) {texts : List Text} {ls : List Lexeme} (h : allTexts l = .ok texts)
    (hw : ListWrittenAs bare l ls) (hs : ∀ l ∈ ls, l.kind ≠ .eof ∧ l.IsScanned) :
    (∃ t ∈ texts, CodePoint.ofChar '\r' ∈ t) ↔ Lexeme.HoldReturn ls := by
  cases l with
  | nil =>
    cases h
    cases hw
    simp
  | cons n rest =>
    obtain ⟨x, y, hx, hy, rfl⟩ := hw
    obtain ⟨s, hn, h⟩ := Except.of_bind_ok h
    obtain ⟨ts, hrest, h⟩ := Except.of_bind_ok h
    cases h
    have ih := text_returns n hn hx fun l hl => hs l (by simp [hl])
    have ih' := restTexts_returns rest hrest hy fun l hl => hs l (by simp [hl])
    rw [List.exists_mem_cons_iff, ih.returns, ih', Lexeme.holdReturn_append]

theorem restTexts_returns (l : List Node) {texts : List Text} {ls : List Lexeme} (h : allTexts l = .ok texts)
    (hw : RestWrittenAs bare l ls) (hs : ∀ l ∈ ls, l.kind ≠ .eof ∧ l.IsScanned) :
    (∃ t ∈ texts, CodePoint.ofChar '\r' ∈ t) ↔ Lexeme.HoldReturn ls := by
  cases l with
  | nil =>
    cases h
    rcases hw with rfl | rfl <;> simp
  | cons n rest =>
    obtain ⟨x, y, hx, hy, rfl⟩ := hw
    obtain ⟨s, hn, h⟩ := Except.of_bind_ok h
    obtain ⟨ts, hrest, h⟩ := Except.of_bind_ok h
    cases h
    have ih := text_returns n hn hx fun l hl => hs l (by simp [hl])
    have ih' := restTexts_returns rest hrest hy fun l hl => hs l (by simp [hl])
    simp [ih.returns, ih']

/-- The lines that are printed for a statement. -/
theorem lines_returns (n : Node) {i : Int} {lines : List Text} {ls : List Lexeme} (h : n.lines i = .ok lines)
    (hw : n.WrittenAs bare ls) (hs : ∀ l ∈ ls, l.kind ≠ .eof ∧ l.IsScanned) : ShowReturns lines ls := by
  cases n with
  | program loc body => exact allLines_returns body h hw hs
  | expressionStatement loc e =>
    obtain ⟨s, he, rfl⟩ := lines_expressionStatement.mp h
    obtain ⟨x, hx, rfl⟩ := hw
    have ih := text_returns e he hx fun l hl => hs l (by simp [hl])
    refine showReturns_singleton ?_
    rw [statementText]
    split
    · exact ih.parenthesize.before (by simp +decide)
    · exact ih.before (by simp +decide)
  | block loc body =>
    obtain ⟨x, hx, rfl⟩ := hw
    rcases lines_block.mp h with ⟨rfl, rfl⟩ | ⟨-, l, hl, rfl⟩
    · cases hx
      exact showReturns_singleton ⟨⟨'\x7b', _, rfl, by decide⟩, by simp +decide⟩
    · have ih := (allLines_returns body hl hx fun l hl => hs l (by simp [hl])).braced i
      exact ⟨ih.heads, ih.returns.trans (by simp)⟩
  | conditionalStatement loc condition consequent alternate =>
    obtain ⟨first, rest, c, hbranch, hc, hrest⟩ := lines_conditionalStatement.mp h
    obtain ⟨x, y, z, hx, hy, hz, hls⟩ := hw
    have hres : Lexeme.HoldReturn (x ++ y ++ z) ↔ Lexeme.HoldReturn ls := by
      rcases hls with rfl | ⟨-, -, -, rfl⟩ <;> simp
    have hparts : ∀ l ∈ x ++ y ++ z, l.kind ≠ .eof ∧ l.IsScanned := by
      refine fun l hl => hs l ?_
      rcases hls with rfl | ⟨-, -, -, rfl⟩ <;> simp only [List.mem_append, List.mem_cons] at hl ⊢ <;> tauto
    have ihc := (text_returns condition hc hx fun l hl => hparts l (by simp [hl])).parenthesize
    have hif : ShowReturns (first :: rest) y := by
      split at hbranch
      · obtain ⟨l, hl, hlines⟩ := braced_iff.mp hbranch
        rw [hlines]
        exact (lines_returns consequent hl hy fun l hl => hparts l (by simp [hl])).braced i
      · exact lines_returns consequent hbranch hy fun l hl => hparts l (by simp [hl])
    have hhead : ShowsReturns ("if " ++ parenthesize c ++ " ") x :=
      ⟨⟨'i', _, rfl, by decide⟩, by simp +decide [ihc.returns]⟩
    have hheaded := hif.headed hhead i
    rcases withElse_iff.mp hrest with ⟨hnone, rfl⟩ | ⟨l, hl, hjoin⟩
    · cases alternate with
      | some => cases hnone
      | none =>
        cases hz
        rw [List.append_nil] at hres
        exact ⟨hheaded.heads, hheaded.returns.trans hres⟩
    · cases alternate with
      | none => cases hl
      | some alternate =>
        obtain ⟨e, he, rfl⟩ := hz
        have iha := lines_returns alternate (Option.some.inj hl) he fun l hl => hparts l (by simp [hl])
        have hjoined := ShowReturns.joinElse hjoin hheaded iha
        exact ⟨hjoined.heads, hjoined.returns.trans (by simpa using hres)⟩
  | declaration loc left type right constant mutable =>
    obtain ⟨-, a, b, d, ha, hb, hd, rfl⟩ := lines_declaration.mp h
    obtain ⟨x, y, z, hx, hy, hz, rfl⟩ := hw
    have ihl := text_returns left ha hx fun l hl => hs l (by simp [hl])
    have ihb : CodePoint.ofChar '\r' ∈ b ↔ Lexeme.HoldReturn y := by
      cases type with
      | none =>
        cases hb
        cases hy
        simp
      | some type =>
        obtain ⟨e, he, rfl⟩ := hy
        obtain ⟨u, hu, rfl⟩ := Except.map_ok_iff.mp hb
        obtain ⟨w, hw, rfl⟩ := operand_iff.mp hu
        have ih := (text_returns type hw he fun l hl => hs l (by simp [hl])).group
          (type.needsGroup .comparison right.isSome)
        simp +decide [ih.returns]
    have ihd : CodePoint.ofChar '\r' ∈ d ↔ Lexeme.HoldReturn z := by
      cases right with
      | none =>
        cases hd
        cases hz
        simp
      | some right =>
        obtain ⟨e, he, rfl⟩ := hz
        obtain ⟨u, hu, rfl⟩ := Except.map_ok_iff.mp hd
        have ih := text_returns right hu he fun l hl => hs l (by simp [hl])
        simp +decide [ih.returns]
    obtain ⟨w, r, hwords, hw⟩ := (laysOut_declarationWords constant mutable).1
    have hplain : CodePoint.ofChar '\r' ∉ Print.declarationWords constant mutable := by
      cases constant <;> cases mutable <;> decide
    refine showReturns_singleton ⟨⟨w, _, by rw [hwords]; rfl, hw⟩, ?_⟩
    simp +decide [hplain, ihl.returns, ihb, ihd]
  | _ => cases h

theorem allLines_returns (l : List Node) {i : Int} {lines : List Text} {ls : List Lexeme} (h : allLines i l = .ok lines)
    (hw : AllWrittenAs bare l ls) (hs : ∀ l ∈ ls, l.kind ≠ .eof ∧ l.IsScanned) : ShowReturns lines ls := by
  cases l with
  | nil =>
    cases h
    cases hw
    exact showReturns_nil
  | cons n rest =>
    obtain ⟨a, b, ha, hb, rfl⟩ := allLines_cons.mp h
    obtain ⟨x, y, hx, hy, rfl⟩ := hw
    exact (lines_returns n ha hx fun l hl => hs l (by simp [hl])).append
      (allLines_returns rest hb hy fun l hl => hs l (by simp [hl]))

end

end Node

/-- A regular expression in the source holds a carriage return. -/
def Text.HoldsReturn (source : Text) : Prop :=
  ∃ tokens, tokenize source = .ok tokens ∧ ∃ token ∈ tokens, token.kind = .regex ∧ CodePoint.ofChar '\r' ∈ token.value

instance (source : Text) : Decidable source.HoldsReturn :=
  match h : tokenize source with
  | .ok tokens =>
    decidable_of_iff (∃ token ∈ tokens, token.kind = .regex ∧ CodePoint.ofChar '\r' ∈ token.value)
      ⟨fun hheld => ⟨tokens, h, hheld⟩, fun ⟨_, h', hheld⟩ => Except.ok.inj (h'.symm.trans h) ▸ hheld⟩
  | .error _ => .isFalse fun ⟨_, h', _⟩ => by cases h.symm.trans h'

/-- A regular expression has its value in its text. -/
theorem Lexeme.Spells.value_subset {l : Lexeme} {s t : Text} (h : l.Spells s t) (hk : l.kind = .regex) :
    l.value ⊆ s := by
  cases h with
  | regex => exact fun c hc => List.mem_cons_of_mem _ (List.mem_append_left _ hc)
  | _ => cases hk

theorem Text.SplitsInto.value_subset {position : Int} {a : Text} {tokens : List Token}
    (h : a.SplitsInto position tokens) : ∀ token ∈ tokens, token.kind = .regex → token.value ⊆ a := by
  induction h with
  | done => exact List.forall_mem_nil _
  | next _ hspells _ _ ih =>
    refine List.forall_mem_cons.mpr ⟨fun hk c hc => ?_, fun token ht hk c hc => ?_⟩
    · exact List.mem_append_right _ (List.mem_append_left _ (hspells.value_subset hk hc))
    · exact List.mem_append_right _ (List.mem_append_right _ (ih token ht hk hc))

/-- A carriage return in a regular expression stands in the source. -/
theorem Text.HoldsReturn.mem {source : Text} (h : source.HoldsReturn) : CodePoint.ofChar '\r' ∈ source := by
  obtain ⟨tokens, ht, token, hm, hk, hreturn⟩ := h
  obtain ⟨inner, last, rfl, hlast, -, hsplits⟩ := splitsInto_of_tokenize ht
  rcases List.mem_append.mp hm with hm | hm
  · exact hsplits.value_subset token hm hk hreturn
  · rw [List.mem_singleton.mp hm] at hk
    cases hk.symm.trans (congrArg Lexeme.kind hlast)

theorem Text.Scans.holdsReturn_iff {source : Text} {ls : List Lexeme} (h : source.Scans ls) :
    source.HoldsReturn ↔ Lexeme.HoldReturn ls := by
  obtain ⟨tokens, ht, hmap⟩ := h.tokens
  have hend : Lexeme.HoldReturn ls ↔ Lexeme.HoldReturn (tokens.map Token.toLexeme) := by
    simp [hmap, Lexeme.holdReturn_cons, Lexeme.endOfInput]
  rw [hend]
  simp [HoldsReturn, ht, Lexeme.HoldReturn]

/-- The text that is printed for a source has a carriage return just if a regular expression in the source has
one. -/
theorem Entry.return_mem_print (entry : Entry) {source text : Text} {tree : Node} (h : entry.ofSource source = .ok tree)
    (hp : entry.print tree = .ok text) : CodePoint.ofChar '\r' ∈ text ↔ source.HoldsReturn := by
  obtain ⟨ls, hscans, hcanonical, hw⟩ := entry.written_of_ofSource h
  rw [hscans.holdsReturn_iff]
  cases entry with
  | expression => exact (tree.text_returns hp hw hscans.scanned).returns
  | program =>
    cases tree with
    | program loc body =>
      cases hl : Node.allLines 0 body with
      | error broken =>
        have hsource : (Node.program loc body).source = .error broken.error := by
          simp only [Node.source, Sheet.addTree_eq, Node.treeLines, Sheet.add, Node.lines, Sheet.empty, hl]
        cases hp.symm.trans hsource
      | ok lines =>
        cases hp.symm.trans (source_program hl)
        rw [← (Node.allLines_returns body hl hw hscans.scanned).returns]
        simp +decide [List.mem_flatMap]
    | _ => cases hcanonical

end MagSyntax
