import MagSyntax.Proofs.ExpressionStatements
import MagSyntax.Proofs.HandBuilt
import MagSyntax.Proofs.Surrounded

/-! The two entries agree: what is accepted as an expression is accepted as a program of one statement with
parentheses around it and a semicolon behind, and most of it without the parentheses. More rules are
open in the program, so only its guards can make a difference. -/

namespace MagSyntax

open Parse Input

namespace Input

/-- The end that tokens are given stands behind them all. -/
theorem ordered_ofTokens {tokens : List Token} (hinside : ∀ t ∈ tokens, t.kind ≠ .eof)
    (h : tokens.Pairwise fun a b => a.place.position < b.place.position) :
    (ofTokens tokens).toList.Pairwise fun a b => a.place.position < b.place.position := by
  unfold ofTokens
  split
  next => exact List.pairwise_singleton _ _
  next last hlast =>
    rw [if_neg (hinside last (List.mem_of_getLast? hlast))]
    obtain ⟨init, rfl⟩ := List.getLast?_eq_some_iff.mp hlast
    refine List.pairwise_append.mpr ⟨h, List.pairwise_singleton _ _, fun a ha b hb => ?_⟩
    rw [List.mem_singleton.mp hb]
    rcases List.mem_append.mp ha with ha | ha
    · have hlt := (List.pairwise_append.mp h).2.2 a ha last (List.mem_singleton_self _)
      exact Int.lt_trans hlt (Int.lt_succ _)
    · rw [List.mem_singleton.mp ha]
      exact Int.lt_succ _

end Input

/-- The tokens of a source that is an expression are read to their end as that expression, wherever they stand in
order. -/
theorem Rule.readsAll_of_lexemes {source : Text} {tokens part : List Token} {e : Node}
    (ht : tokenize source = .ok tokens) (h : Entry.expression.ofSource source = .ok e)
    (hl : part.map Token.toLexeme = (tokens.map Token.toLexeme).dropLast)
    (hordered : part.Pairwise fun a b => a.place.position < b.place.position) :
    ∃ e', expression.ReadsAll part e' ∧ e'.alike e := by
  rw [Entry.expression.ofSource_of_tokenize ht] at h
  obtain ⟨inner, last, rfl, hlast, -, hinner⟩ := tokens_of_tokenize ht
  rw [List.map_append, List.map_singleton, List.dropLast_concat] at hl
  have hinside : ∀ t ∈ part, t.kind ≠ .eof := by
    intro t ht
    have hmem : t.toLexeme ∈ inner.map Token.toLexeme := hl ▸ List.mem_map_of_mem ht
    obtain ⟨t', ht', he⟩ := List.mem_map.mp hmem
    exact he ▸ (hinner t' ht').1
  obtain ⟨place, hpart⟩ := ofTokens_eq hinside
  have htokens := toList_of_tokenize ht
  have hm : Mirror.IsFair ⟨{ input := .ofTokens (inner ++ [last]) }, { input := .ofTokens part }, _, False⟩ :=
    isFair_of_lexemes (kind_last_ofTokens _)
    (by rw [htokens, hpart, toList, List.map_append, List.map_append, hl, List.map_singleton, hlast]; rfl)
    (by rw [htokens]; exact ordered_of_tokenize ht) (ordered_ofTokens hinside hordered) False (fun hf => hf.elim)
  rcases Entry.expression.ofInput_mirrored hm with ⟨n, n', hn, hn', halike⟩ | ⟨_, _, _, _, herror, _⟩
  · obtain rfl : n = e := Except.ok.inj (hn.symm.trans h)
    obtain ⟨p, hp, hend⟩ := Entry.expression.run_of_ofInput hn'
    refine ⟨n', ⟨p, hp, ?_⟩, (Node.alike_iff _ _).mpr ((Node.alike_iff _ _).mp halike).symm⟩
    have hle := Grammar.cursor_le (kind_last_ofTokens part) hp
    rw [hpart] at hle hend
    refine Nat.le_antisymm hle (Nat.le_of_not_lt fun hlt => ?_)
    have hget := hend rfl
    rw [get_mk, List.getElem?_eq_getElem hlt] at hget
    exact hinside _ (List.getElem_mem hlt) hget
  · rw [h] at herror
    cases herror

namespace Entry

/-- The source has tokens, and their parse uses up the budget. -/
def RunsOut (entry : Entry) (source : Text) : Prop :=
  ∃ tokens p, tokenize source = .ok tokens ∧
    (Grammar.rule entry.rule).run { input := .ofTokens tokens } .start = .failed .exhausted p

variable {source : Text} {e : Node}

/-- An expression in parentheses is a program of one statement, unless a guard cuts it short. -/
theorem program_of_grouped (h : expression.ofSource source = .ok e) :
    program.CutsShort source.grouped ∨ ∃ loc e', program.ofSource source.grouped =
      .ok (.program loc [.expressionStatement loc (.parenthesized loc e')]) ∧ e'.alike e := by
  obtain ⟨tokens, ht⟩ := expression.tokenize_of_ofSource h
  obtain ⟨opening, part, closing, semi, last, hgrouped, hopening, hpart, hclosing, hsemi, hlast⟩ :=
    tokenize_grouped ht
  have hordered := ordered_of_tokenize hgrouped
  rw [List.pairwise_cons, List.pairwise_append] at hordered
  obtain ⟨e', he, halike⟩ := Rule.readsAll_of_lexemes ht h hpart hordered.2.1
  have hinput : Input.ofTokens (opening :: (part ++ [closing, semi, last])) =
      ⟨(opening :: (part ++ [closing, semi])).toArray, last⟩ := by
    rw [← ofTokens_append hlast]
    simp
  obtain ⟨hfirst, hrest⟩ := (holds_mk (opening :: (part ++ [closing, semi])) last).contains
  obtain ⟨hwhole, hclose, hsemicolon, -⟩ := contains_append.mp hrest
  rw [← hinput] at hfirst hwhole hclose hsemicolon
  have hend : ((Input.ofTokens (opening :: (part ++ [closing, semi, last]))).get
      (1 + part.length + 2)).kind = .eof := by
    have hlength : (opening :: (part ++ [closing, semi])).length ≤ 1 + part.length + 2 := by
      simp only [List.length_cons, List.length_append, List.length_nil]
      omega
    rw [hinput, get_mk, List.getElem?_eq_none hlength]
    exact hlast
  rw [← hfirst] at hopening
  rw [← hclose] at hclosing
  rw [← hsemicolon] at hsemi
  exact (groupStatement he (by rw [hinput]; exact hlast) hopening hwhole hclosing hsemi hend).imp
    (fun hcut => ⟨_, hgrouped, hcut⟩)
    fun hok => ⟨_, e', (program.ofSource_of_tokenize hgrouped).trans hok, halike⟩

/-- An expression that is no assignment and does not start with an `if` is a program of one statement, unless
that uses up the budget. -/
theorem program_of_ended (h : expression.ofSource source = .ok e) (hn : e.isAssignment = false)
    (hif : ∀ first rest, tokenize source = .ok (first :: rest) → first.kind ≠ Keyword.ifWord) :
    program.RunsOut source.ended ∨ ∃ loc e', program.ofSource source.ended =
      .ok (.program loc [.expressionStatement e'.loc e']) ∧ e'.alike e := by
  obtain ⟨tokens, ht⟩ := expression.tokenize_of_ofSource h
  obtain ⟨part, semi, last, hended, hpart, hsemi, hlast⟩ := tokenize_ended ht
  have hordered := ordered_of_tokenize hended
  rw [List.pairwise_append] at hordered
  obtain ⟨e', he, halike⟩ := Rule.readsAll_of_lexemes ht h hpart hordered.1
  have hinput : Input.ofTokens (part ++ [semi, last]) = ⟨(part ++ [semi]).toArray, last⟩ := by
    rw [← ofTokens_append hlast]
    simp
  obtain ⟨hwhole, hsemicolon, -⟩ := contains_append.mp (holds_mk (part ++ [semi]) last).contains
  rw [← hinput, Nat.zero_add] at hsemicolon
  rw [← hinput] at hwhole
  have hend : ((Input.ofTokens (part ++ [semi, last])).get (part.length + 1)).kind = .eof := by
    rw [hinput, get_mk, List.getElem?_eq_none (by simp)]
    exact hlast
  have hfirst : ((Input.ofTokens (part ++ [semi, last])).get 0).kind ≠ Keyword.ifWord := by
    have hnonempty := he.bounds.1 (by decide)
    cases part with
    | nil => cases hnonempty
    | cons p part =>
      rw [hwhole.1]
      cases tokens with
      | nil => cases hpart
      | cons first rest =>
        cases rest with
        | nil => cases hpart
        | cons second rest =>
          have hlexeme : p.toLexeme = first.toLexeme := (List.cons.inj hpart).1
          rw [hlexeme]
          exact hif first _ ht
  have hn' : e'.isAssignment = false := by
    rw [← Node.isAssignment_unplaced, (Node.alike_iff _ _).mp halike, Node.isAssignment_unplaced, hn]
  rw [← hsemicolon] at hsemi
  refine (bareStatement he hn' (by rw [hinput]; exact hlast) hwhole hfirst hsemi hend).imp ?_
    fun hok => ⟨_, e', (program.ofSource_of_tokenize hended).trans hok, halike⟩
  rintro ⟨p, hp⟩
  exact ⟨_, p, hended, hp⟩

/-- What is an expression on its own is a program of one statement in parentheses, unless a guard cuts that
program short. If it is no assignment and does not start with an `if` it is one without them too, unless that
program uses up the budget. -/
theorem program_of_expression (h : expression.ofSource source = .ok e) :
    (program.CutsShort source.grouped ∨ ∃ loc e', program.ofSource source.grouped =
        .ok (.program loc [.expressionStatement loc (.parenthesized loc e')]) ∧ e'.alike e) ∧
      (e.isAssignment = false →
        (∀ first rest, tokenize source = .ok (first :: rest) → first.kind ≠ Keyword.ifWord) →
          program.RunsOut source.ended ∨ ∃ loc e', program.ofSource source.ended =
            .ok (.program loc [.expressionStatement e'.loc e']) ∧ e'.alike e) :=
  ⟨program_of_grouped h, fun hn hif => program_of_ended h hn hif⟩

/-- A regular expression in front and a comment behind that nothing ends. -/
theorem program_of_expression_comment :
    let source := Text.ofString "/a/[(b)] - c // d"
    ∃ e, expression.ofSource source = .ok e ∧ e.isAssignment = false ∧
      (∀ first rest, tokenize source = .ok (first :: rest) → first.kind ≠ Keyword.ifWord) ∧
      (program.CutsShort source.grouped ∨ ∃ loc e', program.ofSource source.grouped =
        .ok (.program loc [.expressionStatement loc (.parenthesized loc e')]) ∧ e'.alike e) ∧
      (program.RunsOut source.ended ∨ ∃ loc e', program.ofSource source.ended =
        .ok (.program loc [.expressionStatement e'.loc e']) ∧ e'.alike e) := by
  intro source
  have hok : (expression.ofSource source).toOption.map Node.isAssignment = some false := by decide +kernel
  obtain ⟨e, he⟩ : ∃ e, expression.ofSource source = .ok e := by
    cases h : expression.ofSource source with
    | ok e => exact ⟨e, rfl⟩
    | error e =>
      rw [h] at hok
      cases hok
  have hassignment : e.isAssignment = false := by
    rw [he] at hok
    exact Option.some.inj hok
  have hfirst : (tokenize source).toOption.map (·.head?.map (·.kind)) = some (some .regex) := by
    decide +kernel
  have hif : ∀ first rest, tokenize source = .ok (first :: rest) → first.kind ≠ Keyword.ifWord := by
    intro first rest ht
    rw [ht] at hfirst
    have hkind : first.kind = .regex := Option.some.inj (Option.some.inj hfirst)
    rw [hkind]
    decide
  exact ⟨e, he, hassignment, hif, (program_of_expression he).1, (program_of_expression he).2 hassignment hif⟩

section

variable {n : Nat} {tokens : List Token} (ht : tokenize source = .ok tokens)
  (hl : tokens.map Token.toLexeme = (Node.powers n).lexemes ++ [.endOfInput])
include ht hl

/-- Powers that the budget is enough for are an expression, which is no assignment and starts with a name. -/
theorem powers_read (hn : n ≤ 9976) : ∃ v, expression.ofSource source = .ok v ∧ v.isAssignment = false ∧
    ∀ first rest, tokenize source = .ok (first :: rest) → first.kind ≠ Keyword.ifWord := by
  obtain ⟨inner, rest, rfl, hinner, hrest⟩ := List.map_eq_append_iff.mp hl
  obtain ⟨last, rfl, hlast⟩ := List.map_eq_singleton_iff.mp hrest
  have hw := writtenBy_of_toLexeme hinner (congrArg Lexeme.kind hlast)
  obtain ⟨v, hv⟩ := Grammar.ends_powersExpression hw hn
  obtain ⟨q, hq, hc, hrefused⟩ := hv.run_found
  have hread : expression.ofInput (.ofTokens (inner ++ [last])) = .ok v :=
    expression.ofInput_of_ok hq (by rw [hc, hw.input_eq]; exact hw.get_stop)
  refine ⟨v, (expression.ofSource_of_tokenize ht).trans hread, ?_, fun first rest hfirst => ?_⟩
  · rcases expression.finds_canonical (Node.isExpression_powers n) hw with hcut | ⟨t, hfound, halike⟩
    · rw [show (Grammar.rule expression.rule).run _ _ = _ from hq] at hcut
      rcases hcut with hcut | ⟨p, hcut⟩
      · exact absurd (hrefused.symm.trans hcut) Bool.false_ne_true
      · cases hcut
    · obtain rfl : t = v := Except.ok.inj (hfound.symm.trans hread)
      rw [← Node.isAssignment_unplaced, (Node.alike_iff _ _).mp halike, Node.isAssignment_unplaced]
      cases n <;> rfl
  · have hident := kind_of_shows_powers hw.shows
    have heq : inner ++ [last] = first :: rest := Except.ok.inj (ht.symm.trans hfirst)
    have hget : (Input.mk inner.toArray last).get 0 = first := by
      rw [get_mk]
      cases inner <;> exact (List.cons.inj heq).1
    rw [← hget, hident]
    decide

/-- Powers in parentheses use up the budget, if they leave less of it than the program around them takes. -/
theorem groupedPowers_exhausted (hn : 9961 ≤ n) : ∃ tokens' q, tokenize source.grouped = .ok tokens' ∧
    (Grammar.rule .program).run { input := .ofTokens tokens' } .start = .failed .exhausted q ∧
      q.refused = false := by
  obtain ⟨opening, part, closing, semi, last, hgrouped, hopening, hpart, hclosing, hsemi, hlast⟩ :=
    tokenize_grouped ht
  rw [hl, List.dropLast_concat] at hpart
  have hinput : Input.ofTokens (opening :: (part ++ [closing, semi, last])) =
      ⟨([opening] ++ (part ++ [closing, semi])).toArray, last⟩ := by
    rw [← ofTokens_append hlast]
    simp
  have hpowers := (writtenBy_of_toLexeme hpart hlast).shows_among [opening] [closing, semi]
    (by simp [hclosing, hsemi]) last
  rw [← hinput] at hpowers
  obtain ⟨q, hq, hrefused⟩ :=
    (Grammar.powersGroup_exhausted hn (by rw [hinput]; exact hopening) hpowers).run_exhausted
  exact ⟨_, q, hgrouped, hq, hrefused⟩

/-- Without parentheses they use it up if they leave less of it than a statement takes. -/
theorem endedPowers_exhausted (hn : 9975 ≤ n) : ∃ tokens' q, tokenize source.ended = .ok tokens' ∧
    (Grammar.rule .program).run { input := .ofTokens tokens' } .start = .failed .exhausted q := by
  obtain ⟨part, semi, last, hended, hpart, hsemi, hlast⟩ := tokenize_ended ht
  rw [hl, List.dropLast_concat] at hpart
  have hinput : Input.ofTokens (part ++ [semi, last]) = ⟨([] ++ (part ++ [semi])).toArray, last⟩ := by
    rw [← ofTokens_append hlast]
    simp
  have hpowers := (writtenBy_of_toLexeme hpart hlast).shows_among [] [semi] (by simp [hsemi]) last
  rw [← hinput] at hpowers
  obtain ⟨q, hq, -⟩ := (Grammar.powersStatement_exhausted hn hpowers).run_exhausted
  exact ⟨_, q, hended, hq⟩

end

/-- A chain of powers that is an expression, and no program with parentheses around it or with only a semicolon
behind it, although nothing is nested too deeply. -/
theorem powers_no_program :
    ∃ source e tokens, (Node.powers 9975).text = .ok source ∧ expression.ofSource source = .ok e ∧
      e.isAssignment = false ∧
      (∀ first rest, tokenize source = .ok (first :: rest) → first.kind ≠ Keyword.ifWord) ∧
      tokenize source.grouped = .ok tokens ∧
      ((Grammar.rule .program).run { input := .ofTokens tokens } .start).progress.refused = false ∧
      (∀ tree, program.ofSource source.grouped ≠ .ok tree) ∧
      ∀ tree, program.ofSource source.ended ≠ .ok tree := by
  obtain ⟨source, hprint, -, hlays, ha⟩ := expression.print_of_treeOf (n := Node.powers 9975)
    Node.readsBack_isWritable (Node.expressionOf_powers 9975)
  rw [Node.enclosed_powers] at hlays ha
  obtain ⟨tokens, ht, hl⟩ := tokenize_of_lays hlays ha
  obtain ⟨e, he, hn, hif⟩ := powers_read ht hl (by decide)
  obtain ⟨tokens₁, q₁, hgrouped, hq₁, hrefused⟩ := groupedPowers_exhausted ht hl (by decide)
  obtain ⟨tokens₂, q₂, hended, hq₂⟩ := endedPowers_exhausted ht hl (by decide)
  refine ⟨source, e, tokens₁, hprint, he, hn, hif, hgrouped, ?_, program.ofSource_ne_of_exhausted hgrouped hq₁,
    program.ofSource_ne_of_exhausted hended hq₂⟩
  rw [hq₁]
  exact hrefused

end Entry

end MagSyntax
