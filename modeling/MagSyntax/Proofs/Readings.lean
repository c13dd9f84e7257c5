import MagSyntax.Proofs.Groups
import MagSyntax.Proofs.Layout

/-! The context for the next slash behind any number of readings of a source, failed ones included. It
depends on the kinds of the tokens that were read alone: it holds an entry for each of their
parentheses that is open, and a slash that starts no comment is read as these kinds have it. -/

namespace MagSyntax

namespace TokenReader

open SlashContext

/-- The tokens that a number of readings give, in order, and the reader behind them. A reading that fails
gives none. -/
def readings (r : TokenReader) : Nat → List Token × TokenReader
  | 0 => ([], r)
  | count + 1 =>
    match (r.readings count).2.next with
    | (.ok token, later) => ((r.readings count).1 ++ [token], later)
    | (.error _, later) => ((r.readings count).1, later)

/-- The kinds of the tokens that a number of readings of a source give. -/
def kindsRead (source : Text) (count : Nat) : Kinds :=
  ((start source).readings count).1.map fun token => token.kind

/-- A reading that fails leaves the context, and a token changes it by its kind. -/
theorem context_next (r : TokenReader) :
    (∃ token later, r.next = (.ok token, later) ∧ later.context = r.context.after token.kind) ∨
      ∃ e later, r.next = (.error e, later) ∧ later.context = r.context := by
  unfold next
  rcases r.cursor.readToken r.context.regexAllowed with ⟨e | token, later⟩
  · exact .inr ⟨e, _, rfl, rfl⟩
  · exact .inl ⟨token, _, rfl, rfl⟩

theorem context_readings (source : Text) (count : Nat) :
    ((start source).readings count).2.context = behind (kindsRead source count) := by
  induction count with
  | zero => rfl
  | succ count ih =>
    unfold kindsRead at ih ⊢
    rcases context_next ((start source).readings count).2 with
      ⟨token, later, hn, hc⟩ | ⟨e, later, hn, hc⟩
    · simp only [readings, hn, List.map_append, List.map_cons, List.map_nil]
      rw [hc, ih, behind_concat]
    · simp only [readings, hn]
      rw [hc, ih]

end TokenReader

namespace Symbol

theorem longest?_slash (rest : Text) : longest? (('/' : CodePoint) :: rest) = some .div :=
  longest?_append .div (t := rest) fun c _ => by
    simp only [goesOn, List.any_eq_false]
    intro r _
    cases r <;> simp [spelling, Text.ofString, CodePoint.ofChar]

end Symbol

namespace Lexeme

theorem read_slash (regexAllowed : Bool) (rest : Text) :
    read regexAllowed (('/' : CodePoint) :: rest) =
      if regexAllowed then Regex.read (('/' : CodePoint) :: rest)
      else .found 1 (.ofSymbol .div) := by
  have hname : CodePoint.startsName '/' = false := by decide
  have hdigit : CodePoint.isDigit '/' = false := by decide
  have hquote : (decide (('/' : CodePoint) = '"') || decide (('/' : CodePoint) = '\'')) = false := by
    decide
  rw [read, hname, hdigit, hquote, Symbol.longest?_slash]
  cases regexAllowed <;> rfl

end Lexeme

namespace TokenReader

open SlashContext TokenKind

/-- A slash that starts no comment is read as a regular expression or as a sign of division. -/
theorem next_of_slash {r : TokenReader} {c : TextCursor} {rest : Text}
    (hs : r.cursor.skipTrivia = (.ok (), c)) (hc : c.ahead = ('/' : CodePoint) :: rest) :
    (r.next.1, r.next.2.cursor) =
      if r.context.regexAllowed then c.readWith Regex.read
      else (.ok (.ofLexeme (.ofSymbol .div) c.place), c.advance 1) := by
  have hread : r.cursor.readToken r.context.regexAllowed =
      if r.context.regexAllowed then c.readWith Regex.read
      else (.ok (.ofLexeme (.ofSymbol .div) c.place), c.advance 1) := by
    simp only [TextCursor.readToken, hs, TextCursor.readWith, hc, Lexeme.read_slash]
    by_cases h : r.context.regexAllowed
    · simp only [if_pos h]
    · simp only [if_neg h]
      rfl
  rw [← hread]
  unfold next
  rcases r.cursor.readToken r.context.regexAllowed with ⟨e | token, later⟩ <;> rfl

/-- Behind tokens of a source a slash starts a regular expression where their kinds say so. -/
theorem regexAllowed_readings (source : Text) (count : Nat) :
    ((start source).readings count).2.context.regexAllowed ↔ TakesRegex (kindsRead source count) := by
  rw [context_readings]
  exact regexAllowed_behind _

/-- What a reader knows of the tokens before it is what their kinds tell. -/
structure Tracks (r : TokenReader) (ks : Kinds) : Prop where
  /-- There is one entry for each open parenthesis, in order, the last one in front. -/
  groups : ∃ opened : List Nat, opened.Pairwise (· < ·) ∧ (∀ i, i ∈ opened ↔ ks.IsOpen i) ∧
    r.context.groups.reverse = opened.map fun i => decide (ks.OpensCondition i)
  afterCondition : r.context.afterCondition ↔ ks.EndsCondition
  /-- A slash that starts no comment is taken for a regular expression where the kinds say so. -/
  regex {c : TextCursor} {rest : Text} : r.cursor.skipTrivia = (.ok (), c) →
    c.ahead = ('/' : CodePoint) :: rest → TakesRegex ks →
      (r.next.1, r.next.2.cursor) = c.readWith Regex.read
  /-- Elsewhere it divides. -/
  division {c : TextCursor} {rest : Text} : r.cursor.skipTrivia = (.ok (), c) →
    c.ahead = ('/' : CodePoint) :: rest → ¬TakesRegex ks →
      (r.next.1, r.next.2.cursor) = (.ok (.ofLexeme (.ofSymbol .div) c.place), c.advance 1)

/-- However many tokens are read of a source, the reader behind them tracks their kinds. -/
theorem tracks_readings (source : Text) (count : Nat) :
    ((start source).readings count).2.Tracks (kindsRead source count) := by
  have hcontext := context_readings source count
  have hslash := regexAllowed_readings source count
  constructor
  · obtain ⟨l, hl, hg⟩ := groups_behind (kindsRead source count)
    refine ⟨l.reverse, List.pairwise_reverse.mpr hl.pairwise, fun i => ?_, ?_⟩
    · rw [List.mem_reverse]
      exact ⟨hl.isOpen_of_mem, hl.mem_of_isOpen⟩
    · rw [hcontext, hg, List.map_reverse]
  · rw [hcontext]
    exact afterCondition_behind _
  · intro c rest hs hc hks
    rw [next_of_slash hs hc, if_pos (hslash.mpr hks)]
  · intro c rest hs hc hks
    rw [next_of_slash hs hc, if_neg fun h => hks (hslash.mp h)]

/-- A group within the condition of an `if`: the second right parenthesis closes the condition, so a slash
behind it starts a regular expression. -/
theorem tracks_readings_condition :
    kindsRead "if ((a)) /c/g;" 6 =
        [keyword .ifWord, symbol .lparen, symbol .lparen, ident, symbol .rparen, symbol .rparen] ∧
      (readings (start "if ((a)) /c/g;") 6).2.context.afterCondition ∧
        (readings (start "if ((a)) /c/g;") 6).2.next.1 = .ok ⟨⟨.regex, "c", 10, "g"⟩, ⟨9, 1, 10⟩⟩ := by
  have hkinds : kindsRead "if ((a)) /c/g;" 6 =
      [keyword .ifWord, symbol .lparen, symbol .lparen, ident, symbol .rparen, symbol .rparen] := by
    decide +kernel
  have hends : (kindsRead "if ((a)) /c/g;" 6).EndsCondition := by
    rw [hkinds]
    exact ⟨1, 5, rfl, ⟨[keyword .ifWord], [symbol .lparen, ident, symbol .rparen], [], rfl,
      .group (.other (by decide) (by decide)), rfl, rfl⟩, by decide⟩
  have ht := tracks_readings "if ((a)) /c/g;" 6
  refine ⟨hkinds, ht.afterCondition.mpr hends, ?_⟩
  have hregex := ht.regex (c := ⟨Text.ofString " ))a(( fi", Text.ofString "/c/g;", ⟨9, 1, 10⟩⟩)
    (by decide +kernel) rfl (.inr (.inr hends))
  rw [congrArg Prod.fst hregex]
  decide +kernel

end TokenReader

end MagSyntax
