import MagSyntax.Proofs.Readings
import MagSyntax.Proofs.RoundTrip
import MagSyntax.Proofs.Spaced

/-! Slashes behind fields. A field may be named by a reserved word, but a slash is read by the kind of the word
alone: behind a name, `true` and `false` it divides what the field holds, and behind any other reserved
word it is taken for the start of a regular expression. -/

namespace MagSyntax

open Lexeme TokenKind SlashContext

namespace TokenKind

theorem ne_rparen_of_isWord {k : TokenKind} (h : k.isWord) : k ≠ symbol .rparen := by
  rintro rfl
  cases h

end TokenKind

namespace SlashContext

variable {k : TokenKind}

/-- The words that a value can end in. -/
theorem mem_valueEnds_of_isWord (hk : k.isWord) :
    k ∈ valueEnds ↔ k = ident ∨ k = keyword .trueWord ∨ k = keyword .falseWord := by
  cases k with
  | ident | keyword => simp [valueEnds]
  | _ => cases hk

/-- Behind a word a slash is read by the word alone, whatever stands before it. -/
theorem takesRegex_concat (before : Kinds) (hk : k.isWord) :
    TakesRegex (before ++ [k]) ↔ k ∉ valueEnds := by
  have hword := k.ne_rparen_of_isWord hk
  rw [← regexAllowed_behind, behind_concat]
  simp [regexAllowed, after, hword]

theorem regexAllowed_after_word (c : SlashContext) (hk : k.isWord) (hv : k ∈ valueEnds) :
    (c.after k).regexAllowed = false := by
  simp [regexAllowed, after, k.ne_rparen_of_isWord hk, hv]

end SlashContext

namespace Lexeme

theorem isWord_ofWord (w : Text) : (ofWord w).kind.isWord := by
  rcases kind_ofWord w with hk | ⟨word, hk⟩ <;> rw [hk] <;> rfl

theorem fits_ofWord (w : Text) (b : Bool) : (ofWord w).Fits b := by
  rcases kind_ofWord w with hk | ⟨word, hk⟩ <;>
    exact fits_of_kind (by simp [hk]) (by simp [hk]) b

end Lexeme

namespace Node

/-- A field of an expression, divided by two. -/
def halfField (e : Node) (name : Text) : Node :=
  .binary .unknown Symbol.div.spelling (.field .unknown e (.identifier .unknown name))
    (.numeric .unknown "2" 10)

theorem lexemes_halfField (e : Node) (name : Text) : (halfField e name).lexemes =
    e.lexemes ++ [.ofSymbol .dot, .ofWord name, .ofSymbol .div, ⟨.number, "2", 10, []⟩] := by
  rw [halfField, lexemes, lexemes, lexemes, ofOperator_spelling, List.append_assoc]
  rfl

theorem isExpression_halfField {e : Node} (he : e.isExpression) (hs : e.standsBefore .postfixChain)
    (name : Text) : (halfField e name).isExpression := by
  rw [halfField, isExpression_binary (show Level.ofOperator Symbol.div.spelling = .ok _ from rfl)]
  simp only [isExpression, he, hs, Bool.true_and, Bool.and_true]
  rfl

theorem admits_halfField {e : Node} {name : Text} (ha : start.Admits e.lexemes)
    (hname : (ofWord name).kind ∈ valueEnds) : start.Admits (halfField e name).lexemes := by
  rw [lexemes_halfField, admits_append]
  have hdivides (c : SlashContext) := regexAllowed_after_word c (isWord_ofWord name) hname
  exact ⟨ha, fits_ofSymbol (by decide) _, fits_ofWord name _, ⟨fun _ => hdivides _, by rintro ⟨⟩⟩,
    fits_of_kind (by simp) (by simp) _, trivial⟩

end Node

namespace Entry

/-- Behind a field that a value can end in, a division is read as such however the source is laid out. -/
theorem reads_halfField {e : Node} {name source : Text} (he : e.isExpression)
    (hs : e.standsBefore .postfixChain) (ha : start.Admits e.lexemes)
    (hname : (ofWord name).kind ∈ valueEnds) (hlays : source.Lays (Node.halfField e name).lexemes) :
    expression.CutsShort source ∨
      ∃ t, expression.ofSource source = .ok t ∧ t.alike (.halfField e name) :=
  expression.reads_of_lays (Node.isExpression_halfField he hs name) hlays
    (Node.admits_halfField ha hname)

end Entry

namespace TokenReader

/-- Behind a word a slash that starts no comment is read by the kind of the word. -/
theorem next_behind_word {source : Text} {count : Nat} {before : Kinds} {k : TokenKind}
    (hks : kindsRead source count = before ++ [k]) (hk : k.isWord) {c : TextCursor} {rest : Text}
    (hs : ((start source).readings count).2.cursor.skipTrivia = (.ok (), c))
    (hc : c.ahead = ('/' : CodePoint) :: rest) :
    (((start source).readings count).2.next.1, ((start source).readings count).2.next.2.cursor) =
      if k ∈ valueEnds then (.ok (.ofLexeme (.ofSymbol .div) c.place), c.advance 1)
      else c.readWith Regex.read := by
  have hallowed := regexAllowed_readings source count
  rw [hks, takesRegex_concat _ hk] at hallowed
  rw [next_of_slash hs hc]
  by_cases hv : k ∈ valueEnds
  · rw [if_pos hv, if_neg fun h => hallowed.mp h hv]
  · rw [if_neg hv, if_pos (hallowed.mpr hv)]

/-- Behind a point and a word a slash that starts no comment divides if the word is a name, `true` or `false`;
if it is another reserved word, the slash is taken for the start of a regular expression. A division behind
a field that is named by one of the former is read as such, however the source is laid out. -/
theorem divides_behind_field (source : Text) :
    (∀ (count : Nat) (before : Kinds) (k : TokenKind) (c : TextCursor) (rest : Text),
      kindsRead source count = before ++ [symbol .dot, k] → k.isWord →
      ((start source).readings count).2.cursor.skipTrivia = (.ok (), c) →
      c.ahead = ('/' : CodePoint) :: rest →
      (((start source).readings count).2.next.1, ((start source).readings count).2.next.2.cursor) =
        if k = ident ∨ k = keyword .trueWord ∨ k = keyword .falseWord then
          (.ok (.ofLexeme (.ofSymbol .div) c.place), c.advance 1)
        else c.readWith Regex.read) ∧
    ∀ (e : Node) (name : Text), e.isExpression → e.standsBefore .postfixChain →
      SlashContext.start.Admits e.lexemes →
      Keyword.ofSpelling? name ∈ [none, some .trueWord, some .falseWord] →
      source.Lays (Node.halfField e name).lexemes →
      Entry.expression.CutsShort source ∨
        ∃ t, Entry.expression.ofSource source = .ok t ∧ t.alike (.halfField e name) := by
  refine ⟨fun count before k c rest hks hk hs hc => ?_, fun e name he hstands ha hname hlays => ?_⟩
  · rw [List.append_cons] at hks
    rw [next_behind_word hks hk hs hc]
    exact if_congr (mem_valueEnds_of_isWord hk) rfl rfl
  · refine Entry.reads_halfField he hstands ha ?_ hlays
    rw [mem_valueEnds_of_isWord (isWord_ofWord name), ofWord]
    simp only [List.mem_cons, List.not_mem_nil, or_false] at hname
    rcases hname with h | h | h <;> simp [h]

theorem divides_behind_field_true :
    let a : Node := .identifier .unknown "a"
    let source := Text.spaced (Node.halfField a "true").lexemes
    source = "a . true / 2 " ∧
      ((start source).readings 3).2.next.1 = .ok ⟨.ofSymbol .div, ⟨9, 1, 10⟩⟩ ∧
      (Entry.expression.CutsShort source ∨
        ∃ t, Entry.expression.ofSource source = .ok t ∧ t.alike (.halfField a "true")) := by
  intro a source
  have hsource : source = "a . true / 2 " := by decide +kernel
  have hname : IsName "a" := ⟨⟨_, _, rfl, by decide +kernel⟩, by decide +kernel⟩
  have htrue : IsName "true" := ⟨⟨_, _, rfl, by decide +kernel⟩, by decide +kernel⟩
  have htwo : (Lexeme.mk .number "2" 10 []).IsScanned :=
    ⟨false, "2", by decide +kernel, by decide +kernel⟩
  have hlegible : ∀ l ∈ (Node.halfField a "true").lexemes, l.IsLegible := by
    rw [Node.lexemes_halfField]
    simp only [a, Node.lexemes, List.singleton_append, List.forall_mem_cons]
    exact ⟨isLegible_ofWord hname, isLegible_ofSymbol _, isLegible_ofWord htrue,
      isLegible_ofSymbol _, htwo.isLegible (by decide), List.forall_mem_nil _⟩
  obtain ⟨hslash, hfield⟩ := divides_behind_field source
  refine ⟨hsource, ?_, hfield a "true" rfl rfl ⟨fits_ofWord "a" _, trivial⟩ (by decide +kernel)
    (Text.lays_spaced hlegible)⟩
  rw [hsource] at hslash ⊢
  have hdiv := hslash 3 [ident] (keyword .trueWord) ⟨Text.ofString " eurt . a", Text.ofString "/ 2 ",
    ⟨9, 1, 10⟩⟩ (Text.ofString " 2 ") (by decide +kernel) rfl (by decide +kernel) rfl
  exact congrArg Prod.fst hdiv

/-- Behind a field with the name `then` a slash does not divide, so the rest of the line is read as a regular
expression that nothing closes. -/
theorem then_field_not_divides :
    let before := ((start "a.then / 2").readings 3).2
    let openRegex : SyntaxError := ⟨.lexical .openRegex, ⟨7, 1, 8⟩, none⟩
    kindsRead "a.then / 2" 3 = [ident] ++ [symbol .dot, keyword .thenWord] ∧
      (∃ c, before.cursor.skipTrivia = (.ok (), c) ∧ c.ahead = ('/' : CodePoint) :: Text.ofString " 2") ∧
      before.next.1 = .error openRegex ∧
      Entry.expression.ofSource "a.then / 2" = .error openRegex := by
  intro before openRegex
  have hskip : before.cursor.skipTrivia =
      (.ok (), ⟨Text.ofString " neht.a", Text.ofString "/ 2", ⟨7, 1, 8⟩⟩) := by decide +kernel
  have htokens : tokenize "a.then / 2" = .error openRegex := by decide +kernel
  refine ⟨by decide +kernel, ⟨_, hskip, rfl⟩, by decide +kernel, ?_⟩
  rw [Entry.ofSource, htokens]
  rfl

end TokenReader

end MagSyntax
