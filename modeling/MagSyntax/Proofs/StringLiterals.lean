import Mathlib.Data.List.TakeWhile
import MagSyntax.Print.Statement
import MagSyntax.Proofs.Coordinates
import MagSyntax.Proofs.Legible

/-! String literals. The text printed for a string stays on its line, whatever the string holds, and is read as one
token with that string as its value. -/

namespace MagSyntax

namespace CodePoint

/-- The code point ends a line, by itself or before a line feed. -/
def IsLineBreak (c : CodePoint) : Prop := c = '\n' ∨ c = '\r'

instance (c : CodePoint) : Decidable c.IsLineBreak := inferInstanceAs (Decidable (_ ∨ _))

end CodePoint

/-- No line of the text ends in it. -/
def Text.IsInLine (t : Text) : Prop := ∀ c ∈ t, ¬c.IsLineBreak

instance (t : Text) : Decidable t.IsInLine := inferInstanceAs (Decidable (∀ c ∈ t, ¬c.IsLineBreak))

namespace Print

theorem isInLine_hexDigits (v : Nat) (h : v < 0x80) : (Text.hexDigits 2 v).IsInLine := by
  have hall : ∀ w : Fin 0x80, (Text.hexDigits 2 w.val).IsInLine := by decide +kernel
  exact hall ⟨v, h⟩

/-- No code point is printed with a line break. -/
theorem isInLine_stringPoint (c : CodePoint) : (stringPoint c).IsInLine := by
  unfold stringPoint
  refine iteInduction (fun _ => by decide) fun _ => ?_
  refine iteInduction (fun _ => by decide) fun _ => ?_
  refine iteInduction (fun _ => by decide) fun hn => ?_
  refine iteInduction (fun _ => by decide) fun _ => ?_
  refine iteInduction (fun _ => by decide) fun hr => ?_
  -- four more escapes of one letter
  iterate 4 refine iteInduction (fun _ => by decide) fun _ => ?_
  refine iteInduction (fun hhex => ?_) fun _ => ?_
  · have hv : c.val < 0x80 := by
      simp only [Bool.or_eq_true, decide_eq_true_eq] at hhex
      omega
    have hmark : Text.IsInLine "\\x" := by decide
    exact List.forall_mem_append.mpr ⟨hmark, isInLine_hexDigits c.val hv⟩
  · exact List.forall_mem_singleton.mpr (not_or.mpr ⟨hn, hr⟩)

/-- A printed string stays on its line. -/
theorem isInLine_stringLiteral (value : Text) : (stringLiteral value).IsInLine := by
  rw [stringLiteral_eq, Text.IsInLine, List.forall_mem_cons, List.forall_mem_append]
  refine ⟨by decide, fun c hc => ?_, by decide⟩
  obtain ⟨d, -, hd⟩ := List.mem_flatMap.mp hc
  exact isInLine_stringPoint d c hd

end Print

namespace Place

/-- Behind a text without line feeds the place is still on the first line. -/
theorem afterText_start_of_line {t : Text} (h : t.IsInLine) :
    start.afterText t = ⟨t.length, 1, 1 + t.length⟩ := by
  have hne : ∀ c ∈ t, c ≠ '\n' := fun c hc he => h c hc (.inl he)
  have hcount : t.count (CodePoint.ofChar '\n') = 0 :=
    List.count_eq_zero.mpr fun hm => hne _ hm rfl
  have hwhole : t.reverse.takeWhile (· ≠ CodePoint.ofChar '\n') = t.reverse :=
    List.takeWhile_eq_self_iff.mpr fun c hc => by
      simpa using hne c (List.mem_reverse.mp hc)
  rw [afterText_start, hcount, hwhole, List.length_reverse]
  rfl

end Place

namespace TokenReader

/-- The first token of a source that one lexeme fills; the whole source is behind it. -/
theorem next_start {l : Lexeme} (h : l.ReadsBefore []) (hf : l.Fits true) :
    (start l.spelled).next = (.ok (.ofLexeme l .start),
      ⟨⟨l.spelled.reverse, [], Place.start.afterText l.spelled⟩, SlashContext.start.after l.kind⟩) := by
  obtain ⟨hextent, hread⟩ := h.read true hf
  rw [List.append_nil] at hextent hread
  have hbehind := TextCursor.advance_eq (TextCursor.start l.spelled) l.spelled.length
  simp only [TextCursor.start, List.drop_length, List.take_length, List.append_nil] at hbehind
  simp only [next, TextCursor.readToken, TextCursor.skipTrivia, start, TextCursor.start, hextent,
    TextCursor.advance, TextCursor.readWith]
  rw [show SlashContext.start.regexAllowed = true from rfl, hread]
  simp only [Reading.found, hbehind]
  rfl

/-- Behind the whole source stands the end of the input. -/
theorem next_atEnd (behind : Text) (place : Place) (context : SlashContext) :
    ∃ later, (TokenReader.mk ⟨behind, [], place⟩ context).next =
      (.ok (.ofLexeme .endOfInput place), later) := by
  simp [next, TextCursor.readToken, TextCursor.skipTrivia, Trivia.extent, Trivia.extentFrom,
    TextCursor.advance, TextCursor.readWith, Lexeme.read, Reading.found]

end TokenReader

/-- A source that is one lexeme has that lexeme as its only token before the end. -/
theorem tokenize_spelled {l : Lexeme} (h : l.ReadsBefore []) (hf : l.Fits true) : tokenize l.spelled =
    .ok [.ofLexeme l .start, .ofLexeme .endOfInput (Place.start.afterText l.spelled)] := by
  obtain ⟨n, hn⟩ := Nat.exists_eq_succ_of_ne_zero (List.length_eq_zero_iff.not.mpr h.filled)
  have hinner : (Token.ofLexeme l .start).kind ≠ .eof := h.inner
  obtain ⟨later, hend⟩ := TokenReader.next_atEnd l.spelled.reverse (Place.start.afterText l.spelled)
    (SlashContext.start.after l.kind)
  rw [tokenize, TokenReader.readAll, TokenReader.next_start h hf, hn]
  simp only [hinner, if_false, TokenReader.readAll, hend]
  rfl

/-- A string is printed on one line, without a line feed and without a carriage return, and what is printed is
read as one token with the string as its value, whatever code points it holds. -/
theorem tokenize_string (loc : Loc) (value : Text) :
    ∃ text, (Node.string loc value).text = .ok text ∧ (∀ c ∈ text, c ≠ '\n' ∧ c ≠ '\r') ∧
      tokenize text = .ok [⟨⟨.string, value, 10, []⟩, .start⟩,
        ⟨.endOfInput, ⟨text.length, 1, 1 + text.length⟩⟩] := by
  have hline := Print.isInLine_stringLiteral value
  refine ⟨Print.stringLiteral value, rfl, fun c hc => not_or.mp (hline c hc), ?_⟩
  have hreads := (Lexeme.isLegible_string value).reads [] (by simp [Text.Stops])
  refine (tokenize_spelled hreads ⟨by simp, by simp⟩).trans ?_
  show Except.ok [_, Token.ofLexeme _ (Place.start.afterText (Print.stringLiteral value))] = _
  rw [Place.afterText_start_of_line hline]
  rfl

/-- A quote, a backslash, a line feed, a surrogate alone, and a code point 0 before a digit. -/
example : let lone : CodePoint := ⟨0xD800, by decide⟩
    Print.stringLiteral ("\"\\\n" ++ [lone] ++ "\x001") = "\"\\\"\\\\\\n" ++ [lone] ++ "\\01\"" := by
  decide

end MagSyntax
