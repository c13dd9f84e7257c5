import MagSyntax.Proofs.Gaps
import MagSyntax.Proofs.Slashes

/-! Texts between other texts. A line feed behind a text ends what the text leaves open, a name, a number or a
comment up to the end of the line. In front of the text, a parenthesis that opens no condition changes
nothing about its slashes. So the lexemes of the text stand between those of the texts around it. -/

namespace MagSyntax

namespace SlashContext

variable {c c' : SlashContext}

/-- Around the groups of the first context the second one has others that open no condition, and a slash is read
in both alike. -/
structure Within (c c' : SlashContext) : Prop where
  groups : ∃ k, c'.groups = c.groups ++ List.replicate k false
  regexAllowed : c'.regexAllowed = c.regexAllowed
  behindDot : c'.previous = some (Symbol.dot : TokenKind) ↔ c.previous = some (Symbol.dot : TokenKind)
  opensCondition : c'.opensCondition = c.opensCondition

theorem within_self (c : SlashContext) : c.Within c := ⟨⟨0, by simp⟩, rfl, Iff.rfl, rfl⟩

/-- A text that starts behind a parenthesis, on its own and there. -/
theorem within_lparen : start.Within (start.after Symbol.lparen) :=
  ⟨⟨1, rfl⟩, by decide, by decide, rfl⟩

theorem Within.after (h : c.Within c') (kind : TokenKind) : (c.after kind).Within (c'.after kind) := by
  obtain ⟨k, hk⟩ := h.groups
  have hhead : (c'.groups.head? = some true) ↔ (c.groups.head? = some true) := by
    rw [hk]
    cases c.groups with
    | nil => cases k <;> simp [List.replicate_succ]
    | cons => rfl
  refine ⟨?_, ?_, Iff.rfl, ?_⟩
  · simp only [SlashContext.after, groupsAfter, hk, h.opensCondition]
    split
    · exact ⟨k, rfl⟩
    split
    · cases c.groups with
      | nil => exact ⟨k - 1, by simp⟩
      | cons => exact ⟨k, rfl⟩
    · exact ⟨k, rfl⟩
  · simp only [SlashContext.regexAllowed, SlashContext.after, hhead]
  · simp only [SlashContext.after, ne_eq, h.behindDot]

end SlashContext

namespace Trivia

variable {w : Text}

theorem regionBehind?_lineFeed (region : Region) (offset : Nat) (c : CodePoint) :
    regionBehind? region offset c (some (CodePoint.ofChar '\n')) = regionBehind? region offset c none := by
  cases region <;> simp [regionBehind?, show CodePoint.ofChar '\n' ≠ CodePoint.ofChar '/' by decide,
    show CodePoint.ofChar '\n' ≠ CodePoint.ofChar '*' by decide]

/-- Trivia up to the end of a text go on over a line feed, whatever region it ends. -/
theorem extentFrom_lineFeed {region : Region} {offset : Nat} {a : Text} (hw : extent w = ⟨0, none⟩)
    (h : extentFrom region offset a = ⟨offset + a.length, none⟩) :
    extentFrom region offset (a ++ CodePoint.ofChar '\n' :: w) = ⟨offset + a.length + 1, none⟩ := by
  induction a generalizing region offset with
  | nil =>
    have hlineFeed : isSeparator (CodePoint.ofChar '\n') := by decide
    have hnext := extentFrom_of_extent hw (offset + 1)
    cases region with
    | opening | blockComment => cases h
    | between => exact (if_pos hlineFeed).trans hnext
    | lineComment | closing => exact hnext
  | cons c a ih =>
    rw [extentFrom_cons] at h
    have hbehind : regionBehind? region offset c (a ++ CodePoint.ofChar '\n' :: w).head? =
        regionBehind? region offset c a.head? := by
      cases a with
      | nil => exact regionBehind?_lineFeed region offset c
      | cons => rfl
    rw [List.cons_append, extentFrom_cons, hbehind]
    cases hr : regionBehind? region offset c a.head? with
    | none =>
      rw [hr] at h
      exact absurd (congrArg Extent.length h) (by simp)
    | some behind =>
      rw [hr] at h
      simp only [List.length_cons] at h ⊢
      rw [show offset + (a.length + 1) = offset + 1 + a.length by omega] at h ⊢
      exact ih h

end Trivia

namespace Text.Lexes

variable {c c' : SlashContext} {a g w : Text} {ls ls' : List Lexeme}

/-- Trivia in front of a text change nothing about its lexemes. -/
theorem behindTrivia (h : w.Lexes c ls) (hw : Trivia.extent w = ⟨0, none⟩)
    (hg : Trivia.extent (g ++ w) = ⟨g.length, none⟩) : (g ++ w).Lexes c ls := by
  have hnone {g' : Text} (he : Trivia.extent w = ⟨g'.length, none⟩) : g' = [] :=
    List.length_eq_zero_iff.mp (congrArg Trivia.Extent.length (he.symm.trans hw))
  cases h with
  | last hy hk =>
    obtain rfl := hnone hy.extent
    exact .last ⟨by rw [hy.text, List.nil_append], hg, hy.read⟩ hk
  | next hy hk hrest =>
    obtain rfl := hnone hy.extent
    exact .next ⟨by rw [hy.text, List.nil_append], hg, hy.read⟩ hk hrest

/-- Before a line feed and another text the lexemes of a text are the same, and those of the other text stand in
the place of their end. -/
theorem beforeLineFeed (h : a.Lexes c ls) (hc : c.Within c') (hw : Trivia.extent w = ⟨0, none⟩)
    (hrest : ∀ c, w.Lexes c ls') :
    (a ++ CodePoint.ofChar '\n' :: w).Lexes c' (ls.dropLast ++ ls') := by
  induction h generalizing c' with
  | @last c a g s t l hy hk =>
    obtain rfl : a = g := by rw [hy.text, hy.eof hk, List.append_nil]
    have hextent := hy.extent
    rw [Trivia.extent, ← Nat.zero_add a.length] at hextent
    have hlineFeed := Trivia.extentFrom_lineFeed hw hextent
    rw [Nat.zero_add] at hlineFeed
    rw [List.append_cons]
    refine (hrest c').behindTrivia hw ?_
    rw [← List.append_cons, Trivia.extent, hlineFeed, List.length_append]
    rfl
  | @next c a g s t l ls hy hk hls ih =>
    have hs := List.length_pos_iff.mpr (hy.ne_nil hk)
    have hnonempty : ls ≠ [] := by cases hls <;> simp
    rw [List.dropLast_cons_of_ne_nil hnonempty, List.cons_append]
    have hblank : ∀ d ∈ (CodePoint.ofChar '\n' :: w).head?, Trivia.isSeparator d := by
      rintro _ ⟨⟩
      decide
    refine .next (g := g) (s := s) (t := t ++ CodePoint.ofChar '\n' :: w)
      ⟨by rw [hy.text]; simp, ?_, ?_⟩ hk (ih (hc.after l.kind))
    · have he := hy.extent
      rw [← List.append_nil a, Trivia.extent, ← Nat.zero_add g.length] at he
      have hlength := congrArg List.length hy.text
      rw [List.length_append, List.length_append] at hlength
      rw [Trivia.extent, Trivia.extentFrom_early hblank he (by omega), Nat.zero_add]
    · have hread := hy.read
      rw [← List.append_nil (s ++ t)] at hread
      rw [hc.regexAllowed, ← List.append_assoc, Lexeme.read_fenced (v := []) (l := l) (fun _ hd => by cases hd)
        (fun d hd => .inl (hblank d hd)) (by simp [hy.ne_nil hk]) (by rw [hread]; rfl) (by rw [hread]; simp),
        hread]

theorem nil (c : SlashContext) : Lexes c [] [.endOfInput] :=
  .last (g := []) (s := []) (t := []) ⟨rfl, rfl, rfl⟩ rfl

/-- A symbol that no longer one starts with, in front of a text. -/
theorem symbol {s : Symbol} (hs : s.isTight) (h : w.Lexes (c.after s) ls) :
    (s.spelling ++ w).Lexes c (.ofSymbol s :: ls) := by
  have hreads := Lexeme.readsBefore_of_isTight hs w
  obtain ⟨he, hr⟩ := hreads.read c.regexAllowed (Lexeme.fits_ofSymbol (by rintro rfl; cases hs) _)
  exact .next (g := []) (s := s.spelling) ⟨rfl, he, hr⟩ hreads.inner h

end Text.Lexes

namespace Text

/-- The text in parentheses, with a semicolon behind. -/
def grouped (source : Text) : Text := "(" ++ (source ++ "\n);")

/-- The text with a semicolon behind. -/
def ended (source : Text) : Text := source ++ "\n;"

end Text

open Text Lexeme

theorem tokenize_of_lexes {source : Text} {ls : List Lexeme} (h : source.Lexes .start ls) :
    ∃ tokens, tokenize source = .ok tokens ∧ tokens.map Token.toLexeme = ls := by
  obtain ⟨tokens, htokens, hmap⟩ := TokenReader.readAll_of_lexes h (source.length + 1)
    (r := TokenReader.start source) [] rfl rfl (Nat.lt_succ_self _)
  exact ⟨tokens, htokens, hmap⟩

/-- The tokens of a source but for their places, between parentheses and in front of a semicolon. -/
theorem tokenize_grouped {source : Text} {tokens : List Token} (h : tokenize source = .ok tokens) :
    ∃ (opening : Token) (part : List Token) (closing semi last : Token), tokenize source.grouped =
        .ok (opening :: (part ++ [closing, semi, last])) ∧
      opening.kind = Symbol.lparen ∧ part.map Token.toLexeme = (tokens.map Token.toLexeme).dropLast ∧
        closing.kind = Symbol.rparen ∧ semi.kind = Symbol.semi ∧ last.kind = .eof := by
  obtain ⟨read, rfl, hlexes⟩ := TokenReader.lexes_of_readAll h (Nat.lt_succ_self _)
  have hgrouped : source.grouped.Lexes .start _ := Lexes.symbol (s := .lparen) (by decide)
    (hlexes.beforeLineFeed SlashContext.within_lparen (w := ");") (by decide) fun c =>
      Lexes.symbol (s := .rparen) (by decide) (Lexes.symbol (s := .semi) (by decide) (Lexes.nil _)))
  obtain ⟨all, hall, hmap⟩ := tokenize_of_lexes hgrouped
  obtain ⟨opening, rest, rfl, hopening, hrest⟩ := List.map_eq_cons_iff.mp hmap
  obtain ⟨part, behind, rfl, hpart, hbehind⟩ := List.map_eq_append_iff.mp hrest
  obtain ⟨closing, behind, rfl, hclosing, hbehind⟩ := List.map_eq_cons_iff.mp hbehind
  obtain ⟨semi, behind, rfl, hsemi, hbehind⟩ := List.map_eq_cons_iff.mp hbehind
  obtain ⟨last, rfl, hlast⟩ := List.map_eq_singleton_iff.mp hbehind
  exact ⟨opening, part, closing, semi, last, hall, congrArg kind hopening, hpart, congrArg kind hclosing,
    congrArg kind hsemi, congrArg kind hlast⟩

/-- The tokens of a source but for their places, in front of a semicolon. -/
theorem tokenize_ended {source : Text} {tokens : List Token} (h : tokenize source = .ok tokens) :
    ∃ (part : List Token) (semi last : Token), tokenize source.ended = .ok (part ++ [semi, last]) ∧
      part.map Token.toLexeme = (tokens.map Token.toLexeme).dropLast ∧ semi.kind = Symbol.semi ∧
        last.kind = .eof := by
  obtain ⟨read, rfl, hlexes⟩ := TokenReader.lexes_of_readAll h (Nat.lt_succ_self _)
  have hended : source.ended.Lexes .start _ :=
    hlexes.beforeLineFeed (SlashContext.within_self _) (w := ";") (by decide) fun c =>
      Lexes.symbol (s := .semi) (by decide) (Lexes.nil _)
  obtain ⟨all, hall, hmap⟩ := tokenize_of_lexes hended
  obtain ⟨part, behind, rfl, hpart, hbehind⟩ := List.map_eq_append_iff.mp hmap
  obtain ⟨semi, behind, rfl, hsemi, hbehind⟩ := List.map_eq_cons_iff.mp hbehind
  obtain ⟨last, rfl, hlast⟩ := List.map_eq_singleton_iff.mp hbehind
  exact ⟨part, semi, last, hall, hpart, congrArg kind hsemi, congrArg kind hlast⟩

end MagSyntax
