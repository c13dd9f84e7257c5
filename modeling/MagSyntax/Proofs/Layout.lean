import MagSyntax.Proofs.Legible

/-! Texts that lay out lexemes, and the tokens of such texts. A text lays lexemes out if they stand in it
in order, with blanks before, between and behind them, and each ends where the next thing stands. What
such a text is read as depends on the lexemes alone, provided that each slash stands where it is read
as it should be. -/

namespace MagSyntax

namespace SlashContext

/-- The context behind lexemes. -/
def afterAll (c : SlashContext) : List Lexeme → SlashContext
  | [] => c
  | l :: ls => (c.after l.kind).afterAll ls

/-- Every slash among the lexemes is read as it should be. -/
def Admits (c : SlashContext) : List Lexeme → Prop
  | [] => True
  | l :: ls => l.Fits c.regexAllowed ∧ (c.after l.kind).Admits ls

instance decidableAdmits : (c : SlashContext) → (ls : List Lexeme) → Decidable (c.Admits ls)
  | _, [] => .isTrue trivial
  | c, l :: ls =>
    haveI := decidableAdmits (c.after l.kind) ls
    inferInstanceAs (Decidable (l.Fits c.regexAllowed ∧ (c.after l.kind).Admits ls))

theorem afterAll_append (c : SlashContext) (a b : List Lexeme) :
    c.afterAll (a ++ b) = (c.afterAll a).afterAll b := by
  induction a generalizing c with
  | nil => rfl
  | cons l a ih => exact ih (c.after l.kind)

theorem admits_append {c : SlashContext} {a b : List Lexeme} :
    c.Admits (a ++ b) ↔ c.Admits a ∧ (c.afterAll a).Admits b := by
  induction a generalizing c with
  | nil => simp [Admits, afterAll]
  | cons l a ih => simp only [List.cons_append, Admits, afterAll, ih, and_assoc]

end SlashContext

namespace Text

/-- The text is made of blanks that separate tokens. -/
def IsGap (g : Text) : Prop := ∀ c ∈ g, Trivia.isSeparator c

/-- The text lays the lexemes out. -/
inductive Lays : Text → List Lexeme → Prop
  | done {g : Text} : g.IsGap → Lays g []
  | next {g t : Text} {l : Lexeme} {ls : List Lexeme} :
    g.IsGap → l.ReadsBefore t → Lays t ls → Lays (g ++ (l.spelled ++ t)) (l :: ls)

theorem Lays.blank {c : CodePoint} {t : Text} {ls : List Lexeme} (hc : Trivia.isSeparator c)
    (h : t.Lays ls) : Lays (c :: t) ls := by
  cases h with
  | done hg => exact .done (List.forall_mem_cons.mpr ⟨hc, hg⟩)
  | next hg hr h => exact .next (List.forall_mem_cons.mpr ⟨hc, hg⟩) hr h

theorem Lays.gap {g t : Text} {ls : List Lexeme} (hg : g.IsGap) (h : t.Lays ls) :
    Lays (g ++ t) ls := by
  induction g with
  | nil => exact h
  | cons c g ih =>
    rw [IsGap, List.forall_mem_cons] at hg
    exact (ih hg.2).blank hg.1

theorem Lays.cons {l : Lexeme} {t : Text} {ls : List Lexeme} (hr : l.ReadsBefore t)
    (h : t.Lays ls) : Lays (l.spelled ++ t) (l :: ls) :=
  .next (g := []) (by simp [IsGap]) hr h

end Text

namespace Trivia

theorem extentFrom_gap {g : Text} (hg : g.IsGap) (offset : Nat) (t : Text) :
    extentFrom .between offset (g ++ t) = extentFrom .between (offset + g.length) t := by
  induction g generalizing offset with
  | nil => rfl
  | cons c g ih =>
    rw [Text.IsGap, List.forall_mem_cons] at hg
    rw [List.cons_append, extentFrom, if_pos hg.1, ih hg.2, List.length_cons]
    congr 1
    omega

theorem extentFrom_of_extent {t : Text} (h : extent t = ⟨0, none⟩) (offset : Nat) :
    extentFrom .between offset t = ⟨offset, none⟩ := by
  cases t with
  | nil => rfl
  | cons c t =>
    have hpos : ∀ r, extentFrom r 1 t ≠ ⟨0, none⟩ := fun r he => by
      have hle := le_length_extentFrom r 1 t
      rw [he] at hle
      exact absurd hle (by simp)
    rw [extent, extentFrom] at h
    rw [extentFrom]
    split at h
    · exact absurd h (hpos _)
    next hsep =>
      rw [if_neg hsep]
      split at h
      · exact absurd h (hpos _)
      next hline =>
        rw [if_neg hline]
        split at h
        · exact absurd h (hpos _)
        next hblock => rw [if_neg hblock]

/-- The trivia of a text end where no blank and no comment starts. -/
theorem extent_drop {region : Region} {offset : Nat} {t : Text}
    (h : (extentFrom region offset t).unclosed? = none) :
    ∃ n, (extentFrom region offset t).length = offset + n ∧ extent (t.drop n) = ⟨0, none⟩ := by
  induction t generalizing region offset with
  | nil =>
    cases region with
    | opening | blockComment => cases h
    | between | lineComment | closing => exact ⟨0, rfl, rfl⟩
  | cons c t ih =>
    have later : ∀ {r}, (extentFrom r (offset + 1) t).unclosed? = none →
        ∃ n, (extentFrom r (offset + 1) t).length = offset + n ∧
          extent ((c :: t).drop n) = ⟨0, none⟩ := fun hr => by
      obtain ⟨n, hn, hd⟩ := ih hr
      exact ⟨n + 1, by omega, hd⟩
    cases region <;> rw [extentFrom] at h ⊢
    case between =>
      split at h
      next hsep =>
        rw [if_pos hsep]
        exact later h
      next hsep =>
        rw [if_neg hsep]
        split at h
        next hline =>
          rw [if_pos hline]
          exact later h
        next hline =>
          rw [if_neg hline]
          split at h
          next hblock =>
            rw [if_pos hblock]
            exact later h
          next hblock =>
            rw [if_neg hblock]
            refine ⟨0, rfl, ?_⟩
            rw [List.drop_zero, extent, extentFrom, if_neg hsep, if_neg hline, if_neg hblock]
    case blockComment =>
      split at h
      next hstar =>
        rw [if_pos hstar]
        exact later h
      next hstar =>
        rw [if_neg hstar]
        exact later h
    all_goals exact later h

end Trivia

namespace TextCursor

theorem skipTrivia_gap {c : TextCursor} {g t : Text} (hg : g.IsGap)
    (ht : Trivia.extent t = ⟨0, none⟩) (h : c.ahead = g ++ t) :
    ∃ later, c.skipTrivia = (.ok (), later) ∧ later.ahead = t := by
  have he : Trivia.extent c.ahead = ⟨g.length, none⟩ := by
    rw [h, Trivia.extent, Trivia.extentFrom_gap hg, Trivia.extentFrom_of_extent ht, Nat.zero_add]
  refine ⟨c.advance g.length, ?_, ?_⟩
  · simp only [skipTrivia, he]
  · rw [ahead_advance, h, List.drop_left]

theorem readWith_found {c : TextCursor} (read : Text → Reading Lexeme) {s t : Text} {l : Lexeme}
    (h : c.ahead = s ++ t) (hr : read (s ++ t) = .found s.length l) :
    ∃ later, c.readWith read = (.ok (.ofLexeme l c.place), later) ∧ later.ahead = t := by
  refine ⟨c.advance s.length, ?_, ?_⟩
  · simp only [readWith, h, hr, Reading.found]
  · rw [ahead_advance, h, List.drop_left]

end TextCursor

namespace TokenReader

theorem next_of_readsBefore {r : TokenReader} {g t : Text} {l : Lexeme} (hg : g.IsGap)
    (hl : l.ReadsBefore t) (hf : l.Fits r.context.regexAllowed)
    (h : r.cursor.ahead = g ++ (l.spelled ++ t)) :
    ∃ token later, r.next = (.ok token, later) ∧ token.toLexeme = l ∧ later.cursor.ahead = t ∧
      later.context = r.context.after l.kind := by
  obtain ⟨he, hr⟩ := hl.read _ hf
  obtain ⟨c, hc, hca⟩ := TextCursor.skipTrivia_gap hg he h
  obtain ⟨d, hd, hda⟩ := TextCursor.readWith_found _ hca hr
  exact ⟨.ofLexeme l c.place, ⟨d, r.context.after l.kind⟩,
    by simp only [next, TextCursor.readToken, hc, hd]; rfl, rfl, hda, rfl⟩

theorem next_of_gap {r : TokenReader} {g : Text} (hg : g.IsGap) (h : r.cursor.ahead = g) :
    ∃ token later, r.next = (.ok token, later) ∧ token.toLexeme = .endOfInput := by
  obtain ⟨c, hc, hca⟩ := TextCursor.skipTrivia_gap (t := []) hg rfl (by rw [h, List.append_nil])
  obtain ⟨d, hd, -⟩ := TextCursor.readWith_found (s := []) (t := [])
    (Lexeme.read r.context.regexAllowed) hca rfl
  exact ⟨.ofLexeme .endOfInput c.place, ⟨d, r.context.after TokenKind.eof⟩,
    by simp only [next, TextCursor.readToken, hc, hd]; rfl, rfl⟩

theorem readAll_of_lays {t : Text} {ls : List Lexeme} (h : t.Lays ls) {count : Nat}
    {r : TokenReader} (sofar : List Token) (ht : r.cursor.ahead = t) (ha : r.context.Admits ls)
    (hcount : t.length < count) :
    ∃ tokens, readAll count r sofar = .ok (sofar.reverse ++ tokens) ∧
      tokens.map Token.toLexeme = ls ++ [.endOfInput] := by
  induction h generalizing count r sofar with
  | done hg =>
    obtain ⟨token, later, hn, hl⟩ := next_of_gap hg ht
    cases count with
    | zero => exact absurd hcount (Nat.not_lt_zero _)
    | succ count =>
      have hk : token.kind = .eof := congrArg Lexeme.kind hl
      refine ⟨[token], ?_, by rw [List.map_singleton, hl]; rfl⟩
      rw [readAll, hn]
      simp only [hk, if_true, List.reverse_cons]
  | @next g t l ls hg hl _ ih =>
    obtain ⟨token, later, hn, htoken, hahead, hcontext⟩ := next_of_readsBefore hg hl ha.1 ht
    cases count with
    | zero => exact absurd hcount (Nat.not_lt_zero _)
    | succ count =>
      have hlength : t.length < count := by
        have hfilled := List.length_pos_iff.mpr hl.filled
        rw [List.length_append, List.length_append] at hcount
        omega
      have hk : token.kind ≠ .eof := by
        rw [htoken]
        exact hl.inner
      obtain ⟨tokens, hall, hmap⟩ := ih (token :: sofar) hahead (hcontext ▸ ha.2) hlength
      refine ⟨token :: tokens, ?_, by rw [List.map_cons, htoken, hmap]; rfl⟩
      rw [readAll, hn]
      simp only [hk, if_false, hall, List.reverse_cons, List.append_assoc, List.singleton_append]

end TokenReader

/-- A text that lays lexemes out has them as its tokens, if each slash stands where it should. -/
theorem tokenize_of_lays {t : Text} {ls : List Lexeme} (h : t.Lays ls)
    (ha : SlashContext.start.Admits ls) :
    ∃ tokens, tokenize t = .ok tokens ∧ tokens.map Token.toLexeme = ls ++ [.endOfInput] :=
  TokenReader.readAll_of_lays h [] rfl ha (Nat.lt_succ_self _)

namespace Numeral

theorem taken_checked (taken base : Nat) (v t : Text) : (checked taken base v t).taken = taken := by
  unfold checked
  split
  · rfl
  split
  · rfl
  split <;> rfl

theorem kind_of_read {a : Text} {l : Lexeme} (hd : startsWithDigit a)
    (h : (read a).outcome = .ok l) : 0 < (read a).taken ∧ l.kind = .number := by
  refine ⟨?_, (read_again hd h).1⟩
  unfold read at h ⊢
  split at h
  next r hr =>
    simp only at h ⊢
    split
    next hall => rw [if_pos hall] at h; cases h
    next => rw [taken_checked]; omega
  next =>
    obtain ⟨-, -, he⟩ := of_checked h
    obtain ⟨c, v, hv, -⟩ := head_decimal hd he
    rw [taken_checked, hv]
    exact Nat.succ_pos _

end Numeral

namespace Lexeme

theorem fits_of_kind {l : Lexeme} (hd : l.kind ≠ Symbol.div) (hr : l.kind ≠ .regex) (b : Bool) :
    l.Fits b :=
  ⟨fun h => absurd h hd, fun h => absurd h hr⟩

theorem kind_ofWord (w : Text) : (ofWord w).kind = .ident ∨ ∃ k : Keyword, (ofWord w).kind = k := by
  unfold ofWord
  split
  · exact .inr ⟨_, rfl⟩
  · exact .inl rfl

/-- What is read at the end of a text is the end of the input; what is read elsewhere takes up some of
the text, and a slash in it is read as the context has it. -/
theorem read_cases {b : Bool} {a : Text} {l : Lexeme} (h : (read b a).outcome = .ok l) :
    l = .endOfInput ∨ 0 < (read b a).taken ∧ l.kind ≠ .eof ∧ l.Fits b := by
  cases a with
  | nil => cases h; exact .inl rfl
  | cons c rest =>
    right
    rw [read] at h ⊢
    by_cases hname : c.startsName
    · rw [if_pos hname] at h ⊢
      cases h
      refine ⟨?_, ?_⟩
      · have hc := CodePoint.continuesName_of_startsName hname
        simp [readWord, List.takeWhile_cons_of_pos hc]
      · rcases kind_ofWord ((c :: rest).takeWhile CodePoint.continuesName) with hk | ⟨k, hk⟩ <;>
          exact ⟨by simp [hk], fits_of_kind (by simp [hk]) (by simp [hk]) b⟩
    rw [if_neg hname] at h ⊢
    by_cases hdigit : c.isDigit
    · rw [if_pos hdigit] at h ⊢
      obtain ⟨hpos, hk⟩ := Numeral.kind_of_read (a := c :: rest) hdigit h
      exact ⟨hpos, by simp [hk], fits_of_kind (by simp [hk]) (by simp [hk]) b⟩
    rw [if_neg hdigit] at h ⊢
    by_cases hquote : (decide (c = '"') || decide (c = '\'')) = true
    · rw [if_pos hquote] at h ⊢
      obtain ⟨value, rfl⟩ := StringLiteral.of_read h
      refine ⟨?_, by simp, fits_of_kind (by simp) (by simp) b⟩
      rw [StringLiteral.read, Reading.taken_map, Reading.taken_behind]
      omega
    rw [if_neg hquote] at h ⊢
    by_cases hslash : (decide (c = '/') && b) = true
    · rw [if_pos hslash] at h ⊢
      obtain ⟨p, f, r, rfl, -⟩ := Regex.read_again h
      rw [Bool.and_eq_true] at hslash
      refine ⟨?_, by simp, by simp, fun _ => hslash.2⟩
      simp only [Regex.read] at h ⊢
      split
      next hp => rw [hp] at h; cases h
      next =>
        rw [Reading.taken_map, Reading.taken_behind]
        omega
    rw [if_neg hslash] at h ⊢
    cases hs : Symbol.longest? (c :: rest) with
    | none => rw [hs] at h; cases h
    | some s =>
      rw [hs] at h
      cases h
      obtain ⟨d, r, hd, -, -, -, -, -, -⟩ := head_symbol s
      refine ⟨by simp [Reading.found, hd], by simp [ofSymbol], ?_, by simp [ofSymbol]⟩
      intro hk
      obtain rfl : s = .div := TokenKind.symbol.inj hk
      have hp : Symbol.div.spelling.isPrefixOf (c :: rest) :=
        List.find?_some (p := fun s : Symbol => s.spelling.isPrefixOf (c :: rest)) hs
      obtain ⟨rfl, -⟩ := List.cons_prefix_cons.mp (List.isPrefixOf_iff_prefix.mp hp)
      exact Bool.eq_false_iff.mpr fun hb => hslash (Bool.and_eq_true_iff.mpr ⟨rfl, hb⟩)

end Lexeme

namespace TextCursor

theorem skipTrivia_ok {c later : TextCursor} (h : c.skipTrivia = (.ok (), later)) :
    Trivia.extent later.ahead = ⟨0, none⟩ ∧ later.ahead.length ≤ c.ahead.length := by
  unfold skipTrivia at h
  simp only at h
  split at h
  next hu =>
    cases h
    obtain ⟨n, hn, hd⟩ := Trivia.extent_drop hu
    rw [Nat.zero_add] at hn
    rw [ahead_advance, ← hn] at *
    exact ⟨hd, by simp⟩
  next => cases h

theorem readWith_ok {c later : TextCursor} {read : Text → Reading Lexeme} {token : Token}
    (h : c.readWith read = (.ok token, later)) :
    (read c.ahead).outcome = .ok token.toLexeme ∧ later = c.advance (read c.ahead).taken := by
  unfold readWith at h
  simp only at h
  split at h
  next l hl =>
    cases h
    exact ⟨hl, rfl⟩
  next => cases h

end TextCursor

namespace TokenReader

/-- A token that was read is the end of the input, or some of the text was read for it. -/
theorem next_cases {r later : TokenReader} {token : Token} (h : r.next = (.ok token, later)) :
    token.toLexeme = .endOfInput ∨
      token.kind ≠ .eof ∧ token.toLexeme.IsScanned ∧ token.toLexeme.Fits r.context.regexAllowed ∧
        later.cursor.ahead.length < r.cursor.ahead.length ∧
        later.context = r.context.after token.kind := by
  unfold next TextCursor.readToken at h
  cases hs : r.cursor.skipTrivia with
  | mk outcome c =>
    rw [hs] at h
    cases outcome with
    | error e => cases h
    | ok u =>
      obtain ⟨he, hle⟩ := TextCursor.skipTrivia_ok hs
      cases hw : c.readWith (Lexeme.read r.context.regexAllowed) with
      | mk outcome d =>
        simp only [hw] at h
        cases outcome with
        | error e => cases h
        | ok token' =>
          cases h
          obtain ⟨hread, rfl⟩ := TextCursor.readWith_ok hw
          refine (Lexeme.read_cases hread).imp_right ?_
          rintro ⟨hpos, hk, hf⟩
          refine ⟨hk, ⟨_, _, he, hread⟩, hf, ?_, rfl⟩
          rw [TextCursor.ahead_advance, List.length_drop]
          cases hc : c.ahead with
          | nil => rw [hc] at hpos; exact absurd hpos (Nat.not_lt_zero _)
          | cons p rest => rw [hc] at hle hpos; simp only [List.length_cons] at *; omega

/-- The tokens that are read are those so far, others that the slashes among them fit, and the end. -/
theorem tokens_of_readAll {count : Nat} {r : TokenReader} {sofar tokens : List Token}
    (h : readAll count r sofar = .ok tokens) (hcount : r.cursor.ahead.length < count) :
    ∃ inner last, tokens = sofar.reverse ++ inner ++ [last] ∧ last.toLexeme = .endOfInput ∧
      r.context.Admits (inner.map Token.toLexeme) ∧
        ∀ t ∈ inner, t.kind ≠ .eof ∧ t.toLexeme.IsScanned := by
  induction count generalizing r sofar with
  | zero => exact absurd hcount (Nat.not_lt_zero _)
  | succ count ih =>
    rw [readAll] at h
    split at h
    next => cases h
    next token later hn =>
      rcases next_cases hn with hl | ⟨hk, hs, hf, hlt, hcontext⟩
      · have hk : token.kind = .eof := congrArg Lexeme.kind hl
        rw [if_pos hk] at h
        cases h
        exact ⟨[], token, by simp, hl, trivial, by simp⟩
      · rw [if_neg hk] at h
        obtain ⟨inner, last, rfl, hl, ha, hall⟩ := ih h (by omega)
        refine ⟨token :: inner, last, by simp, hl, ⟨hf, ?_⟩, List.forall_mem_cons.mpr ⟨⟨hk, hs⟩, hall⟩⟩
        rw [← hcontext]
        exact ha

end TokenReader

/-- The tokens of a source are lexemes that the slashes among them fit, and the end of the input. -/
theorem tokens_of_tokenize {source : Text} {tokens : List Token} (h : tokenize source = .ok tokens) :
    ∃ inner last, tokens = inner ++ [last] ∧ last.toLexeme = .endOfInput ∧
      SlashContext.start.Admits (inner.map Token.toLexeme) ∧
        ∀ t ∈ inner, t.kind ≠ .eof ∧ t.toLexeme.IsScanned :=
  TokenReader.tokens_of_readAll h (Nat.lt_succ_self _)

end MagSyntax
