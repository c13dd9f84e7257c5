import MagSyntax.Proofs.Comments

/-! Nothing of a source gets lost when it is split into tokens. The source is blanks, comments and the texts
of the tokens, in order; each token has the place where its text starts, and its value is as much of the
text as the kind of the token lets one expect. -/

namespace MagSyntax

open Lexeme

namespace Symbol

/-- The symbol at the front of a text is the longest of those that stand there. -/
theorem of_longest? {t : Text} {s : Symbol} (h : longest? t = some s) :
    s.spelling <+: t ∧ ∀ r : Symbol, r.spelling <+: t → r.spelling.length ≤ s.spelling.length := by
  obtain ⟨hs, before, behind, hall, hbefore⟩ := List.find?_eq_some_iff_append.mp h
  refine ⟨List.isPrefixOf_iff_prefix.mp hs, fun r hr => ?_⟩
  have hsorted : all.Pairwise fun a b => b.spelling.length ≤ a.spelling.length := by decide
  have hmem : r ∈ all := by cases r <;> decide
  rw [hall] at hsorted hmem
  rcases List.mem_append.mp hmem with hr' | hr'
  · have hn := hbefore r hr'
    rw [List.isPrefixOf_iff_prefix.mpr hr] at hn
    cases hn
  · rcases List.mem_cons.mp hr' with rfl | hr'
    · exact Nat.le_refl _
    · exact List.rel_of_pairwise_cons (List.pairwise_append.mp hsorted).2.1 hr'

end Symbol

namespace Lexeme

/-- The text is how a source writes the lexeme, if the other one follows. -/
inductive Spells : Lexeme → Text → Text → Prop
  | name {s t : Text} : IsName s → t.EndsName → Keyword.ofSpelling? s = none →
    Spells ⟨.ident, s, 10, []⟩ s t
  | keyword {k : Keyword} {t : Text} : t.EndsName → Spells ⟨k, k.spelling, 10, []⟩ k.spelling t
  /-- No symbol that stands there is longer. -/
  | symbol {s : Symbol} {t : Text} :
    (∀ r : Symbol, r.spelling <+: s.spelling ++ t → r.spelling.length ≤ s.spelling.length) →
    Spells ⟨s, s.spelling, 10, []⟩ s.spelling t
  | decimal {c : CodePoint} {v t : Text} : c ∈ Numeral.decimalDigits → t.EndsName →
    Spells ⟨.number, c :: v, 10, []⟩ (c :: v) t
  /-- The letter of the mark is in either case, and no part of the value. -/
  | radix {r : Numeral.Radix} {letter : CodePoint} {digits t : Text} : r ∈ Numeral.Radix.all →
    letter.small = r.letter → t.EndsName →
    Spells ⟨.number, digits, r.base, []⟩ (CodePoint.ofChar '0' :: letter :: digits) t
  | string {quote : CodePoint} {body value t : Text} :
    quote = CodePoint.ofChar '"' ∨ quote = CodePoint.ofChar '\'' →
    Spells ⟨.string, value, 10, []⟩ (quote :: (body ++ [quote])) t
  | regex {pattern flags t : Text} : t.EndsName →
    Spells ⟨.regex, pattern, 10, flags⟩
      (CodePoint.ofChar '/' :: (pattern ++ CodePoint.ofChar '/' :: flags)) t

theorem endsName_dropWhile (a : Text) : Text.EndsName (a.dropWhile CodePoint.continuesName) := by
  intro c hc
  have h := List.head?_dropWhile_not CodePoint.continuesName a
  rwa [hc] at h

theorem spells_ofWord {w t : Text} (hw : IsName w) (ht : t.EndsName) : (ofWord w).Spells w t := by
  unfold ofWord
  cases hk : Keyword.ofSpelling? w with
  | none => exact .name hw ht hk
  | some k =>
    obtain rfl : k.spelling = w := by simpa using List.find?_some hk
    exact .keyword ht

end Lexeme

namespace Reading

theorem of_map {α β : Type} {f : α → β} {r : Reading α} {b : β} (h : (r.map f).outcome = .ok b) :
    ∃ a, r.outcome = .ok a ∧ b = f a := by
  obtain ⟨n, _ | a⟩ := r
  · cases h
  · cases h
    exact ⟨a, rfl, rfl⟩

/-- A reading that finds a lexeme has taken its text from the front of the other one. -/
def Splits (r : Reading Lexeme) (a : Text) : Prop :=
  ∀ l, r.outcome = .ok l → ∃ s t, a = s ++ t ∧ r.taken = s.length ∧ l.Spells s t

end Reading

namespace Numeral

theorem small_of_radix? {letter : CodePoint} {rest : Text} {r : Radix}
    (h : radix? (CodePoint.ofChar '0' :: letter :: rest) = some r) : letter.small = r.letter := by
  have hfound : Radix.ofLetter? letter = some r := h
  simpa using List.find?_some hfound

theorem splits_read {a : Text} (hd : startsWithDigit a) : (read a).Splits a := by
  intro l h
  unfold read at h ⊢
  split at h
  next r hr =>
    obtain ⟨hmem, letter, rest, rfl⟩ := mem_of_radix? hr
    have hletter := small_of_radix? hr
    obtain ⟨t, ht⟩ : digitRun r.digits rest <+: rest := List.takeWhile_prefix _
    simp only [List.drop_succ_cons, List.drop_zero] at h ⊢
    generalize digitRun r.digits rest = digits at *
    subst ht
    split at h
    next => cases h
    next hall =>
      obtain ⟨rfl, -, he⟩ := of_checked h
      rw [← List.drop_drop, List.drop_succ_cons, List.drop_succ_cons, List.drop_zero, List.drop_left] at he
      refine ⟨CodePoint.ofChar '0' :: letter :: digits, t, rfl, ?_, .radix hmem hletter he⟩
      rw [if_neg hall, taken_checked, List.length_cons, List.length_cons, Nat.add_comm]
  next hr =>
    obtain ⟨rfl, -, he⟩ := of_checked h
    obtain ⟨c, v, hv, hc⟩ := head_decimal hd he
    refine ⟨decimal a, _, (List.prefix_iff_eq_append.mp (decimal_isPrefix a)).symm, taken_checked .., ?_⟩
    rw [hv] at he ⊢
    exact .decimal hc he

end Numeral

namespace StringLiteral

theorem closed_cons {quote : CodePoint} (c : CodePoint) {a : Text} {taken : Nat}
    (h : ∃ s t, a = s ++ quote :: t ∧ taken = s.length + 1) :
    ∃ s t, c :: a = s ++ quote :: t ∧ 1 + taken = s.length + 1 := by
  obtain ⟨s, t, rfl, rfl⟩ := h
  exact ⟨c :: s, t, rfl, by rw [List.length_cons, Nat.add_comm]⟩

/-- What is taken for the body of a literal ends in the quote that closes it. -/
theorem of_body {quote : CodePoint} {pending : Nat} {a v : Text}
    (h : (body quote pending a).outcome = .ok v) :
    ∃ s t, a = s ++ quote :: t ∧ (body quote pending a).taken = s.length + 1 := by
  fun_induction body quote pending a generalizing v with
  | case1 | case4 | case5 | case7 => cases h
  | case2 pending c rest ih => exact closed_cons c (ih h)
  | case3 rest => exact ⟨[], rest, rfl, rfl⟩
  | case6 rest _ _ _ _ _ ih =>
    obtain ⟨u, hu, -⟩ := Reading.of_map h
    exact closed_cons _ (ih hu)
  | case8 c rest _ _ _ ih =>
    obtain ⟨u, hu, -⟩ := Reading.of_following h
    exact closed_cons c (ih hu)

theorem splits_read {quote : CodePoint} {rest : Text}
    (hq : quote = CodePoint.ofChar '"' ∨ quote = CodePoint.ofChar '\'') :
    (read (quote :: rest)).Splits (quote :: rest) := by
  intro l h
  rw [read] at h ⊢
  obtain ⟨value, hvalue, rfl⟩ := Reading.of_map h
  obtain ⟨s, t, rfl, ht⟩ := of_body hvalue
  refine ⟨quote :: (s ++ [quote]), t, by simp, ?_, .string hq⟩
  rw [Reading.taken_map, Reading.taken_behind, ht]
  simp [Nat.add_comm]

end StringLiteral

namespace Regex

theorem of_flags {seen a f : Text} (h : (flags seen a).outcome = .ok f) :
    ∃ t, a = f ++ t ∧ (flags seen a).taken = f.length ∧ t.EndsName := by
  fun_induction flags seen a generalizing f with
  | case1 =>
    cases h
    exact ⟨[], rfl, rfl, by rintro _ ⟨⟩⟩
  | case2 seen c rest hc hf ih =>
    obtain ⟨u, hu, rfl⟩ := Reading.of_following h
    obtain ⟨t, rfl, ht, he⟩ := ih hu
    exact ⟨t, rfl, by rw [Reading.taken_following, ht]; simp [Nat.add_comm], he⟩
  | case3 => cases h
  | case4 seen c rest hc =>
    cases h
    refine ⟨_, rfl, rfl, ?_⟩
    rintro d ⟨⟩
    simpa using hc

theorem splits_read (rest : Text) :
    (read (CodePoint.ofChar '/' :: rest)).Splits (CodePoint.ofChar '/' :: rest) := by
  intro l h
  simp only [read] at h ⊢
  split at h
  next => cases h
  next p hp =>
    obtain ⟨r, rfl, hbody⟩ := body_again hp
    simp only [hbody r, Reading.found, ← List.drop_drop, List.drop_left] at h ⊢
    obtain ⟨f, hf, rfl⟩ := Reading.of_map h
    obtain ⟨t, rfl, ht, he⟩ := of_flags hf
    refine ⟨CodePoint.ofChar '/' :: (p ++ CodePoint.ofChar '/' :: f), t, by simp, ?_, .regex he⟩
    rw [Reading.taken_map, Reading.taken_behind]
    simp only [List.drop_succ_cons, List.drop_zero] at ht ⊢
    rw [ht, List.length_cons, List.length_append, List.length_cons]
    omega

end Regex

namespace Lexeme

theorem splits_readWord {c : CodePoint} {rest : Text} (hc : c.startsName) :
    (readWord (c :: rest)).Splits (c :: rest) := by
  intro l h
  cases h
  have hfront : (c :: rest).takeWhile CodePoint.continuesName = c :: rest.takeWhile _ :=
    List.takeWhile_cons_of_pos (CodePoint.continuesName_of_startsName hc)
  refine ⟨_, _, List.takeWhile_append_dropWhile.symm, rfl, spells_ofWord ⟨⟨c, _, hfront, hc⟩, ?_⟩
    (endsName_dropWhile _)⟩
  exact fun d hd => List.all_eq_true.mp List.all_takeWhile d hd

theorem splits_symbol {s : Symbol} {a : Text} (h : Symbol.longest? a = some s) :
    (Reading.found s.spelling.length (ofSymbol s)).Splits a := by
  intro l hl
  cases hl
  obtain ⟨⟨t, rfl⟩, hlongest⟩ := Symbol.of_longest? h
  exact ⟨s.spelling, t, rfl, rfl, .symbol hlongest⟩

/-- Whatever is read at the front of a text takes up just its own text. -/
theorem splits_read (b : Bool) {c : CodePoint} {rest : Text} : (read b (c :: rest)).Splits (c :: rest) := by
  rw [read]
  split
  next hc => exact splits_readWord hc
  split
  next hc => exact Numeral.splits_read (a := c :: rest) hc
  split
  next hc =>
    simp only [Bool.or_eq_true, decide_eq_true_eq] at hc
    exact StringLiteral.splits_read hc
  split
  next hc =>
    simp only [Bool.and_eq_true, decide_eq_true_eq] at hc
    obtain ⟨rfl, -⟩ := hc
    exact Regex.splits_read rest
  split
  next s hs => exact splits_symbol hs
  next =>
    rintro _ ⟨⟩

theorem Spells.ne_eof {l : Lexeme} {s t : Text} (h : l.Spells s t) : l.kind ≠ .eof := by
  cases h <;> simp

theorem Spells.ne_nil {l : Lexeme} {s t : Text} (h : l.Spells s t) : s ≠ [] := by
  cases h with
  | name hs =>
    obtain ⟨⟨c, r, rfl, -⟩, -⟩ := hs
    exact List.cons_ne_nil c r
  | @keyword k => cases k <;> exact List.cons_ne_nil _ _
  | @symbol sign => cases sign <;> exact List.cons_ne_nil _ _
  | _ => exact List.cons_ne_nil _ _

end Lexeme

/-- The text, which starts at the position, is made of trivia and of the texts of the tokens, in order; each
token has the position where its text starts. -/
inductive Text.SplitsInto : Int → Text → List Token → Prop
  | done {position : Int} {g : Text} : Trivia.Fills g [] → SplitsInto position g []
  | next {position : Int} {g s t : Text} {token : Token} {tokens : List Token} :
    Trivia.Fills g (s ++ t) → token.Spells s t → token.place.position = position + g.length →
    SplitsInto (token.place.position + s.length) t tokens →
    SplitsInto position (g ++ (s ++ t)) (token :: tokens)

/-- What is read at a cursor is the text of the token there, or the end. -/
theorem TextCursor.readWith_splits {b : Bool} {c later : TextCursor} {token : Token}
    (h : c.readWith (Lexeme.read b) = (.ok token, later)) :
    ∃ s, c.ahead = s ++ later.ahead ∧ token.place = c.place ∧
      later.place.position = c.place.position + s.length ∧
      (token.Spells s later.ahead ∨ token.toLexeme = .endOfInput ∧ s = [] ∧ later.ahead = []) := by
  unfold readWith at h
  simp only at h
  split at h
  next l hl =>
    cases h
    cases ha : c.ahead with
    | nil =>
      rw [ha] at hl
      cases hl
      refine ⟨[], ?_, rfl, ?_, .inr ⟨rfl, rfl, ?_⟩⟩ <;> simp [advance_eq, ha, Place.afterText]
    | cons p rest =>
      rw [ha] at hl
      obtain ⟨s, t, hst, htaken, hspells⟩ := splits_read b l hl
      rw [advance_eq, ha, htaken, hst, List.drop_left, List.take_left, Place.position_afterText]
      exact ⟨s, rfl, rfl, rfl, .inl hspells⟩
  next => cases h

namespace TokenReader

/-- What a reading passes over is trivia and the text of the token, or trivia up to the end. -/
theorem next_splits {r later : TokenReader} {token : Token} (h : r.next = (.ok token, later)) :
    ∃ g s, r.cursor.ahead = g ++ (s ++ later.cursor.ahead) ∧
      Trivia.Fills g (s ++ later.cursor.ahead) ∧
      token.place.position = r.cursor.place.position + g.length ∧
      later.cursor.place.position = token.place.position + s.length ∧
      (token.Spells s later.cursor.ahead ∨
        token.toLexeme = .endOfInput ∧ s = [] ∧ later.cursor.ahead = []) := by
  unfold next TextCursor.readToken at h
  rcases hskip : r.cursor.skipTrivia with ⟨e | u, c⟩
  · rw [hskip] at h
    cases h
  obtain ⟨g, hahead, hg, hposition⟩ := TextCursor.skipTrivia_fills hskip
  simp only [hskip] at h
  rcases hread : c.readWith (Lexeme.read r.context.regexAllowed) with ⟨e | token', d⟩
  · rw [hread] at h
    cases h
  simp only [hread] at h
  cases h
  obtain ⟨s, hs, hplace, hlater, hspells⟩ := TextCursor.readWith_splits hread
  rw [hs] at hahead hg
  rw [← hplace] at hposition hlater
  exact ⟨g, s, hahead, hg, hposition, hlater, hspells⟩

/-- The text ahead of a reader is split into the tokens that are read, and the end has the position behind
all of it. -/
theorem splitsInto_of_readAll {count : Nat} {r : TokenReader} {sofar tokens : List Token}
    (h : readAll count r sofar = .ok tokens) (hcount : r.cursor.ahead.length < count) :
    ∃ inner last, tokens = sofar.reverse ++ inner ++ [last] ∧ last.toLexeme = .endOfInput ∧
      last.place.position = r.cursor.place.position + r.cursor.ahead.length ∧
      r.cursor.ahead.SplitsInto r.cursor.place.position inner := by
  induction count generalizing r sofar with
  | zero => exact absurd hcount (Nat.not_lt_zero _)
  | succ count ih =>
    rw [readAll] at h
    split at h
    next => cases h
    next token later hn =>
      obtain ⟨g, s, hahead, hg, hposition, hlater, hspells | ⟨hl, rfl, hend⟩⟩ := next_splits hn
      · rw [if_neg hspells.ne_eof] at h
        -- a token takes up some text, so the count stays above what is left
        have hlength : later.cursor.ahead.length < count := by
          have hs := List.length_pos_iff.mpr hspells.ne_nil
          rw [hahead, List.length_append, List.length_append] at hcount
          omega
        obtain ⟨inner, last, rfl, hlast, hend, hsplits⟩ := ih h hlength
        refine ⟨token :: inner, last, by simp, hlast, ?_, ?_⟩
        · rw [hend, hlater, hposition, hahead, List.length_append, List.length_append]
          omega
        · rw [hahead]
          exact .next hg hspells hposition (hlater ▸ hsplits)
      · have hk : token.kind = .eof := congrArg Lexeme.kind hl
        rw [if_pos hk] at h
        cases h
        rw [hend, List.append_nil] at hg
        rw [hend, List.append_nil, List.append_nil] at hahead
        rw [hahead]
        exact ⟨[], token, by simp, hl, hposition, .done hg⟩

end TokenReader

/-- The source of some tokens is made of trivia and of the texts of these tokens, in order; the end of the input
has the length of the source for its position. -/
theorem splitsInto_of_tokenize {source : Text} {tokens : List Token} (h : tokenize source = .ok tokens) :
    ∃ (inner : List Token) (last : Token), tokens = inner ++ [last] ∧ last.toLexeme = .endOfInput ∧
      last.place.position = source.length ∧ source.SplitsInto 0 inner := by
  obtain ⟨inner, last, rfl, hlast, hposition, hsplits⟩ :=
    TokenReader.splitsInto_of_readAll h (Nat.lt_succ_self _)
  exact ⟨inner, last, rfl, hlast, hposition.trans (Int.zero_add _), hsplits⟩

/-- Comments of both sorts, a mark in capitals, a string, a regular expression, and a longest symbol. -/
theorem splitsInto_of_tokenize_comments :
    let source := Text.ofString "if /**/ a >= 0X1f + 'b' // c\n * /d/g / 2.5"
    ∃ tokens, tokenize source = .ok tokens ∧
      tokens.map (·.kind) = [.keyword .ifWord, .ident, .symbol .ge, .number, .symbol .plus, .string,
        .symbol .mult, .regex, .symbol .div, .number, .eof] ∧
      ∃ (inner : List Token) (last : Token), tokens = inner ++ [last] ∧
        last.toLexeme = .endOfInput ∧ last.place.position = source.length ∧
        source.SplitsInto 0 inner := by
  intro source
  have hkinds : (tokenize source).toOption.map (·.map fun token => token.kind) = some [.keyword .ifWord,
      .ident, .symbol .ge, .number, .symbol .plus, .string, .symbol .mult, .regex, .symbol .div, .number,
      .eof] := by decide +kernel
  cases h : tokenize source with
  | error e =>
    rw [h] at hkinds
    cases hkinds
  | ok tokens =>
    rw [h] at hkinds
    exact ⟨tokens, rfl, Option.some.inj hkinds, splitsInto_of_tokenize h⟩

end MagSyntax
