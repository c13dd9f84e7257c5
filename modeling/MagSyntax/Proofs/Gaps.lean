import Mathlib.Logic.Relation
import MagSyntax.Proofs.Coordinates
import MagSyntax.Proofs.Fenced

/-! Layout says nothing: blanks and ended comments that start with a blank can stand for whatever is between two
tokens. The tokens before them end before a fence either way, and those behind them are read from the
same text with the same context. -/

namespace MagSyntax

namespace Trivia

/-- Blanks and comments, all of which are ended, those up to the end of a line by a line feed. -/
inductive IsClosed : Text → Prop
  | nil : IsClosed []
  | blank {c : CodePoint} {g : Text} : isSeparator c → IsClosed g → IsClosed (c :: g)
  | line {body g : Text} : CodePoint.ofChar '\n' ∉ body → IsClosed g →
    IsClosed (CodePoint.ofChar '/' :: CodePoint.ofChar '/' :: (body ++ CodePoint.ofChar '\n' :: g))
  | block {body g : Text} : ¬closer <:+: body ++ [CodePoint.ofChar '*'] → IsClosed g →
    IsClosed (CodePoint.ofChar '/' :: CodePoint.ofChar '*' :: (body ++ closer ++ g))

theorem extentFrom_line {body : Text} (hbody : CodePoint.ofChar '\n' ∉ body) (offset : Nat) (t : Text) :
    extentFrom .lineComment offset (body ++ CodePoint.ofChar '\n' :: t) =
      extentFrom .between (offset + (body.length + 1)) t := by
  induction body generalizing offset with
  | nil => rfl
  | cons c body ih =>
    rw [List.mem_cons, not_or] at hbody
    rw [List.cons_append, extentFrom, if_neg (Ne.symm hbody.1), ih hbody.2, List.length_cons]
    congr 1
    omega

theorem extentFrom_block {body : Text} (hbody : ¬closer <:+: body ++ [CodePoint.ofChar '*'])
    (start offset : Nat) (t : Text) :
    extentFrom (.blockComment start) offset (body ++ closer ++ t) =
      extentFrom .between (offset + (body.length + 2)) t := by
  induction body generalizing offset with
  | nil => rfl
  | cons c body ih =>
    have hopen : ¬(c = CodePoint.ofChar '*' ∧ (body ++ closer ++ t).head? = some (CodePoint.ofChar '/')) := by
      rintro ⟨rfl, hslash⟩
      cases body with
      | nil => exact absurd (Option.some.inj hslash) (by decide)
      | cons d body =>
        obtain rfl : d = CodePoint.ofChar '/' := Option.some.inj hslash
        exact hbody ⟨[], body ++ [CodePoint.ofChar '*'], rfl⟩
    rw [← decide_eq_true_eq (p := _ ∧ _), Bool.decide_and] at hopen
    rw [List.cons_append, List.cons_append, extentFrom]
    refine (if_neg hopen).trans ?_
    rw [ih (fun h => hbody (List.infix_cons h)), List.length_cons]
    congr 1
    omega

/-- The scan passes over what is closed, whatever follows. -/
theorem extentFrom_closed {g : Text} (h : IsClosed g) (offset : Nat) (t : Text) :
    extentFrom .between offset (g ++ t) = extentFrom .between (offset + g.length) t := by
  induction h generalizing offset with
  | nil => rfl
  | @blank c g hc _ ih =>
    rw [List.cons_append, extentFrom, if_pos hc, ih, List.length_cons]
    congr 1
    omega
  | @line body g hbody _ ih =>
    have hline : extentFrom .between offset
        (CodePoint.ofChar '/' :: CodePoint.ofChar '/' :: (body ++ CodePoint.ofChar '\n' :: g) ++ t) =
          extentFrom .lineComment (offset + 2) (body ++ CodePoint.ofChar '\n' :: (g ++ t)) := by
      simp only [List.cons_append, List.append_assoc]
      rfl
    rw [hline, extentFrom_line hbody, ih]
    congr 1
    simp
    omega
  | @block body g hbody _ ih =>
    have hblock : extentFrom .between offset
        (CodePoint.ofChar '/' :: CodePoint.ofChar '*' :: (body ++ closer ++ g) ++ t) =
          extentFrom (.blockComment offset) (offset + 2) (body ++ closer ++ (g ++ t)) := by
      simp only [List.cons_append, List.append_assoc]
      rfl
    rw [hblock, extentFrom_block hbody, ih]
    congr 1
    simp [closer]
    omega

/-- The region behind a code point and in front of what is next, if the scan passes over the code point. -/
def regionBehind? : Region → (offset : Nat) → CodePoint → (next : Option CodePoint) → Option Region
  | .between, offset, c, next =>
    if isSeparator c then some .between
    else if c = '/' && next = some '/' then some .lineComment
    else if c = '/' && next = some '*' then some (.opening offset)
    else none
  | .lineComment, _, c, _ => some (if c = '\n' then .between else .lineComment)
  | .opening start, _, _, _ => some (.blockComment start)
  | .blockComment start, _, c, next =>
    some (if c = '*' && next = some '/' then .closing else .blockComment start)
  | .closing, _, _, _ => some .between

theorem extentFrom_cons (region : Region) (offset : Nat) (c : CodePoint) (t : Text) :
    extentFrom region offset (c :: t) =
      match regionBehind? region offset c t.head? with
      | some behind => extentFrom behind (offset + 1) t
      | none => ⟨offset, none⟩ := by
  cases region <;> simp only [extentFrom, regionBehind?]
  case between => split_ifs <;> rfl
  case blockComment => split_ifs <;> rfl

/-- Where the scan ends, it does so in front of blanks as well. -/
theorem regionBehind?_none {region : Region} {offset : Nat} {c : CodePoint} {next next' : Option CodePoint}
    (h : regionBehind? region offset c next = none) (hnext' : ∀ d ∈ next', isSeparator d) :
    regionBehind? region offset c next' = none := by
  have hne {d : CodePoint} (hd : isSeparator d = false) : next' ≠ some d := by
    intro hn
    rw [hnext' d hn] at hd
    cases hd
  cases region with
  | between =>
    have hc : isSeparator c = false := by
      cases hc : isSeparator c with
      | false => rfl
      | true => simp [regionBehind?, hc] at h
    have hslash : next' ≠ some (CodePoint.ofChar '/') := hne (by decide)
    have hstar : next' ≠ some (CodePoint.ofChar '*') := hne (by decide)
    simp [regionBehind?, hc, hslash, hstar]
  | _ => cases h

/-- Trivia that end within a text end there too if something else follows it that starts with a blank. -/
theorem extentFrom_early {region : Region} {offset n : Nat} {x v v' : Text}
    (hv' : ∀ c ∈ v'.head?, isSeparator c) (h : extentFrom region offset (x ++ v) = ⟨offset + n, none⟩)
    (hn : n < x.length) : extentFrom region offset (x ++ v') = ⟨offset + n, none⟩ := by
  induction x generalizing region offset n with
  | nil => exact absurd hn (Nat.not_lt_zero n)
  | cons c x ih =>
    rw [List.cons_append, extentFrom_cons] at h ⊢
    cases hbehind : regionBehind? region offset c (x ++ v).head? with
    | none =>
      rw [hbehind] at h
      -- the code point behind is in the text, unless this one is the last of it
      have hbehind' : regionBehind? region offset c (x ++ v').head? = none := by
        cases x with
        | nil => exact regionBehind?_none hbehind hv'
        | cons d x => exact hbehind
      rw [hbehind']
      exact h
    | some behind =>
      rw [hbehind] at h
      have hle := le_length_extentFrom behind (offset + 1) (x ++ v)
      simp only [h] at hle
      rw [List.length_cons] at hn
      have hsame : (x ++ v').head? = (x ++ v).head? := by
        cases x with
        | nil =>
          rw [List.length_nil] at hn
          omega
        | cons d x => rfl
      rw [hsame, hbehind]
      obtain ⟨m, rfl⟩ : ∃ m, n = 1 + m := ⟨n - 1, by omega⟩
      rw [← Nat.add_assoc] at h ⊢
      exact ih h (by omega)

end Trivia

namespace Text

/-- At the front of the text trivia are skipped and a lexeme is read, and some text is left. -/
structure Yields (a : Text) (regexAllowed : Bool) (g s t : Text) (l : Lexeme) : Prop where
  text : a = g ++ (s ++ t)
  extent : Trivia.extent a = ⟨g.length, none⟩
  read : Lexeme.read regexAllowed (s ++ t) = .found s.length l

theorem Yields.unique {a g s t g' s' t' : Text} {b : Bool} {l l' : Lexeme} (h : a.Yields b g s t l)
    (h' : a.Yields b g' s' t' l') : g = g' ∧ s = s' ∧ t = t' ∧ l = l' := by
  have hlength : g.length = g'.length :=
    congrArg Trivia.Extent.length (h.extent.symm.trans h'.extent)
  obtain ⟨rfl, hst⟩ := List.append_inj (h.text.symm.trans h'.text) hlength
  have hread := h.read.symm.trans (hst ▸ h'.read)
  obtain ⟨rfl, rfl⟩ := List.append_inj hst (congrArg Reading.taken hread)
  exact ⟨rfl, rfl, rfl, Except.ok.inj (congrArg Reading.outcome hread)⟩

/-- Only at the end of a text the end is read. -/
theorem Yields.eof {a g s t : Text} {b : Bool} {l : Lexeme} (h : a.Yields b g s t l)
    (hk : l.kind = .eof) : s ++ t = [] := by
  have hread := h.read
  cases hst : s ++ t with
  | nil => rfl
  | cons c rest =>
    rw [hst] at hread
    obtain ⟨_, _, -, -, hspells⟩ := Lexeme.splits_read b l (by rw [hread]; rfl)
    exact absurd hk hspells.ne_eof

theorem Yields.ne_nil {a g s t : Text} {b : Bool} {l : Lexeme} (h : a.Yields b g s t l)
    (hk : l.kind ≠ .eof) : s ≠ [] := by
  have hread := h.read
  rcases Lexeme.read_cases (l := l) (b := b) (a := s ++ t) (by rw [hread]; rfl) with rfl | hpos
  · exact absurd rfl hk
  · rw [hread] at hpos
    exact List.length_pos_iff.mp hpos.1

/-- The lexemes that are read from a text with a context for its first slash, up to the end. -/
inductive Lexes : SlashContext → Text → List Lexeme → Prop
  | last {c : SlashContext} {a g s t : Text} {l : Lexeme} :
    a.Yields c.regexAllowed g s t l → l.kind = .eof → Lexes c a [l]
  | next {c : SlashContext} {a g s t : Text} {l : Lexeme} {ls : List Lexeme} :
    a.Yields c.regexAllowed g s t l → l.kind ≠ .eof → Lexes (c.after l.kind) t ls → Lexes c a (l :: ls)

end Text

/-- Trivia that are skipped are all there are in front of the text that is left. -/
theorem TextCursor.extent_of_skipTrivia {c later : TextCursor} (h : c.skipTrivia = (.ok (), later)) :
    ∃ g, c.ahead = g ++ later.ahead ∧ Trivia.extent c.ahead = ⟨g.length, none⟩ := by
  unfold skipTrivia at h
  simp only at h
  split at h
  next hu =>
    obtain ⟨g, rest, hahead, he, -⟩ := Trivia.passes_of_unclosed hu
    rw [Nat.zero_add] at he
    cases h
    refine ⟨g, ?_, he⟩
    rw [Trivia.extent, he, ahead_advance, hahead, List.drop_left]
  next => cases h

namespace TokenReader

open Text

theorem yields_of_next {r later : TokenReader} {token : Token} (h : r.next = (.ok token, later)) :
    (∃ g s, r.cursor.ahead.Yields r.context.regexAllowed g s later.cursor.ahead token.toLexeme) ∧
      later.context = r.context.after token.kind := by
  unfold next TextCursor.readToken at h
  rcases hskip : r.cursor.skipTrivia with ⟨e | u, c⟩
  · rw [hskip] at h
    cases h
  obtain ⟨g, hahead, he⟩ := TextCursor.extent_of_skipTrivia hskip
  simp only [hskip] at h
  rcases hread : c.readWith (Lexeme.read r.context.regexAllowed) with ⟨e | token', d⟩
  · rw [hread] at h
    cases h
  simp only [hread] at h
  cases h
  obtain ⟨hok, rfl⟩ := TextCursor.readWith_ok hread
  refine ⟨?_, rfl⟩
  rw [TextCursor.ahead_advance]
  cases hc : c.ahead with
  | nil =>
    rw [hc] at hok hahead
    have hl : token.toLexeme = .endOfInput := (Except.ok.inj hok).symm
    rw [hl]
    exact ⟨g, [], by simp [hahead], he, rfl⟩
  | cons p rest =>
    rw [hc] at hok hahead
    obtain ⟨s, t, hst, htaken, -⟩ := Lexeme.splits_read _ _ hok
    rw [htaken, hst, List.drop_left]
    rw [hst] at hok htaken hahead
    refine ⟨g, s, hahead, he, ?_⟩
    rw [← htaken, Reading.found, ← hok]

theorem next_of_yields {r : TokenReader} {g s t : Text} {l : Lexeme}
    (h : r.cursor.ahead.Yields r.context.regexAllowed g s t l) :
    ∃ token later, r.next = (.ok token, later) ∧ token.toLexeme = l ∧ later.cursor.ahead = t ∧
      later.context = r.context.after l.kind := by
  have hskip : r.cursor.skipTrivia = (.ok (), r.cursor.advance g.length) := by
    simp only [TextCursor.skipTrivia, h.extent]
  have hahead : (r.cursor.advance g.length).ahead = s ++ t := by
    rw [TextCursor.ahead_advance, h.text, List.drop_left]
  obtain ⟨d, hd, hda⟩ := TextCursor.readWith_found _ hahead h.read
  exact ⟨.ofLexeme l (r.cursor.advance g.length).place, ⟨d, r.context.after l.kind⟩,
    by simp only [next, TextCursor.readToken, hskip, hd]; rfl, rfl, hda, rfl⟩

theorem lexes_of_readAll {count : Nat} {r : TokenReader} {sofar tokens : List Token}
    (h : readAll count r sofar = .ok tokens) (hcount : r.cursor.ahead.length < count) :
    ∃ read, tokens = sofar.reverse ++ read ∧ r.cursor.ahead.Lexes r.context (read.map Token.toLexeme) := by
  induction count generalizing r sofar with
  | zero => exact absurd hcount (Nat.not_lt_zero _)
  | succ count ih =>
    rw [readAll] at h
    split at h
    next => cases h
    next token later hn =>
      obtain ⟨⟨g, s, hy⟩, hcontext⟩ := yields_of_next hn
      split at h
      next hk =>
        cases h
        exact ⟨[token], by simp, .last hy hk⟩
      next hk =>
        have hs := List.length_pos_iff.mpr (hy.ne_nil hk)
        have hlength := congrArg List.length hy.text
        rw [List.length_append, List.length_append] at hlength
        obtain ⟨read, rfl, hlexes⟩ := ih h (by omega)
        exact ⟨token :: read, by simp, .next hy hk (hcontext ▸ hlexes)⟩

theorem readAll_of_lexes {a : Text} {c : SlashContext} {ls : List Lexeme} (h : a.Lexes c ls)
    (count : Nat) {r : TokenReader} (sofar : List Token) (ha : r.cursor.ahead = a) (hc : r.context = c)
    (hcount : a.length < count) :
    ∃ tokens, readAll count r sofar = .ok (sofar.reverse ++ tokens) ∧ tokens.map Token.toLexeme = ls := by
  induction h generalizing count r sofar with
  | last hy hk =>
    subst ha hc
    obtain ⟨token, later, hn, rfl, -⟩ := next_of_yields hy
    cases count with
    | zero => exact absurd hcount (Nat.not_lt_zero _)
    | succ count =>
      refine ⟨[token], ?_, rfl⟩
      rw [readAll, hn]
      simp only [hk, if_true, List.reverse_cons]
  | next hy hk _ ih =>
    subst ha hc
    obtain ⟨token, later, hn, rfl, hahead, hcontext⟩ := next_of_yields hy
    cases count with
    | zero => exact absurd hcount (Nat.not_lt_zero _)
    | succ count =>
      have hs := List.length_pos_iff.mpr (hy.ne_nil hk)
      have hlength := congrArg List.length hy.text
      rw [List.length_append, List.length_append] at hlength
      obtain ⟨tokens, hall, rfl⟩ := ih count (token :: sofar) hahead hcontext (by omega)
      refine ⟨token :: tokens, ?_, rfl⟩
      rw [readAll, hn]
      simp only [hk, if_false, hall, List.reverse_cons, List.append_assoc, List.singleton_append]

/-- One reader comes behind the other when a token has been read. -/
def Follows (r later : TokenReader) : Prop := ∃ token, r.next = (.ok token, later)

theorem exists_of_follows {r later : TokenReader} (h : Relation.ReflTransGen Follows r later) :
    ∃ x, r.cursor.ahead = x ++ later.cursor.ahead := by
  induction h using Relation.ReflTransGen.head_induction_on with
  | refl => exact ⟨[], rfl⟩
  | head hn _ ih =>
    obtain ⟨token, hn⟩ := hn
    obtain ⟨⟨g, s, hy⟩, -⟩ := yields_of_next hn
    obtain ⟨x, hx⟩ := ih
    exact ⟨g ++ (s ++ x), by rw [hy.text, hx]; simp⟩

/-- The tokens in front of a text are read in front of another one too, if both are fences, this one starts with
a blank, and the same lexemes are read from both with the context behind the tokens. -/
theorem lexes_before {r later : TokenReader} (hr : Relation.ReflTransGen Follows r later) {x v v' : Text}
    (hx : r.cursor.ahead = x ++ v) (hlater : later.cursor.ahead = v) (hv : v.IsFence) (hne : v ≠ [])
    (hv' : ∀ c ∈ v'.head?, Trivia.isSeparator c)
    (h : ∀ ls, v.Lexes later.context ls → v'.Lexes later.context ls) {ls : List Lexeme}
    (hl : r.cursor.ahead.Lexes r.context ls) : (x ++ v').Lexes r.context ls := by
  induction hr using Relation.ReflTransGen.head_induction_on generalizing x ls with
  | refl =>
    obtain rfl : x = [] := List.append_left_eq_self.mp (hx.symm.trans hlater)
    rw [hlater] at hl
    exact h ls hl
  | @head r next hn hrest ih =>
    obtain ⟨token, hn⟩ := hn
    obtain ⟨⟨g, s, hy⟩, hcontext⟩ := yields_of_next hn
    obtain ⟨x', hx'⟩ := exists_of_follows hrest
    rw [hlater] at hx'
    cases hl with
    | last hy' hk =>
      obtain ⟨-, -, -, hl⟩ := hy.unique hy'
      have hempty := hy.eof (hl ▸ hk)
      rw [hx', List.append_eq_nil_iff, List.append_eq_nil_iff] at hempty
      exact absurd hempty.2.2 hne
    | next hy' hk hl =>
      obtain ⟨-, -, rfl, rfl⟩ := hy.unique hy'
      have hs := List.length_pos_iff.mpr (hy.ne_nil hk)
      obtain rfl : x = g ++ (s ++ x') := by
        have hall : x ++ v = g ++ (s ++ x') ++ v := by
          rw [← hx, hy.text, hx']
          simp
        exact List.append_cancel_right hall
      refine .next (g := g) (s := s) (t := x' ++ v') ⟨by simp, ?_, ?_⟩ hk
        (hcontext ▸ ih hx' (hcontext ▸ hl))
      · have he := hy.extent
        rw [hx, Trivia.extent, ← Nat.zero_add g.length] at he
        rw [Trivia.extent, Trivia.extentFrom_early hv' he (by simp; omega), Nat.zero_add]
      · have hread := hy.read
        rw [hx', ← List.append_assoc] at hread
        have hfence : v'.IsFence := fun c hc => .inl (hv' c hc)
        rw [← List.append_assoc, Lexeme.read_fenced hv hfence (by simp [hy.ne_nil hk])
          (l := token.toLexeme) (by rw [hread]; rfl) (by rw [hread]; simp), hread]

end TokenReader

open TokenReader

/-- Behind the first text a token of the source ends, or none has been read yet; the second is skipped, and at
the third the next token starts. -/
def Text.HasGap (a g b : Text) : Prop :=
  ∃ r c, Relation.ReflTransGen Follows (start (a ++ (g ++ b))) r ∧ r.cursor.ahead = g ++ b ∧
    r.cursor.skipTrivia = (.ok (), c) ∧ c.ahead = b

/-- Trivia that are skipped are a fence. -/
theorem Trivia.isFence_of_extent {t : Text} (h : Trivia.extent t ≠ ⟨0, none⟩) : t.IsFence := by
  rcases Trivia.starts_cases t with ⟨c, t, rfl, hc⟩ | ⟨t, rfl⟩ | ⟨t, rfl⟩ | hstop
  · exact fun d hd => .inl (Option.some.inj hd ▸ hc)
  · exact fun d hd => .inr (Option.some.inj hd).symm
  · exact fun d hd => .inr (Option.some.inj hd).symm
  · exact absurd (hstop 0) h

theorem Text.HasGap.extents {a g b : Text} (h : a.HasGap g b) :
    Trivia.extent (g ++ b) = ⟨g.length, none⟩ ∧ Trivia.extent b = ⟨0, none⟩ := by
  obtain ⟨r, c, -, hahead, hskip, rfl⟩ := h
  refine ⟨?_, (TextCursor.skipTrivia_ok hskip).1⟩
  obtain ⟨g', hg, he⟩ := TextCursor.extent_of_skipTrivia hskip
  obtain rfl : g' = g := List.append_cancel_right (hg.symm.trans hahead)
  rw [← hahead, he]

theorem hasGap_of_next {source : Text} {r later : TokenReader} {token : Token}
    (hr : Relation.ReflTransGen Follows (start source) r) (hin : r.cursor.IsIn source)
    (hn : r.next = (.ok token, later)) :
    ∃ a g b, source = a ++ (g ++ b) ∧ a.HasGap g b ∧ token.place.position = (a ++ g).length := by
  unfold next TextCursor.readToken at hn
  rcases hskip : r.cursor.skipTrivia with ⟨e | u, c⟩
  · rw [hskip] at hn
    cases hn
  obtain ⟨g, hahead, -⟩ := TextCursor.extent_of_skipTrivia hskip
  have hsource : source = r.cursor.behind.reverse ++ (g ++ c.ahead) := by
    rw [← hin.source_eq, TextCursor.source, hahead]
  refine ⟨r.cursor.behind.reverse, g, c.ahead, hsource, ⟨r, c, hsource ▸ hr, hahead, hskip, rfl⟩, ?_⟩
  have hc := hin.skipTrivia.1
  rw [hskip] at hc
  have hbehind : c.behind.reverse = r.cursor.behind.reverse ++ g := by
    refine List.append_cancel_right (hc.source_eq.trans ?_)
    rw [hsource, List.append_assoc]
  simp only [hskip] at hn
  rcases hread : c.readWith (Lexeme.read r.context.regexAllowed) with ⟨e | token', d⟩
  · rw [hread] at hn
    cases hn
  simp only [hread] at hn
  cases hn
  obtain ⟨-, -, hplace, -⟩ := TextCursor.readWith_splits hread
  rw [hplace, hc.place_eq, hbehind, Place.afterText_start]

/-- In front of each token of a source, the end included, there is a gap, be it empty. -/
theorem hasGap_of_tokenize {source : Text} {tokens : List Token} (h : tokenize source = .ok tokens) :
    ∀ token ∈ tokens, ∃ a g b, source = a ++ (g ++ b) ∧ a.HasGap g b ∧
      token.place.position = (a ++ g).length := by
  have hall := readAll_induction (E := fun _ => True)
    (I := fun r => Relation.ReflTransGen Follows (start source) r ∧ r.cursor.IsIn source)
    (T := fun token => ∃ a g b, source = a ++ (g ++ b) ∧ a.HasGap g b ∧
      token.place.position = (a ++ g).length) ?_ (fun _ _ _ _ _ => trivial) (source.length + 1)
    (r := start source) [] ⟨.refl, TextCursor.isIn_start source⟩ (by simp)
  · rw [← tokenize, h] at hall
    exact hall
  · rintro r token later ⟨hr, hin⟩ hn
    have hlater := (isIn_next hin).1
    rw [hn] at hlater
    exact ⟨⟨hr.tail ⟨token, hn⟩, hlater⟩, hasGap_of_next hr hin hn⟩

/-- What is between two tokens can be replaced by blanks and ended comments that start with a blank. -/
theorem tokenize_of_gap {a g b g' : Text} {tokens : List Token} (h : tokenize (a ++ (g ++ b)) = .ok tokens)
    (hgap : a.HasGap g b) (hg : g ≠ []) (hg' : Trivia.IsClosed g')
    (hblank : ∃ c ∈ g'.head?, Trivia.isSeparator c) :
    ∃ tokens', tokenize (a ++ (g' ++ b)) = .ok tokens' ∧
      tokens'.map Token.toLexeme = tokens.map Token.toLexeme := by
  obtain ⟨hextent, hrest⟩ := hgap.extents
  obtain ⟨r, c, hr, hahead, -⟩ := hgap
  obtain ⟨read, rfl, hlexes⟩ := lexes_of_readAll h (Nat.lt_succ_self _)
  have hextent' : Trivia.extent (g' ++ b) = ⟨g'.length, none⟩ := by
    rw [Trivia.extent, Trivia.extentFrom_closed hg', Nat.zero_add, Trivia.extentFrom_of_extent hrest]
  have hstart : ∀ c ∈ (g' ++ b).head?, Trivia.isSeparator c := by
    obtain ⟨d, hd, hsep⟩ := hblank
    obtain ⟨rest, rfl⟩ := List.head?_eq_some_iff.mp hd
    exact fun c hc => Option.some.inj hc ▸ hsep
  have hfence : (g ++ b).IsFence := by
    refine Trivia.isFence_of_extent ?_
    rw [hextent]
    exact fun he => hg (List.length_eq_zero_iff.mp (congrArg Trivia.Extent.length he))
  -- behind the gap the text is the same
  have hbehind {skipped s t : Text} {l : Lexeme} {allowed : Bool}
      (hy : (g ++ b).Yields allowed skipped s t l) : (g' ++ b).Yields allowed g' s t l := by
    obtain ⟨rfl, hb⟩ := List.append_inj hy.text
      (congrArg Trivia.Extent.length (hextent.symm.trans hy.extent))
    exact ⟨by rw [hb], hextent', hy.read⟩
  have hlexesBehind (ls : List Lexeme) (hl : (g ++ b).Lexes r.context ls) :
      (g' ++ b).Lexes r.context ls := by
    cases hl with
    | last hy hk => exact .last (hbehind hy) hk
    | next hy hk hl => exact .next (hbehind hy) hk hl
  have hall := lexes_before hr (x := a) rfl hahead hfence (by simp [hg]) hstart hlexesBehind hlexes
  obtain ⟨tokens', htokens, hmap⟩ := readAll_of_lexes hall ((a ++ (g' ++ b)).length + 1)
    (r := start (a ++ (g' ++ b))) [] rfl rfl (Nat.lt_succ_self _)
  exact ⟨tokens', htokens, hmap⟩

/-- Layout never changes a tree. Whatever stands between two tokens of a source can be replaced by other
blanks and ended comments that start with a blank, and the lexemes stay the same; and sources with the same
lexemes come to the same with each entry, to trees that are alike or to errors for the same reason at tokens
of the same index. -/
theorem layout_irrelevant :
    (∀ (a g b g' : Text) (tokens : List Token), tokenize (a ++ (g ++ b)) = .ok tokens → a.HasGap g b →
        g ≠ [] → Trivia.IsClosed g' → (∃ c ∈ g'.head?, Trivia.isSeparator c) →
          ∃ tokens', tokenize (a ++ (g' ++ b)) = .ok tokens' ∧
            tokens'.map Token.toLexeme = tokens.map Token.toLexeme) ∧
      ∀ (entry : Entry) (source source' : Text) (tokens tokens' : List Token),
        tokenize source = .ok tokens → tokenize source' = .ok tokens' →
          tokens.map Token.toLexeme = tokens'.map Token.toLexeme →
            SameAtTokens tokens tokens' (entry.ofSource source) (entry.ofSource source') :=
  ⟨fun _ _ _ _ _ h hgap hg hg' hblank => tokenize_of_gap h hgap hg hg' hblank,
    fun entry _ _ _ _ h h' hl => entry.ofSource_sameAtTokens h h' hl⟩

/-- A comment in front of a regex, another in its stead, and the lexemes of both. -/
theorem layout_irrelevant_regex :
    let a := Text.ofString "if (a)"
    let b := Text.ofString "/d/g"
    let g := Text.ofString "/* c */ "
    let g' := Text.ofString "\n// x\n"
    ∃ tokens tokens', tokenize (a ++ (g ++ b)) = .ok tokens ∧ tokenize (a ++ (g' ++ b)) = .ok tokens' ∧
      tokens'.map Token.toLexeme = tokens.map Token.toLexeme ∧ tokens ≠ tokens' ∧
      SameAtTokens tokens tokens' (Entry.program.ofSource (a ++ (g ++ b)))
        (Entry.program.ofSource (a ++ (g' ++ b))) := by
  intro a b g g'
  have hok : (tokenize (a ++ (g ++ b))).toBool = true := by decide +kernel
  obtain ⟨tokens, h⟩ : ∃ tokens, tokenize (a ++ (g ++ b)) = .ok tokens := by
    cases ht : tokenize (a ++ (g ++ b)) with
    | error e =>
      rw [ht] at hok
      cases hok
    | ok tokens => exact ⟨tokens, rfl⟩
  have hgap : a.HasGap g b := by
    let r := (start (a ++ (g ++ b))).next.2.next.2.next.2
    refine ⟨r.next.2, (r.next.2.cursor.advance g.length), ?_, by decide +kernel, by decide +kernel,
      by decide +kernel⟩
    have step {r : TokenReader} (h : r.next.1.toBool = true) : Follows r r.next.2 := by
      rcases hn : r.next with ⟨e | token, later⟩
      · rw [hn] at h
        cases h
      · exact ⟨token, by rw [hn]⟩
    exact .tail (.tail (.tail (.single (step (by decide +kernel))) (step (by decide +kernel)))
      (step (by decide +kernel))) (step (by decide +kernel))
  have hclosed : Trivia.IsClosed g' :=
    .blank (by decide) (@Trivia.IsClosed.line (Text.ofString " x") [] (by decide) .nil)
  obtain ⟨tokens', h', hl⟩ := layout_irrelevant.1 a g b g' tokens h hgap (by decide) hclosed
    ⟨CodePoint.ofChar '\n', rfl, by decide⟩
  refine ⟨tokens, tokens', h, h', hl, ?_, layout_irrelevant.2 .program _ _ _ _ h h' hl.symm⟩
  rintro rfl
  have hplaces : (tokenize (a ++ (g ++ b))).toOption.map (·.map Token.place) ≠
      (tokenize (a ++ (g' ++ b))).toOption.map (·.map Token.place) := by decide +kernel
  exact hplaces (by rw [h, h'])

end MagSyntax
