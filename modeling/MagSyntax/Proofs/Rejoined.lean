import MagSyntax.Proofs.LineFeeds
import MagSyntax.Proofs.Surrounded

/-! Lines of a source put one behind the other. A line feed with the blanks behind it stands between two lexemes or in
a comment, unless a backslash is in front of it, so one blank in its place leaves the lexemes as they are. Only a
comment up to the end of its line needs the line feed, and would go on over the lines behind. -/

namespace MagSyntax

/-- What stands in front of an item and what stands in front of a list without it are one in front of the other. -/
theorem exists_of_append_cons {α : Type} {m z x r : List α} {d : α} (hd : d ∉ m) (h : m ++ z = x ++ d :: r) :
    ∃ x', x = m ++ x' ∧ z = x' ++ d :: r := by
  rcases List.append_eq_append_iff.mp h with ⟨x', hx, hz⟩ | ⟨m', hm, hr⟩
  · exact ⟨x', hx, hz⟩
  · cases m' with
    | nil => exact ⟨[], by simpa using hm.symm, by simpa using hr.symm⟩
    | cons e m' =>
      obtain ⟨rfl, -⟩ := List.cons.inj hr
      exact absurd (hm ▸ List.mem_append_right x List.mem_cons_self) hd

/-- What holds no item is within what stands before it or behind it. -/
theorem infix_append_cons {α : Type} {s x z : List α} {d : α} (hd : d ∉ s) (h : s <:+: x ++ d :: z) :
    s <:+: x ∨ s <:+: z := by
  obtain ⟨p, q, h⟩ := h
  rw [List.append_assoc] at h
  rcases List.append_eq_append_iff.mp h with ⟨y, rfl, hy⟩ | ⟨y, -, hy⟩
  · obtain ⟨y', rfl, -⟩ := exists_of_append_cons hd hy
    exact .inl ⟨p, y', List.append_assoc _ _ _⟩
  · cases y with
    | nil =>
      obtain ⟨y', hnil, -⟩ := exists_of_append_cons (x := []) hd hy.symm
      obtain rfl := (List.append_eq_nil_iff.mp hnil.symm).1
      exact .inl (List.nil_infix)
    | cons e y => exact .inr ⟨y, q, by rw [List.append_assoc]; exact (List.cons.inj hy).2.symm⟩

namespace Text

/-- Blanks alone. -/
def IsBlank (t : Text) : Prop := ∀ c ∈ t, c.isBlank = true

/-- Another text in the place of a line feed and the blanks behind it: one blank, or nothing at the end. -/
inductive Rejoins : Text → Text → Prop
  | within {g b : Text} : g.IsBlank → Rejoins (CodePoint.ofChar '\n' :: (g ++ b)) (CodePoint.ofChar ' ' :: b)
  | atEnd : Rejoins [CodePoint.ofChar '\n'] []

variable {v v' : Text}

theorem Rejoins.head (h : Rejoins v v') :
    (∃ r, v = CodePoint.ofChar '\n' :: r) ∧ ∀ c ∈ v'.head?, Trivia.isSeparator c := by
  cases h with
  | within => exact ⟨⟨_, rfl⟩, by rintro _ ⟨⟩; decide⟩
  | atEnd => exact ⟨⟨_, rfl⟩, by rintro _ ⟨⟩⟩

end Text

open Text

namespace Trivia

/-- Blanks, and comments between marks that are closed. -/
inductive IsInline : Text → Prop
  | nil : IsInline []
  | blank {c : CodePoint} {g : Text} : isSeparator c → IsInline g → IsInline (c :: g)
  | block {body g : Text} : ¬closer <:+: body ++ [CodePoint.ofChar '*'] → IsInline g →
    IsInline (CodePoint.ofChar '/' :: CodePoint.ofChar '*' :: (body ++ closer ++ g))

namespace IsInline

variable {g g' b x w v v' : Text}

theorem isClosed (h : IsInline g) : IsClosed g := by
  induction h with
  | nil => exact .nil
  | blank hc _ ih => exact .blank hc ih
  | block hbody _ ih => exact .block hbody ih

theorem extent_append (h : IsInline g) (hw : extent w = ⟨0, none⟩) : extent (g ++ w) = ⟨g.length, none⟩ := by
  rw [extent, extentFrom_closed h.isClosed, Nat.zero_add, extentFrom_of_extent hw]

/-- Blanks at the front of trivia can be left out. -/
theorem behindBlanks (h : IsInline g) (hw : ∀ c ∈ w.head?, c.isBlank = false) (hb : b.IsBlank) {t : Text}
    (heq : g ++ w = b ++ t) : ∃ g', g = b ++ g' ∧ IsInline g' ∧ t = g' ++ w := by
  induction b generalizing g with
  | nil => exact ⟨g, rfl, h, heq.symm⟩
  | cons c b ih =>
    obtain ⟨hc, hrest⟩ := List.forall_mem_cons.mp hb
    have hclash {d : CodePoint} (hd : d.isBlank = false) : d ≠ c := by
      rintro rfl
      rw [hc] at hd
      cases hd
    cases h with
    | nil =>
      rw [List.nil_append] at heq
      exact absurd rfl (hclash (hw c (by rw [heq]; rfl)))
    | blank _ hg =>
      obtain ⟨rfl, hbehind⟩ := List.cons.inj heq
      obtain ⟨g', rfl, hg', ht⟩ := ih hg hrest hbehind
      exact ⟨g', rfl, hg', ht⟩
    | block => exact absurd (List.cons.inj heq).1 (hclash (by decide))

/-- A comment goes on over what is put in the place of a line feed. -/
theorem block_rejoined {body z : Text} (hbody : ¬closer <:+: x ++ body ++ [CodePoint.ofChar '*'])
    (hv : Rejoins v v') (heq : v = body ++ CodePoint.ofChar '*' :: z) :
    ∃ body', v' = body' ++ CodePoint.ofChar '*' :: z ∧ ¬closer <:+: x ++ body' ++ [CodePoint.ofChar '*'] := by
  cases body with
  | nil =>
    obtain ⟨⟨r, hr⟩, -⟩ := hv.head
    rw [hr] at heq
    exact absurd (List.cons.inj heq).1 (by decide)
  | cons c body =>
    cases hv with
    | atEnd => exact absurd (List.cons.inj heq).2 (by simp)
    | @within g b hg =>
      have hstar : CodePoint.ofChar '*' ∉ g := fun hm => absurd (hg _ hm) (by decide)
      obtain ⟨body', rfl, rfl⟩ := exists_of_append_cons hstar (List.cons.inj heq).2
      refine ⟨CodePoint.ofChar ' ' :: body', rfl, fun hclose => hbody ?_⟩
      rw [List.append_assoc, List.cons_append] at hclose
      -- the blank is no part of the mark
      rcases infix_append_cons (by decide) hclose with h | h
      · exact h.trans ⟨[], c :: (g ++ body') ++ [CodePoint.ofChar '*'], by simp⟩
      · exact h.trans ⟨x ++ c :: g, [], by simp⟩

/-- Trivia that go on over a line feed do so over what is put in its place. -/
theorem rejoined (h : IsInline g) (hw : ∀ c ∈ w.head?, c.isBlank = false) (hv : Rejoins v v')
    (heq : g ++ w = x ++ v) (hlt : x.length < g.length) : ∃ g', x ++ v' = g' ++ w ∧ IsInline g' := by
  obtain ⟨⟨r, hr⟩, -⟩ := hv.head
  induction h generalizing x with
  | nil => cases hlt
  | @blank c g hc hg ih =>
    cases x with
    | nil =>
      cases hv with
      | within hblank =>
        obtain ⟨g', rfl, hg', rfl⟩ := hg.behindBlanks hw hblank (List.cons.inj heq).2
        exact ⟨CodePoint.ofChar ' ' :: g', rfl, .blank (by decide) hg'⟩
      | atEnd =>
        have hnil := List.append_eq_nil_iff.mp (List.cons.inj heq).2
        exact ⟨[], hnil.2.symm, .nil⟩
    | cons d x =>
      obtain ⟨rfl, hbehind⟩ := List.cons.inj heq
      obtain ⟨g', he, hg'⟩ := ih hbehind (Nat.lt_of_succ_lt_succ hlt)
      exact ⟨c :: g', congrArg (c :: ·) he, .blank hc hg'⟩
  | @block body g hbody hg ih =>
    have hopen : [CodePoint.ofChar '/', CodePoint.ofChar '*'] ++ (body ++ (closer ++ (g ++ w))) =
        x ++ CodePoint.ofChar '\n' :: r := by
      rw [← hr, ← heq]
      simp
    obtain ⟨x, rfl, hx⟩ := exists_of_append_cons (by decide) hopen
    -- the line feed stands behind the comment or in its body
    rcases List.append_eq_append_iff.mp hx with ⟨y, rfl, hy⟩ | ⟨y, rfl, hy⟩
    · obtain ⟨y, rfl, hbehind⟩ := exists_of_append_cons (by decide) hy
      obtain ⟨g', he, hg'⟩ := ih (hr ▸ hbehind) (by simp at hlt; omega)
      refine ⟨_, ?_, .block hbody hg'⟩
      simp [he]
    · rw [← hr] at hy
      obtain ⟨body', he, hclose⟩ := block_rejoined hbody hv hy
      refine ⟨_, ?_, .block hclose hg⟩
      simp [he, closer]

end IsInline

end Trivia

open TokenReader

namespace Text

/-- Between two tokens of the source, in front of the first or behind the last, stands a comment that goes on up to the
end of its line. -/
def HasLineComment (source : Text) : Prop :=
  ∃ a g b, source = a ++ (g ++ b) ∧ a.HasGap g b ∧ ¬Trivia.IsInline g

/-- The lexemes that are read from a text with a context for its first slash, up to the end, without comments that go
on up to the end of a line. -/
inductive LexesInline : SlashContext → Text → List Lexeme → Prop
  | last {c : SlashContext} {g : Text} : Trivia.IsInline g → LexesInline c g [.endOfInput]
  | next {c : SlashContext} {g s t : Text} {l : Lexeme} {ls : List Lexeme} :
    Trivia.IsInline g → Trivia.extent (s ++ t) = ⟨0, none⟩ →
      Lexeme.read c.regexAllowed (s ++ t) = .found s.length l → l.kind ≠ .eof →
        LexesInline (c.after l.kind) t ls → LexesInline c (g ++ (s ++ t)) (l :: ls)

theorem Yields.isInline {source g s t : Text} {b : Bool} {l : Lexeme} {r : TokenReader}
    (hsource : ¬source.HasLineComment) (hr : Relation.ReflTransGen Follows (start source) r)
    (hin : r.cursor.IsIn source) (hy : r.cursor.ahead.Yields b g s t l) :
    Trivia.IsInline g ∧ Trivia.extent (s ++ t) = ⟨0, none⟩ := by
  have hskip : r.cursor.skipTrivia = (.ok (), r.cursor.advance g.length) := by
    simp only [TextCursor.skipTrivia, hy.extent]
  have hbehind : (r.cursor.advance g.length).ahead = s ++ t := by
    rw [TextCursor.ahead_advance, hy.text, List.drop_left]
  have hparts : source = r.cursor.behind.reverse ++ (g ++ (s ++ t)) := by
    rw [← hin.source_eq, TextCursor.source, hy.text]
  have hgap : Text.HasGap r.cursor.behind.reverse g (s ++ t) := ⟨r, _, hparts ▸ hr, hy.text, hskip, hbehind⟩
  refine ⟨Classical.byContradiction fun hn => hsource ⟨_, g, s ++ t, hparts, hgap, hn⟩, hgap.extents.2⟩

theorem Lexes.lexesInline {source a : Text} {c : SlashContext} {ls : List Lexeme} (hsource : ¬source.HasLineComment)
    (h : a.Lexes c ls) {r : TokenReader} (hr : Relation.ReflTransGen Follows (start source) r)
    (hin : r.cursor.IsIn source) (ha : r.cursor.ahead = a) (hc : r.context = c) : a.LexesInline c ls := by
  induction h generalizing r with
  | @last c a g s t l hy hk =>
    subst ha hc
    have hnil := hy.eof hk
    have hread := hy.read
    rw [hnil] at hread
    obtain rfl : Lexeme.endOfInput = l := Except.ok.inj (congrArg Reading.outcome hread)
    rw [hy.text, hnil, List.append_nil]
    exact .last (hy.isInline hsource hr hin).1
  | next hy hk _ ih =>
    subst ha hc
    obtain ⟨hinline, hextent⟩ := hy.isInline hsource hr hin
    obtain ⟨token, later, hn, -, hahead, hcontext⟩ := next_of_yields hy
    have hlater := (isIn_next hin).1
    rw [hn] at hlater
    rw [hy.text]
    exact .next hinline hextent hy.read hk (ih (hr.tail ⟨token, hn⟩) hlater hahead hcontext)

namespace LexesInline

variable {c : SlashContext} {a b x v v' : Text} {ls : List Lexeme}

theorem lexes (h : a.LexesInline c ls) : a.Lexes c ls := by
  induction h with
  | @last c g hg =>
    have he := hg.extent_append (w := []) rfl
    rw [List.append_nil] at he
    exact .last (g := g) (s := []) (t := []) ⟨by simp, he, rfl⟩ rfl
  | next hg he hread hk _ ih => exact .next ⟨rfl, hg.extent_append he, hread⟩ hk ih

/-- Where a lexeme is read no blank stands. -/
theorem head_of_read {b : Bool} {w : Text} {n : Nat} {l : Lexeme} (h : Lexeme.read b w = .found n l) :
    ∀ d ∈ w.head?, d.isBlank = false := by
  intro d hd
  obtain ⟨w, rfl⟩ := List.head?_eq_some_iff.mp hd
  cases hblank : d.isBlank with
  | false => rfl
  | true => exact absurd (by rw [h]; rfl) (Lexeme.read_ne_ok hblank (b := b) (l := l))

/-- Blanks at the front can be left out. -/
theorem behindBlanks (h : (b ++ a).LexesInline c ls) (hb : b.IsBlank) : a.LexesInline c ls := by
  generalize hs : b ++ a = source at h
  cases h with
  | last hg =>
    obtain ⟨g', -, hg', rfl⟩ := hg.behindBlanks (w := []) (by simp) hb (by simpa using hs.symm)
    rw [List.append_nil]
    exact .last hg'
  | next hg he hread hk hrest =>
    obtain ⟨g', -, hg', rfl⟩ := hg.behindBlanks (head_of_read hread) hb hs.symm
    exact .next hg' he hread hk hrest

/-- The lexemes stay the same when a line feed with the blanks behind it is replaced, if no backslash stands in front
of it. -/
theorem rejoined (h : a.LexesInline c ls) (ha : a = x ++ v) (hx : x.getLast? ≠ some (CodePoint.ofChar '\\'))
    (hv : Rejoins v v') : (x ++ v').LexesInline c ls := by
  induction h generalizing x with
  | @last c g hg =>
    obtain ⟨⟨r, hr⟩, -⟩ := hv.head
    obtain ⟨g', he, hg'⟩ := hg.rejoined (w := []) (by simp) hv (by simpa using ha) (by simp [ha, hr])
    rw [he, List.append_nil]
    exact .last hg'
  | @next c g s t l ls hg he hread hk hrest ih =>
    obtain ⟨⟨r, hr⟩, hhead⟩ := hv.head
    by_cases hgap : x.length < g.length
    · obtain ⟨g', he', hg'⟩ := hg.rejoined (head_of_read hread) hv ha hgap
      rw [he']
      exact .next hg' he hread hk hrest
    · obtain ⟨y, rfl, hy⟩ := exists_of_append_eq ha.symm (Nat.le_of_not_lt hgap)
      by_cases hword : y.length < s.length
      · -- the line feed would be part of the lexeme
        rw [hy, hr] at hread
        have hback := Lexeme.read_lineFeed (l := l) (by rw [hread]; rfl) (by rw [hread]; exact hword)
        exact absurd (by rw [List.getLast?_append, hback]; rfl) hx
      · obtain ⟨z, rfl, rfl⟩ := exists_of_append_eq hy.symm (Nat.le_of_not_lt hword)
        have hy : (s ++ (z ++ v)).Yields c.regexAllowed [] s (z ++ v) l := ⟨rfl, he, hread⟩
        have hs := List.length_pos_iff.mpr (hy.ne_nil hk)
        have hlast : z.getLast? ≠ some (CodePoint.ofChar '\\') := fun hz =>
          hx (by rw [List.getLast?_append, List.getLast?_append, hz]; rfl)
        rw [← List.append_assoc] at he hread
        rw [List.append_assoc, List.append_assoc]
        refine .next hg ?_ ?_ hk (ih rfl hlast)
        · rw [← List.append_assoc]
          exact @Trivia.extentFrom_early .between 0 0 _ _ _ hhead he (by rw [List.length_append]; omega)
        · have hfence : v.IsFence := hr ▸ isFence_lineFeed r
          have hfence' : v'.IsFence := fun d hd => .inl (hhead d hd)
          rw [← List.append_assoc, Lexeme.read_fenced hfence hfence' (l := l)
            (List.append_ne_nil_of_left_ne_nil (hy.ne_nil hk) z) (by rw [hread]; rfl) (by rw [hread]; simp), hread]

/-- The last line feed can be left out. -/
theorem beforeEnd (h : (x ++ [CodePoint.ofChar '\n']).LexesInline c ls)
    (hx : x.getLast? ≠ some (CodePoint.ofChar '\\')) : x.LexesInline c ls := by
  have hshort := h.rejoined rfl hx .atEnd
  rwa [List.append_nil] at hshort

end LexesInline

/-- Blanks and then a text that neither a blank nor a backslash ends. -/
def IsIndented (t : Text) : Prop := ∃ g, g.IsBlank ∧ t = g ++ t.trim ∧ t.trim.getLast? ≠ some (CodePoint.ofChar '\\')

/-- Lines with a line feed in front of each have the lexemes that they have with a blank there. -/
theorem LexesInline.oneLine {c : SlashContext} {ls : List Lexeme} {lines : List Text} {x z : Text}
    (h : (x ++ (lines.flatMap (CodePoint.ofChar '\n' :: ·) ++ z)).LexesInline c ls)
    (hx : x.getLast? ≠ some (CodePoint.ofChar '\\')) (hlines : ∀ line ∈ lines, line.IsIndented) :
    (x ++ (lines.flatMap (CodePoint.ofChar ' ' :: ·.trim) ++ z)).LexesInline c ls := by
  induction lines generalizing x with
  | nil => exact h
  | cons line rest ih =>
    obtain ⟨⟨g, hg, hline, hlast⟩, hrest⟩ := List.forall_mem_cons.mp hlines
    rw [List.flatMap_cons, hline, List.cons_append, List.cons_append, List.append_assoc, List.append_assoc] at h
    have hjoined := h.rejoined rfl hx (.within hg)
    rw [← List.cons_append, ← List.append_assoc] at hjoined
    rw [List.flatMap_cons, List.append_assoc, ← List.append_assoc]
    refine ih hjoined ?_ hrest
    rw [List.getLast?_append, List.getLast?_cons]
    cases hend : line.trim.getLast? with
    | none => exact show some (CodePoint.ofChar ' ') ≠ some (CodePoint.ofChar '\\') by decide
    | some d => simpa [hend] using hlast

end Text

/-- A text without slashes holds no comment. -/
theorem Trivia.Fills.isInline {g t : Text} (h : Fills g t) (hg : CodePoint.ofChar '/' ∉ g) : IsInline g := by
  induction h with
  | nil => exact .nil
  | blank hc _ ih => exact .blank hc (ih fun hm => hg (List.mem_cons_of_mem _ hm))
  | line | block => exact absurd List.mem_cons_self hg

theorem Text.not_hasLineComment {source : Text} (h : CodePoint.ofChar '/' ∉ source) : ¬source.HasLineComment := by
  rintro ⟨a, g, b, rfl, ⟨r, later, -, hahead, hskip, rfl⟩, hinline⟩
  obtain ⟨g', hg, hfills, -⟩ := TextCursor.skipTrivia_fills hskip
  obtain rfl : g' = g := List.append_cancel_right (hg.symm.trans hahead)
  exact hinline (hfills.isInline fun hm => h (List.mem_append_right a (List.mem_append_left _ hm)))

/-- What a source comes to without comments up to the end of a line. -/
theorem lexesInline_of_tokenize {source : Text} {tokens : List Token} (h : tokenize source = .ok tokens)
    (hsource : ¬source.HasLineComment) : source.LexesInline .start (tokens.map Token.toLexeme) := by
  obtain ⟨read, rfl, hlexes⟩ := lexes_of_readAll h (Nat.lt_succ_self _)
  exact hlexes.lexesInline hsource .refl (TextCursor.isIn_start source) rfl rfl

end MagSyntax
