import Mathlib.Data.List.Induction
import MagSyntax.Proofs.SameTokens
import MagSyntax.Proofs.Sources
import MagSyntax.Proofs.SpannedRules
import MagSyntax.Proofs.TokenizeEnds

/-! Where tokens, errors and the nodes of a tree stand. A cursor has counted the text behind it, wherever it has
been moved to, and whatever gets a place gets that of a cursor: a token, a fault in a lexeme, and an
open comment. A complaint of the grammar gets the place of a token, and a node that of the first token
it was read from. -/

namespace MagSyntax

namespace Place

/-- The place is one of the source, its line is one more than the line feeds before it, and its column one more
than the code points since the last of them. -/
structure IsIn (p : Place) (source : Text) : Prop where
  nonneg : 0 ≤ p.position
  le : p.position ≤ source.length
  line : p.line = 1 + ((source.take p.position.toNat).count (CodePoint.ofChar '\n') : Nat)
  column : p.column =
    1 + ((source.take p.position.toNat).reverse.takeWhile (· ≠ CodePoint.ofChar '\n')).length

theorem afterText_start (t : Text) : start.afterText t =
    ⟨t.length, 1 + (t.count (CodePoint.ofChar '\n') : Nat),
      1 + (t.reverse.takeWhile (· ≠ CodePoint.ofChar '\n')).length⟩ := by
  induction t using List.reverseRecOn with
  | nil => rfl
  | append_singleton t c ih =>
    have hafter : start.afterText (t ++ [c]) = (start.afterText t).after c := afterText_append _ _ _
    rw [hafter, ih, after]
    split
    next hc =>
      subst hc
      simp
      omega
    next hc =>
      simp [hc]
      omega

theorem isIn_afterText (s t : Text) : (start.afterText s).IsIn (s ++ t) := by
  rw [afterText_start]
  refine ⟨Int.natCast_nonneg _, ?_, ?_, ?_⟩
  · simp only [List.length_append]
    omega
  · simp
  · simp

end Place

namespace TextCursor

/-- The cursor moves in the source and has counted what is behind it. -/
structure IsIn (c : TextCursor) (source : Text) : Prop where
  source_eq : c.source = source
  place_eq : c.place = Place.start.afterText c.behind.reverse

variable {c : TextCursor} {source : Text}

theorem isIn_start (source : Text) : (start source).IsIn source := ⟨rfl, rfl⟩

theorem IsIn.place (h : c.IsIn source) : c.place.IsIn source := by
  rw [h.place_eq, ← h.source_eq]
  exact Place.isIn_afterText _ _

theorem IsIn.advance (h : c.IsIn source) (n : Nat) : (c.advance n).IsIn source := by
  refine ⟨(c.source_advance n).trans h.source_eq, ?_⟩
  rw [advance_eq, h.place_eq, ← Place.afterText_append, List.reverse_append, List.reverse_reverse]

theorem IsIn.skipTrivia (h : c.IsIn source) :
    c.skipTrivia.2.IsIn source ∧ ∀ e, c.skipTrivia.1 = .error e → e.place.IsIn source := by
  unfold TextCursor.skipTrivia
  simp only
  split
  next => exact ⟨h.advance _, fun e he => by cases he⟩
  next n _ =>
    refine ⟨h.advance _, fun e he => ?_⟩
    cases he
    exact (h.advance n).place

/-- What a reading comes to has a place in the source. -/
def Places (source : Text) : Except SyntaxError Token → Prop
  | .ok token => token.place.IsIn source
  | .error e => e.place.IsIn source

theorem IsIn.readWith (h : c.IsIn source) (read : Text → Reading Lexeme) :
    (c.readWith read).2.IsIn source ∧ Places source (c.readWith read).1 := by
  unfold TextCursor.readWith
  simp only
  split <;> exact ⟨h.advance _, h.place⟩

theorem IsIn.readToken (h : c.IsIn source) (b : Bool) :
    (c.readToken b).2.IsIn source ∧ Places source (c.readToken b).1 := by
  obtain ⟨hlater, hplace⟩ := h.skipTrivia
  unfold TextCursor.readToken
  split
  next hskip =>
    rw [hskip] at hlater
    exact hlater.readWith _
  next e _ hskip =>
    rw [hskip] at hlater hplace
    exact ⟨hlater, hplace e rfl⟩

end TextCursor

namespace TokenReader

variable {r : TokenReader} {source : Text}

theorem isIn_next (h : r.cursor.IsIn source) :
    r.next.2.cursor.IsIn source ∧ TextCursor.Places source r.next.1 := by
  obtain ⟨hlater, hplaces⟩ := h.readToken r.context.regexAllowed
  unfold next
  split <;>
  · rename_i hread
    rw [hread] at hlater hplaces
    exact ⟨hlater, hplaces⟩

end TokenReader

/-- Each token of a source stands in it, and so does the error if it has none. -/
theorem isIn_of_tokenize (source : Text) :
    (∀ tokens, tokenize source = .ok tokens → ∀ token ∈ tokens, token.place.IsIn source) ∧
      ∀ e, tokenize source = .error e → e.place.IsIn source := by
  have h := TokenReader.readAll_induction (I := fun r => r.cursor.IsIn source)
    (fun r token later hr hn => by simpa [hn, TextCursor.Places] using TokenReader.isIn_next hr)
    (fun r e later hr hn => by simpa [hn, TextCursor.Places] using (TokenReader.isIn_next hr).2)
    (source.length + 1) (r := .start source) [] (TextCursor.isIn_start source) (by simp)
  rw [← tokenize] at h
  refine ⟨fun tokens ht => ?_, fun e he => ?_⟩
  · rw [ht] at h
    exact h
  · rw [he] at h
    exact h

/-- A source that an entry refuses is refused at a place of it. -/
theorem Entry.isIn_of_ofSource (entry : Entry) {source : Text} {e : SyntaxError}
    (h : entry.ofSource source = .error e) : e.place.IsIn source := by
  obtain ⟨htokens, herror⟩ := isIn_of_tokenize source
  cases ht : tokenize source with
  | error e' =>
    rw [ofSource, ht] at h
    cases h
    exact herror e ht
  | ok tokens =>
    rcases entry.ofSource_sameAtTokens ht ht rfl with ⟨n, -, hn, -, -⟩ |
      ⟨e', -, he, -, -, i, token, -, htoken, -, hplace, -⟩
    · rw [hn] at h
      cases h
    · rw [he] at h
      cases h
      rw [hplace]
      exact htokens tokens ht token (List.mem_of_getElem? htoken)

/-- A tree that an entry accepts in a source is read from all its tokens before the end. -/
theorem Entry.spans_of_ofSource (entry : Entry) {source : Text} {tree : Node}
    (h : entry.ofSource source = .ok tree) :
    ∃ tokens, tokenize source = .ok tokens ∧
      (Input.ofTokens tokens).Spans 0 tree (tokens.length - 1) := by
  cases ht : tokenize source with
  | error e =>
    rw [ofSource, ht] at h
    cases h
  | ok tokens =>
    rw [ofSource, ht] at h
    obtain ⟨stop, hspans, hstop⟩ := entry.spans_of_ofInput (isProper_of_tokenize ht)
      (not_strayEnd_of_tokenize ht) h
    obtain ⟨inner, last, rfl, hl, -, hinner⟩ := tokens_of_tokenize ht
    obtain ⟨ls, -, hshows, he⟩ := hspans.writes
    rw [Nat.zero_add] at he
    -- no token before the end is an end, so the tree has all of them
    have hlast : last.kind = .eof := congrArg Lexeme.kind hl
    rw [he, Input.ofTokens_append hlast] at hstop
    rw [Input.ofTokens_append hlast] at hshows
    have hls := Input.shows_mk_all hlast (fun t ht => (hinner t ht).1) hshows hstop
    refine ⟨_, rfl, ?_⟩
    rw [List.length_append, List.length_singleton, Nat.add_sub_cancel, ← List.length_map Token.essence,
      ← hls, ← he]
    exact hspans

/-- Coordinates are right everywhere. Each token of a source stands in it, and so does each error, whether the
source has no tokens or an entry refuses them; and a tree that an entry accepts is read from all tokens
before the end, each node standing where the first of its tokens does, and the parts of each node being
read from tokens of its own, one behind the other in the order of its fields. -/
theorem coordinates_right (source : Text) :
    (∀ tokens, tokenize source = .ok tokens → ∀ token ∈ tokens, token.place.IsIn source) ∧
      (∀ e, tokenize source = .error e → e.place.IsIn source) ∧
        ∀ entry : Entry, (∀ e, entry.ofSource source = .error e → e.place.IsIn source) ∧
          ∀ tree, entry.ofSource source = .ok tree → ∃ tokens, tokenize source = .ok tokens ∧
            (Input.ofTokens tokens).Spans 0 tree (tokens.length - 1) := by
  obtain ⟨htokens, herror⟩ := isIn_of_tokenize source
  exact ⟨htokens, herror, fun entry =>
    ⟨fun e h => entry.isIn_of_ofSource h, fun tree h => entry.spans_of_ofSource h⟩⟩

/-- A comment over two lines in front of a keyword that names a field; a declaration that lacks its value, on
the second line; and a string that is left open, on the third. -/
theorem coordinates_right_lines :
    let source := Text.ofString "let x =\n  a./* \n */if + 1;"
    let unvalued := Text.ofString "let x\n=;"
    let unclosed := Text.ofString "a\n\n 'b"
    (∃ tokens tree, tokenize source = .ok tokens ∧ (∀ token ∈ tokens, token.place.IsIn source) ∧
        Entry.program.ofSource source = .ok tree ∧
        (Input.ofTokens tokens).Spans 0 tree (tokens.length - 1)) ∧
      (∃ e, Entry.program.ofSource unvalued = .error e ∧ e.place = ⟨7, 2, 2⟩ ∧ e.place.IsIn unvalued) ∧
        ∃ e, tokenize unclosed = .error e ∧ e.place = ⟨4, 3, 2⟩ ∧ e.place.IsIn unclosed := by
  intro source unvalued unclosed
  have hfails {α : Type} (o : Except SyntaxError α) (place : Place)
      (h : (match o with | .ok _ => none | .error e => some e.place) = some place) :
      ∃ e, o = .error e ∧ e.place = place := by
    cases o with
    | ok => cases h
    | error e => exact ⟨e, rfl, Option.some.inj h⟩
  obtain ⟨tree, htree⟩ : ∃ tree, Entry.program.ofSource source = .ok tree := by
    have hok : (Entry.program.ofSource source).toBool = true := by decide +kernel
    cases h : Entry.program.ofSource source with
    | ok tree => exact ⟨tree, rfl⟩
    | error e =>
      rw [h] at hok
      cases hok
  obtain ⟨tokens, ht, hspans⟩ := ((coordinates_right source).2.2 .program).2 tree htree
  obtain ⟨e, he, hplace⟩ := hfails (Entry.program.ofSource unvalued) ⟨7, 2, 2⟩ (by decide +kernel)
  obtain ⟨e', he', hplace'⟩ := hfails (tokenize unclosed) ⟨4, 3, 2⟩ (by decide +kernel)
  exact ⟨⟨tokens, tree, ht, (coordinates_right source).1 tokens ht, htree, hspans⟩,
    ⟨e, he, hplace, ((coordinates_right unvalued).2.2 .program).1 e he⟩,
    e', he', hplace', (coordinates_right unclosed).2.1 e' he'⟩

end MagSyntax
