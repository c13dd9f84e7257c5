import MagSyntax.Proofs.Entries
import MagSyntax.Proofs.Layout

/-! What an entry accepts in a source is written in the lexemes of the source, and each of them is read
again from its own text. -/

namespace MagSyntax

/-- A numeral that was read has a base that it can be printed in. -/
theorem Numeral.of_read {a : Text} {l : Lexeme} (h : (read a).outcome = .ok l) :
    ∃ (digits : Text) (base : Int), l = ⟨.number, digits, base, []⟩ ∧
      Print.numeral digits base = .ok (mark base ++ digits) := by
  unfold read at h
  split at h
  next r hr =>
    obtain ⟨hmem, -⟩ := mem_of_radix? hr
    simp only at h
    split at h
    next => cases h
    next =>
      obtain ⟨rfl, -, -⟩ := of_checked h
      refine ⟨_, _, rfl, ?_⟩
      simp only [Radix.all, List.mem_cons, List.not_mem_nil, or_false] at hmem
      rcases hmem with rfl | rfl | rfl <;> rfl
  next =>
    obtain ⟨rfl, -, -⟩ := of_checked h
    exact ⟨_, _, rfl, rfl⟩

/-- The token is a name or a reserved word. -/
def TokenKind.isWord : TokenKind → Bool
  | .ident | .keyword _ => true
  | _ => false

namespace Lexeme

/-- What was read in a source has a value, a base and flags as the grammar expects them. -/
theorem IsScanned.isInner {l : Lexeme} (h : l.IsScanned) (hk : l.kind ≠ .eof) : l.IsInner := by
  cases h.readAs hk with
  | word => exact isInner_ofWord _
  | number _ h =>
    obtain ⟨digits, base, rfl, -⟩ := Numeral.of_read h
    simp [IsInner, HasOwnValue]
  | string => simp [IsInner, HasOwnValue]
  | regex _ h =>
    obtain ⟨p, f, r, rfl, -⟩ := Regex.read_again h
    simp [IsInner, HasOwnValue]
  | symbol s => exact isInner_ofSymbol s

/-- A word that was read in a source is a name, and its spelling tells whether it is reserved. -/
theorem IsScanned.of_word {l : Lexeme} (h : l.IsScanned) (hk : l.kind.isWord) :
    IsName l.value ∧ l = ofWord l.value := by
  have heof : l.kind ≠ .eof := fun he => by rw [he] at hk; cases hk
  cases h.readAs heof with
  | word hw =>
    rw [value_ofWord]
    exact ⟨hw, rfl⟩
  | number hd h =>
    rw [(Numeral.kind_of_read hd h).2] at hk
    cases hk
  | string => cases hk
  | regex _ h =>
    obtain ⟨p, f, r, rfl, -⟩ := Regex.read_again h
    cases hk
  | symbol => cases hk

/-- A name that was read in a source is no reserved word. -/
theorem IsScanned.ofSpelling?_eq_none {l : Lexeme} (h : l.IsScanned) (hk : l.kind = .ident) :
    Keyword.ofSpelling? l.value = none := by
  obtain ⟨-, hl⟩ := h.of_word (by rw [hk]; rfl)
  rw [hl, ofWord] at hk
  split at hk
  next => cases hk
  next hw => exact hw

/-- A numeral that was read in a source can be printed. -/
theorem IsScanned.numeral {l : Lexeme} (h : l.IsScanned) (hk : l.kind = .number) :
    Print.numeral l.value l.base = .ok l.spelled := by
  cases h.readAs (by simp [hk]) with
  | word =>
    rcases kind_ofWord _ with hw | ⟨w, hw⟩ <;> cases hk.symm.trans hw
  | number hd h =>
    obtain ⟨digits, base, rfl, hp⟩ := Numeral.of_read h
    exact hp
  | string => cases hk
  | regex _ h =>
    obtain ⟨p, f, r, rfl, -⟩ := Regex.read_again h
    cases hk
  | symbol => cases hk

end Lexeme

/-- The token is a lexeme of its own place alone. -/
theorem Token.essence_eq {t : Token} (h : t.toLexeme.IsInner) : t.essence = t.toLexeme :=
  h.essence_ofLexeme t.place

/-- Some lexemes of a source that come before its end, as they were read. -/
structure Text.Scans (source : Text) (ls : List Lexeme) : Prop where
  tokens : ∃ tokens, tokenize source = .ok tokens ∧ tokens.map Token.toLexeme = ls ++ [.endOfInput]
  admits : SlashContext.start.Admits ls
  scanned : ∀ l ∈ ls, l.kind ≠ .eof ∧ l.IsScanned

theorem isProper_of_tokenize {source : Text} {tokens : List Token} (h : tokenize source = .ok tokens) :
    (Input.ofTokens tokens).IsProper := by
  obtain ⟨inner, last, rfl, hl, -, hs⟩ := tokens_of_tokenize h
  have hlast : last.kind = .eof := congrArg Lexeme.kind hl
  rw [Input.ofTokens_append hlast]
  exact Input.isProper_mk hlast fun t ht => ((hs t ht).2.isInner (hs t ht).1).2.1

/-- The end of a source is spelled like no keyword, so nothing can take it for a name. -/
theorem not_strayEnd_of_tokenize {source : Text} {tokens : List Token} (h : tokenize source = .ok tokens)
    (c : Nat) : ¬(Input.ofTokens tokens).StrayEnd c := by
  obtain ⟨inner, last, rfl, hl, -, hs⟩ := tokens_of_tokenize h
  rw [Input.ofTokens_append (congrArg Lexeme.kind hl)]
  rintro ⟨hk, hword⟩
  have hvalue : ((Input.mk inner.toArray last).get c).value = "EOF" := by
    rw [Input.get_mk] at hk ⊢
    cases hg : inner[c]? with
    | none => exact congrArg Lexeme.value hl
    | some t =>
      rw [hg] at hk
      exact absurd hk (hs t (List.mem_of_getElem? hg)).1
  rw [hvalue] at hword
  cases hword

/-- What an entry accepts in a source is a canonical tree, and the lexemes of the source are a way to write
it. -/
theorem Entry.written_of_ofSource (entry : Entry) {source : Text} {tree : Node}
    (h : entry.ofSource source = .ok tree) :
    ∃ ls, source.Scans ls ∧ entry.isCanonical tree ∧ tree.WrittenAs (fun _ => True) ls := by
  cases ht : tokenize source with
  | error e =>
    rw [ofSource, ht] at h
    cases h
  | ok tokens =>
    rw [ofSource, ht] at h
    obtain ⟨inner, last, rfl, hl, ha, hs⟩ := tokens_of_tokenize ht
    have hlast : last.kind = .eof := congrArg Lexeme.kind hl
    have hinner (t : Token) (ht : t ∈ inner) : t.toLexeme.IsInner := (hs t ht).2.isInner (hs t ht).1
    refine ⟨inner.map Token.toLexeme, ⟨⟨_, ht, by rw [List.map_append, List.map_singleton, hl]⟩, ha,
      fun l hl => ?_⟩, ?_⟩
    · obtain ⟨t, ht, rfl⟩ := List.mem_map.mp hl
      exact hs t ht
    change entry.ofInput (.ofTokens (inner ++ [last])) = .ok tree at h
    obtain ⟨stop, hfound, hstop⟩ := entry.found_of_ofInput (isProper_of_tokenize ht) h
    obtain ⟨hadmits, ⟨ls, hw, hshows, rfl⟩, -⟩ :=
      hfound.resolve_left fun hstray => not_strayEnd_of_tokenize ht stop hstray.2
    rw [Input.ofTokens_append hlast] at hshows hstop
    rw [Nat.zero_add] at hstop
    have hls := Input.shows_mk_all hlast (fun t ht => (hs t ht).1) hshows hstop
    have hmap : inner.map Token.essence = inner.map Token.toLexeme :=
      List.map_congr_left fun t ht => Token.essence_eq (hinner t ht)
    refine ⟨?_, hmap ▸ hls ▸ hw⟩
    cases entry with
    | program => exact hadmits
    | expression => exact (Bool.and_eq_true_iff.mp hadmits).1

end MagSyntax
