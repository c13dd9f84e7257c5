import MagSyntax.Proofs.RoundTrip

/-! Lexemes with a blank behind each. Names, reserved words and symbols other than the slash and the point are
read from such a text as they are, so it is a source for every canonical tree that is made of them. -/

namespace MagSyntax

/-- The lexemes with a blank behind each. -/
def Text.spaced (ls : List Lexeme) : Text := ls.flatMap fun l => l.spelled ++ " "

namespace Lexeme

/-- A lexeme that is read the same wherever it stands between blanks, and that names no field. -/
inductive IsSimple : Lexeme → Prop
  | word {w : Text} (h : IsName w) : IsSimple (ofWord w)
  | symbol {s : Symbol} (hdiv : s ≠ .div) (hdot : s ≠ .dot) : IsSimple (ofSymbol s)

namespace IsSimple

variable {l : Lexeme}

theorem keyword (k : Keyword) : (ofKeyword k).IsSimple := by
  have hname : IsName k.spelling := by
    cases k <;> exact ⟨⟨_, _, rfl, by decide +kernel⟩, by decide +kernel⟩
  have heq : ofWord k.spelling = ofKeyword k := by cases k <;> rfl
  exact heq ▸ .word hname

theorem identifier {w : Text} (h : IsName w) (hk : Keyword.ofSpelling? w = none) :
    IsSimple ⟨.ident, w, 10, []⟩ := by
  have heq : ofWord w = ⟨.ident, w, 10, []⟩ := by rw [ofWord, hk]
  exact heq ▸ .word h

theorem isLegible (h : l.IsSimple) : l.IsLegible := by
  cases h with
  | word h => exact isLegible_ofWord h
  | symbol => exact isLegible_ofSymbol _

theorem fits (h : l.IsSimple) (b : Bool) : l.Fits b := by
  cases h with
  | @word w h =>
    rcases kind_ofWord w with hk | ⟨k, hk⟩ <;>
      exact fits_of_kind (by simp [hk]) (by simp [hk]) b
  | symbol hdiv => exact fits_of_kind (by simpa [ofSymbol] using hdiv) (by simp [ofSymbol]) b

theorem ne_dot (h : l.IsSimple) : l.kind ≠ Symbol.dot := by
  cases h with
  | @word w h => rcases kind_ofWord w with hk | ⟨k, hk⟩ <;> simp [hk]
  | symbol hdiv hdot => simpa [ofSymbol] using hdot

end IsSimple

end Lexeme

theorem SlashContext.admits_of_isSimple (c : SlashContext) {ls : List Lexeme}
    (h : ∀ l ∈ ls, l.IsSimple) : c.Admits ls := by
  induction ls generalizing c with
  | nil => trivial
  | cons l ls ih =>
    rw [List.forall_mem_cons] at h
    exact ⟨h.1.fits _, ih _ h.2⟩

namespace Text

theorem lays_spaced {ls : List Lexeme} (h : ∀ l ∈ ls, l.IsLegible) : (spaced ls).Lays ls := by
  induction ls with
  | nil => exact .done (List.forall_mem_nil _)
  | cons l ls ih =>
    rw [List.forall_mem_cons] at h
    rw [spaced, List.flatMap_cons, List.append_assoc]
    exact (ih h.2).blank (by decide) |>.cons (h.1.reads _ (.inl (by decide)))

theorem Lays.scans {source : Text} {ls : List Lexeme} (hlays : source.Lays ls)
    (ha : SlashContext.start.Admits ls) : source.Scans ls := by
  obtain ⟨tokens, ht, hmap⟩ := tokenize_of_lays hlays ha
  obtain ⟨inner, last, rfl, hlast, -, hscanned⟩ := tokens_of_tokenize ht
  rw [List.map_append, List.map_singleton, hlast] at hmap
  obtain rfl := List.append_cancel_right hmap
  refine ⟨⟨_, ht, by rw [List.map_append, List.map_singleton, hlast]⟩, ha, fun l hl => ?_⟩
  obtain ⟨t, ht, rfl⟩ := List.mem_map.mp hl
  exact hscanned t ht

theorem scans_spaced {ls : List Lexeme} (h : ∀ l ∈ ls, l.IsSimple) : (spaced ls).Scans ls :=
  (lays_spaced fun l hl => (h l hl).isLegible).scans (SlashContext.admits_of_isSimple _ h)

/-- Where the lexemes that are scanned stand. -/
theorem Scans.shows {source : Text} {ls : List Lexeme} (h : source.Scans ls) :
    ∃ tokens last, tokenize source = .ok (tokens ++ [last]) ∧ last.kind = .eof ∧
      tokens.length = ls.length ∧ (Input.mk tokens.toArray last).Shows 0 ls := by
  obtain ⟨all, ht, hmap⟩ := h.tokens
  obtain ⟨tokens, rest, rfl, rfl, hrest⟩ := List.map_eq_append_iff.mp hmap
  obtain ⟨last, rfl, hlast⟩ := List.map_eq_singleton_iff.mp hrest
  refine ⟨tokens, last, ht, congrArg Lexeme.kind hlast, (List.length_map _).symm, ?_⟩
  have hinner (t : Token) (ht : t ∈ tokens) : t.toLexeme.IsInner :=
    have hscanned := h.scanned _ (List.mem_map_of_mem ht)
    hscanned.2.isInner hscanned.1
  have hshows := Input.shows_map last [] tokens fun t ht => (hinner t ht).1
  rwa [List.map_congr_left fun t ht => Token.essence_eq (hinner t ht)] at hshows

theorem Scans.namesFields {source : Text} {ls : List Lexeme} (hs : source.Scans ls)
    (h : ∀ l ∈ ls, l.kind ≠ Symbol.dot) : source.NamesFields := by
  intro tokens ht pair hpair hk
  obtain ⟨all, hall, hmap⟩ := hs.tokens
  obtain rfl : tokens = all := Except.ok.inj (ht.symm.trans hall)
  have hmem := List.mem_map_of_mem (f := Token.toLexeme) (List.of_mem_zip hpair).1
  rw [hmap, List.mem_append, List.mem_singleton] at hmem
  rcases hmem with hl | hl
  · exact absurd hk (h _ hl)
  · exact absurd (hk.symm.trans (congrArg Lexeme.kind hl)) nofun

end Text

section

variable {n : Node} (h : ∀ l ∈ n.lexemes, l.IsSimple)
include h

theorem Text.lays_lexemes : (spaced n.lexemes).Lays n.lexemes :=
  lays_spaced fun l hl => (h l hl).isLegible

theorem Text.namesFields_spaced : (spaced n.lexemes).NamesFields :=
  (scans_spaced h).namesFields fun l hl => (h l hl).ne_dot

/-- The tree, written with a blank behind each lexeme, is a source that has its tokens. -/
theorem Node.writtenBy_spaced : ∃ tokens last,
    tokenize (Text.spaced n.lexemes) = .ok (tokens ++ [last]) ∧ n.WrittenBy tokens last :=
  Entry.writtenBy_of_lays (Text.lays_lexemes h) (SlashContext.admits_of_isSimple _ h)

/-- A canonical tree that is written in such lexemes can be printed and read back. -/
theorem Entry.treeOf_of_isSimple (entry : Entry) (hn : entry.isCanonical n) :
    entry.TreeOf (fun n => n.IsWellPlaced ∧ n.IsLegible ∧ n.DividesValue) n :=
  entry.treeOf_writtenAs Node.gives_readsBack hn (n.writtenAs_lexemes _)
    ((Text.scans_spaced h).areScanned (Text.namesFields_spaced h))

end

end MagSyntax
