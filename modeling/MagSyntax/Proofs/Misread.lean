import MagSyntax.Proofs.Flat
import MagSyntax.Proofs.Readings
import MagSyntax.Proofs.Slashes
import MagSyntax.Proofs.Sources

/-! Texts whose slashes may be read the other way. A text that lays lexemes out is read as them up to the first slash
that does not stand where it should, and there a sign of division is read for a regular expression or the other way
round. So the lexemes of the source are the ones that are laid out, or the signs of division among them differ. -/

namespace MagSyntax

open Lexeme

namespace TokenReader

/-- A slash that does not stand where it should is read the other way. -/
theorem next_of_misfit {r later : TokenReader} {g t : Text} {l : Lexeme} {token : Token} (hg : g.IsGap)
    (hl : l.ReadsBefore t) (hf : ¬l.Fits r.context.regexAllowed) (h : r.cursor.ahead = g ++ (l.spelled ++ t))
    (hn : r.next = (.ok token, later)) :
    ∃ division, l.mark? = some division ∧ token.toLexeme.mark? = some !division := by
  have hother : l.Fits !r.context.regexAllowed := by
    unfold Fits at hf ⊢
    cases hallowed : r.context.regexAllowed <;> simp_all
  obtain ⟨he, hread⟩ := hl.read _ hother
  obtain ⟨c, hc, hahead⟩ := TextCursor.skipTrivia_gap hg he h
  have hscanned : l.IsScanned := ⟨_, _, he, congrArg Reading.outcome hread⟩
  cases hscanned.readAs hl.inner with
  | word =>
    rcases kind_ofWord ‹Text› with hk | ⟨w, hk⟩ <;>
      exact absurd (fits_of_kind (by simp [hk]) (by simp [hk]) _) hf
  | number hd h =>
    have hk := (Numeral.kind_of_read hd h).2
    exact absurd (fits_of_kind (by simp [hk]) (by simp [hk]) _) hf
  | string => exact absurd (fits_of_kind (by simp) (by simp) _) hf
  | symbol s =>
    by_cases hs : s = .div
    · subst hs
      have hallowed : r.context.regexAllowed = true :=
        Bool.of_not_eq_false fun hno => hf ⟨fun _ => hno, by simp [ofSymbol]⟩
      have hahead : c.ahead = ('/' : CodePoint) :: t := hahead
      have hnext := next_of_slash hc hahead
      rw [hn, if_pos hallowed] at hnext
      have hregex := (TextCursor.readWith_ok hnext.symm).1
      rw [hahead] at hregex
      obtain ⟨p, f, rest, htoken, -⟩ := Regex.read_again hregex
      exact ⟨true, rfl, by rw [htoken]; rfl⟩
    · exact absurd (fits_ofSymbol hs _) hf
  | regex _ h =>
    obtain ⟨p, f, rest, rfl, -⟩ := Regex.read_again h
    have hallowed : ¬r.context.regexAllowed := fun hyes => hf ⟨by simp, fun _ => hyes⟩
    have hnext := next_of_slash hc hahead
    rw [hn, if_neg hallowed] at hnext
    obtain rfl := Except.ok.inj (congrArg Prod.fst hnext)
    exact ⟨false, rfl, rfl⟩

/-- The tokens of a text are the one that is read first and those behind it, or there is nothing left. -/
theorem of_readAll_succ {count : Nat} {r : TokenReader} {sofar inner : List Token} {last : Token}
    (hcount : r.cursor.ahead.length < count + 1)
    (h : readAll (count + 1) r sofar = .ok (sofar.reverse ++ inner ++ [last])) :
    ∃ token later, r.next = (.ok token, later) ∧
      (token.toLexeme = .endOfInput ∧ inner = [] ∨ ∃ rest, inner = token :: rest ∧ token.kind ≠ .eof ∧
        readAll count later (token :: sofar) = .ok ((token :: sofar).reverse ++ rest ++ [last])) := by
  rw [readAll] at h
  cases hn : r.next with
  | mk outcome later =>
    rw [hn] at h
    cases outcome with
    | error e => cases h
    | ok token =>
      refine ⟨token, later, rfl, ?_⟩
      rcases next_cases hn with hl | ⟨hk, -, -, hlt, -⟩
      · have hk : token.kind = .eof := congrArg Lexeme.kind hl
        simp only [hk, if_true, List.reverse_cons, Except.ok.injEq] at h
        obtain ⟨hinner, -⟩ := List.append_inj' h rfl
        exact .inl ⟨hl, List.self_eq_append_right.mp hinner⟩
      · simp only [hk, if_false] at h
        obtain ⟨rest, last', hall, -⟩ := tokens_of_readAll h (by omega)
        obtain ⟨hinner, hlast⟩ := List.append_inj' hall rfl
        rw [List.reverse_cons, List.append_assoc] at hinner
        obtain rfl := List.append_cancel_left hinner
        exact .inr ⟨rest, rfl, hk, h.trans (by simp)⟩

/-- What is read in a text that lays lexemes out are these lexemes, unless the signs of division differ. -/
theorem lexemes_of_readAll {t : Text} {ls : List Lexeme} (h : t.Lays ls) {count : Nat} {r : TokenReader}
    {sofar inner : List Token} {last : Token} (ht : r.cursor.ahead = t) (hcount : t.length < count)
    (hread : readAll count r sofar = .ok (sofar.reverse ++ inner ++ [last]))
    (hm : marks (inner.map Token.toLexeme) = marks ls) : inner.map Token.toLexeme = ls := by
  induction h generalizing count r sofar inner with
  | done hg =>
    cases count with
    | zero => exact absurd hcount (Nat.not_lt_zero _)
    | succ count =>
      obtain ⟨token, later, hn, hl⟩ := next_of_gap hg ht
      obtain ⟨token', later', hn', hrest⟩ := of_readAll_succ (ht ▸ hcount) hread
      obtain rfl := Except.ok.inj (Prod.mk.inj (hn.symm.trans hn')).1
      rcases hrest with ⟨-, rfl⟩ | ⟨rest, rfl, hk, -⟩
      · rfl
      · exact absurd (congrArg Lexeme.kind hl) hk
  | @next g t l ls hg hl _ ih =>
    cases count with
    | zero => exact absurd hcount (Nat.not_lt_zero _)
    | succ count =>
      obtain ⟨token, later, hn, hrest⟩ := of_readAll_succ (ht ▸ hcount) hread
      by_cases hf : l.Fits r.context.regexAllowed
      · obtain ⟨token', later', hn', rfl, hahead, -⟩ := next_of_readsBefore hg hl hf ht
        obtain ⟨htoken, rfl⟩ := Prod.mk.inj (hn.symm.trans hn')
        obtain rfl := Except.ok.inj htoken
        rcases hrest with ⟨hend, -⟩ | ⟨rest, rfl, -, hlater⟩
        · exact absurd (congrArg Lexeme.kind hend) hl.inner
        rw [List.map_cons, marks_cons, marks_cons, List.append_cancel_left_eq] at hm
        have hlength : t.length < count := by
          have hfilled := List.length_pos_iff.mpr hl.filled
          rw [List.length_append, List.length_append] at hcount
          omega
        rw [List.map_cons, ih hahead hlength hlater hm]
      · obtain ⟨division, hdivision, htoken⟩ := next_of_misfit hg hl hf ht hn
        rcases hrest with ⟨-, rfl⟩ | ⟨rest, rfl, -⟩
        · simp [hdivision] at hm
        · simp [hdivision, htoken] at hm

end TokenReader

/-- A source that lays lexemes out has these lexemes, unless the signs of division differ. -/
theorem Text.Lays.eq_of_scans {source : Text} {ls ls' : List Lexeme} (h : source.Lays ls) (hs : source.Scans ls')
    (hm : marks ls' = marks ls) : ls' = ls := by
  obtain ⟨tokens, ht, hmap⟩ := hs.tokens
  obtain ⟨inner, rest, rfl, rfl, hrest⟩ := List.map_eq_append_iff.mp hmap
  obtain ⟨last, rfl, -⟩ := List.map_eq_singleton_iff.mp hrest
  exact TokenReader.lexemes_of_readAll h rfl (Nat.lt_succ_self _) ht hm

end MagSyntax
