import MagSyntax.Proofs.Layout

/-! What the trivia before a token are: blanks, comments up to the end of a line, and comments between marks.
The scan that finds their end keeps no account of what it passes over, so this is said of texts alone. -/

namespace MagSyntax

namespace Trivia

/-- The mark that closes a block comment. -/
def closer : Text := ['*', '/']

/-- The text is made of blanks and comments, if the other one follows. A line comment reaches up to a line feed
or to the end, and a block comment up to the first mark that closes it. -/
inductive Fills : Text → Text → Prop
  | nil {t : Text} : Fills [] t
  | blank {c : CodePoint} {g t : Text} : isSeparator c → Fills g t → Fills (c :: g) t
  | line {body g t : Text} : CodePoint.ofChar '\n' ∉ body →
    (∀ c ∈ (g ++ t).head?, c = CodePoint.ofChar '\n') → Fills g t →
    Fills (CodePoint.ofChar '/' :: CodePoint.ofChar '/' :: (body ++ g)) t
  | block {body g t : Text} : ¬closer <:+: body ++ [CodePoint.ofChar '*'] → Fills g t →
    Fills (CodePoint.ofChar '/' :: CodePoint.ofChar '*' :: (body ++ closer ++ g)) t

/-- A line comment ends before a line feed or at the end of the text. -/
theorem lineComment_ends (offset : Nat) (t : Text) :
    ∃ body rest, t = body ++ rest ∧ CodePoint.ofChar '\n' ∉ body ∧
      (∀ c ∈ rest.head?, c = CodePoint.ofChar '\n') ∧
      extentFrom .lineComment offset t = extentFrom .between (offset + body.length) rest := by
  induction t generalizing offset with
  | nil => exact ⟨[], [], rfl, List.not_mem_nil, by rintro _ ⟨⟩, rfl⟩
  | cons c t ih =>
    by_cases hc : c = CodePoint.ofChar '\n'
    · subst hc
      exact ⟨[], _, rfl, List.not_mem_nil, fun d hd => (Option.some.inj hd).symm, rfl⟩
    · obtain ⟨body, rest, rfl, hbody, hrest, he⟩ := ih (offset + 1)
      refine ⟨c :: body, rest, rfl, List.not_mem_cons_of_ne_of_not_mem (Ne.symm hc) hbody, hrest, ?_⟩
      rw [extentFrom, if_neg hc, he, List.length_cons]
      congr 1
      omega

/-- What does not close a comment can stand in front of a body that holds no mark which does. -/
theorem not_closer_cons {c : CodePoint} {body rest : Text}
    (hc : ¬(c = CodePoint.ofChar '*' ∧ (body ++ closer ++ rest).head? = some (CodePoint.ofChar '/')))
    (hbody : ¬closer <:+: body ++ [CodePoint.ofChar '*']) :
    ¬closer <:+: c :: body ++ [CodePoint.ofChar '*'] := by
  intro hmark
  rcases List.infix_cons_iff.mp hmark with hfront | hlater
  · obtain ⟨rfl, hslash⟩ := List.cons_prefix_cons.mp hfront
    cases body with
    | nil => exact absurd (List.cons_prefix_cons.mp hslash).1 (by decide)
    | cons d body => exact hc ⟨rfl, congrArg some (List.cons_prefix_cons.mp hslash).1.symm⟩
  · exact hbody hlater

/-- A block comment that is closed ends behind the first mark that closes one. -/
theorem blockComment_ends {start offset : Nat} {t : Text}
    (h : (extentFrom (.blockComment start) offset t).unclosed? = none) :
    ∃ body rest, t = body ++ closer ++ rest ∧ ¬closer <:+: body ++ [CodePoint.ofChar '*'] ∧
      extentFrom (.blockComment start) offset t =
        extentFrom .between (offset + (body.length + 2)) rest := by
  induction t generalizing offset with
  | nil => cases h
  | cons c t ih =>
    rw [extentFrom] at h ⊢
    rw [← Bool.decide_and] at h ⊢
    split at h
    next hclose =>
      obtain ⟨rfl, hslash⟩ := of_decide_eq_true hclose
      obtain ⟨rest, rfl⟩ := List.head?_eq_some_iff.mp hslash
      exact ⟨[], rest, rfl, by decide, by rw [if_pos hclose]; rfl⟩
    next hclose =>
      obtain ⟨body, rest, rfl, hbody, he⟩ := ih h
      rw [decide_eq_true_eq] at hclose
      refine ⟨c :: body, rest, rfl, not_closer_cons hclose hbody, ?_⟩
      rw [if_neg (by rwa [decide_eq_true_eq]), he, List.length_cons]
      congr 1
      omega

/-- A text starts with a blank, with a comment, or with what is neither. -/
theorem starts_cases (t : Text) :
    (∃ c rest, t = c :: rest ∧ isSeparator c) ∨
      (∃ rest, t = CodePoint.ofChar '/' :: CodePoint.ofChar '/' :: rest) ∨
      (∃ rest, t = CodePoint.ofChar '/' :: CodePoint.ofChar '*' :: rest) ∨
      ∀ offset, extentFrom .between offset t = ⟨offset, none⟩ := by
  cases t with
  | nil => exact .inr (.inr (.inr fun _ => rfl))
  | cons c t =>
    by_cases hc : isSeparator c
    · exact .inl ⟨c, t, rfl, hc⟩
    by_cases hline : c = CodePoint.ofChar '/' ∧ t.head? = some (CodePoint.ofChar '/')
    · obtain ⟨rest, rfl⟩ := List.head?_eq_some_iff.mp hline.2
      exact .inr (.inl ⟨rest, by rw [hline.1]⟩)
    by_cases hblock : c = CodePoint.ofChar '/' ∧ t.head? = some (CodePoint.ofChar '*')
    · obtain ⟨rest, rfl⟩ := List.head?_eq_some_iff.mp hblock.2
      exact .inr (.inr (.inl ⟨rest, by rw [hblock.1]⟩))
    refine .inr (.inr (.inr fun offset => ?_))
    rw [← decide_eq_true_eq (p := _ ∧ _), Bool.decide_and] at hline hblock
    exact (if_neg hc).trans ((if_neg hline).trans (if_neg hblock))

/-- The scan passes over some text, and what it passes over are blanks and comments. -/
def Passes (offset : Nat) (t : Text) : Prop :=
  ∃ g rest, t = g ++ rest ∧ extentFrom .between offset t = ⟨offset + g.length, none⟩ ∧ Fills g rest

theorem Passes.behind {offset : Nat} {x t : Text} (h : Passes (offset + x.length) t)
    (he : extentFrom .between offset (x ++ t) = extentFrom .between (offset + x.length) t)
    (hx : ∀ g rest, t = g ++ rest → Fills g rest → Fills (x ++ g) rest) : Passes offset (x ++ t) := by
  obtain ⟨g, rest, rfl, hg, hfills⟩ := h
  refine ⟨x ++ g, rest, (List.append_assoc ..).symm, ?_, hx g rest rfl hfills⟩
  rw [he, hg, List.length_append, Nat.add_assoc]

/-- The scan passes over blanks and comments, as long as no block comment is left open. -/
theorem passes_of_unclosed {offset : Nat} {t : Text}
    (h : (extentFrom .between offset t).unclosed? = none) : Passes offset t := by
  -- a comment is passed over as a whole, so the induction is on the length of what is left
  induction hlength : t.length using Nat.strongRecOn generalizing offset t with
  | _ n ih =>
  subst hlength
  rcases starts_cases t with ⟨c, t, rfl, hc⟩ | ⟨t, rfl⟩ | ⟨t, rfl⟩ | hstop
  · have he : extentFrom .between offset ([c] ++ t) = extentFrom .between (offset + 1) t := if_pos hc
    rw [← List.singleton_append, he] at h
    exact (ih _ (Nat.lt_succ_self _) h rfl).behind he fun g rest _ hg => .blank hc hg
  · obtain ⟨body, t, rfl, hbody, hend, hline⟩ := lineComment_ends (offset + 2) t
    have he : extentFrom .between offset (CodePoint.ofChar '/' :: CodePoint.ofChar '/' :: body ++ t) =
        extentFrom .between (offset + (body.length + 2)) t := by
      rw [Nat.add_comm body.length, ← Nat.add_assoc]
      exact hline
    rw [← List.cons_append, ← List.cons_append, he] at h
    exact (ih _ (by simp; omega) h rfl).behind he fun g rest ht hg => .line hbody (ht ▸ hend) hg
  · obtain ⟨body, t, rfl, hbody, hblock⟩ := @blockComment_ends offset (offset + 2) t h
    have he : extentFrom .between offset
        (CodePoint.ofChar '/' :: CodePoint.ofChar '*' :: (body ++ closer) ++ t) =
          extentFrom .between (offset + ((body ++ closer).length + 2)) t := by
      rw [Nat.add_comm (body ++ closer).length, ← Nat.add_assoc, List.length_append]
      exact hblock
    rw [← List.cons_append, ← List.cons_append, he] at h
    exact (ih _ (by simp; omega) h rfl).behind he fun g rest _ hg => .block hbody hg
  · exact ⟨[], t, rfl, hstop offset, .nil⟩

end Trivia

/-- Skipping trivia leaves them behind the cursor, and nothing else. -/
theorem TextCursor.skipTrivia_fills {c later : TextCursor} (h : c.skipTrivia = (.ok (), later)) :
    ∃ g, c.ahead = g ++ later.ahead ∧ Trivia.Fills g later.ahead ∧
      later.place.position = c.place.position + g.length := by
  unfold skipTrivia at h
  simp only at h
  split at h
  next hu =>
    obtain ⟨g, rest, hahead, he, hg⟩ := Trivia.passes_of_unclosed hu
    cases h
    rw [Trivia.extent, he, Nat.zero_add, advance_eq]
    simp only [hahead, List.drop_left, List.take_left, Place.position_afterText]
    exact ⟨g, rfl, hg, rfl⟩
  next => cases h

end MagSyntax
