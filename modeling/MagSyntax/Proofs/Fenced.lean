import Mathlib.Data.List.Basic
import MagSyntax.Proofs.Lossless

/-! What is read in front of a fence, a blank or a slash, does not depend on which it is or on what stands
behind it: no name, numeral or symbol goes on over a fence, and what a literal takes up ends with its own mark
and flags. -/

namespace MagSyntax

namespace Text

/-- The text is empty or starts with a blank or a slash, as what stands behind a token and is not part of
another one does. -/
def IsFence (v : Text) : Prop := ∀ c ∈ v.head?, Trivia.isSeparator c ∨ c = '/'

/-- The code points that a fence starts with. -/
def fencePoints : Text := [' ', '\t', '\r', '\n', '/']

theorem IsFence.mem {v : Text} (h : v.IsFence) : ∀ c ∈ v.head?, c ∈ fencePoints := by
  intro c hc
  have hc := h c hc
  simpa [Trivia.isSeparator, fencePoints, or_assoc] using hc

theorem IsFence.endsName {v : Text} (h : v.IsFence) : v.EndsName := by
  have hall : ∀ c ∈ fencePoints, c.continuesName = false := by decide +kernel
  exact fun c hc => hall c (h.mem c hc)

theorem takeWhile_append_of_head? {p : CodePoint → Bool} {v : Text} (h : ∀ c ∈ v.head?, p c = false)
    (x : Text) : (x ++ v).takeWhile p = x.takeWhile p := by
  have hv : v.takeWhile p = [] := by
    cases v with
    | nil => rfl
    | cons c v => simp [h c rfl]
  rw [List.takeWhile_append, hv, List.append_nil]
  split
  next hx => exact ((List.takeWhile_prefix p).eq_of_length hx).symm
  next => rfl

/-- A run that ends before the end of a text is the same whatever follows the text. -/
theorem takeWhile_append_of_lt {p : CodePoint → Bool} {s t : Text}
    (h : ((s ++ t).takeWhile p).length < s.length) (t' : Text) :
    (s ++ t').takeWhile p = (s ++ t).takeWhile p := by
  rw [List.takeWhile_append] at h ⊢
  rw [List.takeWhile_append]
  split at h
  next =>
    rw [List.length_append] at h
    omega
  next hs => rw [if_neg hs, if_neg hs]

/-- What starts two texts that are equal as wholes, and is no longer than a part of one, starts that part. -/
theorem exists_of_append_eq {x v y r : Text} (h : x ++ v = y ++ r) (hle : y.length ≤ x.length) :
    ∃ r', x = y ++ r' ∧ r = r' ++ v := by
  obtain ⟨r', rfl⟩ : y <+: x :=
    List.prefix_of_prefix_length_le (h ▸ List.prefix_append y r) (List.prefix_append x v) hle
  rw [List.append_assoc] at h
  exact ⟨r', rfl, (List.append_cancel_left h).symm⟩

end Text

open Text

namespace Numeral

variable {v : Text} (hv : v.IsFence)
include hv

theorem digitRun_fenced {digits : Text} (hd : digits ⊆ hexDigits) (x : Text) :
    digitRun digits (x ++ v) = digitRun digits x := by
  refine takeWhile_append_of_head? (fun c hc => ?_) x
  obtain ⟨hc, hu⟩ := hv.endsName.not_mem_digits hd c hc
  simp [hc, hu]

theorem startsWithDigit_fenced (x : Text) : startsWithDigit (x ++ v) = startsWithDigit x := by
  cases x with
  | nil => exact hv.endsName.not_startsWithDigit
  | cons c x => rfl

theorem fraction_fenced (x : Text) : fraction (x ++ v) = fraction x := by
  cases x with
  | nil =>
    cases v with
    | nil => rfl
    | cons c v =>
      have hall : ∀ c ∈ fencePoints, c ≠ '.' := by decide
      simp [fraction, hall c (hv.mem c rfl)]
  | cons c x =>
    rw [List.cons_append, fraction, fraction, startsWithDigit_fenced hv,
      digitRun_fenced hv decimalDigits_subset]

theorem sign_fenced (x : Text) : sign (x ++ v) = sign x := by
  cases x with
  | nil =>
    cases v with
    | nil => rfl
    | cons c v =>
      have hall : ∀ c ∈ fencePoints, c ≠ '+' ∧ c ≠ '-' := by decide
      simp [sign, hall c (hv.mem c rfl)]
  | cons c x => rfl

theorem exponent_fenced (x : Text) : exponent (x ++ v) = exponent x := by
  cases x with
  | nil =>
    cases v with
    | nil => rfl
    | cons c v =>
      have hall : ∀ c ∈ fencePoints, c ≠ 'e' ∧ c ≠ 'E' := by decide
      simp [exponent, hall c (hv.mem c rfl)]
  | cons c x =>
    have hs : (sign x).length ≤ x.length := (sign_isPrefix x).length_le
    simp only [List.cons_append, exponent, sign_fenced hv, List.drop_append_of_le_length hs,
      startsWithDigit_fenced hv, digitRun_fenced hv decimalDigits_subset]

theorem decimal_fenced (x : Text) : decimal (x ++ v) = decimal x := by
  have hw : (digitRun decimalDigits x).length ≤ x.length := (List.takeWhile_prefix _).length_le
  have hp := (fraction_isPrefix (x.drop (digitRun decimalDigits x).length)).length_le
  rw [List.length_drop] at hp
  simp only [decimal, digitRun_fenced hv decimalDigits_subset, List.drop_append_of_le_length hw,
    fraction_fenced hv]
  rw [List.drop_append_of_le_length (by omega), exponent_fenced hv]

theorem checked_fenced (taken base : Nat) (value rest : Text) :
    checked taken base value (rest ++ v) = checked taken base value rest := by
  cases rest with
  | nil =>
    cases v with
    | nil => rfl
    | cons c v => simp [checked, hv.endsName c rfl]
  | cons c rest => rfl

theorem radix?_fenced {x : Text} (hx : x ≠ []) : radix? (x ++ v) = radix? x := by
  cases x with
  | nil => exact absurd rfl hx
  | cons zero x =>
    cases x with
    | cons letter x => rfl
    | nil =>
      cases v with
      | nil => rfl
      | cons c v =>
        have hc : Radix.ofLetter? c = none := by
          cases hr : Radix.ofLetter? c with
          | none => rfl
          | some r => exact absurd (continuesName_of_ofLetter? hr) (by rw [hv.endsName c rfl]; decide)
        simp [radix?, hc]

theorem read_fenced {x : Text} (hx : x ≠ []) : read (x ++ v) = read x := by
  unfold read
  rw [radix?_fenced hv hx]
  cases hr : radix? x with
  | some r =>
    obtain ⟨hmem, letter, rest, rfl⟩ := mem_of_radix? hr
    obtain ⟨-, hsub, -⟩ := mark_of_mem hmem
    have hd : (digitRun r.digits rest).length ≤ rest.length := (List.takeWhile_prefix _).length_le
    simp only [List.cons_append, List.drop_succ_cons, List.drop_zero, digitRun_fenced hv hsub,
      ← List.drop_drop, List.drop_append_of_le_length hd, checked_fenced hv]
  | none =>
    have hd : (decimal x).length ≤ x.length := (decimal_isPrefix x).length_le
    simp only [decimal_fenced hv, List.drop_append_of_le_length hd, checked_fenced hv]

end Numeral

namespace Symbol

theorem longest?_fenced {v x : Text} (hv : v.IsFence) (hx : x ≠ []) :
    longest? (x ++ v) = longest? x := by
  have htail : ∀ s ∈ all, ∀ c ∈ s.spelling.tail, c ∉ fencePoints := by decide
  have hprefix (s : Symbol) : s.spelling <+: x ++ v ↔ s.spelling <+: x := by
    refine ⟨fun h => ?_, fun h => h.trans (List.prefix_append x v)⟩
    rcases Nat.le_total s.spelling.length x.length with hle | hle
    · exact List.prefix_of_prefix_length_le h (List.prefix_append x v) hle
    -- a symbol that goes on over the fence would hold its first code point
    · obtain ⟨w, hw⟩ := List.prefix_of_prefix_length_le (List.prefix_append x v) h hle
      rw [← hw] at h ⊢
      obtain ⟨u, hu⟩ := (List.prefix_append_right_inj x).mp h
      cases w with
      | nil => exact ⟨[], by simp⟩
      | cons c w =>
        refine absurd (hv.mem c (by rw [← hu]; rfl)) (htail s (by cases s <;> decide) c ?_)
        rw [← hw, List.tail_append_of_ne_nil hx]
        exact List.mem_append_right _ List.mem_cons_self
  unfold longest?
  congr 1
  funext s
  rw [Bool.eq_iff_iff, List.isPrefixOf_iff_prefix, List.isPrefixOf_iff_prefix]
  exact hprefix s

end Symbol

namespace StringLiteral

theorem taken_fixedEscape {width : Nat} {a : Text} {value : CodePoint}
    (h : (fixedEscape width a).outcome = .ok value) : (fixedEscape width a).taken = width := by
  unfold fixedEscape at *
  dsimp only at *
  split at h
  next hw => rw [if_pos hw]
  next => cases h

theorem fixedEscape_append {width : Nat} {s : Text} (h : width ≤ s.length) (t : Text) :
    fixedEscape width (s ++ t) = fixedEscape width s := by
  simp only [fixedEscape, List.take_append_of_le_length h]

theorem bracedEscape_again {s t : Text} {value : CodePoint}
    (h : (bracedEscape (s ++ t)).outcome = .ok value) (htaken : (bracedEscape (s ++ t)).taken ≤ s.length)
    (t' : Text) : bracedEscape (s ++ t') = bracedEscape (s ++ t) := by
  unfold bracedEscape at *
  dsimp only at *
  split at h
  next hclose =>
    rw [if_pos hclose] at htaken
    have hlt := Nat.lt_of_succ_le htaken
    rw [takeWhile_append_of_lt hlt]
    rw [List.getElem?_append_left hlt] at hclose ⊢
    rw [List.getElem?_append_left hlt]
  next => cases h

/-- An escape that does not fit into the code points in front of a text is none of theirs. -/
theorem fixedEscape_again {width : Nat} {s t : Text} {value : CodePoint}
    (h : (fixedEscape width (s ++ t)).outcome = .ok value)
    (htaken : (fixedEscape width (s ++ t)).taken ≤ s.length) (t' : Text) :
    fixedEscape width (s ++ t') = fixedEscape width (s ++ t) := by
  rw [taken_fixedEscape h] at htaken
  rw [fixedEscape_append htaken, fixedEscape_append htaken]

theorem taken_escape_pos (c : CodePoint) (t : Text) : 0 < (escape (c :: t)).taken := by
  rw [escape]
  split
  · exact Nat.one_pos
  split
  · exact Nat.add_pos_left Nat.one_pos _
  split
  · split
    · exact Nat.add_pos_left Nat.two_pos _
    · exact Nat.add_pos_left Nat.one_pos _
  · exact Nat.one_pos

/-- No escape behind a `u` ends with it, so whether a brace follows is settled by the code points that are
taken. -/
theorem escape_u_again {s t : Text} {value : CodePoint}
    (h : (escape (CodePoint.ofChar 'u' :: s ++ t)).outcome = .ok value)
    (htaken : (escape (CodePoint.ofChar 'u' :: s ++ t)).taken ≤ s.length + 1) (t' : Text) :
    escape (CodePoint.ofChar 'u' :: s ++ t') = escape (CodePoint.ofChar 'u' :: s ++ t) := by
  have hescape (a : Text) : escape (CodePoint.ofChar 'u' :: a) =
      if a.head? = some '\x7b' then (bracedEscape (a.drop 1)).behind 2
      else (fixedEscape 4 a).behind 1 := rfl
  simp only [List.cons_append, hescape] at h htaken ⊢
  cases s with
  | nil =>
    split at h
    next hbrace =>
      rw [if_pos hbrace, Reading.taken_behind, List.length_nil] at htaken
      omega
    next hbrace =>
      rw [if_neg hbrace, Reading.taken_behind, taken_fixedEscape h, List.length_nil] at htaken
      omega
  | cons d s =>
    rw [List.length_cons] at htaken
    simp only [List.cons_append, List.head?_cons, List.drop_succ_cons, List.drop_zero] at h htaken ⊢
    split
    next hd =>
      rw [if_pos hd] at h htaken
      rw [Reading.taken_behind] at htaken
      rw [bracedEscape_again h (by omega)]
    next hd =>
      rw [if_neg hd] at h htaken
      rw [Reading.taken_behind] at htaken
      rw [← List.cons_append] at h htaken ⊢
      rw [← List.cons_append, fixedEscape_again h (by rw [List.length_cons]; omega)]

/-- An escape is read again from the code points that it takes. -/
theorem escape_again {s t : Text} {value : CodePoint} (h : (escape (s ++ t)).outcome = .ok value)
    (htaken : (escape (s ++ t)).taken ≤ s.length) (t' : Text) : escape (s ++ t') = escape (s ++ t) := by
  cases s with
  | nil =>
    cases t with
    | nil => cases h
    | cons c t => exact absurd htaken (Nat.not_le_of_lt (taken_escape_pos c t))
  | cons c s =>
    by_cases hu : c = 'u'
    · subst hu
      exact escape_u_again h htaken t'
    simp only [List.cons_append, escape, if_neg hu] at h htaken ⊢
    split
    · rfl
    next hsimple =>
    simp only [hsimple] at h htaken
    by_cases hx : c = 'x'
    · rw [if_pos hx] at h htaken ⊢
      rw [if_pos hx]
      rw [Reading.taken_behind, List.length_cons] at htaken
      rw [fixedEscape_again h (by omega)]
    · rw [if_neg hx, if_neg hx]

/-- A body is read again up to the quote that closes it. -/
theorem body_again {quote : CodePoint} {pending : Nat} {a value : Text}
    (h : (body quote pending a).outcome = .ok value) :
    ∃ s t, a = s ++ quote :: t ∧ pending ≤ s.length ∧
      ∀ t', body quote pending (s ++ quote :: t') = .found (s.length + 1) value := by
  fun_induction body quote pending a generalizing value with
  | case1 | case4 | case5 | case7 => cases h
  | case2 pending c rest ih =>
    obtain ⟨s, t, rfl, hle, hagain⟩ := ih h
    refine ⟨c :: s, t, rfl, Nat.succ_le_succ hle, fun t' => ?_⟩
    rw [List.cons_append, body, hagain t']
    simp [Reading.behind, Reading.found, Nat.add_comm]
  | case3 rest =>
    cases h
    exact ⟨[], rest, rfl, Nat.le_refl 0, fun t' => by simp [body]⟩
  | case6 rest hrest value' hesc hq hn ih =>
    obtain ⟨u, hu, rfl⟩ := Reading.of_map h
    obtain ⟨s, t, rfl, hle, hagain⟩ := ih hu
    have hagain' (t' : Text) : escape (s ++ quote :: t') = escape (s ++ quote :: t) :=
      escape_again hesc hle (quote :: t')
    refine ⟨_ :: s, t, rfl, Nat.zero_le _, fun t' => ?_⟩
    rw [List.cons_append, body]
    simp only [hq, hn, if_false, if_true]
    rw [if_neg (by simp), hagain' t', hesc]
    simp only [hagain t']
    simp [Reading.behind, Reading.found, Reading.map, Except.map, Nat.add_comm]
  | case8 c rest hq hn hb ih =>
    obtain ⟨u, hu, rfl⟩ := Reading.of_following h
    obtain ⟨s, t, rfl, -, hagain⟩ := ih hu
    refine ⟨c :: s, t, rfl, Nat.zero_le _, fun t' => ?_⟩
    rw [List.cons_append, body]
    simp only [hq, hn, hb, if_false, hagain t', Reading.following_found]
    simp [Nat.add_comm]

theorem read_fenced {x v v' : Text} {l : Lexeme} (h : (read (x ++ v)).outcome = .ok l)
    (htaken : (read (x ++ v)).taken ≤ x.length) : read (x ++ v') = read (x ++ v) := by
  generalize ha : x ++ v = a at h htaken ⊢
  cases a with
  | nil => cases h
  | cons quote rest =>
    rw [read] at h htaken ⊢
    obtain ⟨value, hvalue, rfl⟩ := Reading.of_map h
    obtain ⟨s, t, rfl, -, hagain⟩ := body_again hvalue
    rw [hagain t, Reading.taken_map, Reading.taken_behind, Reading.taken_found] at htaken
    obtain ⟨r, rfl, -⟩ := exists_of_append_eq (y := quote :: (s ++ [quote])) (r := t) (by rw [ha]; simp)
      (by simp; omega)
    rw [hagain t, List.cons_append, List.cons_append, read, List.append_assoc, List.append_assoc]
    rw [List.singleton_append, hagain]

end StringLiteral

namespace Regex

theorem flags_fenced {v : Text} (hv : v.IsFence) (seen w : Text) :
    flags seen (w ++ v) = flags seen w := by
  induction w generalizing seen with
  | nil =>
    cases v with
    | nil => rfl
    | cons c v => simp [flags, hv.endsName c rfl]
  | cons c w ih => simp only [List.cons_append, flags, ih]

theorem read_fenced {x v v' : Text} (hv : v.IsFence) (hv' : v'.IsFence) {l : Lexeme}
    (h : (read (x ++ v)).outcome = .ok l) (htaken : (read (x ++ v)).taken ≤ x.length) :
    read (x ++ v') = read (x ++ v) := by
  generalize ha : x ++ v = a at h htaken ⊢
  cases a with
  | nil => cases h
  | cons slash rest =>
    simp only [read] at h htaken ⊢
    split at h
    next => cases h
    next p hp =>
      obtain ⟨r, rfl, hbody⟩ := body_again hp
      simp only [hbody r, Reading.found, ← List.drop_drop, List.drop_left] at htaken ⊢
      rw [Reading.taken_map, Reading.taken_behind] at htaken
      obtain ⟨r', rfl, hr⟩ := exists_of_append_eq (y := slash :: (p ++ [CodePoint.ofChar '/'])) (r := r)
        (by rw [ha]; simp) (by simp; omega)
      subst hr
      simp only [List.cons_append, List.append_assoc, List.nil_append, hbody (r' ++ v'), Reading.found]
      rw [← List.drop_drop, List.drop_left]
      simp only [List.drop_succ_cons, List.drop_zero, flags_fenced hv, flags_fenced hv']

end Regex

namespace Lexeme

/-- A lexeme that ends before a fence is read again before any other one. -/
theorem read_fenced {b : Bool} {x v v' : Text} (hv : v.IsFence) (hv' : v'.IsFence) (hx : x ≠ [])
    {l : Lexeme} (h : (read b (x ++ v)).outcome = .ok l) (htaken : (read b (x ++ v)).taken ≤ x.length) :
    read b (x ++ v') = read b (x ++ v) := by
  cases x with
  | nil => exact absurd rfl hx
  | cons c x =>
    simp only [List.cons_append, read] at h htaken ⊢
    split
    next =>
      simp only [readWord, ← List.cons_append, takeWhile_append_of_head? hv.endsName,
        takeWhile_append_of_head? hv'.endsName]
    next hname =>
    rw [if_neg hname] at h htaken
    split
    next =>
      rw [← List.cons_append, ← List.cons_append, Numeral.read_fenced hv hx, Numeral.read_fenced hv' hx]
    next hdigit =>
    rw [if_neg hdigit] at h htaken
    split
    next hquote =>
      rw [if_pos hquote] at h htaken
      exact StringLiteral.read_fenced (x := c :: x) h htaken
    next hquote =>
    rw [if_neg hquote] at h htaken
    split
    next hslash =>
      rw [if_pos hslash] at h htaken
      exact Regex.read_fenced (x := c :: x) hv hv' h htaken
    next =>
      rw [← List.cons_append, ← List.cons_append, Symbol.longest?_fenced hv hx,
        Symbol.longest?_fenced hv' hx]

end Lexeme

end MagSyntax
