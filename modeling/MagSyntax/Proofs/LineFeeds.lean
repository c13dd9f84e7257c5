import MagSyntax.Proofs.Fenced
import MagSyntax.Proofs.RegexGrammar

/-! Line feeds within lexemes. A string may hold one directly behind a backslash, and nothing else that is read holds
any: names, numerals and symbols end before it, and a regular expression that has none on its line is refused. -/

namespace MagSyntax

open Text

namespace StringLiteral

theorem subset_of_decodeHex {digits : Text} {value : CodePoint} (h : decodeHex digits = .ok value) :
    digits ⊆ Numeral.hexDigits := by
  unfold decodeHex at h
  split at h
  next => cases h
  next hall =>
    intro c hc
    rw [Bool.or_eq_true, not_or, List.any_eq_true] at hall
    exact Decidable.not_not.mp fun hn => hall.2 ⟨c, hc, decide_eq_true hn⟩

theorem lineFeed_not_mem_of_decodeHex {digits : Text} {value : CodePoint} (h : decodeHex digits = .ok value) :
    CodePoint.ofChar '\n' ∉ digits :=
  fun hm => absurd (subset_of_decodeHex h hm) (by decide)

theorem lineFeed_not_mem_fixedEscape {width : Nat} {a : Text} {value : CodePoint}
    (h : (fixedEscape width a).outcome = .ok value) :
    CodePoint.ofChar '\n' ∉ a.take (fixedEscape width a).taken := by
  rw [taken_fixedEscape h]
  unfold fixedEscape at h
  dsimp only at h
  split at h
  next => exact lineFeed_not_mem_of_decodeHex h
  next => cases h

theorem lineFeed_not_mem_bracedEscape {a : Text} {value : CodePoint} (h : (bracedEscape a).outcome = .ok value) :
    CodePoint.ofChar '\n' ∉ a.take (bracedEscape a).taken := by
  unfold bracedEscape at *
  dsimp only at *
  generalize hd : a.takeWhile (fun (c : CodePoint) => c ≠ '\x7d' && c ≠ '\n') = digits at *
  split at h
  next hclose =>
    obtain ⟨rest, rfl⟩ : digits <+: a := hd ▸ List.takeWhile_prefix _
    rw [if_pos hclose, List.take_add_one, hclose, List.take_left]
    refine fun hm => (List.mem_append.mp hm).elim (lineFeed_not_mem_of_decodeHex h) fun hm => ?_
    exact absurd (List.mem_singleton.mp hm) (by decide)
  next => cases h

/-- Of the code points of an escape only the first may be a line feed. -/
theorem lineFeed_not_mem_escape {c : CodePoint} {a : Text} {value : CodePoint}
    (h : (escape (c :: a)).outcome = .ok value) :
    CodePoint.ofChar '\n' ∉ a.take ((escape (c :: a)).taken - 1) := by
  rw [escape] at *
  split
  next => exact List.not_mem_nil
  next hsimple =>
  simp only [hsimple] at h
  split
  next hx =>
    rw [if_pos hx] at h
    rw [Reading.taken_behind, Nat.add_sub_cancel_left]
    exact lineFeed_not_mem_fixedEscape h
  next hx =>
  rw [if_neg hx] at h
  split
  next hu =>
    rw [if_pos hu] at h
    split
    next hbrace =>
      rw [if_pos hbrace] at h
      obtain ⟨rest, rfl⟩ := List.head?_eq_some_iff.mp hbrace
      rw [List.drop_succ_cons, List.drop_zero] at h ⊢
      rw [Reading.taken_behind, Nat.add_comm, Nat.add_sub_assoc (by decide), List.take_succ_cons]
      exact List.not_mem_cons_of_ne_of_not_mem (by decide) (lineFeed_not_mem_bracedEscape h)
    next hbrace =>
      rw [if_neg hbrace] at h
      rw [Reading.taken_behind, Nat.add_sub_cancel_left]
      exact lineFeed_not_mem_fixedEscape h
  next => exact List.not_mem_nil

/-- In a body that is read, a line feed behind the code points of an escape stands directly behind a backslash. -/
theorem lineFeed_of_body {quote : CodePoint} (hquote : quote ≠ '\n') {pending : Nat} {a value : Text}
    (h : (body quote pending a).outcome = .ok value) {i : Nat} (hi : i < (body quote pending a).taken)
    (hp : pending ≤ i) (hfeed : a[i]? = some (CodePoint.ofChar '\n')) :
    ∃ j, i = j + 1 ∧ a[j]? = some (CodePoint.ofChar '\\') := by
  fun_induction body quote pending a generalizing value i with
  | case1 | case4 | case5 | case7 => cases h
  | case2 pending c rest ih =>
    rw [Reading.taken_behind] at hi
    obtain ⟨i, rfl⟩ : ∃ i', i = i' + 1 := ⟨i - 1, by omega⟩
    obtain ⟨j, rfl, hj⟩ := ih h (by omega) (by omega) hfeed
    exact ⟨j + 1, rfl, hj⟩
  | case3 rest =>
    obtain rfl : i = 0 := Nat.lt_one_iff.mp hi
    exact absurd (Option.some.inj hfeed) hquote
  | case6 rest hrest value' hesc hq hn ih =>
    obtain ⟨u, hu, rfl⟩ := Reading.of_map h
    rw [Reading.taken_map, Reading.taken_behind] at hi
    cases i with
    | zero => exact absurd (Option.some.inj hfeed) (by decide)
    | succ i =>
      rw [List.getElem?_cons_succ] at hfeed
      by_cases hle : (escape rest).taken ≤ i
      · obtain ⟨j, rfl, hj⟩ := ih hu (by omega) hle hfeed
        exact ⟨j + 1, rfl, hj⟩
      · cases rest with
        | nil => cases hfeed
        | cons d rest =>
          cases i with
          | zero => exact ⟨0, rfl, rfl⟩
          | succ i =>
            -- the escape would take a line feed that is not the first of its code points
            have hm : (rest.take ((escape (d :: rest)).taken - 1))[i]? = some (CodePoint.ofChar '\n') := by
              rwa [List.getElem?_take_of_lt (by omega)]
            exact absurd (List.mem_of_getElem? hm) (lineFeed_not_mem_escape hesc)
  | case8 c rest hq hn hb ih =>
    obtain ⟨u, hu, rfl⟩ := Reading.of_following h
    rw [Reading.taken_following, List.length_singleton] at hi
    cases i with
    | zero => exact absurd (Option.some.inj hfeed) hn
    | succ i =>
      obtain ⟨j, rfl, hj⟩ := ih hu (by omega) (Nat.zero_le _) hfeed
      exact ⟨j + 1, rfl, hj⟩

/-- A line feed in a literal that is read stands directly behind a backslash. -/
theorem getLast?_of_read {quote : CodePoint} (hquote : quote ≠ '\n') {x y : Text} {l : Lexeme}
    (h : (read (quote :: (x ++ CodePoint.ofChar '\n' :: y))).outcome = .ok l)
    (hlt : x.length + 1 < (read (quote :: (x ++ CodePoint.ofChar '\n' :: y))).taken) :
    (quote :: x).getLast? = some (CodePoint.ofChar '\\') := by
  obtain ⟨value, hvalue, -⟩ := Reading.of_map h
  rw [read, Reading.taken_map, Reading.taken_behind] at hlt
  obtain ⟨j, hj, hback⟩ := lineFeed_of_body hquote hvalue (i := x.length) (by omega) (Nat.zero_le _) (by simp)
  have hlast : (quote :: x).length - 1 = j + 1 := by rw [List.length_cons, hj, Nat.add_sub_cancel]
  rw [List.getLast?_eq_getElem?, hlast, List.getElem?_cons_succ]
  rwa [List.getElem?_append_left (by omega)] at hback

end StringLiteral

namespace Regex

theorem IsClass.lineFeed_not_mem {q : Text} (h : IsClass q) : CodePoint.ofChar '\n' ∉ q := by
  induction h with
  | nil => exact List.not_mem_nil
  | escape hc _ ih => simp [ih, Ne.symm hc, show CodePoint.ofChar '\n' ≠ CodePoint.ofChar '\\' by decide]
  | single _ _ hn _ ih => simp [ih, Ne.symm hn]

theorem IsBody.lineFeed_not_mem {p : Text} (h : IsBody p) : CodePoint.ofChar '\n' ∉ p := by
  induction h with
  | nil => exact List.not_mem_nil
  | escape hc _ ih => simp [ih, Ne.symm hc, show CodePoint.ofChar '\n' ≠ CodePoint.ofChar '\\' by decide]
  | ofClass hq _ ih =>
    simp [ih, hq.lineFeed_not_mem, show CodePoint.ofChar '\n' ≠ CodePoint.ofChar '[' by decide,
      show CodePoint.ofChar '\n' ≠ CodePoint.ofChar ']' by decide]
  | single _ _ _ hn _ ih => simp [ih, Ne.symm hn]

theorem AreFlags.lineFeed_not_mem {f : Text} (h : AreFlags f) : CodePoint.ofChar '\n' ∉ f :=
  fun hm => absurd (h.1 hm) (by decide)

/-- No line feed is in a literal that is read. -/
theorem lineFeed_not_mem_read {a : Text} {l : Lexeme} (h : (read (('/' : CodePoint) :: a)).outcome = .ok l) :
    CodePoint.ofChar '\n' ∉ (('/' : CodePoint) :: a).take (read (('/' : CodePoint) :: a)).taken := by
  obtain ⟨p, f, hp⟩ := standsIn_of_read h
  rw [read_of_standsIn hp, Reading.taken_found]
  obtain ⟨hbody, hflags, rest, ha, -⟩ := hp
  have hparts : ('/' : CodePoint) :: (p ++ ('/' : CodePoint) :: (f ++ rest)) =
      (('/' : CodePoint) :: (p ++ ('/' : CodePoint) :: f)) ++ rest := by simp
  rw [ha, hparts, List.take_left' (by simp; omega)]
  simp [hbody.lineFeed_not_mem, hflags.lineFeed_not_mem, show CodePoint.ofChar '\n' ≠ CodePoint.ofChar '/' by decide]

/-- A literal that is read ends before a line feed. -/
theorem taken_read_le {x y : Text} {l : Lexeme}
    (h : (read (('/' : CodePoint) :: (x ++ CodePoint.ofChar '\n' :: y))).outcome = .ok l) :
    (read (('/' : CodePoint) :: (x ++ CodePoint.ofChar '\n' :: y))).taken ≤ x.length + 1 := by
  refine Nat.le_of_not_lt fun hlt => lineFeed_not_mem_read h (List.mem_of_getElem? (i := x.length + 1) ?_)
  rw [List.getElem?_take_of_lt hlt, List.getElem?_cons_succ]
  simp

end Regex

theorem Text.isFence_lineFeed (t : Text) : IsFence (CodePoint.ofChar '\n' :: t) := by
  rintro _ ⟨⟩
  exact .inl (by decide)

section

variable {v : Text} (hv : v.IsFence)
include hv

/-- A numeral ends before a fence. -/
theorem Numeral.taken_read_le {x : Text} (hx : x ≠ []) (hd : startsWithDigit x) {l : Lexeme}
    (h : (read (x ++ v)).outcome = .ok l) : (read (x ++ v)).taken ≤ x.length := by
  rw [read_fenced hv hx] at h ⊢
  obtain ⟨s, t, rfl, htaken, -⟩ := splits_read hd l h
  rw [htaken, List.length_append]
  exact Nat.le_add_right _ _

theorem Lexeme.taken_readWord_le (x : Text) : (readWord (x ++ v)).taken ≤ x.length := by
  rw [readWord, takeWhile_append_of_head? hv.endsName]
  exact (List.takeWhile_prefix _).length_le

end

namespace Lexeme

/-- No lexeme starts with a blank. -/
theorem read_ne_ok {b : Bool} {c : CodePoint} {a : Text} (hc : c.isBlank) {l : Lexeme} :
    (read b (c :: a)).outcome ≠ .ok l := by
  have hsymbol : Symbol.longest? (c :: a) = none := by
    cases hs : Symbol.longest? (c :: a) with
    | none => rfl
    | some s =>
      obtain ⟨d, r, hd, hblank, -⟩ := head_symbol s
      have hfront := (Symbol.of_longest? hs).1
      rw [hd, List.cons_prefix_cons] at hfront
      rw [hfront.1, hc] at hblank
      cases hblank
  have hne {d : CodePoint} (hd : d.isBlank = false) : c ≠ d := by
    rintro rfl
    rw [hc] at hd
    cases hd
  have hname : c.startsName = false := by
    cases hs : c.startsName with
    | false => rfl
    | true => exact absurd (CodePoint.isBlank_of_startsName hs) (by simp [hc])
  have hdigit : c.isDigit = false := by
    cases hd : c.isDigit with
    | false => rfl
    | true => exact absurd (CodePoint.isBlank_of_isDigit hd) (by simp [hc])
  have hdouble : c ≠ CodePoint.ofChar '"' := hne (by decide)
  have hsingle : c ≠ CodePoint.ofChar '\'' := hne (by decide)
  have hslash : c ≠ CodePoint.ofChar '/' := hne (by decide)
  simp [read, hname, hdigit, hdouble, hsingle, hslash, hsymbol, Reading.failed]

/-- A line feed in the text of a lexeme stands directly behind a backslash. -/
theorem read_lineFeed {b : Bool} {x y : Text} {l : Lexeme}
    (h : (read b (x ++ CodePoint.ofChar '\n' :: y)).outcome = .ok l)
    (hlt : x.length < (read b (x ++ CodePoint.ofChar '\n' :: y)).taken) :
    x.getLast? = some (CodePoint.ofChar '\\') := by
  have hfence := isFence_lineFeed y
  cases x with
  | nil => exact absurd h (read_ne_ok (by decide))
  | cons c x =>
    -- a string apart, what is read ends before the line feed
    refine Decidable.by_contra fun hlast => Nat.not_le_of_lt hlt ?_
    simp only [List.cons_append, read] at h hlt ⊢
    split at h
    next hname =>
      rw [if_pos hname]
      exact taken_readWord_le hfence (c :: x)
    next hname =>
    rw [if_neg hname] at hlt ⊢
    split at h
    next hdigit =>
      rw [if_pos hdigit]
      exact Numeral.taken_read_le hfence (List.cons_ne_nil c x) hdigit h
    next hdigit =>
    rw [if_neg hdigit] at hlt ⊢
    split at h
    next hquote =>
      rw [if_pos hquote] at hlt
      have hne : c ≠ '\n' := by
        rintro rfl
        exact absurd hquote (by decide)
      exact absurd (StringLiteral.getLast?_of_read hne h hlt) hlast
    next hquote =>
    rw [if_neg hquote]
    split at h
    next hslash =>
      rw [if_pos hslash]
      obtain rfl : c = CodePoint.ofChar '/' := by
        simp only [Bool.and_eq_true, decide_eq_true_eq] at hslash
        exact hslash.1
      exact Regex.taken_read_le h
    next hslash =>
    rw [if_neg hslash]
    rw [← List.cons_append, Symbol.longest?_fenced hfence (List.cons_ne_nil c x)] at h ⊢
    cases hs : Symbol.longest? (c :: x) with
    | none =>
      rw [hs] at h
      cases h
    | some s => exact (Symbol.of_longest? hs).1.length_le

end Lexeme

end MagSyntax
