import Mathlib.Data.List.Chain
import MagSyntax.Proofs.Lossless

/-! Numerals by their grammar. A digit group is digits with single underscores between them, a decimal numeral is a
group that a fraction and an exponent may follow, and a numeral of another base is a group behind its mark. The
underscores are checked once over the whole numeral, so one gets through that stands right before the point or the
letter of the exponent, or right behind the mark of a base; but for these every numeral follows the grammar. -/

namespace MagSyntax

namespace Numeral

/-- Digits, and single underscores between them. -/
inductive IsDigitGroup (digits : Text) : Text → Prop
  | last {c : CodePoint} (hc : c ∈ digits) : IsDigitGroup digits [c]
  | digit {c : CodePoint} {v : Text} (hc : c ∈ digits) (hv : IsDigitGroup digits v) : IsDigitGroup digits (c :: v)
  | separated {c : CodePoint} {v : Text} (hc : c ∈ digits) (hv : IsDigitGroup digits v) :
    IsDigitGroup digits (c :: '_' :: v)

/-- A digit group, then a point and a group, then the letter of an exponent, a sign and a group; the last two parts
and the sign may be missing. -/
def IsDecimalNumeral (v : Text) : Prop :=
  ∃ whole part scale : Text, v = whole ++ (part ++ scale) ∧ IsDigitGroup decimalDigits whole ∧
    (part = [] ∨ ∃ g : Text, part = ('.' : CodePoint) :: g ∧ IsDigitGroup decimalDigits g) ∧
    (scale = [] ∨ ∃ (e : CodePoint) (s g : Text), scale = e :: (s ++ g) ∧ (e = 'e' ∨ e = 'E') ∧
      (s = [] ∨ s = "+" ∨ s = "-") ∧ IsDigitGroup decimalDigits g)

/-- The value of a numeral of a base: without its mark if the base has one. -/
def IsNumeral (base : Int) (v : Text) : Prop :=
  (base = 10 ∧ IsDecimalNumeral v) ∨ ∃ r ∈ Radix.all, base = r.base ∧ IsDigitGroup r.digits v

/-- What a decimal numeral goes on with behind a group. -/
def decimalMarks : Text := ".eE"

/-- The text without the underscores that stand right before a point or the letter of an exponent. -/
def lessBeforeMarks : Text → Text
  | [] => []
  | c :: v => if c = '_' && v.head?.any (· ∈ decimalMarks) then lessBeforeMarks v else c :: lessBeforeMarks v

/-- The value without the underscores that stand at a mark: before one inside a decimal numeral, and behind the one
that a numeral of another base has in front. -/
def lessAtMarks (base : Int) (v : Text) : Text :=
  if base = 10 then lessBeforeMarks v
  else if v.head? = some (CodePoint.ofChar '_') then v.tail else v

/-- Right behind an underscore nothing else stands. -/
def BehindSeparators (allowed : CodePoint → Prop) (v : Text) : Prop :=
  v.IsChain fun (c d : CodePoint) => c = '_' → allowed d

variable {digits : Text}

theorem IsDigitGroup.head_mem (hu : CodePoint.ofChar '_' ∉ digits) {v : Text} (hv : IsDigitGroup digits v) :
    ∃ c r, v = c :: r ∧ c ∈ digits ∧ c ≠ '_' := by
  have hne : ∀ c ∈ digits, c ≠ '_' := fun c hc he => hu (he ▸ hc)
  cases hv with
  | last hc | digit hc | separated hc => exact ⟨_, _, rfl, hc, hne _ hc⟩

/-- A run is a group if it neither starts nor ends in an underscore and no two stand side by side; behind an
underscore at its start the rest is one. -/
theorem isDigitGroup_of_isRun {v : Text} (hrun : IsRun digits v) (hlast : v.getLast? ≠ some (CodePoint.ofChar '_'))
    (hsingle : BehindSeparators (· ≠ '_') v) :
    (∀ c r, v = c :: r → c ≠ '_' → IsDigitGroup digits v) ∧
      ∀ r, v = CodePoint.ofChar '_' :: r → IsDigitGroup digits r := by
  induction v with
  | nil => exact ⟨fun c r h => (by cases h), fun r h => by cases h⟩
  | cons c w ih =>
    obtain ⟨hc, hw⟩ := List.forall_mem_cons.mp hrun
    simp only [Bool.or_eq_true, decide_eq_true_eq] at hc
    cases w with
    | nil =>
      refine ⟨?_, ?_⟩
      · rintro _ _ ⟨⟩ hne
        exact .last (hc.resolve_right hne)
      · rintro _ ⟨⟩
        exact absurd rfl hlast
    | cons d r =>
      obtain ⟨hcd, hsingle⟩ := List.isChain_cons_cons.mp hsingle
      rw [List.getLast?_cons_cons] at hlast
      obtain ⟨hfirst, hsecond⟩ := ih hw hlast hsingle
      refine ⟨?_, ?_⟩
      · rintro _ _ ⟨⟩ hne
        have hc := hc.resolve_right hne
        by_cases hd : d = '_'
        · subst hd
          exact .separated hc (hsecond r rfl)
        · exact .digit hc (hfirst d r rfl hd)
      · rintro _ ⟨⟩
        exact hfirst d r rfl (hcd rfl)

theorem hasDoubleSeparator_eq_false_iff (v : Text) :
    hasDoubleSeparator v = false ↔ BehindSeparators (· ≠ '_') v := by
  induction v with
  | nil => simp [hasDoubleSeparator, BehindSeparators]
  | cons c v ih =>
    rw [hasDoubleSeparator, Bool.or_eq_false_iff, ih]
    refine Iff.trans (and_congr_left fun _ => ?_) List.isChain_cons.symm
    cases v with
    | nil => simp
    | cons d v => simp

theorem separatorsMisplaced_eq_false_iff (v : Text) : separatorsMisplaced v = false ↔
    v.getLast? ≠ some (CodePoint.ofChar '_') ∧ BehindSeparators (· ≠ '_') v := by
  rw [separatorsMisplaced, Bool.or_eq_false_iff, hasDoubleSeparator_eq_false_iff, decide_eq_false_iff_not]
  rfl

theorem not_mem_decimalDigits : CodePoint.ofChar '_' ∉ decimalDigits := by decide

theorem not_mem_digits {r : Radix} (hr : r ∈ Radix.all) : CodePoint.ofChar '_' ∉ r.digits := by
  revert r
  decide

theorem lessAtMarks_decimal (v : Text) : lessAtMarks 10 v = lessBeforeMarks v := if_pos rfl

theorem lessAtMarks_radix {r : Radix} (hr : r ∈ Radix.all) (v : Text) :
    lessAtMarks r.base v = if v.head? = some (CodePoint.ofChar '_') then v.tail else v := by
  have hbase : (r.base : Int) ≠ 10 := by
    revert r
    decide
  rw [lessAtMarks, if_neg hbase]

theorem lessBeforeMarks_cons {c : CodePoint} (hc : c ≠ '_') (v : Text) :
    lessBeforeMarks (c :: v) = c :: lessBeforeMarks v := by
  rw [lessBeforeMarks, if_neg (by simp [hc])]

theorem lessBeforeMarks_separator {d : CodePoint} (hd : d ∈ decimalMarks) (v : Text) :
    lessBeforeMarks (CodePoint.ofChar '_' :: d :: v) = lessBeforeMarks (d :: v) := by
  rw [lessBeforeMarks, if_pos (by simp [hd])]

theorem lessBeforeMarks_sign {s : Text} (hs : s = [] ∨ s = "+" ∨ s = "-") (v : Text) :
    lessBeforeMarks (s ++ v) = s ++ lessBeforeMarks v := by
  rcases hs with rfl | rfl | rfl
  · rfl
  · exact lessBeforeMarks_cons (by decide) v
  · exact lessBeforeMarks_cons (by decide) v

theorem IsDigitGroup.lessBeforeMarks_append {g : Text} (hg : IsDigitGroup decimalDigits g) (t : Text) :
    lessBeforeMarks (g ++ t) = g ++ lessBeforeMarks t := by
  have hne : ∀ c ∈ decimalDigits, c ≠ '_' := by decide
  induction hg with
  | last hc => exact lessBeforeMarks_cons (hne _ hc) t
  | digit hc hv ih => rw [List.cons_append, lessBeforeMarks_cons (hne _ hc), ih, List.cons_append]
  | separated hc hv ih =>
    obtain ⟨d, r, rfl, hd, -⟩ := hv.head_mem not_mem_decimalDigits
    have hmark : ∀ d ∈ decimalDigits, d ∉ decimalMarks := by decide
    rw [List.cons_append, List.cons_append, lessBeforeMarks_cons (hne _ hc), lessBeforeMarks, ih,
      if_neg (by simp [hmark d hd])]
    rfl

theorem head_mem_decimalMarks {scale : Text} (h : IsExponent scale) : ∀ c ∈ scale.head?, c ∈ decimalMarks := by
  intro c hc
  rcases head_exponent h c hc with rfl | rfl <;> decide

theorem head_part_mem_decimalMarks {part scale : Text} (hp : IsFraction part) (hs : IsExponent scale) :
    ∀ c ∈ (part ++ scale).head?, c ∈ decimalMarks := by
  intro c hc
  rcases hp with rfl | ⟨g, rfl, -⟩
  · exact head_mem_decimalMarks hs c hc
  · cases hc
    decide

/-- Inside a numeral whose underscores were checked, what stands before a mark or the end and starts with a digit is
a digit group, less an underscore before the mark. -/
theorem IsGroup.lessBeforeMarks_append {x g t : Text} (hg : IsGroup g)
    (hm : separatorsMisplaced (x ++ (g ++ t)) = false) (ht : ∀ c ∈ t.head?, c ∈ decimalMarks) :
    ∃ w, IsDigitGroup decimalDigits w ∧ lessBeforeMarks (g ++ t) = w ++ lessBeforeMarks t := by
  obtain ⟨c, r, rfl, hc, hrun⟩ := hg
  have hne : c ≠ '_' := fun he => not_mem_decimalDigits (he ▸ hc)
  obtain ⟨hlast, hsingle⟩ := (separatorsMisplaced_eq_false_iff _).mp hm
  obtain ⟨-, hright, -⟩ := List.isChain_append.mp hsingle
  obtain ⟨hgroup, -, -⟩ := List.isChain_append.mp hright
  by_cases hend : (c :: r).getLast? = some (CodePoint.ofChar '_')
  · obtain ⟨w, hw⟩ := List.getLast?_eq_some_iff.mp hend
    rw [hw] at hlast hrun hgroup ⊢
    cases t with
    | nil => simp [List.getLast?_append] at hlast
    | cons d t =>
      obtain ⟨hgroup, -, hbetween⟩ := List.isChain_append.mp hgroup
      have hw_last : w.getLast? ≠ some (CodePoint.ofChar '_') := fun he => hbetween _ he _ rfl rfl rfl
      cases w with
      | nil =>
        cases hw
        exact absurd rfl hne
      | cons b w =>
        cases hw
        have hrun := (List.forall_mem_append.mp hrun).1
        have hdigits := (isDigitGroup_of_isRun hrun hw_last hgroup).1 c w rfl hne
        refine ⟨c :: w, hdigits, ?_⟩
        rw [List.append_assoc, hdigits.lessBeforeMarks_append, List.singleton_append,
          lessBeforeMarks_separator (ht d rfl)]
  · have hdigits := (isDigitGroup_of_isRun hrun hend hgroup).1 c r rfl hne
    exact ⟨c :: r, hdigits, hdigits.lessBeforeMarks_append t⟩

/-- A decimal numeral whose underscores were checked follows the grammar, less the underscores before its marks. -/
theorem isDecimalNumeral_of_isDecimal {v whole part scale : Text} (h : IsDecimal v whole part scale)
    (hhead : ∃ c r, v = c :: r ∧ c ∈ decimalDigits) (hm : separatorsMisplaced v = false) :
    IsDecimalNumeral (lessBeforeMarks v) := by
  obtain ⟨rfl, hw, hp, hs⟩ := h
  have hmarks := head_part_mem_decimalMarks hp hs
  have hwhole : IsGroup whole := by
    obtain ⟨c, r, hv, hc⟩ := hhead
    cases whole with
    | nil =>
      have hmark : c ∈ decimalMarks := hmarks c (congrArg List.head? hv)
      have hnone : ∀ c ∈ decimalDigits, c ∉ decimalMarks := by decide
      exact absurd hmark (hnone c hc)
    | cons d w =>
      cases hv
      exact ⟨_, w, rfl, hc, hw⟩
  have hscale : lessBeforeMarks scale = [] ∨ ∃ (e : CodePoint) (s g : Text), lessBeforeMarks scale = e :: (s ++ g) ∧
      (e = 'e' ∨ e = 'E') ∧ (s = [] ∨ s = "+" ∨ s = "-") ∧ IsDigitGroup decimalDigits g := by
    refine hs.imp (fun hnil => by rw [hnil]; rfl) fun ⟨e, s, g, hscale, he, hsign, hg⟩ => ?_
    have hv : whole ++ (part ++ scale) = (whole ++ part ++ e :: s) ++ (g ++ []) := by rw [hscale]; simp
    rw [hv] at hm
    obtain ⟨w, hw, hless⟩ := hg.lessBeforeMarks_append hm (by simp)
    refine ⟨e, s, w, ?_, he, hsign, hw⟩
    rw [List.append_nil, lessBeforeMarks, List.append_nil] at hless
    have hne : e ≠ '_' := by rcases he with rfl | rfl <;> decide
    rw [hscale, lessBeforeMarks_cons hne, lessBeforeMarks_sign hsign, hless]
  obtain ⟨w, hw, hless⟩ := hwhole.lessBeforeMarks_append (x := []) hm hmarks
  rw [hless]
  rcases hp with rfl | ⟨g, rfl, hg⟩
  · exact ⟨w, [], lessBeforeMarks scale, rfl, hw, .inl rfl, hscale⟩
  · have hv : whole ++ (('.' : CodePoint) :: g ++ scale) = (whole ++ ".") ++ (g ++ scale) := by simp; rfl
    rw [hv] at hm
    obtain ⟨w', hw', hless'⟩ := hg.lessBeforeMarks_append hm (head_mem_decimalMarks hs)
    refine ⟨w, ('.' : CodePoint) :: w', lessBeforeMarks scale, ?_, hw, .inr ⟨w', rfl, hw'⟩, hscale⟩
    rw [List.cons_append, lessBeforeMarks_cons (by decide), hless', List.cons_append]

/-- The value of a numeral that was read follows the grammar, less the underscores at its marks. -/
theorem isNumeral_of_read {a : Text} {l : Lexeme} (hd : startsWithDigit a) (h : (read a).outcome = .ok l) :
    IsNumeral l.base (lessAtMarks l.base l.value) := by
  unfold read at h
  split at h
  next r hr =>
    obtain ⟨hmem, -⟩ := mem_of_radix? hr
    have hrun := isRun_digitRun r.digits (a.drop 2)
    generalize digitRun r.digits (a.drop 2) = v at h hrun
    simp only at h
    split at h
    next => cases h
    next hall =>
      obtain ⟨rfl, hm, -⟩ := of_checked h
      obtain ⟨hlast, hsingle⟩ := (separatorsMisplaced_eq_false_iff v).mp hm
      obtain ⟨hfirst, hsecond⟩ := isDigitGroup_of_isRun hrun hlast hsingle
      refine .inr ⟨r, hmem, rfl, ?_⟩
      rw [lessAtMarks_radix hmem]
      cases v with
      | nil => exact absurd rfl hall
      | cons c w =>
        refine iteInduction (fun hc => ?_) fun hc => hfirst c w rfl fun he => hc (he ▸ rfl)
        cases hc
        exact hsecond w rfl
  next hr =>
    obtain ⟨rfl, hm, he⟩ := of_checked h
    obtain ⟨c, v, hv, hc⟩ := head_decimal hd he
    obtain ⟨whole, part, scale, hdec⟩ := isDecimal_decimal he
    exact .inl ⟨rfl, isDecimalNumeral_of_isDecimal hdec ⟨c, v, hv, hc⟩ hm⟩

/-- What follows the grammar has no underscore at a mark. -/
theorem IsNumeral.lessAtMarks_eq {base : Int} {v : Text} (h : IsNumeral base v) : lessAtMarks base v = v := by
  have hgroup : ∀ {g : Text}, IsDigitGroup decimalDigits g → lessBeforeMarks g = g := fun {g} hg => by
    have h := hg.lessBeforeMarks_append []
    rwa [lessBeforeMarks, List.append_nil] at h
  rcases h with ⟨rfl, whole, part, scale, rfl, hw, hp, hs⟩ | ⟨r, hr, rfl, hv⟩
  · have hscale : lessBeforeMarks scale = scale := by
      rcases hs with rfl | ⟨e, s, g, rfl, he, hsign, hg⟩
      · rfl
      · have hne : e ≠ '_' := by rcases he with rfl | rfl <;> decide
        rw [lessBeforeMarks_cons hne, lessBeforeMarks_sign hsign, hgroup hg]
    rw [lessAtMarks_decimal, hw.lessBeforeMarks_append]
    rcases hp with rfl | ⟨g, rfl, hg⟩
    · rw [List.nil_append, hscale]
    · rw [List.cons_append, lessBeforeMarks_cons (by decide), hg.lessBeforeMarks_append, hscale]
  · obtain ⟨c, w, rfl, -, hc⟩ := hv.head_mem (not_mem_digits hr)
    rw [lessAtMarks_radix hr, if_neg (by simpa using hc)]

end Numeral

/-- A token stands in the source with its own text, at its position. -/
theorem Text.SplitsInto.of_mem {position : Int} {text : Text} {tokens : List Token}
    (h : text.SplitsInto position tokens) {t : Token} (ht : t ∈ tokens) :
    ∃ before written rest, text = before ++ (written ++ rest) ∧
      t.place.position = position + (before.length : Nat) ∧ t.Spells written rest := by
  induction h with
  | done => cases ht
  | @next position g s rest token tokens _ hspells hposition _ ih =>
    rcases List.mem_cons.mp ht with rfl | ht
    · exact ⟨g, s, rest, rfl, hposition, hspells⟩
    · obtain ⟨before, written, behind, rfl, hplace, hspells⟩ := ih ht
      refine ⟨g ++ (s ++ before), written, behind, by simp, ?_, hspells⟩
      rw [hplace, hposition, List.length_append, List.length_append]
      omega

namespace Lexeme

theorem Spells.endsName {l : Lexeme} {s t : Text} (h : l.Spells s t) (hk : l.kind = .number) : t.EndsName := by
  cases h with
  | decimal _ ht | radix _ _ ht => exact ht
  | _ => cases hk

theorem IsScanned.isNumeral {l : Lexeme} (h : l.IsScanned) (hk : l.kind = .number) :
    Numeral.IsNumeral l.base (Numeral.lessAtMarks l.base l.value) := by
  cases h.readAs (by simp [hk]) with
  | word =>
    rcases kind_ofWord _ with hw | ⟨w, hw⟩ <;> cases hk.symm.trans hw
  | number hd h => exact Numeral.isNumeral_of_read hd h
  | string => cases hk
  | regex _ h =>
    obtain ⟨p, f, r, rfl, -⟩ := Regex.read_again h
    cases hk
  | symbol => cases hk

end Lexeme

open Numeral

/-- The value of each number of a source follows the grammar of its base, less the underscores at its marks; so it
follows the grammar itself exactly if it has no such underscores. The number takes up its whole text in the source:
no underscore and nothing else that a name goes on with stands behind it. -/
theorem numerals_of_tokenize {source : Text} {tokens : List Token} (h : tokenize source = .ok tokens) {t : Token}
    (ht : t ∈ tokens) (hk : t.kind = .number) :
    IsNumeral t.base (lessAtMarks t.base t.value) ∧
      (IsNumeral t.base t.value ↔ lessAtMarks t.base t.value = t.value) ∧
      ∃ before written rest : Text, source = before ++ (written ++ rest) ∧ t.place.position = before.length ∧
        t.Spells written rest ∧ rest.EndsName := by
  obtain ⟨inner, last, rfl, hlast, -, hscanned⟩ := tokens_of_tokenize h
  obtain ⟨inner', last', hinner, -, -, hsplits⟩ := splitsInto_of_tokenize h
  obtain ⟨rfl, -⟩ := List.append_inj' hinner rfl
  have hmem : t ∈ inner := by
    rcases List.mem_append.mp ht with ht | ht
    · exact ht
    · rw [List.mem_singleton.mp ht, hlast] at hk
      cases hk
  have hnumeral := (hscanned t hmem).2.isNumeral hk
  obtain ⟨before, written, rest, hsource, hplace, hspells⟩ := hsplits.of_mem hmem
  refine ⟨hnumeral, ⟨fun h => h.lessAtMarks_eq, fun h => by rwa [h] at hnumeral⟩, before, written, rest, hsource, ?_,
    hspells, hspells.endsName hk⟩
  rw [hplace, Int.zero_add]

theorem exists_of_lexemes {source : Text} {ls : List Lexeme}
    (h : (tokenize source).toOption.map (·.map Token.toLexeme) = some ls) :
    ∃ tokens, tokenize source = .ok tokens ∧ ∀ l ∈ ls, ∃ t ∈ tokens, t.toLexeme = l := by
  cases hs : tokenize source with
  | error e =>
    rw [hs] at h
    cases h
  | ok tokens =>
    rw [hs] at h
    cases h
    exact ⟨tokens, rfl, fun l hl => List.mem_map.mp hl⟩

/-- Underscores in every group of a decimal numeral, behind a numeral with a mark in capitals. -/
theorem numerals_of_tokenize_groups :
    let source := Text.ofString "0XfF_0 + 1_0.2_5e-1_0"
    ∃ tokens : List Token, ∃ t ∈ tokens, tokenize source = .ok tokens ∧ t.toLexeme = ⟨.number, "1_0.2_5e-1_0", 10, []⟩ ∧
      IsNumeral t.base t.value ∧
      ∃ before written rest : Text, source = before ++ (written ++ rest) ∧ t.place.position = before.length ∧
        t.Spells written rest ∧ rest.EndsName := by
  intro source
  have hlexemes : (tokenize source).toOption.map (·.map Token.toLexeme) = some
      [⟨.number, "fF_0", 16, []⟩, .ofSymbol .plus, ⟨.number, "1_0.2_5e-1_0", 10, []⟩, .endOfInput] := by
    decide +kernel
  obtain ⟨tokens, htokens, hall⟩ := exists_of_lexemes hlexemes
  obtain ⟨t, ht, hl⟩ := hall ⟨.number, "1_0.2_5e-1_0", 10, []⟩ (by simp)
  obtain ⟨-, hiff, hstands⟩ := numerals_of_tokenize htokens ht (by rw [hl])
  exact ⟨tokens, t, ht, htokens, hl, hiff.mpr (by rw [hl]; decide), hstands⟩

/-- An underscore right before the point gets through, although no group ends in one. -/
theorem separatorBeforePoint_accepted :
    ¬∀ (source : Text) (tokens : List Token), tokenize source = .ok tokens →
      ∀ t ∈ tokens, t.kind = .number → IsNumeral t.base t.value := by
  intro hnumerals
  have hlexemes : (tokenize "1_.5").toOption.map (·.map Token.toLexeme) =
      some [⟨.number, "1_.5", 10, []⟩, .endOfInput] := by decide +kernel
  obtain ⟨tokens, htokens, hall⟩ := exists_of_lexemes hlexemes
  obtain ⟨t, ht, hl⟩ := hall ⟨.number, "1_.5", 10, []⟩ (by simp)
  have hless := (hnumerals _ tokens htokens t ht (by rw [hl])).lessAtMarks_eq
  rw [hl] at hless
  revert hless
  decide

end MagSyntax
