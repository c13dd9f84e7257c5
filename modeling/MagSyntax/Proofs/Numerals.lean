import MagSyntax.Lexeme.Read

/-! Numerals read back: the numeral at the front of a text is read again from any text that it is followed
by something else in, as long as no name and no fraction goes on with it. -/

namespace MagSyntax

/-- No name goes on with the text. -/
def Text.EndsName (t : Text) : Prop := ∀ c ∈ t.head?, c.continuesName = false

namespace Numeral

/-- Digits with underscores among them. -/
def IsRun (digits v : Text) : Prop := ∀ c ∈ v, c ∈ digits || c = '_'

theorem isRun_digitRun (digits ahead : Text) : IsRun digits (digitRun digits ahead) := by
  intro c hc
  have h := List.all_takeWhile (p := fun c => decide (c ∈ digits) || decide (c = '_')) (l := ahead)
  exact List.all_eq_true.mp h c hc

theorem digitRun_append {digits v t : Text} (hv : IsRun digits v)
    (ht : ∀ c ∈ t.head?, c ∉ digits ∧ c ≠ '_') : digitRun digits (v ++ t) = v := by
  unfold digitRun
  rw [List.takeWhile_append_of_pos fun c hc => hv c hc]
  cases t with
  | nil => simp
  | cons c t =>
    obtain ⟨hd, hu⟩ := ht c rfl
    simp [hd, hu]

theorem continuesName_of_hexDigits : ∀ c ∈ hexDigits ++ "_", c.continuesName = true := by
  decide +kernel

theorem decimalDigits_subset : decimalDigits ⊆ hexDigits := by decide

theorem isDigit_of_decimalDigits : ∀ c ∈ decimalDigits, c.isDigit = true := by decide +kernel

end Numeral

namespace Text

theorem EndsName.not_mem_digits {t digits : Text} (ht : t.EndsName)
    (hd : digits ⊆ Numeral.hexDigits) :
    ∀ c ∈ t.head?, c ∉ digits ∧ c ≠ '_' := by
  intro c hc
  have hn := ht c hc
  refine ⟨fun hm => ?_, fun hu => ?_⟩
  · rw [Numeral.continuesName_of_hexDigits c (List.mem_append_left _ (hd hm))] at hn
    cases hn
  · rw [Numeral.continuesName_of_hexDigits c (List.mem_append_right _ (hu ▸ List.mem_singleton.mpr rfl))] at hn
    cases hn

theorem EndsName.not_startsWithDigit {t : Text} (ht : t.EndsName) : Numeral.startsWithDigit t = false := by
  cases t with
  | nil => rfl
  | cons c t =>
    cases hd : c.isDigit with
    | false => exact hd
    | true =>
      have hn := ht c rfl
      rw [CodePoint.continuesName_of_isDigit hd] at hn
      cases hn

end Text

namespace Numeral

open Text

/-- A digit and the run behind it. -/
def IsGroup (v : Text) : Prop := ∃ c r, v = c :: r ∧ c ∈ decimalDigits ∧ IsRun decimalDigits v

theorem digitRun_eq_nil_or_isGroup {a : Text} (h : startsWithDigit a) :
    digitRun decimalDigits a = [] ∨ IsGroup (digitRun decimalDigits a) := by
  have hr := isRun_digitRun decimalDigits a
  cases a with
  | nil => cases h
  | cons c a =>
    unfold digitRun at *
    rw [List.takeWhile_cons] at *
    split at hr
    next hc =>
      refine .inr ⟨c, _, if_pos hc, ?_, by rw [if_pos hc]; exact hr⟩
      have hd : c.isDigit := h
      have hu : c ≠ '_' := by
        rintro rfl
        revert hd
        decide +kernel
      simpa [hu] using hc
    next hc => exact .inl (if_neg hc)

/-- The fraction of a numeral, if it has one. -/
def IsFraction (f : Text) : Prop := f = [] ∨ ∃ g : Text, f = ('.' : CodePoint) :: g ∧ IsGroup g

/-- The exponent of a numeral, if it has one. -/
def IsExponent (f : Text) : Prop :=
  f = [] ∨ ∃ (e : CodePoint) (s g : Text), f = e :: (s ++ g) ∧ (e = 'e' ∨ e = 'E') ∧
    (s = [] ∨ s = "+" ∨ s = "-") ∧ IsGroup g

theorem isFraction_fraction (a : Text) :
    IsFraction (fraction a) ∨ startsWithDigit (a.drop (fraction a).length) := by
  cases a with
  | nil => exact .inl (.inl rfl)
  | cons c a =>
    simp only [fraction]
    split
    next h =>
      simp only [Bool.and_eq_true, decide_eq_true_eq] at h
      obtain ⟨rfl, hd⟩ := h
      rcases digitRun_eq_nil_or_isGroup hd with hn | hg
      · rw [hn]
        exact .inr hd
      · exact .inl (.inr ⟨_, rfl, hg⟩)
    next => exact .inl (.inl rfl)

theorem sign_cases (a : Text) : sign a = [] ∨ sign a = "+" ∨ sign a = "-" := by
  cases a with
  | nil => exact .inl rfl
  | cons c a =>
    simp only [sign]
    split
    next h =>
      simp only [Bool.or_eq_true, decide_eq_true_eq] at h
      rcases h with rfl | rfl
      · exact .inr (.inl rfl)
      · exact .inr (.inr rfl)
    next => exact .inl rfl

theorem isExponent_exponent (a : Text) :
    IsExponent (exponent a) ∨ startsWithDigit (a.drop (exponent a).length) := by
  cases a with
  | nil => exact .inl (.inl rfl)
  | cons c a =>
    simp only [exponent]
    split
    next h =>
      simp only [Bool.and_eq_true, Bool.or_eq_true, decide_eq_true_eq] at h
      rcases digitRun_eq_nil_or_isGroup h.2 with hn | hg
      · refine .inr ?_
        rw [hn, List.append_nil, List.length_cons, List.drop_succ_cons]
        exact h.2
      · exact .inl (.inr ⟨c, _, _, rfl, h.1, sign_cases a, hg⟩)
    next => exact .inl (.inl rfl)

theorem IsGroup.append {g t : Text} (h : IsGroup g)
    (ht : ∀ c ∈ t.head?, c ∉ decimalDigits ∧ c ≠ '_') :
    startsWithDigit (g ++ t) ∧ digitRun decimalDigits (g ++ t) = g := by
  obtain ⟨c, r, rfl, hc, hr⟩ := h
  exact ⟨isDigit_of_decimalDigits c hc, digitRun_append hr ht⟩

theorem fraction_append {f t : Text} (h : IsFraction f) (ht : fraction t = [])
    (hd : ∀ c ∈ t.head?, c ∉ decimalDigits ∧ c ≠ '_') : fraction (f ++ t) = f := by
  rcases h with rfl | ⟨g, rfl, hg⟩
  · exact ht
  · obtain ⟨hs, hr⟩ := hg.append hd
    rw [List.cons_append, fraction, hs, hr]
    rfl

theorem sign_append {s g t : Text} (h : s = [] ∨ s = "+" ∨ s = "-") (hg : IsGroup g) :
    sign (s ++ (g ++ t)) = s := by
  obtain ⟨c, r, rfl, hc, -⟩ := hg
  rcases h with rfl | rfl | rfl
  · have hn : ∀ c ∈ decimalDigits, c ≠ '+' ∧ c ≠ '-' := by decide
    simp [sign, hn c hc]
  · rfl
  · rfl

theorem exponent_append {f t : Text} (h : IsExponent f) (ht : t.EndsName) :
    exponent (f ++ t) = f := by
  have hd := ht.not_mem_digits decimalDigits_subset
  rcases h with rfl | ⟨e, s, g, rfl, he, hs, hg⟩
  · cases t with
    | nil => rfl
    | cons c t =>
      have hc : c ≠ 'e' ∧ c ≠ 'E' := by
        have hn := ht c rfl
        constructor <;> (rintro rfl; revert hn; decide +kernel)
      simp [exponent, hc]
  · obtain ⟨hd, hr⟩ := hg.append hd
    have he : (decide (e = 'e') || decide (e = 'E')) = true := by simpa using he
    simp only [List.cons_append, List.append_assoc, exponent, sign_append hs hg]
    rw [List.drop_left, hd, hr, he]
    rfl

theorem head_exponent {f : Text} (h : IsExponent f) : ∀ c ∈ f.head?, c = 'e' ∨ c = 'E' := by
  rcases h with rfl | ⟨e, s, g, rfl, he, -⟩
  · simp
  · rintro c ⟨⟩
    exact he

theorem head_fraction {f : Text} (h : IsFraction f) : ∀ c ∈ f.head?, c = '.' := by
  rcases h with rfl | ⟨g, rfl, -⟩
  · simp
  · rintro c ⟨⟩
    rfl

/-- The parts of a decimal numeral that no name goes on with. -/
structure IsDecimal (v whole part scale : Text) : Prop where
  eq : v = whole ++ (part ++ scale)
  whole : IsRun decimalDigits whole
  part : IsFraction part
  scale : IsExponent scale

theorem isDecimal_decimal {a : Text} (h : EndsName (a.drop (decimal a).length)) :
    ∃ whole part scale, IsDecimal (decimal a) whole part scale := by
  have hw := isRun_digitRun decimalDigits a
  simp only [decimal] at h ⊢
  generalize digitRun decimalDigits a = whole at h hw ⊢
  have hp := isFraction_fraction (a.drop whole.length)
  generalize fraction (a.drop whole.length) = part at h hp ⊢
  have hs := isExponent_exponent (a.drop (whole.length + part.length))
  generalize hsc : exponent (a.drop (whole.length + part.length)) = scale at h hs ⊢
  rw [List.drop_drop] at hp
  rw [List.length_append, List.length_append] at h
  refine ⟨whole, part, scale, by rw [List.append_assoc], hw, hp.resolve_right fun hd => ?_,
    hs.resolve_right fun hd => ?_⟩
  · have he : scale = [] := by
      rw [← hsc]
      cases ha : a.drop (whole.length + part.length) with
      | nil => rfl
      | cons c r =>
        rw [ha] at hd
        have hc : c ≠ 'e' ∧ c ≠ 'E' := by
          have hn : c.isDigit := hd
          constructor <;> (rintro rfl; revert hn; decide +kernel)
        simp [exponent, hc]
    rw [he, List.length_nil, Nat.add_zero] at h
    exact absurd hd (by rw [h.not_startsWithDigit]; simp)
  · rw [List.drop_drop] at hd
    exact absurd hd (by rw [h.not_startsWithDigit]; simp)

theorem IsDecimal.decimal_append {v whole part scale t : Text} (h : IsDecimal v whole part scale)
    (ht : t.EndsName) (hf : fraction t = []) : decimal (v ++ t) = v := by
  obtain ⟨rfl, hw, hp, hs⟩ := h
  have he := exponent_append hs ht
  have hd := ht.not_mem_digits decimalDigits_subset
  have hscale : ∀ c ∈ (scale ++ t).head?, c ∉ decimalDigits ∧ c ≠ '_' := by
    intro c hc
    rw [List.head?_append, Option.mem_def, Option.or_eq_some_iff] at hc
    rcases hc with hc | ⟨-, hc⟩
    · rcases head_exponent hs c hc with rfl | rfl <;> decide
    · exact hd c hc
  have hrest : ∀ c ∈ (part ++ (scale ++ t)).head?, c ∉ decimalDigits ∧ c ≠ '_' := by
    intro c hc
    rw [List.head?_append, Option.mem_def, Option.or_eq_some_iff] at hc
    rcases hc with hc | ⟨-, hc⟩
    · rw [head_fraction hp c hc]
      decide
    · exact hscale c hc
  have hpart : fraction (scale ++ t) = [] := by
    rcases hs with rfl | ⟨e, s, g, rfl, he, -⟩
    · exact hf
    · have hn : e ≠ '.' := by
        rcases he with rfl | rfl <;> decide
      simp [fraction, hn]
  have hwhole : digitRun decimalDigits (whole ++ (part ++ (scale ++ t))) = whole :=
    digitRun_append hw hrest
  have hfraction : fraction (part ++ (scale ++ t)) = part := fraction_append hp hpart hscale
  simp only [decimal, List.append_assoc, hwhole, List.drop_left, hfraction]
  rw [← List.drop_drop, List.drop_left, List.drop_left, he]

/-- A numeral whose underscores are in place is read if no name goes on with it. -/
theorem checked_eq {v t : Text} {base : Nat} (hm : separatorsMisplaced v = false) (ht : t.EndsName)
    (taken : Nat) : checked taken base v t = .found taken ⟨.number, v, base, []⟩ := by
  rw [checked, hm]
  cases t with
  | nil => rfl
  | cons c t => simp [ht c rfl]

theorem of_checked {v t : Text} {taken base : Nat} {l : Lexeme}
    (h : (checked taken base v t).outcome = .ok l) :
    l = ⟨.number, v, base, []⟩ ∧ separatorsMisplaced v = false ∧ t.EndsName := by
  unfold checked at h
  split at h
  next => cases h
  next hm =>
    simp only [Bool.not_eq_true] at hm
    cases t with
    | nil =>
      cases h
      exact ⟨rfl, hm, by simp [EndsName]⟩
    | cons c t =>
      simp only [List.head?_cons] at h
      split at h
      next => cases h
      next hc =>
        cases h
        refine ⟨rfl, hm, ?_⟩
        rintro d ⟨⟩
        simpa using hc

/-- The small form of a capital letter lies 32 places behind it. -/
theorem val_of_small {c : CodePoint} {v : Nat} (h : c.small.val = v) :
    c.val = v ∨ c.val + 0x20 = v := by
  unfold CodePoint.small at h
  split at h
  next hc =>
    simp only [CodePoint.isCapital, Bool.and_eq_true, decide_eq_true_eq] at hc
    rw [CodePoint.ofNat?, dif_pos (by omega)] at h
    exact .inr h
  next => exact .inl h

theorem continuesName_of_ofLetter? {c : CodePoint} {r : Radix} (h : Radix.ofLetter? c = some r) :
    c.continuesName := by
  have hs : c.small = r.letter := by simpa using List.find?_some h
  have hl : r.letter.val = 0x78 ∨ r.letter.val = 0x6F ∨ r.letter.val = 0x62 := by
    have hm := List.mem_of_find?_eq_some h
    simp only [Radix.all, List.mem_cons, List.not_mem_nil, or_false] at hm
    rcases hm with rfl | rfl | rfl <;> decide
  have hc := val_of_small (congrArg CodePoint.val hs)
  have hv : c.val ∈ [0x78, 0x6F, 0x62, 0x58, 0x4F, 0x42] := by
    simp only [List.mem_cons, List.not_mem_nil, or_false]
    omega
  have hall : ∀ v ∈ [0x78, 0x6F, 0x62, 0x58, 0x4F, 0x42], ∀ hn,
      CodePoint.continuesName ⟨v, hn⟩ = true := by
    decide +kernel
  exact hall c.val hv c.valid

theorem mem_of_radix? {a : Text} {r : Radix} (h : radix? a = some r) :
    r ∈ Radix.all ∧ ∃ letter rest, a = ('0' : CodePoint) :: letter :: rest := by
  unfold radix? at h
  split at h
  next zero letter rest =>
    split at h
    next hz =>
      subst hz
      exact ⟨List.mem_of_find?_eq_some h, letter, rest, rfl⟩
    next => cases h
  next => cases h

/-- The text in front of a numeral's end has no mark if the text that it was read from has none. -/
theorem radix?_append {v t rest : Text} (h : radix? (v ++ rest) = none) (ht : t.EndsName)
    (hv : v ≠ []) : radix? (v ++ t) = none := by
  cases v with
  | nil => exact absurd rfl hv
  | cons c v =>
    cases v with
    | cons d v => exact h
    | nil =>
      cases t with
      | nil => rfl
      | cons d t =>
        simp only [List.cons_append, List.nil_append, radix?]
        split
        · cases hr : Radix.ofLetter? d with
          | none => rfl
          | some r =>
            have hn := ht d rfl
            rw [continuesName_of_ofLetter? hr] at hn
            cases hn
        · rfl

/-- A decimal numeral that a digit starts does so with one of its own digits. -/
theorem head_decimal {a : Text} (hd : startsWithDigit a)
    (h : EndsName (a.drop (decimal a).length)) :
    ∃ c v, decimal a = c :: v ∧ c ∈ decimalDigits := by
  rcases digitRun_eq_nil_or_isGroup hd with hn | ⟨c, r, hg, hc, -⟩
  · cases a with
    | nil => cases hd
    | cons c a =>
      have hd' : c.isDigit := hd
      have hne : c ≠ '.' ∧ c ≠ 'e' ∧ c ≠ 'E' := by
        refine ⟨?_, ?_, ?_⟩ <;> (rintro rfl; revert hd'; decide +kernel)
      have he : decimal (c :: a) = [] := by
        simp [decimal, hn, fraction, exponent, hne]
      rw [he] at h
      exact absurd hd (by rw [show startsWithDigit (c :: a) = false from h.not_startsWithDigit]; simp)
  · exact ⟨c, _, by rw [decimal, hg]; rfl, hc⟩

theorem fraction_isPrefix (a : Text) : fraction a <+: a := by
  cases a with
  | nil => exact List.nil_prefix
  | cons c a =>
    simp only [fraction]
    split
    · exact List.cons_prefix_cons.mpr ⟨rfl, List.takeWhile_prefix _⟩
    · exact List.nil_prefix

theorem sign_isPrefix (a : Text) : sign a <+: a := by
  cases a with
  | nil => exact List.nil_prefix
  | cons c a =>
    simp only [sign]
    split
    · exact List.cons_prefix_cons.mpr ⟨rfl, List.nil_prefix⟩
    · exact List.nil_prefix

theorem exponent_isPrefix (a : Text) : exponent a <+: a := by
  cases a with
  | nil => exact List.nil_prefix
  | cons c a =>
    simp only [exponent]
    split
    · refine List.cons_prefix_cons.mpr ⟨rfl, ?_⟩
      have hs : sign a ++ a.drop (sign a).length = a :=
        (List.prefix_iff_eq_append.mp (sign_isPrefix a))
      have hd : digitRun decimalDigits (a.drop (sign a).length) <+: a.drop (sign a).length :=
        List.takeWhile_prefix _
      have h := (List.prefix_append_right_inj (sign a)).mpr hd
      rw [hs] at h
      exact h
    · exact List.nil_prefix

theorem decimal_isPrefix (a : Text) : decimal a <+: a := by
  simp only [decimal]
  have hw : digitRun decimalDigits a <+: a := List.takeWhile_prefix _
  generalize digitRun decimalDigits a = whole at hw ⊢
  obtain ⟨b, rfl⟩ := hw
  rw [List.drop_left, ← List.drop_drop, List.drop_left]
  have hp := fraction_isPrefix b
  generalize fraction b = part at hp ⊢
  obtain ⟨d, rfl⟩ := hp
  rw [List.drop_left, List.append_assoc]
  exact (List.prefix_append_right_inj _).mpr
    ((List.prefix_append_right_inj _).mpr (exponent_isPrefix d))

/-- The mark of a base, if it has one. -/
def mark (base : Int) : Text :=
  match Radix.ofBase? base with
  | some r => r.mark
  | none => []

theorem mark_of_mem {r : Radix} (h : r ∈ Radix.all) :
    mark r.base = r.mark ∧ r.digits ⊆ hexDigits ∧ ∀ t, radix? (r.mark ++ t) = some r := by
  simp only [Radix.all, List.mem_cons, List.not_mem_nil, or_false] at h
  rcases h with rfl | rfl | rfl <;> exact ⟨rfl, by decide, fun _ => rfl⟩

/-- A numeral that was read is read again from its mark and its digits, and a digit starts it. -/
theorem read_again {a : Text} {l : Lexeme} (hd : startsWithDigit a) (h : (read a).outcome = .ok l) :
    l.kind = .number ∧ (∃ c v, mark l.base ++ l.value = c :: v ∧ c ∈ decimalDigits) ∧
      ∀ t : Text, t.EndsName → fraction t = [] →
        read (mark l.base ++ l.value ++ t) = .found (mark l.base ++ l.value).length l := by
  unfold read at h
  split at h
  next r hr =>
    obtain ⟨hmem, -⟩ := mem_of_radix? hr
    obtain ⟨hmark, hsub, hradix⟩ := mark_of_mem hmem
    have hrun := isRun_digitRun r.digits (a.drop 2)
    generalize digitRun r.digits (a.drop 2) = digits at h hrun
    simp only at h
    split at h
    next => cases h
    next hall =>
      obtain ⟨rfl, hm, -⟩ := of_checked h
      rw [hmark]
      refine ⟨rfl, ⟨'0', [r.letter] ++ digits, rfl, by decide⟩, fun t ht _ => ?_⟩
      have hdigits : digitRun r.digits (digits ++ t) = digits :=
        digitRun_append hrun (ht.not_mem_digits hsub)
      have htwo : (r.mark ++ digits ++ t).drop 2 = digits ++ t := rfl
      rw [read, List.append_assoc, hradix]
      rw [List.append_assoc] at htwo
      simp only [htwo, hdigits]
      rw [if_neg hall, ← List.drop_drop, htwo, List.drop_left, checked_eq hm ht]
      simp only [List.length_append]
      rfl
  next hr =>
    obtain ⟨rfl, hm, he⟩ := of_checked h
    obtain ⟨c, v, hv, hc⟩ := head_decimal hd he
    obtain ⟨whole, part, scale, hdec⟩ := isDecimal_decimal he
    have hr' : radix? (decimal a ++ a.drop (decimal a).length) = none :=
      (congrArg radix? (List.prefix_iff_eq_append.mp (decimal_isPrefix a))).symm ▸ hr
    refine ⟨rfl, ⟨c, v, hv, hc⟩, fun t ht hf => ?_⟩
    have hradix := radix?_append hr' ht (by rw [hv]; simp)
    have hagain := hdec.decimal_append ht hf
    show read (decimal a ++ t) = _
    rw [read, hradix]
    simp only [hagain, List.drop_left]
    exact checked_eq hm ht _

end Numeral

end MagSyntax
