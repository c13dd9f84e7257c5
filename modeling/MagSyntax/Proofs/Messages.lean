import MagSyntax.Proofs.Numerals

/-! What messages show of a source. A quoted text is printable whatever it quotes, and so is most of what a fault shows
without quotes: numerals and letters. Only the digits of an escape are shown as they stand. And no fault of a lexeme
is that the text ends too soon for a code point to be read. -/

namespace MagSyntax

/-- The code points of ASCII from the space to the tilde. -/
theorem CodePoint.isPrintable_ascii {c : CodePoint} (hlow : 0x20 ≤ c.val) (hhigh : c.val ≤ 0x7E) :
    c.isPrintable = true := by
  unfold isPrintable
  rw [if_pos (by omega)]
  simp [hlow, hhigh]

namespace Text

/-- Every code point of the text is printable. -/
def AllPrintable (t : Text) : Prop := ∀ c ∈ t, c.isPrintable = true

instance (t : Text) : Decidable t.AllPrintable := inferInstanceAs (Decidable (∀ c ∈ t, c.isPrintable = true))

theorem allPrintable_append {s t : Text} : (s ++ t).AllPrintable ↔ s.AllPrintable ∧ t.AllPrintable :=
  List.forall_mem_append

theorem allPrintable_ofNat (n : Nat) : (ofNat n).AllPrintable := by
  intro c hc
  obtain ⟨d, hd, rfl⟩ := List.mem_map.mp hc
  have hdigit : d.isDigit := Nat.isDigit_of_mem_toDigits (by decide) (by decide) hd
  obtain ⟨hlow, hhigh⟩ : 48 ≤ (CodePoint.ofChar d).val ∧ (CodePoint.ofChar d).val ≤ 57 := by
    simp only [Char.isDigit, ge_iff_le, Bool.and_eq_true, decide_eq_true_eq] at hdigit
    exact hdigit
  exact CodePoint.isPrintable_ascii (by omega) (by omega)

theorem allPrintable_ofInt (n : Int) : (ofInt n).AllPrintable := by
  cases n with
  | ofNat n => exact allPrintable_ofNat n
  | negSucc n => exact allPrintable_append.mpr ⟨by decide, allPrintable_ofNat (n + 1)⟩

theorem allPrintable_intercalate {separator : Text} (hs : separator.AllPrintable) {texts : List Text}
    (h : ∀ t ∈ texts, t.AllPrintable) : Text.AllPrintable (List.intercalate separator texts) := by
  induction texts with
  | nil => exact fun _ => (nomatch ·)
  | cons t rest ih =>
    obtain ⟨ht, hrest⟩ := List.forall_mem_cons.mp h
    cases rest with
    | nil => rwa [List.intercalate_singleton]
    | cons u rest =>
      rw [List.intercalate_cons_cons, allPrintable_append, allPrintable_append]
      exact ⟨⟨ht, hs⟩, ih hrest⟩

theorem allPrintable_hexDigits (width n : Nat) : (hexDigits width n).AllPrintable := by
  induction width generalizing n with
  | zero => exact fun _ => (nomatch ·)
  | succ width ih =>
    have hdigits : ∀ d : Fin 16, (hexDigit d : CodePoint).isPrintable = true := by decide
    refine allPrintable_append.mpr ⟨ih _, List.forall_mem_singleton.mpr ?_⟩
    exact hdigits ⟨n % 16, Nat.mod_lt _ (by decide)⟩

/-- A quoted text is printable, and so on one line. -/
theorem allPrintable_quoted (t : Text) : t.quoted.AllPrintable := by
  have hquote : (quoteFor t).isPrintable = true := by
    unfold quoteFor
    split <;> decide
  have hpoint (c : CodePoint) : (quotedPoint (quoteFor t) c).AllPrintable := by
    unfold quotedPoint
    refine iteInduction (fun h => ?_) fun _ => iteInduction (fun _ => by decide) fun _ =>
      iteInduction (fun _ => by decide) fun _ => iteInduction (fun _ => by decide) fun _ =>
      iteInduction (fun h => List.forall_mem_singleton.mpr h) fun _ =>
      iteInduction (fun _ => allPrintable_append.mpr ⟨by decide, allPrintable_hexDigits 2 _⟩) fun _ =>
      iteInduction (fun _ => allPrintable_append.mpr ⟨by decide, allPrintable_hexDigits 4 _⟩) fun _ =>
        allPrintable_append.mpr ⟨by decide, allPrintable_hexDigits 8 _⟩
    have hc : c.isPrintable = true := by
      rcases (by simpa using h) with rfl | rfl
      · decide
      · exact hquote
    exact List.forall_mem_cons.mpr ⟨by decide, List.forall_mem_singleton.mpr hc⟩
  refine allPrintable_append.mpr ⟨allPrintable_append.mpr ⟨List.forall_mem_singleton.mpr hquote, fun c hc => ?_⟩,
    List.forall_mem_singleton.mpr hquote⟩
  obtain ⟨d, -, hd⟩ := List.mem_flatMap.mp hc
  exact hpoint d c hd

end Text

open Text

/-- The fault is in code points that are there, and what it shows of them without quotes is printable, unless it is an
escape. -/
def Fault.IsTidy : Fault → Prop
  | .endOfSource => False
  | .missingDigits radix => radix.isPrintable = true
  | .misplacedSeparator numeral => numeral.AllPrintable
  | _ => True

theorem Fault.IsTidy.allPrintable {fault : Fault} (h : fault.IsTidy) (hn : ∀ digits, fault ≠ .malformedEscape digits) :
    fault.message.AllPrintable := by
  cases fault with
  | missingDigits radix =>
    exact allPrintable_append.mpr ⟨allPrintable_append.mpr ⟨by decide, List.forall_mem_singleton.mpr h⟩, by decide⟩
  | misplacedSeparator numeral =>
    exact allPrintable_append.mpr ⟨allPrintable_append.mpr ⟨by decide, h⟩, by decide⟩
  | strayInNumeral stray =>
    exact allPrintable_append.mpr ⟨allPrintable_append.mpr ⟨by decide, allPrintable_quoted _⟩, by decide⟩
  | badFlag letter => exact allPrintable_append.mpr ⟨by decide, allPrintable_quoted _⟩
  | unexpected point => exact allPrintable_append.mpr ⟨by decide, allPrintable_quoted _⟩
  | malformedEscape digits => exact absurd rfl (hn digits)
  | _ => decide

namespace Reading

variable {α β : Type} {r : Reading α}

/-- The reading shows only what is printable, or an escape, if it fails. -/
def IsTidy (r : Reading α) : Prop := ∀ fault, r.outcome = .error fault → fault.IsTidy

theorem isTidy_found (n : Nat) (v : α) : (found n v).IsTidy := fun _ h => nomatch h

theorem isTidy_failed {n : Nat} {fault : Fault} (h : fault.IsTidy) : (failed n fault : Reading α).IsTidy := by
  rintro _ ⟨⟩
  exact h

theorem IsTidy.behind (h : r.IsTidy) (n : Nat) : (r.behind n).IsTidy := h

theorem IsTidy.map (h : r.IsTidy) (f : α → β) : (r.map f).IsTidy := by
  obtain ⟨n, fault | v⟩ := r
  · rintro _ ⟨⟩
    exact h fault rfl
  · exact isTidy_found n (f v)

end Reading

namespace StringLiteral

open Reading

theorem isTidy_decodeHex (digits : Text) (n : Nat) : Reading.IsTidy ⟨n, decodeHex digits⟩ := by
  unfold decodeHex
  split
  · exact isTidy_failed (by trivial)
  · split
    · exact isTidy_found _ _
    · exact isTidy_failed (by trivial)

theorem isTidy_fixedEscape (width : Nat) (ahead : Text) : (fixedEscape width ahead).IsTidy := by
  unfold fixedEscape
  dsimp only
  split
  · exact isTidy_decodeHex _ _
  · exact isTidy_failed (by trivial)

/-- An escape is read where something stands behind the backslash. -/
theorem isTidy_escape (c : CodePoint) (rest : Text) : (escape (c :: rest)).IsTidy := by
  rw [escape]
  cases simpleEscapes.lookup c with
  | some value => exact isTidy_found _ _
  | none =>
    dsimp only
    refine iteInduction (fun _ => isTidy_fixedEscape 2 rest) fun _ => iteInduction (fun _ => ?_) fun _ =>
      isTidy_found _ _
    refine iteInduction (fun _ => ?_) fun _ => isTidy_fixedEscape 4 rest
    unfold bracedEscape
    dsimp only
    split
    · exact isTidy_decodeHex _ _
    · exact isTidy_failed (by trivial)

theorem isTidy_body (quote : CodePoint) (pending : Nat) (ahead : Text) : (body quote pending ahead).IsTidy := by
  fun_induction body quote pending ahead with
  | case1 | case4 | case5 => exact isTidy_failed (by trivial)
  | case2 _ _ _ ih => exact ih.behind 1
  | case3 => exact isTidy_found _ _
  | case6 _ _ _ _ _ _ ih | case8 _ _ _ _ _ ih => exact ih.map _
  | case7 rest hrest fault hfault =>
    cases rest with
    | nil => exact absurd rfl hrest
    | cons c rest => exact isTidy_failed (isTidy_escape c rest fault hfault)

theorem isTidy_read (quote : CodePoint) (rest : Text) : (read (quote :: rest)).IsTidy :=
  (isTidy_body quote 0 rest).map _

end StringLiteral

namespace Regex

open Reading

theorem isTidy_body (inClass : Bool) (ahead : Text) : (body inClass ahead).IsTidy := by
  fun_induction body inClass ahead with
  | case1 | case2 | case4 | case5 => exact isTidy_failed (by trivial)
  | case3 => exact isTidy_found _ _
  | case6 _ _ _ _ _ _ ih | case7 _ _ _ _ _ _ ih => exact ih.map _

theorem isTidy_flags (seen ahead : Text) : (flags seen ahead).IsTidy := by
  induction ahead generalizing seen with
  | nil => exact isTidy_found _ _
  | cons c rest ih =>
    rw [flags]
    exact iteInduction (fun _ => iteInduction (fun _ => (ih _).map _) fun _ => isTidy_failed (by trivial)) fun _ =>
      isTidy_found _ _

theorem isTidy_read (slash : CodePoint) (rest : Text) : (read (slash :: rest)).IsTidy := by
  simp only [read]
  cases hp : (body false rest).outcome with
  | error fault => exact isTidy_failed (isTidy_body false rest fault hp)
  | ok value => exact (isTidy_flags [] _).map _

end Regex

namespace Numeral

open Reading

theorem allPrintable_digitRun {digits : Text} (h : digits.AllPrintable) (ahead : Text) :
    (digitRun digits ahead).AllPrintable := by
  intro c hc
  obtain hmem | rfl : c ∈ digits ∨ c = CodePoint.ofChar '_' := by simpa using isRun_digitRun digits ahead c hc
  · exact h c hmem
  · decide

theorem allPrintable_decimalDigits : decimalDigits.AllPrintable := by decide

theorem allPrintable_fraction (ahead : Text) : (fraction ahead).AllPrintable := by
  cases ahead with
  | nil => exact fun _ => (nomatch ·)
  | cons c rest =>
    refine iteInduction (fun h => ?_) fun _ _ => (nomatch ·)
    obtain ⟨rfl, -⟩ : c = CodePoint.ofChar '.' ∧ _ := by simpa using h
    exact List.forall_mem_cons.mpr ⟨by decide, allPrintable_digitRun allPrintable_decimalDigits _⟩

theorem allPrintable_sign (ahead : Text) : (sign ahead).AllPrintable := by
  cases ahead with
  | nil => exact fun _ => (nomatch ·)
  | cons c rest =>
    refine iteInduction (fun h => List.forall_mem_singleton.mpr ?_) fun _ _ => (nomatch ·)
    obtain rfl | rfl : c = CodePoint.ofChar '+' ∨ c = CodePoint.ofChar '-' := by simpa using h
    · decide
    · decide

theorem allPrintable_exponent (ahead : Text) : (exponent ahead).AllPrintable := by
  cases ahead with
  | nil => exact fun _ => (nomatch ·)
  | cons c rest =>
    refine iteInduction (fun h => ?_) fun _ _ => (nomatch ·)
    obtain ⟨hc, -⟩ : (c = CodePoint.ofChar 'e' ∨ c = CodePoint.ofChar 'E') ∧ _ := by simpa using h
    have hletter : c.isPrintable = true := by
      rcases hc with rfl | rfl
      · decide
      · decide
    exact List.forall_mem_cons.mpr ⟨hletter, allPrintable_append.mpr
      ⟨allPrintable_sign rest, allPrintable_digitRun allPrintable_decimalDigits _⟩⟩

theorem isTidy_checked {value : Text} (h : value.AllPrintable) (taken base : Nat) (rest : Text) :
    (checked taken base value rest).IsTidy := by
  unfold checked
  refine iteInduction (fun _ => isTidy_failed h) fun _ => ?_
  cases rest.head? with
  | none => exact isTidy_found _ _
  | some c => exact iteInduction (fun _ => isTidy_failed (by trivial)) fun _ => isTidy_found _ _

theorem isTidy_read (ahead : Text) : (read ahead).IsTidy := by
  unfold read
  cases hr : radix? ahead with
  | none =>
    have hpart := allPrintable_fraction (ahead.drop (digitRun decimalDigits ahead).length)
    exact isTidy_checked (allPrintable_append.mpr ⟨allPrintable_append.mpr
      ⟨allPrintable_digitRun allPrintable_decimalDigits _, hpart⟩, allPrintable_exponent _⟩) _ _ _
  | some radix =>
    have hall : ∀ r ∈ Radix.all, r.letter.isPrintable = true ∧ r.digits.AllPrintable := by decide
    obtain ⟨hletter, hdigits⟩ := hall radix (mem_of_radix? hr).1
    exact iteInduction (fun _ => isTidy_failed hletter) fun _ => isTidy_checked (allPrintable_digitRun hdigits _) _ _ _

end Numeral

/-- A lexeme that cannot be read has a fault in code points that are there, reported with what is printable or with an
escape. -/
theorem Lexeme.isTidy_read (regexAllowed : Bool) (ahead : Text) : (read regexAllowed ahead).IsTidy := by
  cases ahead with
  | nil => exact Reading.isTidy_found _ _
  | cons c rest =>
    rw [read]
    refine iteInduction (fun _ => Reading.isTidy_found _ _) fun _ =>
      iteInduction (fun _ => Numeral.isTidy_read _) fun _ =>
      iteInduction (fun _ => StringLiteral.isTidy_read c rest) fun _ =>
      iteInduction (fun _ => Regex.isTidy_read c rest) fun _ => ?_
    cases Symbol.longest? (c :: rest) with
    | some symbol => exact Reading.isTidy_found _ _
    | none => exact Reading.isTidy_failed (by trivial)

end MagSyntax
