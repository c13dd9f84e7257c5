import Mathlib.Data.List.Forall2
import MagSyntax.Json
import MagSyntax.Proofs.Legible

/-! A reader of JSON texts, and what it makes of the texts that values are written as. It knows white space between
all parts, every escape, and integers; a number with a fraction or an exponent is no value here and is refused. Keys
stay in order. Whatever the layout, the text of a value is read as that value. -/

namespace MagSyntax.Json

/-- White space between the parts of a text. -/
def isSpace (c : CodePoint) : Bool := c = ' ' || c = '\t' || c = '\n' || c = '\r'

/-- The text behind the white space at its front. -/
def skipSpace (t : Text) : Text := t.dropWhile isSpace

/-- The text behind a mark, before which white space may stand. -/
def behind? (mark : CodePoint) (t : Text) : Option Text :=
  match skipSpace t with
  | [] => none
  | c :: rest => if c = mark then some rest else none

/-- A decimal digit. -/
def isDigit (c : CodePoint) : Bool := 0x30 ≤ c.val && c.val ≤ 0x39

/-- Reads something at the front of a text, and gives the rest of the text too. -/
abbrev Reader (α : Type) := Text → Option (α × Text)

namespace Reader

variable {α β : Type}

/-- The reader with its result changed. -/
def map (f : α → β) (r : Reader α) : Reader β := fun t => (r t).map (Prod.map f id)

/-- Reads items with commas between them and the bracket that closes them: at least one item, and at most `count`. -/
def items (one : Reader α) (closing : CodePoint) : (count : Nat) → Reader (List α)
  | 0, _ => none
  | count + 1, t => do
    let (item, rest) ← one t
    match behind? closing rest with
    | some later => some ([item], later)
    | none => ((items one closing count).map (item :: ·)) (← behind? ',' rest)

/-- Reads what follows an opening bracket, up to the one that closes it. -/
def enclosed (one : Reader α) (closing : CodePoint) : Reader (List α) := fun t =>
  items one closing t.length t <|> (behind? closing t).map ([], ·)

/-- The letters of the escapes and what they stand for. -/
def escapes : List (CodePoint × CodePoint) :=
  [('"', '"'), ('\\', '\\'), ('/', '/'), ('b', '\x08'), ('f', '\x0c'), ('n', '\n'), ('r', '\r'), ('t', '\t')]

/-- The code point that the four hexadecimal digits at the front of a text name. -/
def unit? (t : Text) : Option CodePoint :=
  if (t.take 4).length = 4 then (StringLiteral.decodeHex (t.take 4)).toOption else none

/-- The code point that two halves of a surrogate pair make. -/
def joined? (high low : CodePoint) : Option CodePoint :=
  if 0xD800 ≤ high.val ∧ high.val < 0xDC00 ∧ 0xDC00 ≤ low.val ∧ low.val < 0xE000 then
    CodePoint.ofNat? (0x10000 + (high.val - 0xD800) * 0x400 + (low.val - 0xDC00))
  else none

/-- What an escape stands for that starts behind its `u`, and how many code points it takes from there. -/
def unicode? (t : Text) : Option (CodePoint × Nat) := do
  let first ← unit? t
  let second := if (Text.ofString "\\u").isPrefixOf (t.drop 4) then unit? (t.drop 6) else none
  match second.bind (joined? first) with
  | some c => some (c, 10)
  | none => some (first, 4)

/-- What an escape stands for, and how many code points it takes behind its backslash. -/
def escape? : Text → Option (CodePoint × Nat)
  | [] => none
  | c :: rest =>
    match escapes.lookup c with
    | some value => some (value, 1)
    | none => if c = 'u' then (unicode? rest).map (Prod.map id (· + 1)) else none

/-- Reads a string up to the quote that closes it. The first `pending` code points belong to an escape that has been
read already. -/
def string : (pending : Nat) → Reader Text
  | _, [] => none
  | pending + 1, _ :: rest => string pending rest
  | 0, c :: rest =>
    if c = '"' then some ([], rest)
    else if c = '\\' then
      match escape? rest with
      | none => none
      | some (value, taken) => (string taken rest).map (Prod.map (value :: ·) id)
    else if c.val < 0x20 then none
    else (string 0 rest).map (Prod.map (c :: ·) id)

/-- Reads a natural number, which has no needless zero in front. -/
def natural : Reader Nat := fun t =>
  let digits := t.takeWhile isDigit
  if digits.isEmpty || (digits.head? = some (CodePoint.ofChar '0') && 1 < digits.length) then none
  else some (digits.foldl (fun n c => 10 * n + (c.val - 0x30)) 0, t.drop digits.length)

/-- Reads an integer. -/
def integer : Reader Int
  | [] => none
  | c :: rest =>
    if c = '-' then (natural.map fun n : Nat => -(n : Int)) rest
    else (natural.map fun n : Nat => (n : Int)) (c :: rest)

/-- The words that are values. -/
def words : List (Text × Json) := [("null", .null), ("true", .bool true), ("false", .bool false)]

/-- Reads a word that is a value. -/
def word : Reader Json := fun t =>
  (words.find? fun w => w.1.isPrefixOf t).map fun w => (w.2, t.drop w.1.length)

/-- Reads a member of an object. -/
def member (value : Reader Json) : Reader (Text × Json) := fun t => do
  let (key, later) ← string 0 (← behind? '"' t)
  (value.map (key, ·)) (← behind? ':' later)

/-- Reads a value in which fewer than `depth` brackets are open at once. -/
def value : (depth : Nat) → Reader Json
  | 0, _ => none
  | depth + 1, t =>
    match skipSpace t with
    | [] => none
    | c :: rest =>
      if c = '"' then ((string 0).map Json.string) rest
      else if c = '[' then ((enclosed (value depth) ']').map Json.list) rest
      else if c = '\x7b' then ((enclosed (member (value depth)) '\x7d').map Json.object) rest
      else if c = '-' || isDigit c then (integer.map Json.int) (c :: rest)
      else word (c :: rest)

end Reader

/-- The value that a text is, if it is one, with white space around it. -/
def read? (t : Text) : Option Json :=
  match Reader.value (t.length + 1) t with
  | some (value, rest) => if (skipSpace rest).isEmpty then some value else none
  | none => none

/-- No digit stands at the front of the text, so a number in front of it ends there. -/
def EndsDigits (t : Text) : Prop := ∀ c ∈ t.head?, isDigit c = false

theorem skipSpace_append {gap : Text} (h : ∀ c ∈ gap, isSpace c) (t : Text) : skipSpace (gap ++ t) = skipSpace t :=
  List.dropWhile_append_of_pos h

theorem skipSpace_cons {c : CodePoint} (h : isSpace c = false) (t : Text) : skipSpace (c :: t) = c :: t :=
  List.dropWhile_cons_of_neg (by simp [h])

theorem behind?_append {gap : Text} (h : ∀ c ∈ gap, isSpace c) (mark : CodePoint) (t : Text) :
    behind? mark (gap ++ t) = behind? mark t := by
  rw [behind?, skipSpace_append h, behind?]

theorem behind?_cons {mark c : CodePoint} (h : isSpace c = false) (t : Text) :
    behind? mark (c :: t) = if c = mark then some t else none := by
  rw [behind?, skipSpace_cons h]

theorem endsDigits_cons {c : CodePoint} (h : isDigit c = false) (t : Text) : EndsDigits (c :: t) := by
  rintro d ⟨⟩
  exact h

/-- White space ends a number, and without white space it is what stands behind it. -/
theorem endsDigits_append {gap t : Text} (hgap : ∀ c ∈ gap, isSpace c) (h : EndsDigits t) : EndsDigits (gap ++ t) := by
  cases gap with
  | nil => exact h
  | cons c gap =>
    have hc := hgap c List.mem_cons_self
    simp only [isSpace, Bool.or_eq_true, decide_eq_true_eq] at hc
    refine endsDigits_cons ?_ _
    rcases hc with ((rfl | rfl) | rfl) | rfl <;> rfl

theorem stringText_append (s t : Text) :
    stringText s ++ t = ('"' : CodePoint) :: (s.flatMap stringPoint ++ ('"' : CodePoint) :: t) := by
  simp only [stringText, List.append_assoc]
  rfl

theorem length_le_intercalate (sep : Text) {texts : List Text} {s : Text} (h : s ∈ texts) :
    s.length ≤ (List.intercalate sep texts).length := by
  induction texts with
  | nil => cases h
  | cons first texts ih =>
    cases texts with
    | nil => exact Nat.le_of_eq (by rw [List.intercalate_singleton, List.mem_singleton.mp h])
    | cons second texts =>
      rw [List.intercalate_cons_cons, List.length_append, List.length_append]
      rcases List.mem_cons.mp h with rfl | h
      · omega
      · have := ih h
        omega

theorem count_le_intercalate (sep : Text) (hsep : sep ≠ []) (texts : List Text) :
    texts.length ≤ (List.intercalate sep texts).length + 1 := by
  induction texts with
  | nil => exact Nat.zero_le _
  | cons first texts ih =>
    cases texts with
    | nil => exact Nat.le_add_left _ _
    | cons second texts =>
      have := List.length_pos_iff.mpr hsep
      rw [List.intercalate_cons_cons, List.length_append, List.length_append, List.length_cons]
      omega

namespace Layout

theorem isSpace_lineBreak (layout : Layout) (level : Nat) : ∀ c ∈ layout.lineBreak level, isSpace c := by
  cases layout with
  | oneLine => exact fun c hc => nomatch hc
  | lines width =>
    intro c hc
    rcases List.mem_cons.mp hc with rfl | hc
    · rfl
    · rw [List.eq_of_mem_replicate hc]
      rfl

/-- A comma stands between two items, with white space behind it. -/
theorem separator_eq (layout : Layout) (level : Nat) :
    ∃ gap : Text, layout.separator level = CodePoint.ofChar ',' :: gap ∧ ∀ c ∈ gap, isSpace c := by
  cases layout with
  | oneLine => exact ⟨" ", rfl, by decide⟩
  | lines width => exact ⟨_, rfl, isSpace_lineBreak (.lines width) level⟩

theorem length_le_enclosed (layout : Layout) (level : Nat) (opening closing : CodePoint) {texts : List Text} {s : Text}
    (h : s ∈ texts) : s.length + 2 ≤ (layout.enclosed level opening closing texts).length := by
  have hne : ¬texts.isEmpty := by
    rw [List.isEmpty_iff]
    exact List.ne_nil_of_mem h
  have := length_le_intercalate (layout.separator (level + 1)) h
  rw [enclosed, if_neg hne]
  simp only [List.length_append, List.length_cons, List.length_nil]
  omega

end Layout

namespace Reader

variable {α β : Type}

/-- The reader takes exactly this text for the value, with white space before it and anything but a digit behind. -/
def Takes (r : Reader α) (s : Text) (a : α) : Prop :=
  ∀ gap rest : Text, (∀ c ∈ gap, isSpace c) → EndsDigits rest → r (gap ++ (s ++ rest)) = some (a, rest)

theorem Takes.map {r : Reader α} {s : Text} {a : α} (h : Takes r s a) (f : α → β) : Takes (r.map f) s (f a) := by
  intro gap rest hgap hrest
  rw [Reader.map, h gap rest hgap hrest]
  rfl

section Strings

/-- In a string the text is read as one code point. -/
def IsPoint (c : CodePoint) (s : Text) : Prop :=
  ∀ t, string 0 (s ++ t) = (string 0 t).map (Prod.map (c :: ·) id)

theorem string_pending (e t : Text) : string e.length (e ++ t) = string 0 t := by
  induction e with
  | nil => rfl
  | cons c e ih => exact ih

theorem isPoint_escape {e : Text} {c : CodePoint} (h : ∀ t, escape? (e ++ t) = some (c, e.length)) :
    IsPoint c (('\\' : CodePoint) :: e) := by
  intro t
  rw [List.cons_append, string, if_neg (by decide), if_pos rfl, h t]
  simp only [string_pending]

theorem isPoint_letter {c d e : CodePoint} (h : c = d) (he : escapes.lookup e = some d) :
    IsPoint c [('\\' : CodePoint), e] := by
  refine isPoint_escape fun t => ?_
  rw [List.singleton_append, escape?, he, h]
  rfl

theorem unit?_hexDigits (v : Nat) (h : v < 0x20) (hv : v < 0x110000) (t : Text) :
    unit? (Text.hexDigits 4 v ++ t) = some ⟨v, hv⟩ := by
  have hall : ∀ w : Fin 0x20, (StringLiteral.decodeHex (Text.hexDigits 4 w.val)).toOption =
      CodePoint.ofNat? w.val := by
    decide +kernel
  have htake : (Text.hexDigits 4 v ++ t).take 4 = Text.hexDigits 4 v := rfl
  have hlength : (Text.hexDigits 4 v).length = 4 := rfl
  rw [unit?, htake, if_pos hlength, hall ⟨v, h⟩, CodePoint.ofNat?, dif_pos hv]

theorem escape?_hex {c : CodePoint} (h : c.val < 0x20) (t : Text) :
    escape? ("u" ++ Text.hexDigits 4 c.val ++ t) = some (c, 5) := by
  -- what stands for no half of a pair is joined with nothing, whatever comes behind
  have hjoin : joined? c = fun _ => none := by
    funext low
    exact if_neg fun hp => by omega
  have hunicode : unicode? (Text.hexDigits 4 c.val ++ t) = some (c, 4) := by
    simp [unicode?, unit?_hexDigits c.val h c.valid, hjoin]
  show (unicode? (Text.hexDigits 4 c.val ++ t)).map (Prod.map id (· + 1)) = _
  rw [hunicode]
  rfl

/-- A code point is read back from what is written for it. -/
theorem isPoint_stringPoint (c : CodePoint) : IsPoint c (stringPoint c) := by
  unfold stringPoint
  refine iteInduction (fun h => isPoint_letter h rfl) fun hq => ?_
  refine iteInduction (fun h => isPoint_letter h rfl) fun hb => ?_
  -- five more escapes of one letter
  iterate 5 refine iteInduction (fun h => isPoint_letter h rfl) fun _ => ?_
  refine iteInduction (fun h => isPoint_escape (e := "u" ++ Text.hexDigits 4 c.val) (escape?_hex h)) fun hv => ?_
  intro t
  rw [List.singleton_append, string, if_neg hq, if_neg hb, if_neg hv]

theorem string_flatMap (value t : Text) :
    string 0 (value.flatMap stringPoint ++ ('"' : CodePoint) :: t) = some (value, t) := by
  induction value with
  | nil => rfl
  | cons c value ih =>
    rw [List.flatMap_cons, List.append_assoc, isPoint_stringPoint, ih]
    rfl

end Strings

section Integers

theorem isDigit_ofNat (n : Nat) : ∀ c ∈ Text.ofNat n, isDigit c := by
  intro c hc
  obtain ⟨d, hd, rfl⟩ := List.mem_map.mp hc
  have h : d.isDigit := Nat.isDigit_of_mem_toDigits (by decide) (by decide) hd
  simp only [Char.isDigit, ge_iff_le, Bool.and_eq_true, decide_eq_true_eq] at h
  simp only [isDigit, Bool.and_eq_true, decide_eq_true_eq]
  exact h

/-- No needless zero stands in front of a number. -/
theorem head?_toDigits {n : Nat} (h : 0 < n) : (Nat.toDigits 10 n).head? ≠ some '0' := by
  induction n using Nat.strongRecOn with
  | ind n ih =>
    rcases Nat.lt_or_ge n 10 with hn | hn
    · rw [Nat.toDigits_of_lt_base hn, List.head?_cons, Ne, Option.some_inj, Nat.digitChar_eq_zero]
      exact Nat.ne_of_gt h
    · have hdiv := ih (n / 10) (by omega) (by omega)
      rwa [Nat.toDigits_of_base_le (by decide) hn, List.head?_append_of_ne_nil _ Nat.toDigits_ne_nil]

theorem length_ofNat_of_zero {n : Nat} (h : (Text.ofNat n).head? = some (CodePoint.ofChar '0')) :
    (Text.ofNat n).length = 1 := by
  rcases Nat.eq_zero_or_pos n with rfl | hn
  · rfl
  · rw [Text.ofNat, List.head?_map, Option.map_eq_some_iff] at h
    obtain ⟨c, hc, hzero⟩ := h
    rw [CodePoint.ofChar_injective hzero] at hc
    exact absurd hc (head?_toDigits hn)

theorem takeWhile_ofNat (n : Nat) {rest : Text} (h : EndsDigits rest) :
    (Text.ofNat n ++ rest).takeWhile isDigit = Text.ofNat n := by
  rw [List.takeWhile_append_of_pos (isDigit_ofNat n)]
  cases rest with
  | nil => exact List.append_nil _
  | cons c rest => rw [List.takeWhile_cons_of_neg (by simp [h c rfl]), List.append_nil]

theorem foldl_ofNat (n : Nat) : (Text.ofNat n).foldl (fun m c => 10 * m + (c.val - 0x30)) 0 = n := by
  rw [Text.ofNat, List.foldl_map]
  exact Nat.ofDigitChars_toDigits (by decide) (by decide)

theorem ofNat_ne_nil (n : Nat) : Text.ofNat n ≠ [] := fun h => Nat.toDigits_ne_nil (List.map_eq_nil_iff.mp h)

theorem natural_ofNat (n : Nat) {rest : Text} (h : EndsDigits rest) :
    natural (Text.ofNat n ++ rest) = some (n, rest) := by
  have hread : ¬((Text.ofNat n).isEmpty || ((Text.ofNat n).head? = some (CodePoint.ofChar '0') &&
      1 < (Text.ofNat n).length)) := by
    simp only [Bool.or_eq_true, Bool.and_eq_true, decide_eq_true_eq, List.isEmpty_iff]
    rintro (hnil | ⟨hzero, hlength⟩)
    · exact ofNat_ne_nil n hnil
    · exact absurd (length_ofNat_of_zero hzero) (Nat.ne_of_gt hlength)
  simp only [natural, takeWhile_ofNat n h]
  rw [if_neg hread, foldl_ofNat, List.drop_left]

/-- The text of a natural number starts with a digit. -/
theorem ofNat_eq_cons (n : Nat) : ∃ c t, Text.ofNat n = c :: t ∧ isDigit c := by
  obtain ⟨c, t, h⟩ := List.exists_cons_of_ne_nil (ofNat_ne_nil n)
  exact ⟨c, t, h, isDigit_ofNat n c (h ▸ List.mem_cons_self)⟩

/-- The text of an integer starts with a sign or a digit. -/
theorem ofInt_eq_cons (n : Int) : ∃ c t, Text.ofInt n = c :: t ∧ (c = '-' || isDigit c) := by
  cases n with
  | ofNat n =>
    obtain ⟨c, t, h, hc⟩ := ofNat_eq_cons n
    exact ⟨c, t, h, Bool.or_eq_true_iff.mpr (.inr hc)⟩
  | negSucc n => exact ⟨_, _, rfl, rfl⟩

theorem integer_ofInt (n : Int) {rest : Text} (h : EndsDigits rest) :
    integer (Text.ofInt n ++ rest) = some (n, rest) := by
  cases n with
  | ofNat n =>
    obtain ⟨c, t, hn, hc⟩ := ofNat_eq_cons n
    have hsign : c ≠ '-' := by
      rintro rfl
      exact absurd hc (by decide)
    have hread := natural_ofNat n h
    rw [hn, List.cons_append] at hread
    rw [Text.ofInt, hn, List.cons_append, integer, if_neg hsign, map, hread]
    rfl
  | negSucc n =>
    show (natural.map fun n : Nat => -(n : Int)) (Text.ofNat (n + 1) ++ rest) = _
    rw [map, natural_ofNat (n + 1) h]
    rfl

end Integers

section Brackets

/-- A code point that can close brackets: no comma, no digit and no white space. -/
structure IsClosing (c : CodePoint) : Prop where
  space : isSpace c = false
  digit : isDigit c = false
  comma : c ≠ ','

variable {one : Reader α} {closing : CodePoint} {before after gap : Text}

/-- Items are read up to the bracket behind them, with white space before each of them and before the bracket. -/
theorem items_intercalate (hclosing : IsClosing closing) (hafter : ∀ c ∈ after, isSpace c)
    (hgap : ∀ c ∈ gap, isSpace c) {texts : List Text} {values : List α} (h : List.Forall₂ (Takes one) texts values)
    (hne : texts ≠ []) {count : Nat} (hcount : texts.length ≤ count) (hbefore : ∀ c ∈ before, isSpace c)
    (rest : Text) :
    items one closing count
        (before ++ (List.intercalate (CodePoint.ofChar ',' :: gap) texts ++ (after ++ closing :: rest))) =
      some (values, rest) := by
  induction h generalizing before count with
  | nil => exact absurd rfl hne
  | @cons s a texts values hs hrest ih =>
    obtain ⟨count, rfl⟩ := Nat.exists_eq_add_of_le' (Nat.le_trans (Nat.succ_le_succ (Nat.zero_le _)) hcount)
    -- a number as the last item ends at the bracket, and one before it at a comma
    have hends : EndsDigits (after ++ closing :: rest) := endsDigits_append hafter (endsDigits_cons hclosing.digit rest)
    cases hrest with
    | nil =>
      rw [List.intercalate_singleton, items, hs before _ hbefore hends]
      simp only [Option.bind_eq_bind, Option.bind_some]
      rw [behind?_append hafter, behind?_cons hclosing.space, if_pos rfl]
    | @cons s' a' texts values hs' hrest =>
      have hlater := ih (List.cons_ne_nil _ _) (Nat.le_of_succ_le_succ hcount) hgap
      rw [List.intercalate_cons_cons, List.append_assoc, List.append_assoc, List.cons_append, items,
        hs before _ hbefore (endsDigits_cons rfl _)]
      simp only [Option.bind_eq_bind, Option.bind_some]
      rw [behind?_cons rfl, if_neg hclosing.comma.symm, behind?_cons rfl, if_pos rfl]
      simp only [Option.bind_some]
      rw [Reader.map, hlater]
      rfl

/-- What is written between brackets is read up to the closing one. -/
theorem enclosed_write {one : Reader α} {opening closing : CodePoint} (hclosing : IsClosing closing)
    (hone : ∀ t, one (closing :: t) = none) (layout : Layout) (level : Nat) {texts : List Text} {values : List α}
    (h : List.Forall₂ (Takes one) texts values) (rest : Text) :
    ∃ t, layout.enclosed level opening closing texts ++ rest = opening :: t ∧
      enclosed one closing t = some (values, rest) := by
  cases h with
  | nil =>
    refine ⟨closing :: rest, rfl, ?_⟩
    rw [enclosed, List.length_cons, items, hone, behind?_cons hclosing.space, if_pos rfl]
    rfl
  | @cons s a texts values hs h =>
    obtain ⟨gap, hsep, hgap⟩ := layout.separator_eq (level + 1)
    refine ⟨layout.lineBreak (level + 1) ++ (List.intercalate (layout.separator (level + 1)) (s :: texts) ++
      (layout.lineBreak level ++ closing :: rest)), ?_, ?_⟩
    · simp [Layout.enclosed]
    · have hcount : (s :: texts).length ≤ (layout.lineBreak (level + 1) ++
          (List.intercalate (layout.separator (level + 1)) (s :: texts) ++
            (layout.lineBreak level ++ closing :: rest))).length := by
        have := count_le_intercalate (layout.separator (level + 1)) (by simp [hsep]) (s :: texts)
        simp only [List.length_append, List.length_cons] at this ⊢
        omega
      rw [enclosed]
      rw [hsep] at hcount ⊢
      rw [items_intercalate hclosing (layout.isSpace_lineBreak level) hgap (.cons hs h) (List.cons_ne_nil _ _) hcount
        (layout.isSpace_lineBreak (level + 1))]
      rfl

end Brackets

section Values

theorem value_append {gap : Text} (h : ∀ c ∈ gap, isSpace c) (depth : Nat) (t : Text) :
    value depth (gap ++ t) = value depth t := by
  cases depth with
  | zero => rfl
  | succ depth => rw [value, skipSpace_append h, value]

/-- White space before a value does not matter. -/
theorem takes_value {depth : Nat} {s : Text} {v : Json}
    (h : ∀ rest, EndsDigits rest → value depth (s ++ rest) = some (v, rest)) : Takes (value depth) s v := by
  intro gap rest hgap hrest
  rw [value_append hgap, h rest hrest]

theorem value_closing (depth : Nat) (t : Text) : value depth (CodePoint.ofChar ']' :: t) = none := by
  cases depth with
  | zero => rfl
  | succ depth => rfl

theorem member_closing (one : Reader Json) (t : Text) : member one (CodePoint.ofChar '\x7d' :: t) = none := rfl

theorem takes_member {one : Reader Json} {s : Text} {v : Json} (h : Takes one s v) (key : Text) :
    Takes (member one) (stringText key ++ ": " ++ s) (key, v) := by
  intro gap rest hgap hrest
  rw [member, behind?_append hgap, List.append_assoc, List.append_assoc, stringText_append, behind?_cons rfl,
    if_pos rfl]
  simp only [Option.bind_eq_bind, Option.bind_some, string_flatMap]
  show (behind? ':' (CodePoint.ofChar ':' :: ([CodePoint.ofChar ' '] ++ (s ++ rest)))).bind _ = _
  rw [behind?_cons rfl, if_pos rfl, Option.bind_some]
  exact (h.map _) _ rest (by decide) hrest

theorem value_string (depth : Nat) (t : Text) :
    value (depth + 1) (CodePoint.ofChar '"' :: t) = ((string 0).map Json.string) t := rfl

theorem value_list (depth : Nat) (t : Text) :
    value (depth + 1) (CodePoint.ofChar '[' :: t) = ((enclosed (value depth) ']').map Json.list) t := rfl

theorem value_object (depth : Nat) (t : Text) :
    value (depth + 1) (CodePoint.ofChar '\x7b' :: t) =
      ((enclosed (member (value depth)) '\x7d').map Json.object) t := rfl

theorem value_int (depth : Nat) {c : CodePoint} (h : c = '-' || isDigit c) (t : Text) :
    value (depth + 1) (c :: t) = (integer.map Json.int) (c :: t) := by
  have hne : isSpace c = false ∧ c ≠ '"' ∧ c ≠ '[' ∧ c ≠ '\x7b' := by
    refine ⟨Bool.eq_false_iff.mpr fun hs => ?_, ?_, ?_, ?_⟩
    · simp only [isSpace, Bool.or_eq_true, decide_eq_true_eq] at hs
      rcases hs with ((rfl | rfl) | rfl) | rfl <;> exact absurd h (by decide)
    all_goals
      rintro rfl
      exact absurd h (by decide)
  rw [value, skipSpace_cons hne.1]
  simp only [hne.2.1, hne.2.2.1, hne.2.2.2, if_false, if_pos h]

mutual

/-- Whatever the layout, the text of a value is read as that value. -/
theorem takes_write (layout : Layout) (level depth : Nat) (v : Json) (h : (v.write layout level).length < depth) :
    Takes (value depth) (v.write layout level) v := by
  obtain ⟨depth, rfl⟩ : ∃ d, depth = d + 1 := ⟨depth - 1, by omega⟩
  refine takes_value fun rest hrest => ?_
  cases v with
  | null => rfl
  | bool b => cases b <;> rfl
  | int n =>
    obtain ⟨c, t, hn, hc⟩ := ofInt_eq_cons n
    have hread := integer_ofInt n hrest
    rw [hn, List.cons_append] at hread
    rw [write, hn, List.cons_append, value_int depth hc, Reader.map, hread]
    rfl
  | string s =>
    rw [write, stringText_append, value_string, Reader.map, string_flatMap]
    rfl
  | list items =>
    -- the brackets make the text of a list longer than that of each item, so the depth that is left is enough
    have hitems := takes_writeItems layout (level + 1) depth items fun s hs => by
      have := layout.length_le_enclosed level '[' ']' hs
      rw [write] at h
      omega
    obtain ⟨t, ht, hread⟩ := enclosed_write ⟨rfl, rfl, by decide⟩ (value_closing depth) layout level hitems rest
    rw [write, ht, value_list, Reader.map, hread]
    rfl
  | object members =>
    have hmembers := takes_writeMembers layout (level + 1) depth members fun s hs => by
      have := layout.length_le_enclosed level '\x7b' '\x7d' hs
      rw [write] at h
      omega
    obtain ⟨t, ht, hread⟩ := enclosed_write ⟨rfl, rfl, by decide⟩ (member_closing _) layout level hmembers rest
    rw [write, ht, value_object, Reader.map, hread]
    rfl

/-- The texts of the items of a list are read as these. -/
theorem takes_writeItems (layout : Layout) (level depth : Nat) (items : List Json)
    (h : ∀ s ∈ writeItems layout level items, s.length < depth) :
    List.Forall₂ (Takes (value depth)) (writeItems layout level items) items := by
  cases items with
  | nil => exact .nil
  | cons item items =>
    exact .cons (takes_write layout level depth item (h _ List.mem_cons_self))
      (takes_writeItems layout level depth items fun s hs => h s (List.mem_cons_of_mem _ hs))

/-- The texts of the members of an object are read as these. -/
theorem takes_writeMembers (layout : Layout) (level depth : Nat) (members : List (Text × Json))
    (h : ∀ s ∈ writeMembers layout level members, s.length < depth) :
    List.Forall₂ (Takes (member (value depth))) (writeMembers layout level members) members := by
  cases members with
  | nil => exact .nil
  | cons m members =>
    cases m with
    | mk key v =>
      have hv : (v.write layout level).length < depth := by
        have := h _ List.mem_cons_self
        simp only [List.length_append] at this
        omega
      exact .cons (takes_member (takes_write layout level depth v hv) key)
        (takes_writeMembers layout level depth members fun s hs => h s (List.mem_cons_of_mem _ hs))

end

end Values

end Reader

/-- A text that a value is written as is read as that value. -/
theorem read?_render (layout : Layout) (v : Json) : read? (v.render layout) = some v := by
  have h := Reader.takes_write layout 0 _ v (Nat.lt_succ_self _) [] [] (fun c hc => nomatch hc) (fun c hc => nomatch hc)
  rw [List.nil_append, List.append_nil] at h
  rw [read?, render, h]
  rfl

/-- Values that are written as one text are one value. -/
theorem render_injective (layout : Layout) {v w : Json} (h : v.render layout = w.render layout) : v = w := by
  have hread := read?_render layout w
  rw [← h, read?_render layout v] at hread
  exact Option.some_inj.mp hread

/-- White space, escapes with a pair of surrogates among them, keys in their order, and nested brackets. -/
example : read? "[-10, \x7b\"b\\u00e9\":[ ],\n\"a\":\"\\/\\ud83d\\uDE00\"\x7d]" =
    some (.list [.int (-10), .object [("bé", .list []), ("a", .string "/😀")]]) := by
  rfl

example : ["[1,]", "01", "1.5", "1 2"].map (fun t => (read? t).isSome) = [false, false, false, false] := by
  decide +kernel

end MagSyntax.Json
