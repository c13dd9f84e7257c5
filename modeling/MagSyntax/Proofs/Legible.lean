import MagSyntax.Print.Literal
import MagSyntax.Proofs.Classes
import MagSyntax.Proofs.Numerals
import MagSyntax.Proofs.Spelling
import MagSyntax.Token.Reader

/-! Lexemes read back. A lexeme that stands in a source is read again from the text that it is printed
as, whatever stands behind it, as long as that ends it: a blank, a bracket, a comma, a semicolon, a
colon, or a point with no digit behind it. -/

namespace MagSyntax

/-- The code points besides the point that end whatever stands before them. -/
def Text.enders : Text := " \t\r\n()[],;:"

/-- Whatever stands before the text ends there. -/
def Text.Stops : Text → Prop
  | [] => True
  | c :: rest => c ∈ Text.enders ∨ c = '.' ∧ Numeral.startsWithDigit rest = false

theorem Text.Stops.mem_head {t : Text} (h : t.Stops) : ∀ c ∈ t.head?, c ∈ Text.enders ++ "." := by
  cases t with
  | nil => simp
  | cons c rest =>
    rintro d ⟨⟩
    rcases h with hm | ⟨rfl, -⟩
    · exact List.mem_append_left _ hm
    · exact List.mem_append_right _ (List.mem_singleton.mpr rfl)

theorem Text.Stops.endsName {t : Text} (h : t.Stops) : t.EndsName := by
  have hall : ∀ c ∈ Text.enders ++ ".", CodePoint.continuesName c = false := by decide +kernel
  exact fun c hc => hall c (h.mem_head c hc)

theorem Text.Stops.fraction {t : Text} (h : t.Stops) : Numeral.fraction t = [] := by
  cases t with
  | nil => rfl
  | cons c rest =>
    simp only [Numeral.fraction]
    rcases h with hm | ⟨-, hd⟩
    · have hall : ∀ c ∈ Text.enders, c ≠ '.' := by decide
      simp [hall c hm]
    · simp [hd]

namespace Symbol

/-- A longer symbol starts with this one and the code point. -/
def goesOn (s : Symbol) (c : CodePoint) : Bool :=
  all.any fun r => (s.spelling ++ [c]).isPrefixOf r.spelling

theorem longest?_spelling (s : Symbol) : longest? s.spelling = some s := by
  cases s <;> decide

/-- A symbol at the front of a text either lies within one that stands there or goes on with it. -/
theorem goesOn_of_isPrefixOf {r s : Symbol} {c : CodePoint} {rest : Text}
    (h : r.spelling.isPrefixOf (s.spelling ++ c :: rest)) (hn : ¬r.spelling.isPrefixOf s.spelling) :
    s.goesOn c := by
  rw [List.isPrefixOf_iff_prefix] at h hn
  obtain ⟨u, hu⟩ := (List.prefix_or_prefix_of_prefix h (List.prefix_append _ _)).resolve_left hn
  rw [← hu, List.prefix_append_right_inj] at h
  cases u with
  | nil => exact absurd (by simp [← hu]) hn
  | cons d u =>
    obtain ⟨rfl, -⟩ := List.cons_prefix_cons.mp h
    refine List.any_eq_true.mpr ⟨r, by cases r <;> decide, ?_⟩
    rw [List.isPrefixOf_iff_prefix, ← hu, List.prefix_append_right_inj]
    exact List.cons_prefix_cons.mpr ⟨rfl, List.nil_prefix⟩

theorem longest?_append (s : Symbol) {t : Text} (h : ∀ c ∈ t.head?, s.goesOn c = false) :
    longest? (s.spelling ++ t) = some s := by
  refine Eq.trans ?_ (longest?_spelling s)
  cases t with
  | nil => rw [List.append_nil]
  | cons c rest =>
    refine congrArg (fun p => List.find? p all) (funext fun r => ?_)
    rw [Bool.eq_iff_iff]
    refine ⟨fun hr => ?_, fun hr => ?_⟩
    · apply Decidable.by_contra
      intro hn
      have hg := goesOn_of_isPrefixOf hr hn
      rw [h c rfl] at hg
      cases hg
    · rw [List.isPrefixOf_iff_prefix] at *
      exact hr.trans (List.prefix_append _ _)

/-- No longer symbol starts with this one, and no comment does. -/
def isTight (s : Symbol) : Bool :=
  s ≠ .div && all.all fun r => !s.spelling.isPrefixOf r.spelling || r = s

theorem goesOn_of_isTight {s : Symbol} (h : s.isTight) (c : CodePoint) : s.goesOn c = false := by
  simp only [isTight, Bool.and_eq_true, List.all_eq_true, Bool.or_eq_true, Bool.not_eq_true',
    decide_eq_true_eq] at h
  refine Bool.eq_false_iff.mpr fun hg => ?_
  obtain ⟨r, hr, hp⟩ := List.any_eq_true.mp hg
  rw [List.isPrefixOf_iff_prefix] at hp
  rcases h.2 r hr with hn | rfl
  · have hle := List.isPrefixOf_iff_prefix.mpr ((List.prefix_append _ _).trans hp)
    rw [hn] at hle
    cases hle
  · exact absurd hp.length_le (by simp)

end Symbol

namespace Print

theorem regexLiteral_eq (pattern flags : Text) :
    regexLiteral pattern flags = ('/' : CodePoint) :: (pattern ++ ('/' : CodePoint) :: flags) := by
  rw [regexLiteral, List.append_assoc, List.append_assoc]
  rfl

theorem stringLiteral_eq (value : Text) :
    stringLiteral value = ('"' : CodePoint) :: (value.flatMap stringPoint ++ [CodePoint.ofChar '"']) := by
  rw [stringLiteral, List.append_assoc]
  rfl

end Print

namespace Reading

theorem of_following {points : Text} {r : Reading Text} {v : Text}
    (h : (r.following points).outcome = .ok v) : ∃ u, r.outcome = .ok u ∧ v = points ++ u := by
  obtain ⟨n, _ | u⟩ := r
  · cases h
  · cases h
    exact ⟨u, rfl, rfl⟩

theorem following_found (points : Text) (n : Nat) (v : Text) :
    (found n v).following points = found (points.length + n) (points ++ v) := rfl

end Reading

namespace Regex

/-- A body that was read is read again up to the slash behind it. -/
theorem body_again {inClass : Bool} {a v : Text} (h : (body inClass a).outcome = .ok v) :
    ∃ r, a = v ++ ('/' : CodePoint) :: r ∧
      ∀ t, body inClass (v ++ ('/' : CodePoint) :: t) = .found (v.length + 1) v := by
  fun_induction body inClass a generalizing v with
  | case1 | case2 | case4 | case5 => cases h
  | case3 inClass c rest hn hs =>
    cases h
    simp only [Bool.and_eq_true, decide_eq_true_eq, Bool.not_eq_true'] at hs
    obtain ⟨rfl, rfl⟩ := hs
    exact ⟨rest, rfl, fun t => by rw [List.nil_append, body.eq_def]; rfl⟩
  | case6 inClass escaped later he hn hs ih =>
    obtain ⟨u, hu, rfl⟩ := Reading.of_following h
    obtain ⟨r, rfl, hagain⟩ := ih hu
    refine ⟨r, rfl, fun t => ?_⟩
    simp only [List.cons_append, List.nil_append]
    rw [body.eq_def]
    simp only
    rw [if_neg hn, if_neg hs, if_pos trivial, if_neg he, hagain t]
    rw [Reading.following_found]
    simp [Nat.add_comm, Nat.add_left_comm]
  | case7 inClass c rest hn hs hb ih =>
    obtain ⟨u, hu, rfl⟩ := Reading.of_following h
    obtain ⟨r, rfl, hagain⟩ := ih hu
    refine ⟨r, rfl, fun t => ?_⟩
    simp only [List.cons_append, List.nil_append]
    rw [body.eq_def]
    simp only
    rw [if_neg hn, if_neg hs, if_neg hb, hagain t]
    rw [Reading.following_found]
    simp [Nat.add_comm]

/-- Flags that were read are read again if no name goes on with them. -/
theorem flags_again {seen a f t : Text} (h : (flags seen a).outcome = .ok f) (ht : t.EndsName) :
    flags seen (f ++ t) = .found f.length f := by
  fun_induction flags seen a generalizing f with
  | case1 | case4 =>
    cases h
    cases t with
    | nil => rfl
    | cons c t =>
      simp only [List.nil_append, flags]
      rw [ht c rfl]
      rfl
  | case2 seen c rest hc hf ih =>
    obtain ⟨u, hu, rfl⟩ := Reading.of_following h
    simp only [List.cons_append, List.nil_append, flags]
    rw [if_pos hc, if_pos hf, ih hu, Reading.following_found]
    simp [Nat.add_comm]
  | case3 => cases h

/-- A regular expression that was read is read again if no name goes on with its flags. -/
theorem read_again {c : CodePoint} {a : Text} {l : Lexeme}
    (h : (read (c :: a)).outcome = .ok l) :
    ∃ p f r, l = ⟨.regex, p, 10, f⟩ ∧ a = p ++ ('/' : CodePoint) :: r ∧
      ∀ t : Text, t.EndsName → read (Print.regexLiteral p f ++ t) =
        .found (Print.regexLiteral p f).length ⟨.regex, p, 10, f⟩ := by
  simp only [read] at h
  split at h
  next => cases h
  next p hp =>
    obtain ⟨r, hr, hbody⟩ := body_again hp
    cases hf : (flags [] (a.drop (body false a).taken)).outcome with
    | error fault =>
      simp only [Reading.map, Reading.behind, hf] at h
      cases h
    | ok f =>
      simp only [Reading.map, Reading.behind, hf] at h
      cases h
      refine ⟨p, f, r, rfl, hr, fun t ht => ?_⟩
      have hd : (p ++ ('/' : CodePoint) :: (f ++ t)).drop (p.length + 1) = f ++ t := by
        rw [← List.drop_drop, List.drop_left]
        rfl
      rw [Print.regexLiteral_eq, List.cons_append, List.append_assoc, List.cons_append]
      simp only [read, hbody, Reading.found, hd, flags_again hf ht]
      simp only [Reading.map, Reading.behind, List.length_cons, List.length_append, Except.map]
      congr 1
      omega

end Regex

namespace StringLiteral

theorem body_pending (quote : CodePoint) (e t : Text) :
    body quote e.length (e ++ t) = (body quote 0 t).behind e.length := by
  induction e with
  | nil => simp [Reading.behind]
  | cons c e ih =>
    rw [List.length_cons, List.cons_append, body, ih]
    simp only [Reading.behind]
    congr 1
    omega

/-- In a string literal the text is read as one code point. -/
def IsPoint (c : CodePoint) (s : Text) : Prop :=
  ∀ t, body '"' 0 (s ++ t) = ((body '"' 0 t).behind s.length).map (c :: ·)

theorem isPoint_escape {e : Text} {c : CodePoint} (hne : e ≠ [])
    (h : ∀ t, escape (e ++ t) = .found e.length c) : IsPoint c (('\\' : CodePoint) :: e) := by
  intro t
  have hp := body_pending '"' e t
  have hempty : (e ++ t).isEmpty = false := by simp [hne]
  rw [List.cons_append, body.eq_def]
  simp only [h t, hempty, Reading.found, hp]
  rw [if_neg (by decide), if_neg (by decide)]
  simp only [Reading.behind, Bool.false_eq_true, if_true, if_false, List.length_cons]
  rw [← Nat.add_assoc, Nat.add_comm 1]

theorem decodeHex_hexDigits (v : Nat) (h : v < 0x80) (hv : v < 0x110000) :
    decodeHex (Text.hexDigits 2 v) = .ok ⟨v, hv⟩ := by
  have hall : ∀ w : Fin 0x80, ((Text.hexDigits 2 w.val).isEmpty ||
      (Text.hexDigits 2 w.val).any (· ∉ Numeral.hexDigits)) = false ∧
        hexNumber (Text.hexDigits 2 w.val) = w.val := by
    decide +kernel
  obtain ⟨hd, hn⟩ := hall ⟨v, h⟩
  simp only at hd hn
  rw [decodeHex, hd, hn, CodePoint.ofNat?, dif_pos hv]
  rfl

theorem escape_hex {c : CodePoint} (h : c.val < 0x80) (t : Text) :
    escape ("x" ++ Text.hexDigits 2 c.val ++ t) = .found 3 c := by
  have hd := decodeHex_hexDigits c.val h c.valid
  have ht : (Text.hexDigits 2 c.val ++ t).take 2 = Text.hexDigits 2 c.val := rfl
  show (fixedEscape 2 (Text.hexDigits 2 c.val ++ t)).behind 1 = _
  simp only [fixedEscape, ht, hd]
  rfl

theorem isPoint_letter {c d e : CodePoint} (h : c = d) (he : ∀ t, escape (e :: t) = .found 1 d) :
    IsPoint c [('\\' : CodePoint), e] :=
  h ▸ isPoint_escape (List.cons_ne_nil _ _) he

/-- A printed code point is read back as that code point. -/
theorem isPoint_stringPoint (c : CodePoint) : IsPoint c (Print.stringPoint c) := by
  unfold Print.stringPoint
  refine iteInduction (fun h => isPoint_letter h fun _ => rfl) fun hb => ?_
  refine iteInduction (fun h => isPoint_letter h fun _ => rfl) fun hq => ?_
  refine iteInduction (fun h => isPoint_letter h fun _ => rfl) fun hn => ?_
  -- six more escapes of one letter
  iterate 6 refine iteInduction (fun h => isPoint_letter h fun _ => rfl) fun _ => ?_
  refine iteInduction (fun h => ?_) fun _ => ?_
  · have hv : c.val < 0x80 := by
      simp only [Bool.or_eq_true, decide_eq_true_eq] at h
      omega
    exact isPoint_escape (e := "x" ++ Text.hexDigits 2 c.val) (List.cons_ne_nil _ _) (escape_hex hv)
  · intro t
    rw [List.singleton_append, body.eq_def]
    simp only
    rw [if_neg hq, if_neg hn, if_neg hb]
    rfl

theorem body_flatMap (value t : Text) :
    body '"' 0 (value.flatMap Print.stringPoint ++ ('"' : CodePoint) :: t) =
      .found ((value.flatMap Print.stringPoint).length + 1) value := by
  induction value with
  | nil =>
    rw [List.flatMap_nil, List.nil_append, body.eq_def]
    rfl
  | cons c value ih =>
    rw [List.flatMap_cons, List.append_assoc, isPoint_stringPoint, ih, List.length_append,
      Nat.add_assoc]
    rfl

/-- A printed string is read back, whatever it holds. -/
theorem read_stringLiteral (value t : Text) :
    read (Print.stringLiteral value ++ t) =
      .found (Print.stringLiteral value).length ⟨.string, value, 10, []⟩ := by
  rw [Print.stringLiteral_eq, List.cons_append, List.append_assoc, List.singleton_append, read,
    body_flatMap]
  simp only [Reading.found, Reading.map, Reading.behind, List.length_cons, List.length_append,
    List.length_nil, Except.map]
  congr 1
  omega

theorem of_read {c : CodePoint} {a : Text} {l : Lexeme} (h : (read (c :: a)).outcome = .ok l) :
    ∃ value, l = ⟨.string, value, 10, []⟩ := by
  simp only [read, Reading.map, Reading.behind] at h
  cases hb : (body c 0 a).outcome with
  | error fault =>
    rw [hb] at h
    cases h
  | ok value =>
    rw [hb] at h
    cases h
    exact ⟨value, rfl⟩

end StringLiteral

namespace Trivia

theorem isBlank_of_isSeparator {c : CodePoint} (h : isSeparator c) : c.isBlank := by
  simp only [isSeparator, Bool.or_eq_true, decide_eq_true_eq] at h
  rcases h with ((rfl | rfl) | rfl) | rfl <;> decide

theorem le_length_extentFrom (region : Region) (offset : Nat) (t : Text) :
    offset ≤ (extentFrom region offset t).length := by
  induction t generalizing region offset with
  | nil => cases region <;> exact Nat.le_refl _
  | cons c t ih =>
    have later : ∀ r, offset ≤ (extentFrom r (offset + 1) t).length := fun r =>
      Nat.le_trans (Nat.le_succ _) (ih r _)
    cases region <;> rw [extentFrom]
    case between =>
      split
      · exact later _
      split
      · exact later _
      split
      · exact later _
      · exact Nat.le_refl _
    case blockComment =>
      split <;> exact later _
    all_goals exact later _

/-- A slash at the front of a text that no comment starts is followed by neither a slash nor a star. -/
theorem head_of_extent {a : Text} (h : extent (('/' : CodePoint) :: a) = ⟨0, none⟩) :
    ∀ d ∈ a.head?, d ≠ '/' ∧ d ≠ '*' := by
  intro d hd
  have hpos : ∀ r, (extentFrom r 1 a).length ≠ 0 := fun r => by
    have := le_length_extentFrom r 1 a
    omega
  rw [Option.mem_def] at hd
  rw [extent, extentFrom, hd, if_neg (by decide)] at h
  constructor
  · rintro rfl
    rw [if_pos (by decide)] at h
    exact hpos _ (congrArg Extent.length h)
  · rintro rfl
    rw [if_neg (by decide), if_pos (by decide)] at h
    exact hpos _ (congrArg Extent.length h)

/-- No blank and no comment starts a text like this. -/
theorem extent_eq {c : CodePoint} {rest : Text} (hc : c.isBlank = false)
    (hs : c = '/' → ∀ d ∈ rest.head?, d ≠ '/' ∧ d ≠ '*') : extent (c :: rest) = ⟨0, none⟩ := by
  unfold extent extentFrom
  rw [if_neg fun h => by rw [isBlank_of_isSeparator h] at hc; cases hc]
  split
  next h =>
    simp only [Bool.and_eq_true, decide_eq_true_eq] at h
    exact absurd rfl (hs h.1 _ h.2).1
  split
  next h =>
    simp only [Bool.and_eq_true, decide_eq_true_eq] at h
    exact absurd rfl (hs h.1 _ h.2).2
  next => rfl

end Trivia

namespace Lexeme

/-- The lexeme as a source writes it. -/
def spelled (l : Lexeme) : Text :=
  match l.kind with
  | .number => Numeral.mark l.base ++ l.value
  | .string => Print.stringLiteral l.value
  | .regex => Print.regexLiteral l.value l.flags
  | _ => l.value

/-- A slash is read as the lexeme needs it. -/
def Fits (l : Lexeme) (regexAllowed : Bool) : Prop :=
  (l.kind = Symbol.div → regexAllowed = false) ∧ (l.kind = .regex → regexAllowed = true)

instance (l : Lexeme) (regexAllowed : Bool) : Decidable (l.Fits regexAllowed) := inferInstanceAs (Decidable (_ ∧ _))

/-- The lexeme is read from its text in front of another. -/
structure ReadsBefore (l : Lexeme) (t : Text) : Prop where
  inner : l.kind ≠ .eof
  filled : l.spelled ≠ []
  read : ∀ regexAllowed, l.Fits regexAllowed → Trivia.extent (l.spelled ++ t) = ⟨0, none⟩ ∧
    read regexAllowed (l.spelled ++ t) = .found l.spelled.length l

/-- The lexeme is read from its text in front of whatever ends it. -/
structure IsLegible (l : Lexeme) : Prop where
  reads : ∀ t : Text, t.Stops → l.ReadsBefore t
  head : ∃ c r, l.spelled = c :: r ∧ c.isBlank = false

/-- The text can be the name of something. -/
def IsName (w : Text) : Prop :=
  (∃ c r, w = c :: r ∧ c.startsName) ∧ ∀ c ∈ w, c.continuesName

theorem spelled_ofWord (w : Text) : (ofWord w).spelled = w := by
  unfold ofWord
  split <;> rfl

theorem isLegible_ofWord {w : Text} (h : IsName w) : (ofWord w).IsLegible := by
  obtain ⟨⟨c, r, rfl, hc⟩, hw⟩ := h
  refine ⟨fun t ht => ⟨(namesField_ofWord _).inside, by simp [spelled_ofWord], fun b _ => ?_⟩, c, r,
    spelled_ofWord _, CodePoint.isBlank_of_startsName hc⟩
  have htake : ((c :: r) ++ t).takeWhile CodePoint.continuesName = c :: r := by
    rw [List.takeWhile_append_of_pos hw]
    cases t with
    | nil => simp
    | cons d t => simp [ht.endsName d rfl]
  rw [spelled_ofWord]
  refine ⟨Trivia.extent_eq (CodePoint.isBlank_of_startsName hc) ?_, ?_⟩
  · rintro rfl
    exact absurd hc (by decide +kernel)
  · rw [List.cons_append, read]
    simp only [hc, if_true]
    rw [readWord, ← List.cons_append, htake]

theorem isLegible_string (value : Text) : (Lexeme.mk .string value 10 []).IsLegible := by
  have hs : (Lexeme.mk .string value 10 []).spelled = Print.stringLiteral value := rfl
  have hl := Print.stringLiteral_eq value
  refine ⟨fun t _ => ⟨by simp, by simp [hs, hl], fun b _ => ?_⟩, '"', _, hs.trans hl, by decide⟩
  have hr := StringLiteral.read_stringLiteral value t
  rw [hs]
  rw [hl, List.cons_append] at hr ⊢
  exact ⟨Trivia.extent_eq (by decide) fun h => absurd h (by decide), hr⟩

/-- Where a symbol starts, the first code point belongs to no other class. -/
theorem head_symbol (s : Symbol) : ∃ c r, s.spelling = c :: r ∧ c.isBlank = false ∧
    c.startsName = false ∧ c.isDigit = false ∧ c ≠ '"' ∧ c ≠ '\'' ∧ (c = '/' → s = .div ∧ r = []) := by
  cases s <;> exact ⟨_, _, rfl, by decide +kernel⟩

/-- A symbol is read in front of a text that no longer symbol goes on with; a sign of division must not
open a comment with it. -/
theorem readsBefore_ofSymbol {s : Symbol} {t : Text} (h : ∀ c ∈ t.head?, s.goesOn c = false)
    (hs : s = .div → ∀ c ∈ t.head?, c ≠ '/' ∧ c ≠ '*') : (ofSymbol s).ReadsBefore t := by
  have hspelled : (ofSymbol s).spelled = s.spelling := rfl
  have hlongest := Symbol.longest?_append s h
  obtain ⟨c, r, hc, hblank, hname, hdigit, hquote, hsingle, hslash⟩ := head_symbol s
  refine ⟨by simp [ofSymbol], by simp [hspelled, hc], fun b hb => ?_⟩
  rw [hspelled]
  refine ⟨?_, ?_⟩
  · rw [hc, List.cons_append]
    refine Trivia.extent_eq hblank fun hd => ?_
    obtain ⟨hdiv, rfl⟩ := hslash hd
    exact hs hdiv
  · rw [hc, List.cons_append] at hlongest ⊢
    have hregex : (decide (c = '/') && b) = false := by
      rw [Bool.and_eq_false_iff, decide_eq_false_iff_not]
      by_cases hd : c = '/'
      · exact .inr (hb.1 (by rw [(hslash hd).1]; rfl))
      · exact .inl hd
    rw [read]
    simp only [hname, hdigit, hquote, hsingle, hregex, hlongest]
    rw [← hc]
    rfl

theorem isLegible_ofSymbol (s : Symbol) : (ofSymbol s).IsLegible := by
  obtain ⟨c, r, hc, hblank, -⟩ := head_symbol s
  have hgoes : ∀ c ∈ Text.enders ++ ".", s.goesOn c = false := by
    cases s <;> decide +kernel
  have hcomment : ∀ c ∈ Text.enders ++ ".", c ≠ '/' ∧ c ≠ '*' := by decide
  exact ⟨fun t ht => readsBefore_ofSymbol
    (fun d hd => hgoes d (ht.mem_head d hd)) fun _ d hd => hcomment d (ht.mem_head d hd),
    c, r, hc, hblank⟩

theorem readsBefore_of_isTight {s : Symbol} (h : s.isTight) (t : Text) :
    (ofSymbol s).ReadsBefore t :=
  readsBefore_ofSymbol (fun c _ => Symbol.goesOn_of_isTight h c) fun hs => by
    subst hs
    cases h

/-- The lexeme was read somewhere, behind the blanks and comments before it. -/
def IsScanned (l : Lexeme) : Prop :=
  ∃ b a, Trivia.extent a = ⟨0, none⟩ ∧ (read b a).outcome = .ok l

theorem isLegible_number {a : Text} {l : Lexeme} (hd : Numeral.startsWithDigit a)
    (h : (Numeral.read a).outcome = .ok l) : l.IsLegible := by
  obtain ⟨hk, ⟨c, v, hv, hc⟩, hread⟩ := Numeral.read_again hd h
  have hs : l.spelled = Numeral.mark l.base ++ l.value := by simp [spelled, hk]
  have hall : ∀ c ∈ Numeral.decimalDigits, c.isBlank = false ∧ c ≠ '/' ∧ c.startsName = false := by
    decide +kernel
  obtain ⟨hblank, hslash, hname⟩ := hall c hc
  refine ⟨fun t ht => ⟨by simp [hk], by simp [hs, hv], fun b _ => ?_⟩, c, v, hs.trans hv, hblank⟩
  have hr := hread t ht.endsName ht.fraction
  rw [hs]
  rw [hv, List.cons_append] at hr ⊢
  refine ⟨Trivia.extent_eq hblank fun h => absurd h hslash, ?_⟩
  rw [read]
  simp only [hname, Numeral.isDigit_of_decimalDigits c hc, if_true]
  exact hr

theorem isLegible_regex {a : Text} {l : Lexeme}
    (ha : Trivia.extent (('/' : CodePoint) :: a) = ⟨0, none⟩)
    (h : (Regex.read (('/' : CodePoint) :: a)).outcome = .ok l) : l.IsLegible := by
  obtain ⟨p, f, r, rfl, rfl, hread⟩ := Regex.read_again h
  have hl := Print.regexLiteral_eq p f
  have hs : (Lexeme.mk .regex p 10 f).spelled = Print.regexLiteral p f := rfl
  refine ⟨fun t ht => ⟨by simp, by simp [hs, hl], fun b hb => ?_⟩, '/', _, hs.trans hl, by decide⟩
  have hr := hread t ht.endsName
  rw [hs]
  rw [hl, List.cons_append] at hr ⊢
  refine ⟨Trivia.extent_eq (by decide) fun _ d hd => Trivia.head_of_extent ha d ?_, ?_⟩
  · cases p <;> exact hd
  · have hname : CodePoint.startsName '/' = false ∧ CodePoint.isDigit '/' = false := by
      decide +kernel
    rw [read, hb.2 rfl, hname.1, hname.2]
    exact hr

/-- What a lexeme that stands before the end of a source was read as. -/
inductive ReadAs : Lexeme → Prop
  | word {w : Text} : IsName w → ReadAs (ofWord w)
  | number {a : Text} {l : Lexeme} : Numeral.startsWithDigit a → (Numeral.read a).outcome = .ok l →
    ReadAs l
  | string (value : Text) : ReadAs ⟨.string, value, 10, []⟩
  | regex {a : Text} {l : Lexeme} : Trivia.extent (('/' : CodePoint) :: a) = ⟨0, none⟩ →
    (Regex.read (('/' : CodePoint) :: a)).outcome = .ok l → ReadAs l
  | symbol (s : Symbol) : ReadAs (ofSymbol s)

theorem IsScanned.readAs {l : Lexeme} (h : l.IsScanned) (hk : l.kind ≠ .eof) : l.ReadAs := by
  obtain ⟨b, a, ha, h⟩ := h
  unfold read at h
  split at h
  next => cases h; exact absurd rfl hk
  next c rest =>
    split at h
    next hc =>
      cases h
      refine .word ⟨⟨c, _, List.takeWhile_cons_of_pos ?_, hc⟩, ?_⟩
      · exact CodePoint.continuesName_of_startsName hc
      · exact fun d hd => List.all_eq_true.mp List.all_takeWhile d hd
    split at h
    next hc => exact .number (a := c :: rest) hc h
    split at h
    next hc =>
      obtain ⟨v, rfl⟩ := StringLiteral.of_read h
      exact .string v
    split at h
    next hc =>
      simp only [Bool.and_eq_true, decide_eq_true_eq] at hc
      obtain ⟨rfl, -⟩ := hc
      exact .regex ha h
    split at h
    next s hs =>
      cases h
      exact .symbol s
    next => cases h

/-- A lexeme that was read somewhere is read again wherever it stands. -/
theorem IsScanned.isLegible {l : Lexeme} (h : l.IsScanned) (hk : l.kind ≠ .eof) : l.IsLegible := by
  cases h.readAs hk with
  | word hw => exact isLegible_ofWord hw
  | number hd h => exact isLegible_number hd h
  | string v => exact isLegible_string v
  | regex ha h => exact isLegible_regex ha h
  | symbol s => exact isLegible_ofSymbol s

end Lexeme

end MagSyntax
