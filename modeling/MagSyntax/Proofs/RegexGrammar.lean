import MagSyntax.Proofs.Lossless
import MagSyntax.Token.Reader

/-! Regular expression literals by their grammar. The body is a sequence of escapes, classes and single code points,
the flags are letters that differ, and no name goes on behind them. Such a literal is read as it stands, and where
none stands the reading fails. -/

namespace MagSyntax.Regex

/-- What stands between the brackets of a class: escapes, and code points other than the closing bracket. -/
inductive IsClass : Text → Prop
  | nil : IsClass []
  | escape {c : CodePoint} {q : Text} (hc : c ≠ '\n') (hq : IsClass q) : IsClass ('\\' :: c :: q)
  | single {c : CodePoint} {q : Text} (hbracket : c ≠ ']') (hslash : c ≠ '\\') (hn : c ≠ '\n') (hq : IsClass q) :
    IsClass (c :: q)

/-- What stands between the slashes of a literal: escapes, classes, and single code points. -/
inductive IsBody : Text → Prop
  | nil : IsBody []
  | escape {c : CodePoint} {p : Text} (hc : c ≠ '\n') (hp : IsBody p) : IsBody ('\\' :: c :: p)
  | ofClass {q p : Text} (hq : IsClass q) (hp : IsBody p) : IsBody ('[' :: (q ++ (']' : CodePoint) :: p))
  | single {c : CodePoint} {p : Text} (hslash : c ≠ '/') (hbracket : c ≠ '[') (hback : c ≠ '\\') (hn : c ≠ '\n')
    (hp : IsBody p) : IsBody (c :: p)

/-- The letters are flags, and no two are the same. -/
def AreFlags (f : Text) : Prop := f ⊆ flagLetters ∧ f.Nodup

instance (f : Text) : Decidable (AreFlags f) := inferInstanceAs (Decidable (_ ∧ _))

/-- A literal with this body and these flags stands at the front of the text. -/
def StandsIn (ahead p f : Text) : Prop :=
  IsBody p ∧ AreFlags f ∧
    ∃ rest : Text, ahead = ('/' : CodePoint) :: (p ++ ('/' : CodePoint) :: (f ++ rest)) ∧ rest.EndsName

/-- What is left of a body, inside a class or outside of all. -/
def IsRemainder (inClass : Bool) (v : Text) : Prop :=
  if inClass then ∃ q p : Text, v = q ++ (']' : CodePoint) :: p ∧ IsClass q ∧ IsBody p else IsBody v

theorem IsRemainder.escape {inClass : Bool} {c : CodePoint} {v : Text} (hc : c ≠ '\n') (h : IsRemainder inClass v) :
    IsRemainder inClass (('\\' : CodePoint) :: c :: v) := by
  cases inClass with
  | false => exact IsBody.escape hc h
  | true =>
    obtain ⟨q, p, rfl, hq, hp⟩ := h
    exact ⟨'\\' :: c :: q, p, rfl, hq.escape hc, hp⟩

/-- A code point that is neither an escape nor the end of the body goes on in the class that it opens, that it stands
in, or that it closes. -/
theorem IsRemainder.single {inClass : Bool} {c : CodePoint} {v : Text} (hslash : c = '/' → inClass = true)
    (hback : c ≠ '\\') (hn : c ≠ '\n') (h : IsRemainder (c = '[' || (inClass && c ≠ ']')) v) :
    IsRemainder inClass (c :: v) := by
  by_cases hopen : c = '['
  · subst hopen
    obtain ⟨q, p, rfl, hq, hp⟩ := h
    cases inClass with
    | false => exact IsBody.ofClass hq hp
    | true => exact ⟨'[' :: q, p, rfl, hq.single (by decide) (by decide) (by decide), hp⟩
  · cases inClass with
    | false =>
      simp only [hopen, decide_false, Bool.false_and, Bool.or_false] at h
      exact IsBody.single (fun he => by cases hslash he) hopen hback hn h
    | true =>
      by_cases hclose : c = ']'
      · subst hclose
        exact ⟨[], v, rfl, .nil, h⟩
      · simp only [hopen, hclose, decide_false, Bool.true_and, ne_eq, not_false_eq_true, decide_true,
          Bool.or_true] at h
        obtain ⟨q, p, rfl, hq, hp⟩ := h
        exact ⟨c :: q, p, rfl, hq.single hclose hback hn, hp⟩

/-- The bodies that are read follow the grammar. -/
theorem isRemainder_of_body {inClass : Bool} {a v : Text} (h : (body inClass a).outcome = .ok v) :
    IsRemainder inClass v := by
  fun_induction body inClass a generalizing v with
  | case1 | case2 | case4 | case5 => cases h
  | case3 inClass c rest hn hs =>
    cases h
    simp only [Bool.and_eq_true, decide_eq_true_eq, Bool.not_eq_true'] at hs
    obtain ⟨-, rfl⟩ := hs
    exact IsBody.nil
  | case6 inClass escaped later he hn hs ih =>
    obtain ⟨u, hu, rfl⟩ := Reading.of_following h
    exact (ih hu).escape he
  | case7 inClass c rest hn hs hb ih =>
    obtain ⟨u, hu, rfl⟩ := Reading.of_following h
    exact (ih hu).single (by simpa using hs) hb hn

/-- The text is read as a body if the closing slash follows it. -/
def IsReadAs (inClass : Bool) (v : Text) : Prop :=
  ∀ t, body inClass (v ++ ('/' : CodePoint) :: t) = .found (v.length + 1) v

theorem isReadAs_nil : IsReadAs false [] := fun _ => by
  rw [List.nil_append, body.eq_def]
  rfl

theorem IsReadAs.escape {inClass : Bool} {c : CodePoint} {v : Text} (hc : c ≠ '\n') (h : IsReadAs inClass v) :
    IsReadAs inClass (('\\' : CodePoint) :: c :: v) := by
  intro t
  rw [List.cons_append, List.cons_append, body.eq_def]
  simp only
  rw [if_neg (by decide), if_neg (by cases inClass <;> decide), if_pos trivial, if_neg hc, h t,
    Reading.following_found]
  simp [Nat.add_comm, Nat.add_left_comm]

theorem IsReadAs.single {inClass : Bool} {c : CodePoint} {v : Text} (hslash : c = '/' → inClass = true)
    (hback : c ≠ '\\') (hn : c ≠ '\n') (h : IsReadAs (c = '[' || (inClass && c ≠ ']')) v) :
    IsReadAs inClass (c :: v) := by
  intro t
  rw [List.cons_append, body.eq_def]
  simp only
  rw [if_neg hn, if_neg (by simpa using hslash), if_neg hback, h t, Reading.following_found]
  simp [Nat.add_comm]

theorem IsClass.isReadAs {q p : Text} (hq : IsClass q) (hp : IsReadAs false p) :
    IsReadAs true (q ++ (']' : CodePoint) :: p) := by
  induction hq with
  | nil => exact IsReadAs.single (by decide) (by decide) (by decide) hp
  | escape hc _ ih => exact ih.escape hc
  | single hbracket hback hn _ ih =>
    refine IsReadAs.single (fun _ => rfl) hback hn ?_
    rw [show (_ || (true && decide (_ ≠ _))) = true by simp [hbracket]]
    exact ih

/-- What follows the grammar is read as a body. -/
theorem IsBody.isReadAs {p : Text} (hp : IsBody p) : IsReadAs false p := by
  induction hp with
  | nil => exact isReadAs_nil
  | escape hc _ ih => exact ih.escape hc
  | ofClass hq _ ih => exact IsReadAs.single (by decide) (by decide) (by decide) (hq.isReadAs ih)
  | single hslash hbracket hback hn _ ih =>
    refine IsReadAs.single (fun he => absurd he hslash) hback hn ?_
    rw [show (_ || (false && decide (_ ≠ _))) = false by simp [hbracket]]
    exact ih

theorem areFlags_of_flags {seen a f : Text} (h : (flags seen a).outcome = .ok f) :
    AreFlags f ∧ ∀ c ∈ f, c ∉ seen := by
  fun_induction flags seen a generalizing f with
  | case1 | case4 =>
    cases h
    simp [AreFlags]
  | case2 seen c rest hc hf ih =>
    obtain ⟨u, hu, rfl⟩ := Reading.of_following h
    obtain ⟨⟨hsub, hnodup⟩, hseen⟩ := ih hu
    simp only [Bool.and_eq_true, decide_eq_true_eq] at hf
    simp only [List.mem_cons, not_or] at hseen
    refine ⟨⟨List.cons_subset.mpr ⟨hf.1, hsub⟩, List.nodup_cons.mpr ⟨fun hm => (hseen c hm).1 rfl, hnodup⟩⟩, ?_⟩
    exact List.forall_mem_cons.mpr ⟨hf.2, fun d hd => (hseen d hd).2⟩
  | case3 => cases h

theorem continuesName_of_mem_flagLetters : ∀ c ∈ flagLetters, c.continuesName = true := by
  decide +kernel

theorem flags_of_areFlags {seen f t : Text} (hf : AreFlags f) (hseen : ∀ c ∈ f, c ∉ seen) (ht : t.EndsName) :
    flags seen (f ++ t) = .found f.length f := by
  induction f generalizing seen with
  | nil => exact flags_again (a := []) rfl ht
  | cons c f ih =>
    obtain ⟨hsub, hnodup⟩ := hf
    obtain ⟨hc, hsub⟩ := List.cons_subset.mp hsub
    obtain ⟨hcf, hnodup⟩ := List.nodup_cons.mp hnodup
    obtain ⟨hnew, hseen⟩ := List.forall_mem_cons.mp hseen
    have hlater : ∀ d ∈ f, d ∉ c :: seen := fun d hd =>
      List.not_mem_cons_of_ne_of_not_mem (fun he => hcf (he ▸ hd)) (hseen d hd)
    rw [List.cons_append, flags, if_pos (continuesName_of_mem_flagLetters c hc), if_pos (by simp [hc, hnew]),
      ih ⟨hsub, hnodup⟩ hlater, Reading.following_found]
    simp [Nat.add_comm]

/-- A literal at the front of a text is read. -/
theorem read_of_standsIn {ahead p f : Text} (h : StandsIn ahead p f) :
    read ahead = .found (p.length + f.length + 2) ⟨.regex, p, 10, f⟩ := by
  obtain ⟨hp, hf, rest, rfl, hrest⟩ := h
  have hdrop : (p ++ ('/' : CodePoint) :: (f ++ rest)).drop (p.length + 1) = f ++ rest := by
    rw [← List.drop_drop, List.drop_left]
    rfl
  have hflags : flags [] (f ++ rest) = .found f.length f :=
    flags_of_areFlags hf (fun _ _ => List.not_mem_nil) hrest
  simp only [read, hp.isReadAs (f ++ rest), Reading.found, hdrop, hflags]
  simp only [Reading.map, Reading.behind, Except.map]
  congr 1
  omega

/-- What is read stands at the front of the text. -/
theorem standsIn_of_read {rest : Text} {l : Lexeme} (h : (read (('/' : CodePoint) :: rest)).outcome = .ok l) :
    ∃ p f, StandsIn (('/' : CodePoint) :: rest) p f := by
  simp only [read] at h
  split at h
  next => cases h
  next p hp =>
    obtain ⟨r, rfl, hbody⟩ := body_again hp
    have hdrop : (p ++ ('/' : CodePoint) :: r).drop (p.length + 1) = r := by
      rw [← List.drop_drop, List.drop_left]
      rfl
    simp only [hbody r, Reading.found, hdrop] at h
    obtain ⟨f, hf, -⟩ := Reading.of_map h
    obtain ⟨t, rfl, -, ht⟩ := of_flags hf
    exact ⟨p, f, isRemainder_of_body hp, (areFlags_of_flags hf).1, t, rfl, ht⟩

theorem StandsIn.unique {ahead p f p' f' : Text} (h : StandsIn ahead p f) (h' : StandsIn ahead p' f') :
    p = p' ∧ f = f' := by
  have he := (read_of_standsIn h).symm.trans (read_of_standsIn h')
  simp only [Reading.found, Reading.mk.injEq, Except.ok.injEq, Lexeme.mk.injEq] at he
  exact ⟨he.2.2.1, he.2.2.2.2⟩

/-- At a slash a token is read exactly where a literal stands, with its body and its flags, and the cursor is behind it
then; where none stands the reading fails. No two literals stand in one place. -/
theorem readWith_iff_standsIn (c : TextCursor) (hc : c.ahead.head? = some (CodePoint.ofChar '/')) :
    (∀ p f, c.readWith read = (.ok (.ofLexeme ⟨.regex, p, 10, f⟩ c.place), c.advance (p.length + f.length + 2)) ↔
      StandsIn c.ahead p f) ∧
    ((¬∃ p f, StandsIn c.ahead p f) → ∃ e later, c.readWith read = (.error e, later)) ∧
    ∀ p f p' f', StandsIn c.ahead p f → StandsIn c.ahead p' f' → p = p' ∧ f = f' := by
  obtain ⟨rest, hrest⟩ := List.head?_eq_some_iff.mp hc
  have hread : ∀ p f, StandsIn c.ahead p f → c.readWith read =
      (.ok (.ofLexeme ⟨.regex, p, 10, f⟩ c.place), c.advance (p.length + f.length + 2)) := by
    intro p f h
    simp only [TextCursor.readWith, read_of_standsIn h, Reading.found]
  have hfound : ∀ token later, c.readWith read = (.ok token, later) → ∃ p f, StandsIn c.ahead p f := by
    intro token later h
    cases hl : (read c.ahead).outcome with
    | error fault =>
      simp only [TextCursor.readWith, hl] at h
      cases h
    | ok l =>
      rw [hrest] at hl ⊢
      exact standsIn_of_read hl
  refine ⟨fun p f => ⟨fun h => ?_, hread p f⟩, fun hnone => ?_, fun p f p' f' h h' => h.unique h'⟩
  · obtain ⟨p', f', h'⟩ := hfound _ _ h
    have he := (hread p' f' h').symm.trans h
    simp only [Prod.mk.injEq, Except.ok.injEq, Token.ofLexeme, Token.mk.injEq, Lexeme.mk.injEq] at he
    obtain ⟨⟨⟨-, rfl, -, rfl⟩, -⟩, -⟩ := he
    exact h'
  · rcases hr : c.readWith read with ⟨e | token, later⟩
    · exact ⟨e, later, rfl⟩
    · exact absurd (hfound token later hr) hnone

/-- A slash and an escaped bracket in a class, and an escaped slash behind it, end no literal. -/
theorem readWith_iff_standsIn_class :
    let c := (TextCursor.start "x = /[/\\]]\\//gi;").advance 4
    c.ahead.head? = some (CodePoint.ofChar '/') ∧ StandsIn c.ahead "[/\\]]\\/" "gi" ∧
      c.readWith read = (.ok (.ofLexeme ⟨.regex, "[/\\]]\\/", 10, "gi"⟩ ⟨4, 1, 5⟩), c.advance 11) := by
  intro c
  have hc : c.ahead.head? = some (CodePoint.ofChar '/') := by decide
  have hclass : IsClass "/\\]" := .single (by decide) (by decide) (by decide) (.escape (by decide) .nil)
  have hbody : IsBody "[/\\]]\\/" := .ofClass hclass (.escape (by decide) .nil)
  have hend : Text.EndsName ";" := by
    rintro _ ⟨⟩
    decide +kernel
  have hstands : StandsIn c.ahead "[/\\]]\\/" "gi" := ⟨hbody, by decide, ";", by decide, hend⟩
  exact ⟨hc, hstands, ((readWith_iff_standsIn c hc).1 _ _).mpr hstands⟩

end MagSyntax.Regex
