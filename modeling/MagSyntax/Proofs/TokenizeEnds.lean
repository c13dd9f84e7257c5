import MagSyntax.Proofs.Lossless
import MagSyntax.Proofs.Messages
import MagSyntax.Proofs.Readings

/-! Reading tokens ends: no reading asks for a code point that is not there, and every one that gives a token
other than the end takes up some of the text. So one more reading than there are code points gets to
the end of any source. -/

namespace MagSyntax

namespace Fault

/-- No other fault has the words of the one that a missing code point has. -/
theorem message_ne_endOfSource {f : Fault} (h : f ≠ .endOfSource) :
    f.message ≠ Fault.endOfSource.message := by
  -- two messages differ within the twelve code points that they have in front
  intro he
  have hfront := congrArg (List.take 12) he
  cases f with
  | endOfSource => exact h rfl
  | _ => revert hfront; simp [message, Text.ofString, CodePoint.ofChar]

end Fault

/-- The error is a fault that the source has, and not that it ends too soon for a code point to be read. -/
def SyntaxError.IsFault (e : SyntaxError) : Prop :=
  ∃ f, e.cause = .lexical f ∧ f.message ≠ Fault.endOfSource.message

/-- The error is a fault in code points that are there, and shows only what is printable, or an escape. -/
def SyntaxError.IsTidyFault (e : SyntaxError) : Prop := ∃ fault, e.cause = .lexical fault ∧ fault.IsTidy

theorem SyntaxError.IsTidyFault.isFault {e : SyntaxError} (h : e.IsTidyFault) : e.IsFault := by
  obtain ⟨fault, hcause, htidy⟩ := h
  refine ⟨fault, hcause, Fault.message_ne_endOfSource ?_⟩
  rintro rfl
  exact htidy

namespace TextCursor

theorem isTidyFault_of_skipTrivia {c later : TextCursor} {e : SyntaxError}
    (h : c.skipTrivia = (.error e, later)) : e.IsTidyFault := by
  unfold skipTrivia at h
  simp only at h
  split at h
  next => cases h
  next =>
    cases h
    exact ⟨_, rfl, trivial⟩

theorem isTidyFault_of_readWith {b : Bool} {c later : TextCursor} {e : SyntaxError}
    (h : c.readWith (Lexeme.read b) = (.error e, later)) : e.IsTidyFault := by
  unfold readWith at h
  simp only at h
  split at h
  next => cases h
  next f hf =>
    cases h
    exact ⟨f, rfl, Lexeme.isTidy_read b c.ahead f hf⟩

end TextCursor

namespace TokenReader

/-- What the next reading comes to: a fault, or the end of the input with nothing left ahead, or another token
that takes up some text. -/
def Advances (r : TokenReader) : Prop :=
  (∃ e later, r.next = (.error e, later) ∧ e.IsFault) ∨
    (∃ token later, r.next = (.ok token, later) ∧ token.kind = .eof ∧ later.cursor.atEnd) ∨
      ∃ token later, r.next = (.ok token, later) ∧ token.kind ≠ .eof ∧
        later.cursor.ahead.length < r.cursor.ahead.length

theorem isTidyFault_of_next {r later : TokenReader} {e : SyntaxError} (h : r.next = (.error e, later)) :
    e.IsTidyFault := by
  unfold next TextCursor.readToken at h
  rcases hskip : r.cursor.skipTrivia with ⟨e | u, c⟩
  · simp only [hskip] at h
    cases h
    exact TextCursor.isTidyFault_of_skipTrivia hskip
  · simp only [hskip] at h
    rcases hread : c.readWith (Lexeme.read r.context.regexAllowed) with ⟨e | token, d⟩
    · simp only [hread] at h
      cases h
      exact TextCursor.isTidyFault_of_readWith hread
    · simp only [hread] at h
      cases h

theorem advances (r : TokenReader) : r.Advances := by
  rcases hn : r.next with ⟨e | token, later⟩
  · exact .inl ⟨e, later, hn, (isTidyFault_of_next hn).isFault⟩
  · obtain ⟨g, s, hahead, -, -, -, hspells | ⟨hl, -, hend⟩⟩ := next_splits hn
    · refine .inr (.inr ⟨token, later, hn, hspells.ne_eof, ?_⟩)
      have hs := List.length_pos_iff.mpr hspells.ne_nil
      rw [hahead, List.length_append, List.length_append]
      omega
    · exact .inr (.inl ⟨token, later, hn, congrArg Lexeme.kind hl, List.isEmpty_iff.mpr hend⟩)

/-- Readings that are enough for the text ahead are as good as any larger number of them. -/
theorem readAll_eq_of_lt {count count' : Nat} {r : TokenReader} (sofar : List Token)
    (h : r.cursor.ahead.length < count) (h' : r.cursor.ahead.length < count') :
    readAll count r sofar = readAll count' r sofar := by
  induction count generalizing count' r sofar with
  | zero => exact absurd h (Nat.not_lt_zero _)
  | succ count ih =>
    cases count' with
    | zero => exact absurd h' (Nat.not_lt_zero _)
    | succ count' =>
      rw [readAll, readAll]
      rcases r.advances with ⟨e, later, hn, -⟩ | ⟨token, later, hn, hk, -⟩ | ⟨token, later, hn, hk, hlt⟩
      · rw [hn]
      · rw [hn]
        simp only [hk, if_true]
      · rw [hn]
        simp only [hk, if_false]
        exact ih (token :: sofar) (by omega) (by omega)

theorem length_of_readAll {count : Nat} {r : TokenReader} {sofar tokens : List Token}
    (h : readAll count r sofar = .ok tokens) : tokens.length ≤ sofar.length + count := by
  induction count generalizing r sofar with
  | zero =>
    cases h
    rw [List.length_reverse]
    exact Nat.le_refl _
  | succ count ih =>
    rw [readAll] at h
    split at h
    next => cases h
    next token later hn =>
      split at h
      next =>
        cases h
        rw [List.length_reverse, List.length_cons]
        omega
      next =>
        have hle := ih h
        rw [List.length_cons] at hle
        omega

/-- What each reading keeps holds of all readers that are come to, so all tokens and the error are such as a
reading from such a reader gives. -/
theorem readAll_induction {I : TokenReader → Prop} {T : Token → Prop} {E : SyntaxError → Prop}
    (htoken : ∀ r token later, I r → r.next = (.ok token, later) → I later ∧ T token)
    (herror : ∀ r e later, I r → r.next = (.error e, later) → E e) (count : Nat) {r : TokenReader}
    (sofar : List Token) (hr : I r) (hsofar : ∀ token ∈ sofar, T token) :
    match readAll count r sofar with
    | .ok tokens => ∀ token ∈ tokens, T token
    | .error e => E e := by
  induction count generalizing r sofar with
  | zero => exact fun token hm => hsofar token (List.mem_reverse.mp hm)
  | succ count ih =>
    rw [readAll]
    rcases hn : r.next with ⟨e | token, later⟩
    · exact herror r e later hr hn
    · obtain ⟨hlater, ht⟩ := htoken r token later hr hn
      have hall : ∀ t ∈ token :: sofar, T t := List.forall_mem_cons.mpr ⟨ht, hsofar⟩
      simp only
      by_cases hk : token.kind = .eof
      · rw [if_pos hk]
        exact fun t hm => hall t (List.mem_reverse.mp hm)
      · rw [if_neg hk]
        exact ih _ hlater hall

theorem isTidyFault_of_readAll {count : Nat} {r : TokenReader} {sofar : List Token} {e : SyntaxError}
    (h : readAll count r sofar = .error e) : e.IsTidyFault := by
  have hall := readAll_induction (I := fun _ => True) (T := fun _ => True)
    (fun _ _ _ _ _ => ⟨trivial, trivial⟩) (fun _ _ _ _ hn => isTidyFault_of_next hn) count (r := r) sofar
    trivial fun _ _ => trivial
  rw [h] at hall
  exact hall

end TokenReader

open TokenReader

/-- However often a token is asked for, failed readings included, the reading is a fault of the source, gives
the end with nothing left ahead, or takes up some text. So reading all tokens needs no more readings than
one for each code point and one for the end, which is the last token and the only one of its kind. -/
theorem tokenize_ends (source : Text) :
    (∀ count, ((start source).readings count).2.Advances) ∧
      (∀ more, readAll (source.length + 1 + more) (start source) [] = tokenize source) ∧
        ((∃ e, tokenize source = .error e ∧ e.IsFault) ∨
          ∃ (inner : List Token) (last : Token), tokenize source = .ok (inner ++ [last]) ∧
            inner.length ≤ source.length ∧ (∀ t ∈ inner, t.kind ≠ .eof) ∧ last.kind = .eof) := by
  refine ⟨fun count => advances _, fun more => ?_, ?_⟩
  · have hlt : (start source).cursor.ahead.length < source.length + 1 := Nat.lt_succ_self _
    exact readAll_eq_of_lt [] (Nat.lt_add_right more hlt) hlt
  · cases h : tokenize source with
    | error e => exact .inl ⟨e, rfl, (isTidyFault_of_readAll h).isFault⟩
    | ok tokens =>
      have hlength : tokens.length ≤ 0 + (source.length + 1) := length_of_readAll h
      obtain ⟨inner, last, rfl, hl, -, hinner⟩ := tokens_of_tokenize h
      refine .inr ⟨inner, last, rfl, ?_, fun t ht => (hinner t ht).1, congrArg Lexeme.kind hl⟩
      rw [List.length_append, List.length_singleton] at hlength
      omega

end MagSyntax
