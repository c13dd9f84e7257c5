import MagSyntax.Proofs.GroupStatements

/-! An `if` with a value that ends behind its first branch. Of its three forms the one that it has gets as far as
the end of that branch, and misses the `else` there. The others do not get past it: where
nothing is open no `else` stands, so each of them breaks off on the way. -/

namespace MagSyntax

open Parse Stretch Balance Input

namespace Parse

theorem further_of_le {e f : SyntaxError} (h : f.place.position ≤ e.place.position) : further e f = e := by
  rw [further, if_neg (by omega)]

theorem further_of_lt {e f : SyntaxError} (h : e.place.position < f.place.position) : further e f = f := by
  rw [further, if_pos h]

/-- A step that comes to certain mismatches, and another in its place then. -/
theorem finds_recover {α : Type} {setup : Setup} {keeps : Memo → Prop} {may : Failure → Prop} {c : Nat}
    {found : α → Nat → Prop} {errors : SyntaxError → Prop} {first : Parse α} {target : Nat → Nat}
    {next : Nat → SyntaxError → Parse α} (ht : target c = c) (hx : may .exhausted)
    (h : Finds setup keeps (Failure.Misses errors) first c found)
    (hn : ∀ e, errors e → Finds setup keeps may (next c e) c found) :
    Finds setup keeps may (recover first target next) c found := by
  intro p hp hm
  have h1 := h p hp hm
  simp only [recover, hp, ht]
  generalize first.run setup p = o at h1 ⊢
  rcases o with ⟨v, q⟩ | ⟨e | _ | _, q⟩
  · exact h1
  · exact hn _ h1.2 _ rfl h1.1
  · exact h1.2.elim
  · exact ⟨h1.1, hx⟩

/-- Where nothing is open no `else` stands among tokens that leave nothing open. -/
theorem Stretch.At.not_else {k : Stretch} {i : Nat} {s : Balance} (hat : k.At i even)
    (h : k.before.after k.tokens = some s) (hi : i < k.tokens.length) :
    k.tokens[i].kind ≠ Keyword.elseWord := by
  intro he
  rw [← List.take_append_drop i k.tokens, List.drop_eq_getElem_cons hi, after_append, hat.count, Option.bind_some,
    after_cons, step_else (s := even) nofun he, if_pos ⟨rfl, rfl⟩] at h
  cases h

end Parse

namespace Grammar

variable {input : Input} {c : Nat} {found : Node → Nat → Prop} {tokens : List Token}

/-- An `if` with a value that has none of its forms comes to the mismatch that is furthest. -/
theorem finds_conditional_misses {call : Rule → Parse Node} {e : SyntaxError}
    {errors₁ errors₂ errors₃ : SyntaxError → Prop} (hk : (input.get c).kind = Keyword.ifWord)
    (h₁ : Finds (plain input) (fun _ => True) (Failure.Misses errors₁)
      (conditionalByParentheses call (locOf (input.get c))) (c + 1) found)
    (h₂ : Finds (plain input) (fun _ => True) (Failure.Misses errors₂)
      (conditionalByThen call (locOf (input.get c))) (c + 1) found)
    (h₃ : Finds (plain input) (fun _ => True) (Failure.Misses errors₃)
      (conditionalByBlocks call (locOf (input.get c))) (c + 1) found)
    (hfurthest : ∀ e₁ e₂ e₃, errors₁ e₁ → errors₂ e₂ → errors₃ e₃ → further (further e₁ e₂) e₃ = e) :
    Finds (plain input) (fun _ => True) (Failure.Misses (· = e)) (conditional call) c found := by
  simp only [conditional, expectKind]
  refine finds_expectOne_bind_of (fun _ => ?_) fun hn => absurd (by simp [hk]) hn
  rw [input_plain, after_of_ne _ (by simp [hk]), attempt_eq]
  refine finds_recover rfl trivial h₁ fun e₁ he₁ => ?_
  rw [attemptAfter_cons]
  refine finds_recover rfl trivial h₂ fun e₂ he₂ => ?_
  rw [attemptAfter_cons]
  refine finds_recover rfl trivial h₃ fun e₃ he₃ => ?_
  exact finds_mismatch (hfurthest e₁ e₂ e₃ he₁ he₂ he₃)

/-- Tokens that leave nothing open, with one behind them that no operand goes on with, and no `if` with a value
behind its first branch. -/
structure Closes (input : Input) (c : Nat) (tokens : List Token) : Prop where
  contains : input.Contains c tokens
  inside : ∀ t ∈ tokens, t.kind ≠ .eof
  balanced : even.after tokens = some even
  stop : (input.get (c + tokens.length)).kind ∉
    TokenKind.keyword .elseWord :: TokenKind.symbol .assign :: asked

/-- An error at one of the tokens, or at the one behind them. -/
def IsWithin (input : Input) (c : Nat) (tokens : List Token) (e : SyntaxError) : Prop :=
  ∃ i ≤ tokens.length, e.place = (input.get (c + i)).place

namespace Closes

variable {i n : Nat} {s : Balance} (h : Closes input c tokens)
include h

theorem isFair : (alone input tokens c even).IsFair := by
  refine ⟨h.contains, h.contains, h.inside, fun s hat => .even ?_ ?_ ?_, fun hn => absurd rfl hn⟩
  · have hcount := hat.count
    simp only [alone, List.take_length, h.balanced, Option.some.injEq] at hcount
    exact hcount.symm
  · exact fun hm => h.stop (List.mem_cons_of_mem _ hm)
  · exact fun hm => h.stop (List.mem_cons_of_mem _ (List.mem_cons_of_mem _ hm))

omit h in
theorem isWithin (hat : (alone input tokens c even).At i s) (complaint : Complaint) :
    IsWithin input c tokens (.ofToken complaint (input.get (c + i))) :=
  ⟨i, hat.le, rfl⟩

/-- What a rule finds among the tokens leaves the count as it was. -/
theorem finds_rule {r : Rule} (hat : (alone input tokens c even).At i s) (hd : s.behind ≠ .dot)
    (hr : r.isValue ∨ r = .block ∧ i < tokens.length) :
    Finds (plain input) (fun _ => True) (Failure.Misses (IsWithin input c tokens)) (parse n r.surcharge r) (c + i)
      fun _ d => ∃ j, d = c + j ∧ (alone input tokens c even).At j s.settle := by
  have hf : (alone input tokens c even).Fits r i s := by
    refine ⟨hat, hd, fun hm => ?_, ?_, ?_⟩
    · rcases hr with hr | ⟨rfl, -⟩
      · cases r <;> simp at hm <;> cases hr
      · simp at hm
    · rintro rfl
      rcases hr with hr | hr
      · cases hr
      · exact .inr hr.2
    · rintro rfl
      rcases hr with hr | ⟨hr, -⟩ <;> cases hr
  refine (finds_within h.isFair hf).mono (fun f hf => hf.mono ?_) ?_
  · rintro _ ⟨i, s, complaint, hat, rfl, -⟩
    exact isWithin hat complaint
  · rintro v d ⟨j, rfl, hv⟩
    exact ⟨j, rfl, hv.counted⟩

/-- A token stands among the tokens if it is not of the kind of the one behind them. -/
theorem taken (hat : (alone input tokens c even).At i s) {kind : TokenKind}
    (hkind : (input.get (c + i)).kind = kind)
    (hstop : s = even → (input.get (c + tokens.length)).kind ≠ kind) :
    i < tokens.length ∧ input.after (c + i) = c + (i + 1) ∧
      ∀ s', s.step (input.get (c + i)) = some s' → (alone input tokens c even).At (i + 1) s' := by
  obtain ⟨hi, -, hne, hstep⟩ | ⟨rfl, -⟩ := h.isFair.token hat
  · exact ⟨hi, after_of_ne _ hne, hstep⟩
  · have hcount := hat.count
    simp only [alone, List.take_length, h.balanced, Option.some.injEq] at hcount
    exact absurd hkind (hstop hcount.symm)

theorem finds_expect {kind : TokenKind} {complaint : Complaint} {next : Unit → Parse Node} {s' : Balance}
    (hat : (alone input tokens c even).At i s)
    (hstop : s = even → (input.get (c + tokens.length)).kind ≠ kind)
    (hstep : ∀ t : Token, t.kind = kind → s.step t = some s')
    (hn : (alone input tokens c even).At (i + 1) s' →
      Finds (plain input) (fun _ => True) (Failure.Misses (IsWithin input c tokens)) (next ()) (c + (i + 1)) found) :
    Finds (plain input) (fun _ => True) (Failure.Misses (IsWithin input c tokens)) (expect kind complaint >>= next)
      (c + i) found := by
  refine finds_expect_bind_of (fun hkind => ?_) fun _ => isWithin hat _
  obtain ⟨-, hafter, htaken⟩ := h.taken hat hkind hstop
  rw [input_plain, hafter]
  exact hn (htaken _ (hstep _ hkind))

theorem ne_of_mem {kind : TokenKind} (hm : kind ∈ TokenKind.keyword .elseWord :: TokenKind.symbol .assign :: asked) :
    (input.get (c + tokens.length)).kind ≠ kind :=
  fun he => h.stop (he ▸ hm)

/-- Where nothing is open no `else` follows. -/
theorem finds_requireElse {next : Unit → Parse Node} (hat : (alone input tokens c even).At i even) :
    Finds (plain input) (fun _ => True) (Failure.Misses (IsWithin input c tokens)) (requireElse >>= next) (c + i)
      fun _ _ => False := by
  refine finds_expect_bind_of (fun he => ?_) fun _ => isWithin hat _
  obtain ⟨hi, -⟩ := h.taken hat he fun _ => h.ne_of_mem (by simp)
  rw [input_plain, get_of_contains h.contains hi] at he
  exact absurd he (hat.not_else h.balanced hi)

theorem finds_conditionalByParentheses (loc : Loc) :
    Finds (plain input) (fun _ => True) (Failure.Misses (IsWithin input c tokens))
      (conditionalByParentheses (fun r => parse n r.surcharge r) loc) c fun _ _ => False := by
  simp only [conditionalByParentheses, condition, bind_assoc]
  refine h.finds_expect (at_zero _) (fun _ => h.ne_of_mem (by decide))
    (fun t ht => step_opening nofun (by rw [ht]; decide)) fun hat => ?_
  refine (h.finds_rule hat nofun (.inl rfl)).bind ?_
  rintro test _ ⟨j, rfl, hat⟩
  refine h.finds_expect hat (fun he => absurd he (opened_ne_even _))
    (fun t ht => step_closing nofun (by rw [ht]; decide) nofun) fun hat => ?_
  refine (h.finds_rule hat nofun (.inl rfl)).bind ?_
  rintro consequent _ ⟨j, rfl, hat⟩
  exact h.finds_requireElse hat

theorem finds_conditionalByThen (loc : Loc)
    (hthen : (input.get (c + tokens.length)).kind ≠ Keyword.thenWord) :
    Finds (plain input) (fun _ => True) (Failure.Misses (IsWithin input c tokens))
      (conditionalByThen (fun r => parse n r.surcharge r) loc) c fun _ _ => False := by
  refine (h.finds_rule (at_zero _) nofun (.inl rfl)).bind ?_
  rintro test _ ⟨j, rfl, hat⟩
  refine h.finds_expect hat (fun _ => hthen) (fun t ht => step_uncounted nofun (by rw [ht]; decide)) fun hat => ?_
  refine (h.finds_rule hat nofun (.inl rfl)).bind ?_
  rintro consequent _ ⟨j, rfl, hat⟩
  exact h.finds_requireElse hat

theorem finds_conditionalByBlocks (loc : Loc)
    (hbrace : (input.get (c + tokens.length)).kind ≠ Symbol.lbrace) :
    Finds (plain input) (fun _ => True) (Failure.Misses (IsWithin input c tokens))
      (conditionalByBlocks (fun r => parse n r.surcharge r) loc) c fun _ _ => False := by
  have hcondition : Finds (plain input) (fun _ => True) (Failure.Misses (IsWithin input c tokens))
      (conditionAndBlock fun r => parse n r.surcharge r) c
      fun _ d => ∃ j, d = c + j ∧ (alone input tokens c even).At j even := by
    refine (h.finds_rule (at_zero _) nofun (.inl rfl)).bind ?_
    rintro test _ ⟨j, rfl, hat⟩
    rw [finds_sees_bind, input_plain]
    by_cases hkind : (input.get (c + j)).kind = Symbol.lbrace
    · rw [decide_eq_true hkind]
      obtain ⟨hj, -⟩ := h.taken hat hkind fun _ => hbrace
      refine (h.finds_rule hat nofun (.inr ⟨rfl, hj⟩)).bind ?_
      rintro block _ ⟨j, rfl, hat⟩
      exact finds_pure ⟨j, rfl, hat⟩
    · rw [decide_eq_false hkind]
      exact finds_complain_bind_of (isWithin hat _)
  refine hcondition.bind ?_
  rintro ⟨test, consequent⟩ _ ⟨j, rfl, hat⟩
  exact h.finds_requireElse hat

end Closes

end Grammar

/-- A block starts with a brace. -/
theorem IsPhrase.opens {tokens : List Token} {n : Node} (h : IsPhrase .block tokens n) {input : Input} {c : Nat}
    (hcontains : input.Contains c tokens) : (input.get c).kind = Symbol.lbrace := by
  have hfirst := get_of_contains hcontains h.nonempty
  rw [Nat.add_zero, ← get_of_contains (contains_ofTokens h.inside).1 h.nonempty] at hfirst
  rw [hfirst]
  by_contra hk
  obtain ⟨b, p, hp, -⟩ := h.read
  have hblock : Finds (plain (.ofTokens tokens)) (fun _ => True) (fun _ => True)
      (Grammar.parse b Rule.block.surcharge .block) 0 fun _ _ => False := by
    refine Grammar.finds_plain trivial (fun n => ?_) b _
    exact finds_expectOne_bind_of (fun hm => absurd (List.mem_singleton.mp hm) hk) fun _ => trivial
  have hread := hblock .start rfl trivial
  rw [hp] at hread
  exact hread.2

/-- An `if` with a value up to the end of its first branch, without the word itself. Test and branch are read
to their ends on their own. -/
inductive OneBranch : List Token → Prop
  | parentheses {opening closing : Token} {test branch : List Token} {n m : Node}
    (hopening : opening.kind = Symbol.lparen) (hclosing : closing.kind = Symbol.rparen)
    (ht : Rule.expression.ReadsAll test n) (ht' : ¬Rule.expression.CutsShort test)
    (hb : Rule.expression.ReadsAll branch m) (hb' : ¬Rule.expression.CutsShort branch) :
    OneBranch (opening :: (test ++ closing :: branch))
  | byThen {word : Token} {test branch : List Token} {n m : Node} (hword : word.kind = Keyword.thenWord)
    (ht : Rule.operand.ReadsAll test n) (ht' : ¬Rule.operand.CutsShort test)
    (hb : Rule.expression.ReadsAll branch m) (hb' : ¬Rule.expression.CutsShort branch) :
    OneBranch (test ++ word :: branch)
  | byBlocks {test branch : List Token} {n m : Node}
    (ht : Rule.operand.ReadsAll test n) (ht' : ¬Rule.operand.CutsShort test)
    (hb : Rule.block.ReadsAll branch m) (hb' : ¬Rule.block.CutsShort branch) :
    OneBranch (test ++ branch)

theorem OneBranch.inside {front : List Token} (h : OneBranch front) : ∀ t ∈ front, t.kind ≠ .eof := by
  cases h with
  | parentheses hopening hclosing ht _ hb =>
    simp only [List.forall_mem_cons, List.forall_mem_append]
    exact ⟨by rw [hopening]; nofun, ht.inside, by rw [hclosing]; nofun, hb.inside⟩
  | byThen hword ht _ hb =>
    simp only [List.forall_mem_cons, List.forall_mem_append]
    exact ⟨ht.inside, by rw [hword]; nofun, hb.inside⟩
  | byBlocks ht _ hb => exact List.forall_mem_append.mpr ⟨ht.inside, hb.inside⟩

namespace Grammar

variable {input : Input} {c : Nat} {test branch : List Token} {n m : Node} {closing : Token}

/-- A closing parenthesis where the `else` of an `if` with a value belongs. -/
theorem finds_requireElse_missing {next : Unit → Parse Node} (hclosing : closing.kind = Symbol.rparen)
    (hget : input.get c = closing) :
    Finds (plain input) (fun _ => True) (Failure.Misses (· = .ofToken .elseAfterBranch closing))
      (requireElse >>= next) c fun _ _ => False := by
  subst hget
  refine finds_expect_bind_of (fun he => ?_) fun _ => rfl
  rw [input_plain, hclosing] at he
  cases he

/-- A phrase before a token that is no sign of assignment either. -/
theorem finds_phrase {r : Rule} {tokens : List Token} {errors : SyntaxError → Prop} (h : IsPhrase r tokens n)
    (hcontains : input.Contains c tokens)
    (hstop : (input.get (c + tokens.length)).kind ∉ TokenKind.symbol .assign :: asked) (b : Nat) :
    Finds (plain input) (fun _ => True) (Failure.Misses errors) (parse b r.surcharge r) c
      fun v d => v = n ∧ d = c + tokens.length := by
  rw [List.mem_cons, not_or] at hstop
  exact (h.finds hcontains hstop.2 (fun he => absurd he hstop.1) b).mono
    (fun _ => Failure.IsExhausted.misses) fun _ _ => id

theorem finds_conditionalByParentheses_missing {opening word : Token} (hopening : opening.kind = Symbol.lparen)
    (hword : word.kind = Symbol.rparen) (ht : IsPhrase .expression test n) (hb : IsPhrase .expression branch m)
    (hcontains : input.Contains c (opening :: (test ++ word :: branch)))
    (hget : input.get (c + (opening :: (test ++ word :: branch)).length) = closing)
    (hclosing : closing.kind = Symbol.rparen) (loc : Loc) (b : Nat) :
    Finds (plain input) (fun _ => True) (Failure.Misses (· = .ofToken .elseAfterBranch closing))
      (conditionalByParentheses (fun r => parse b r.surcharge r) loc) c fun _ _ => False := by
  obtain ⟨rfl, hrest⟩ := hcontains
  obtain ⟨hin, rfl, hin'⟩ := contains_append.mp hrest
  have hstop : c + 1 + test.length + 1 + branch.length =
      c + (input.get c :: (test ++ input.get (c + 1 + test.length) :: branch)).length := by
    simp only [List.length_cons, List.length_append]
    omega
  rw [← hstop] at hget
  simp only [conditionalByParentheses, condition, bind_assoc]
  refine finds_expect_bind_of (fun _ => ?_) fun hn => absurd hopening hn
  rw [input_plain, after_of_ne _ (by rw [hopening]; nofun)]
  refine (finds_phrase ht hin (by rw [hword]; decide) b).bind ?_
  rintro _ _ ⟨rfl, rfl⟩
  refine finds_expect_bind_of (fun _ => ?_) fun hn => absurd hword hn
  rw [input_plain, after_of_ne _ (by rw [hword]; nofun)]
  refine (finds_phrase hb hin' (by rw [hget, hclosing]; decide) b).bind ?_
  rintro _ _ ⟨rfl, rfl⟩
  exact finds_requireElse_missing hclosing hget

theorem finds_conditionalByThen_missing {word : Token} (hword : word.kind = Keyword.thenWord)
    (ht : IsPhrase .operand test n) (hb : IsPhrase .expression branch m)
    (hcontains : input.Contains c (test ++ word :: branch))
    (hget : input.get (c + (test ++ word :: branch).length) = closing) (hclosing : closing.kind = Symbol.rparen)
    (loc : Loc) (b : Nat) :
    Finds (plain input) (fun _ => True) (Failure.Misses (· = .ofToken .elseAfterBranch closing))
      (conditionalByThen (fun r => parse b r.surcharge r) loc) c fun _ _ => False := by
  obtain ⟨hin, rfl, hin'⟩ := contains_append.mp hcontains
  rw [List.length_append, List.length_cons, ← Nat.add_assoc, Nat.add_comm branch.length, ← Nat.add_assoc] at hget
  refine (finds_phrase ht hin (by rw [hword]; decide) b).bind ?_
  rintro _ _ ⟨rfl, rfl⟩
  refine finds_expect_bind_of (fun _ => ?_) fun hn => absurd hword hn
  rw [input_plain, after_of_ne _ (by rw [hword]; nofun)]
  refine (finds_phrase hb hin' (by rw [hget, hclosing]; decide) b).bind ?_
  rintro _ _ ⟨rfl, rfl⟩
  exact finds_requireElse_missing hclosing hget

theorem finds_conditionalByBlocks_missing (ht : IsPhrase .operand test n) (hb : IsPhrase .block branch m)
    (hcontains : input.Contains c (test ++ branch)) (hget : input.get (c + (test ++ branch).length) = closing)
    (hclosing : closing.kind = Symbol.rparen) (loc : Loc) (b : Nat) :
    Finds (plain input) (fun _ => True) (Failure.Misses (· = .ofToken .elseAfterBranch closing))
      (conditionalByBlocks (fun r => parse b r.surcharge r) loc) c fun _ _ => False := by
  obtain ⟨hin, hin'⟩ := contains_append.mp hcontains
  rw [List.length_append, ← Nat.add_assoc] at hget
  have hbrace : (input.get (c + test.length)).kind = Symbol.lbrace := hb.opens hin'
  have hcondition : Finds (plain input) (fun _ => True) (Failure.Misses (· = .ofToken .elseAfterBranch closing))
      (conditionAndBlock fun r => parse b r.surcharge r) c fun _ d => d = c + test.length + branch.length := by
    refine (finds_phrase ht hin (by rw [hbrace]; decide) b).bind ?_
    rintro _ _ ⟨rfl, rfl⟩
    rw [finds_sees_bind, input_plain, decide_eq_true hbrace]
    refine (finds_phrase hb hin' (by rw [hget, hclosing]; decide) b).bind ?_
    rintro _ _ ⟨rfl, rfl⟩
    exact finds_pure rfl
  refine hcondition.bind ?_
  rintro ⟨_, _⟩ _ rfl
  exact finds_requireElse_missing hclosing hget

section

variable {front tokens : List Token} (hcontains : input.Contains c front)
  (hplaces : ∀ t ∈ front, t.place.position < closing.place.position)
include hcontains hplaces

theorem IsWithin.before {e : SyntaxError} (h : IsWithin input c tokens e) (hlength : tokens.length < front.length) :
    e.place.position < closing.place.position := by
  obtain ⟨i, hi, he⟩ := h
  rw [he, get_of_contains hcontains (Nat.lt_of_le_of_lt hi hlength)]
  exact hplaces _ (List.getElem_mem _)

theorem IsWithin.upTo {e : SyntaxError} (h : IsWithin input c front e)
    (hget : input.get (c + front.length) = closing) : e.place.position ≤ closing.place.position := by
  obtain ⟨i, hi, he⟩ := h
  rw [he]
  rcases Nat.lt_or_eq_of_le hi with hi | rfl
  · rw [get_of_contains hcontains hi]
    exact Int.le_of_lt (hplaces _ (List.getElem_mem _))
  · exact Int.le_of_eq (congrArg (·.place.position) hget)

end

/-- Behind its first branch an `if` with a value misses the `else`, in whichever form it is. -/
theorem finds_oneBranch {front : List Token} (h : OneBranch front) (hword : (input.get c).kind = Keyword.ifWord)
    (hcontains : input.Contains (c + 1) front) (hget : input.get (c + 1 + front.length) = closing)
    (hclosing : closing.kind = Symbol.rparen)
    (hplaces : ∀ t ∈ front, t.place.position < closing.place.position) (b : Nat) :
    Finds (plain input) (fun _ => True) (Failure.Misses (· = .ofToken .elseAfterBranch closing))
      (conditional fun r => parse b r.surcharge r) c fun _ _ => False := by
  cases h with
  | @parentheses opening close test branch n m hopening hclose ht ht' hb hb' =>
    have htest := ht.isPhrase (.inl rfl) ht'
    have hbranch := hb.isPhrase (.inl rfl) hb'
    have hcloses : Closes input (c + 1) (opening :: (test ++ close :: branch)) := by
      refine ⟨hcontains, (OneBranch.parentheses hopening hclose ht ht' hb hb').inside, ?_, ?_⟩
      · rw [after_group branch (by rw [hopening]; decide) (by rw [hclose]; decide) htest.balanced]
        exact hbranch.balanced
      · rw [hget, hclosing]
        decide
    -- the other forms may get as far, but the first of the furthest is reported
    refine finds_conditional_misses hword
      (finds_conditionalByParentheses_missing hopening hclose htest hbranch hcontains hget hclosing _ b)
      (hcloses.finds_conditionalByThen _ (by rw [hget, hclosing]; nofun))
      (hcloses.finds_conditionalByBlocks _ (by rw [hget, hclosing]; nofun)) ?_
    rintro _ e₂ e₃ rfl h₂ h₃
    rw [further_of_le (f := e₂) (h₂.upTo hcontains hplaces hget)]
    exact further_of_le (h₃.upTo hcontains hplaces hget)
  | @byThen word test branch n m hthen ht ht' hb hb' =>
    have htest := ht.isPhrase (.inl rfl) ht'
    have hbranch := hb.isPhrase (.inl rfl) hb'
    obtain ⟨hin, hat, -⟩ := contains_append.mp hcontains
    have hcloses : Closes input (c + 1) test := ⟨hin, ht.inside, htest.balanced, by rw [hat, hthen]; decide⟩
    have hlength : test.length < (test ++ word :: branch).length := by
      rw [List.length_append, List.length_cons]
      exact Nat.lt_add_of_pos_right (Nat.succ_pos _)
    refine finds_conditional_misses hword (hcloses.finds_conditionalByParentheses _)
      (finds_conditionalByThen_missing hthen htest hbranch hcontains hget hclosing _ b)
      (hcloses.finds_conditionalByBlocks _ (by rw [hat, hthen]; nofun)) ?_
    rintro e₁ _ e₃ h₁ rfl h₃
    rw [further_of_lt (f := .ofToken .elseAfterBranch closing) (h₁.before hcontains hplaces hlength),
      further_of_le (f := e₃) (Int.le_of_lt (h₃.before hcontains hplaces hlength))]
  | @byBlocks test branch n m ht ht' hb hb' =>
    have htest := ht.isPhrase (.inl rfl) ht'
    have hbranch := hb.isPhrase (.inr rfl) hb'
    obtain ⟨hin, hin'⟩ := contains_append.mp hcontains
    have hbrace := hbranch.opens hin'
    have hcloses : Closes input (c + 1) test := ⟨hin, ht.inside, htest.balanced, by rw [hbrace]; decide⟩
    have hlength : test.length < (test ++ branch).length := by
      rw [List.length_append]
      exact Nat.lt_add_of_pos_right hbranch.nonempty
    refine finds_conditional_misses hword (hcloses.finds_conditionalByParentheses _)
      (hcloses.finds_conditionalByThen _ (by rw [hbrace]; nofun))
      (finds_conditionalByBlocks_missing htest hbranch hcontains hget hclosing _ b) ?_
    rintro e₁ e₂ _ h₁ h₂ rfl
    have hlater : (further e₁ e₂).place.position < closing.place.position := by
      unfold further
      split
      · exact h₂.before hcontains hplaces hlength
      · exact h₁.before hcontains hplaces hlength
    exact further_of_lt hlater

end Grammar

namespace Entry

open Grammar

variable {front : List Token} {opening word closing semi : Token}

/-- A program of an `if` with a value, in parentheses, that ends behind its first branch is rejected for the `else`
that is missing there, whichever form it has, unless its parse is cut short. -/
theorem missing_else (h : OneBranch front) (hopening : opening.kind = Symbol.lparen)
    (hword : word.kind = Keyword.ifWord) (hclosing : closing.kind = Symbol.rparen)
    (hsemi : semi.kind = Symbol.semi) (hplaces : ∀ t ∈ front, t.place.position < closing.place.position) :
    let tokens := opening :: word :: (front ++ [closing, semi])
    Rule.program.CutsShort tokens ∨
      program.ofInput (.ofTokens tokens) = .error (.ofToken .elseAfterBranch closing) := by
  intro tokens
  have hinside : ∀ t ∈ tokens, t.kind ≠ .eof := by
    simp only [tokens, List.forall_mem_cons, List.forall_mem_append]
    exact ⟨by rw [hopening]; decide, by rw [hword]; decide, h.inside, by rw [hclosing]; decide,
      by rw [hsemi]; decide, List.forall_mem_nil _⟩
  obtain ⟨hfirst, hsecond, hrest⟩ := (contains_ofTokens hinside).1
  obtain ⟨hcontains, hget, -⟩ := contains_append.mp hrest
  have hif : ((ofTokens tokens).get 1).kind = Keyword.ifWord := by rw [hsecond, hword]
  let step (b : Nat) (r : Rule) (c : Nat) := Finds (plain (.ofTokens tokens)) (fun _ => True)
    (Failure.Misses (· = .ofToken .elseAfterBranch closing)) (Grammar.parse b r.surcharge r) c fun _ _ => False
  have hconditional (b : Nat) : step b .conditional 1 :=
    finds_plain trivial (fun n => finds_oneBranch h hif hcontains hget hclosing hplaces n) b _
  have hprimary (b : Nat) : step b .primary 1 := by
    refine finds_plain trivial (fun n => ?_) b _
    simp only [body, primary]
    rw [finds_current_bind, input_plain, hif]
    exact hconditional n
  have hoperand (b : Nat) : step b .operand 1 :=
    finds_operand_of_primary trivial (by rw [hif]; decide) hprimary (fun _ _ h => h.elim) b
  have hexpression (b : Nat) : step b .expression 1 :=
    finds_plain trivial (fun n => (hoperand n).bind fun _ _ h => h.elim) b _
  have hprogram (b : Nat) := finds_groupProgram trivial (by rw [hfirst, hopening]) hexpression
    (fun _ _ h => h.elim) b
  refine (rule_of_finds (r := .program) (kind_last_ofTokens tokens) hprogram).imp_right ?_
  rintro (⟨v, p, hp, _, _, h, -⟩ | ⟨_, p, hp, rfl⟩)
  · exact h.elim
  · exact program.ofInput_of_failed hp

/-- In `(if (a) (b));` the two groups can also be read as a call, which ends at the same parenthesis. -/
theorem missing_else_call :
    let symbol (s : Symbol) (position : Nat) : Token := .ofLexeme (.ofSymbol s) ⟨position, 1, position + 1⟩
    let name (n : Text) (position : Nat) : Token := ⟨⟨.ident, n, 10, []⟩, ⟨position, 1, position + 1⟩⟩
    let front := [symbol .lparen 4, name "a" 5, symbol .rparen 6, symbol .lparen 8, name "b" 9, symbol .rparen 10]
    let word : Token := .ofLexeme (.ofKeyword .ifWord) ⟨1, 1, 2⟩
    OneBranch front ∧ (∀ t ∈ front, t.place.position < 11) ∧
      program.ofInput (.ofTokens (symbol .lparen 0 :: word :: (front ++ [symbol .rparen 11, symbol .semi 12]))) =
        .error (.ofToken .elseAfterBranch (symbol .rparen 11)) := by
  intro symbol name front word
  have ht : Rule.expression.ReadsAll [name "a" 5] (.identifier ⟨1, 6⟩ "a") := .of_finding (by cbv)
  have hb : Rule.expression.ReadsAll [symbol .lparen 8, name "b" 9, symbol .rparen 10]
      (.parenthesized ⟨1, 9⟩ (.identifier ⟨1, 10⟩ "b")) := .of_finding (by cbv)
  have h : OneBranch front := @OneBranch.parentheses (symbol .lparen 4) (symbol .rparen 6) _ _ _ _ rfl rfl ht
    (by decide +kernel) hb (by decide +kernel)
  have hplaces : ∀ t ∈ front, t.place.position < (symbol .rparen 11).place.position := by decide
  refine ⟨h, hplaces, (@missing_else front (symbol .lparen 0) word (symbol .rparen 11) (symbol .semi 12) h rfl rfl
    rfl rfl hplaces).resolve_left ?_⟩
  decide +kernel

/-- Powers in the first branch use up the budget, if they leave less of it than the `if` around them takes. -/
theorem branchPowers_exhausted {input : Input} {n : Nat} (hn : 9947 ≤ n)
    (hopening : (input.get 0).kind = Symbol.lparen) (hword : (input.get 1).kind = Keyword.ifWord)
    (hopen : (input.get 2).kind = Symbol.lparen) (htest : (input.get 3).kind = .ident)
    (hclose : (input.get 4).kind = Symbol.rparen) (hpowers : input.Shows 5 (Node.powers n).lexemes) :
    Ends (.usual input) Course.untried Course.anything (Grammar.rule .program) 0 0 .exhausted := by
  have hfits (d : Nat) (hd : d < 256) := Course.fits_usual input hd
  have hr (c : Nat) := (Course.usual input).recalls_untried c .exhausted
  -- nothing is tried at the powers before the test has been read
  have hprimary : Ends (.usual input) Course.untried (Course.UntriedAt 5) (Grammar.parse 9944 0 .primary) 3 3
      (.found (.identifier (locOf (input.get 3)) (input.get 3).value) 4) :=
    (ends_primary_identifier htest).mono (fun _ h => h) fun m (h : m = .empty) r => h ▸ Memo.find?_empty _
  have hr' := @Course.recalls_elsewhere (.usual input) 3 5 (by decide)
    (.found (.identifier (locOf (input.get 3)) (input.get 3).value) 4)
  have hoperand := ends_operand_of_primary hr' hprimary (by rw [Course.usual, htest]; decide)
    (.of_found (by rw [Course.usual, hclose]; decide))
  have htest := ends_expression hr' (hfits 2 (by decide)) hoperand (.of_found (by rw [Course.usual, hclose]; decide))
  have hbranch := powers_expression_exhausted n (Nat.le_add_right_of_le hn) hpowers
    ((Course.usual input).recalls_untriedAt 5 _)
    (fun _ _ => trivial) (hfits 2 (by decide))
  have hconditional : Ends (.usual input) Course.untried Course.anything
      (conditional fun r => Grammar.parse 9957 r.surcharge r) 1 2 .exhausted := by
    refine .bind (.expectOne (by simp [Course.usual, hword]) (by simp [Course.usual, hword])) (.attempt ?_ (by simp))
    exact .bind (ends_condition hopen htest hclose) (.bind_exhausted hbranch)
  have hprimary : Ends (.usual input) Course.untried Course.anything
      (primary fun r => Grammar.parse 9960 r.surcharge r) 1 2 .exhausted := ends_primary_if hword hconditional
  have hoperand := ends_operand_of_primary (b := 9961) (hr 1) hprimary (by rw [Course.usual, hword]; decide)
    (by rintro _ _ ⟨⟩)
  have hexpression := ends_expression (hr 1) (hfits 1 (by decide)) hoperand (by rintro _ _ ⟨⟩)
  exact ends_groupProgram_exhausted (hr 0) (hfits 0 (by decide)) hopening hexpression

/-- Powers that the budget is just enough for are a branch, and where they are the only one of an `if` with a value
the budget is used up before the `else` is missed. -/
theorem branchPowers_read_alone {n : Nat} (hn : 9947 ≤ n) (hn' : n ≤ 9976) :
    let symbol (s : Symbol) : Token := .ofLexeme (.ofSymbol s) ⟨0, 1, 1⟩
    let test : List Token := [⟨⟨.ident, "a", 10, []⟩, ⟨0, 1, 1⟩⟩]
    let front := symbol .lparen :: (test ++ symbol .rparen :: (Node.powers n).tokens)
    let closing : Token := .ofLexeme (.ofSymbol .rparen) ⟨1, 1, 2⟩
    let tokens := symbol .lparen :: .ofLexeme (.ofKeyword .ifWord) ⟨0, 1, 1⟩ :: (front ++ [closing, symbol .semi])
    OneBranch front ∧ (∀ t ∈ front, t.place.position < closing.place.position) ∧
      ((Grammar.rule .program).run { input := .ofTokens tokens } .start).progress.refused = false ∧
      program.ofInput (.ofTokens tokens) ≠ .error (.ofToken .elseAfterBranch closing) := by
  intro symbol test front closing tokens
  have htest : Rule.expression.ReadsAll test (.identifier ⟨1, 1⟩ "a") := .of_finding (by cbv)
  obtain ⟨hcut, m, hbranch⟩ := Rule.readsAll_powers hn'
  have hfront : OneBranch front := @OneBranch.parentheses (symbol .lparen) (symbol .rparen) _ _ _ _ rfl rfl htest
    (by decide +kernel) hbranch hcut
  have hplaces : ∀ t ∈ front, t.place.position < closing.place.position := by
    simp only [front, test, List.forall_mem_cons, List.forall_mem_append]
    refine ⟨by decide, ⟨by decide, List.forall_mem_nil _⟩, by decide, fun t ht => ?_⟩
    obtain ⟨l, -, rfl⟩ := List.mem_map.mp ht
    show (0 : Int) < 1
    decide
  have hinside : ∀ t ∈ tokens, t.kind ≠ .eof := by
    simp only [tokens, List.forall_mem_cons, List.forall_mem_append]
    exact ⟨by decide, by decide, hfront.inside, by decide, by decide, List.forall_mem_nil _⟩
  obtain ⟨place, he⟩ := ofTokens_eq hinside
  have hbehind : ∀ t ∈ [closing, symbol .semi], t.kind ≠ .eof := by decide
  have hpowers := shows_powers n (symbol .lparen :: .ofLexeme (.ofKeyword .ifWord) ⟨0, 1, 1⟩ :: symbol .lparen ::
    (test ++ [symbol .rparen])) hbehind (.endAt place)
  have htokens : tokens = symbol .lparen :: .ofLexeme (.ofKeyword .ifWord) ⟨0, 1, 1⟩ :: symbol .lparen ::
      (test ++ [symbol .rparen]) ++ ((Node.powers n).tokens ++ [closing, symbol .semi]) := by
    simp [tokens, front]
  rw [← htokens] at hpowers
  obtain ⟨q, hq, hrefused⟩ := (@branchPowers_exhausted (.ofTokens tokens) n hn (by rw [he]; rfl) (by rw [he]; rfl)
    (by rw [he]; rfl) (by rw [he]; rfl) (by rw [he]; rfl) (by rw [he]; exact hpowers)).run_exhausted
  refine ⟨hfront, hplaces, (congrArg (·.progress.refused) hq).trans hrefused, ?_⟩
  rw [program.ofInput_of_failed hq]
  simp [Failure.asError, SyntaxError.ofToken]

/-- A missing `else` that is not reported: where a long branch uses up the budget although nothing is nested too
deeply, and where all tokens are at one place and the form that is tried first is the furthest. -/
theorem missing_else_unreported :
    (let symbol (s : Symbol) : Token := .ofLexeme (.ofSymbol s) ⟨0, 1, 1⟩
     let test : List Token := [⟨⟨.ident, "a", 10, []⟩, ⟨0, 1, 1⟩⟩]
     let front := symbol .lparen :: (test ++ symbol .rparen :: (Node.powers 9975).tokens)
     let closing : Token := .ofLexeme (.ofSymbol .rparen) ⟨1, 1, 2⟩
     let tokens := symbol .lparen :: .ofLexeme (.ofKeyword .ifWord) ⟨0, 1, 1⟩ :: (front ++ [closing, symbol .semi])
     OneBranch front ∧ (∀ t ∈ front, t.place.position < closing.place.position) ∧
       ((Grammar.rule .program).run { input := .ofTokens tokens } .start).progress.refused = false ∧
       program.ofInput (.ofTokens tokens) ≠ .error (.ofToken .elseAfterBranch closing)) ∧
    (let symbol (s : Symbol) : Token := .ofLexeme (.ofSymbol s) ⟨0, 1, 1⟩
     let word (w : Keyword) : Token := .ofLexeme (.ofKeyword w) ⟨0, 1, 1⟩
     let name (n : Text) : Token := ⟨⟨.ident, n, 10, []⟩, ⟨0, 1, 1⟩⟩
     let front := [name "a", word .thenWord, name "b"]
     OneBranch front ∧
       program.ofInput (.ofTokens (symbol .lparen :: word .ifWord :: (front ++ [symbol .rparen, symbol .semi]))) =
         .error (.ofToken .conditionStart (name "a"))) := by
  refine ⟨branchPowers_read_alone (by decide) (by decide), ?_⟩
  intro symbol word name front
  have ha : Rule.operand.ReadsAll [name "a"] (.identifier ⟨1, 1⟩ "a") := .of_finding (by cbv)
  have hb : Rule.expression.ReadsAll [name "b"] (.identifier ⟨1, 1⟩ "b") := .of_finding (by cbv)
  refine ⟨?_, by cbv⟩
  exact @OneBranch.byThen (word .thenWord) _ _ _ _ rfl ha (by decide +kernel) hb (by decide +kernel)

end Entry

end MagSyntax
