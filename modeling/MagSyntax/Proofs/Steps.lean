import MagSyntax.Grammar.Loops

/-! What a parsing step finds from a token on, whatever the depth, as long as a property of the memo
holds at its start. The rules below say it for each combinator, so that the body of a rule is followed
token by token and never run. -/

namespace MagSyntax

namespace Input

/-- Behind the token at an index; the end of the input stays there. -/
def after (input : Input) (c : Nat) : Nat := if (input.get c).kind = .eof then c else c + 1

theorem after_of_ne (input : Input) {c : Nat} (h : (input.get c).kind ≠ .eof) :
    input.after c = c + 1 := by
  simp [after, h]

end Input

namespace Failure

/-- The tokens do not match, or too many rules are open. -/
def IsTame : Failure → Prop
  | .mismatch _ => True
  | .unclosable _ => False
  | .exhausted => True

/-- Too many rules are open. -/
def IsExhausted : Failure → Prop
  | .exhausted => True
  | _ => False

theorem IsExhausted.isTame {f : Failure} (h : f.IsExhausted) : f.IsTame := by
  cases f <;> first | exact h | trivial

end Failure

namespace Parse

variable {α β : Type} {setup : Setup} {keeps : Memo → Prop} {may : Failure → Prop}

/-- The step, started at a token with a memo that `keeps` holds of, ends with such a memo again, and
either with a value and at a token that `found` relates, or with a failure that it may come to. -/
def Finds (setup : Setup) (keeps : Memo → Prop) (may : Failure → Prop) (step : Parse α) (c : Nat)
    (found : α → Nat → Prop) : Prop :=
  ∀ p : Progress, p.cursor = c → keeps p.memo →
    match step.run setup p with
    | .ok value q => keeps q.memo ∧ found value q.cursor
    | .failed failure q => keeps q.memo ∧ may failure

theorem Finds.mono {may' : Failure → Prop} {step : Parse α} {c : Nat}
    {found found' : α → Nat → Prop} (h : Finds setup keeps may step c found)
    (hmay : ∀ f, may f → may' f) (hfound : ∀ v d, found v d → found' v d) :
    Finds setup keeps may' step c found' := by
  intro p hc hk
  have := h p hc hk
  split at this
  · exact ⟨this.1, hfound _ _ this.2⟩
  · exact ⟨this.1, hmay _ this.2⟩

theorem Finds.imp {step : Parse α} {c : Nat} {found found' : α → Nat → Prop}
    (h : Finds setup keeps may step c found) (hfound : ∀ v d, found v d → found' v d) :
    Finds setup keeps may step c found' :=
  h.mono (fun _ => id) hfound

/-- What is found, and what else is found wherever it is there to be found. -/
theorem Finds.and_forall {ι : Type} {holds : ι → Prop} {may' : Failure → Prop} {step : Parse α}
    {c : Nat} {found : α → Nat → Prop} {found' : ι → α → Nat → Prop}
    (h : Finds setup keeps may step c found)
    (h' : ∀ i, holds i → Finds setup keeps may' step c (found' i)) :
    Finds setup keeps (fun f => may f ∧ ∀ i, holds i → may' f) step c
      fun v d => found v d ∧ ∀ i, holds i → found' i v d := by
  intro p hc hk
  have h1 := h p hc hk
  have h2 := fun i hi => h' i hi p hc hk
  cases hr : step.run setup p with
  | ok v q =>
    simp only [hr] at h1 h2
    exact ⟨h1.1, h1.2, fun i hi => (h2 i hi).2⟩
  | failed f q =>
    simp only [hr] at h1 h2
    exact ⟨h1.1, h1.2, fun i hi => (h2 i hi).2⟩

theorem Finds.and {may' : Failure → Prop} {step : Parse α} {c : Nat} {found found' : α → Nat → Prop}
    (h : Finds setup keeps may step c found) (h' : Finds setup keeps may' step c found') :
    Finds setup keeps may step c fun v d => found v d ∧ found' v d :=
  (h.and_forall fun (_ : Unit) (_ : True) => h').mono (fun _ hf => hf.1)
    fun _ _ hf => ⟨hf.1, hf.2 () trivial⟩

theorem finds_pure {v : α} {c : Nat} {found : α → Nat → Prop} (h : found v c) :
    Finds setup keeps may (pure v) c found := by
  intro p hc hk
  subst hc
  exact ⟨hk, h⟩

theorem Finds.bind {first : Parse α} {next : α → Parse β} {c : Nat} {found : α → Nat → Prop}
    {found' : β → Nat → Prop} (h : Finds setup keeps may first c found)
    (hn : ∀ v d, found v d → Finds setup keeps may (next v) d found') :
    Finds setup keeps may (first >>= next) c found' := by
  intro p hc hk
  have h1 := h p hc hk
  rw [run_bind]
  cases hr : first.run setup p with
  | ok v q =>
    rw [hr] at h1
    exact hn _ _ h1.2 _ rfl h1.1
  | failed f q =>
    rw [hr] at h1
    exact h1

theorem finds_pure_bind {v : α} {next : α → Parse β} {c : Nat} {found : β → Nat → Prop} :
    Finds setup keeps may (pure v >>= next) c found ↔ Finds setup keeps may (next v) c found :=
  Iff.rfl

theorem finds_fail_bind {failure : Failure} {next : α → Parse β} {c : Nat}
    {found : β → Nat → Prop} (h : may failure) :
    Finds setup keeps may (fail failure >>= next) c found :=
  fun _ _ hk => ⟨hk, h⟩

theorem map_bind {γ : Type} (f : α → β) (first : Parse α) (next : β → Parse γ) :
    (f <$> first) >>= next = first >>= fun v => next (f v) := by
  show Parse.mk _ = Parse.mk _
  congr
  funext setup p
  rw [run_map]
  cases first.run setup p <;> rfl

theorem finds_complain {complaint : Complaint} {c : Nat} {found : α → Nat → Prop}
    (h : ∀ e, may (.mismatch e)) : Finds setup keeps may (complain complaint) c found :=
  fun _ _ hk => ⟨hk, h _⟩

theorem finds_complain_bind_of {complaint : Complaint} {next : α → Parse β} {c : Nat}
    {found : β → Nat → Prop} (h : may (.mismatch (.ofToken complaint (setup.input.get c)))) :
    Finds setup keeps may (complain complaint >>= next) c found := by
  intro p hc hk
  subst hc
  exact ⟨hk, h⟩

theorem finds_complain_bind {complaint : Complaint} {next : α → Parse β} {c : Nat}
    {found : β → Nat → Prop} (h : ∀ e, may (.mismatch e)) :
    Finds setup keeps may (complain complaint >>= next) c found :=
  finds_complain_bind_of (h _)

theorem finds_exhausted {c : Nat} {found : α → Nat → Prop} (h : may .exhausted) :
    Finds setup keeps may (fail .exhausted) c found :=
  fun _ _ hk => ⟨hk, h⟩

/-- A step that looks at the token at the cursor and does not move it. -/
theorem finds_of_run {first : Parse α} {next : α → Parse β} {c d : Nat} {v : α}
    {found : β → Nat → Prop}
    (hrun : ∀ p : Progress, p.cursor = c → first.run setup p = .ok v { p with cursor := d }) :
    Finds setup keeps may (first >>= next) c found ↔
      Finds setup keeps may (next v) d found := by
  constructor
  · intro h p hd hk
    have h1 := h { p with cursor := c } rfl hk
    rw [run_bind, hrun _ rfl] at h1
    rw [← hd] at h1
    exact h1
  · intro h p hc hk
    rw [run_bind, hrun p hc]
    exact h _ rfl hk

theorem finds_current_bind {next : Token → Parse β} {c : Nat} {found : β → Nat → Prop} :
    Finds setup keeps may (current >>= next) c found ↔
      Finds setup keeps may (next (setup.input.get c)) c found :=
  finds_of_run fun p hc => by rw [← hc]; rfl

theorem finds_rounds_bind {next : Nat → Parse β} {c : Nat} {found : β → Nat → Prop} :
    Finds setup keeps may (rounds >>= next) c found ↔
      Finds setup keeps may (next (setup.input.before.size - c + 1)) c found :=
  finds_of_run fun p hc => by rw [← hc]; rfl

theorem finds_check_bind {kinds : List TokenKind} {next : Bool → Parse β} {c : Nat}
    {found : β → Nat → Prop} :
    Finds setup keeps may (check kinds >>= next) c found ↔
      Finds setup keeps may (next (decide ((setup.input.get c).kind ∈ kinds))) c found :=
  finds_of_run fun p hc => by rw [← hc]; rfl

theorem finds_sees_bind {kind : TokenKind} {next : Bool → Parse β} {c : Nat}
    {found : β → Nat → Prop} :
    Finds setup keeps may (sees kind >>= next) c found ↔
      Finds setup keeps may (next (decide ((setup.input.get c).kind = kind))) c found :=
  finds_of_run fun p hc => by simp [sees, ← hc]

theorem pastToken_eq (p : Progress) (input : Input) :
    p.pastToken input = { p with cursor := input.after p.cursor } := by
  unfold Progress.pastToken Input.after
  split <;> rfl

theorem finds_advance_bind {next : Unit → Parse β} {c : Nat} {found : β → Nat → Prop} :
    Finds setup keeps may (discard advance >>= next) c found ↔
      Finds setup keeps may (next ()) (setup.input.after c) found :=
  finds_of_run fun p hc => by
    rw [← hc, ← pastToken_eq]
    rfl

theorem finds_accept_bind {kinds : List TokenKind} {next : Option Token → Parse β} {c : Nat}
    {found : β → Nat → Prop} :
    Finds setup keeps may (accept kinds >>= next) c found ↔
      if (setup.input.get c).kind ∈ kinds then
        Finds setup keeps may (next (some (setup.input.get c))) (setup.input.after c) found
      else Finds setup keeps may (next none) c found := by
  split
  · exact finds_of_run fun p hc => by simp_all [pastToken_eq]
  · exact finds_of_run fun p hc => by
      subst hc
      simp_all

theorem finds_skip_bind {kind : TokenKind} {next : Bool → Parse β} {c : Nat}
    {found : β → Nat → Prop} :
    Finds setup keeps may (skip kind >>= next) c found ↔
      if (setup.input.get c).kind = kind then
        Finds setup keeps may (next true) (setup.input.after c) found
      else Finds setup keeps may (next false) c found := by
  split
  · exact finds_of_run fun p hc => by simp_all [skip, pastToken_eq]
  · exact finds_of_run fun p hc => by
      subst hc
      simp_all [skip]

/-- A part that a mark announces and that may be missing. -/
theorem finds_marked_bind {kind : TokenKind} {part : Parse α} {next : Option α → Parse β} {c : Nat}
    {found : β → Nat → Prop}
    (hnone : (setup.input.get c).kind ≠ kind → Finds setup keeps may (next none) c found)
    (hsome : (setup.input.get c).kind = kind →
      Finds setup keeps may (part >>= fun v => next (some v)) (setup.input.after c) found) :
    Finds setup keeps may
      (skip kind >>= fun b => if b then some <$> part >>= next else pure none >>= next) c found := by
  rw [finds_skip_bind]
  split
  next hk =>
    simp only [if_true, map_bind]
    exact hsome hk
  next hk => exact hnone hk

theorem finds_expectOne_bind_of {kinds : List TokenKind} {complaint : Complaint}
    {next : Token → Parse β} {c : Nat} {found : β → Nat → Prop}
    (h : (setup.input.get c).kind ∈ kinds →
      Finds setup keeps may (next (setup.input.get c)) (setup.input.after c) found)
    (hmay : (setup.input.get c).kind ∉ kinds →
      may (.mismatch (.ofToken complaint (setup.input.get c)))) :
    Finds setup keeps may (expectOne kinds complaint >>= next) c found := by
  by_cases hk : (setup.input.get c).kind ∈ kinds
  · exact (finds_of_run fun p hc => by simp_all [pastToken_eq]).mpr (h hk)
  · intro p hc hp
    subst hc
    simpa [hk] using ⟨hp, hmay hk⟩

theorem finds_expectOne_bind {kinds : List TokenKind} {complaint : Complaint}
    {next : Token → Parse β} {c : Nat} {found : β → Nat → Prop}
    (h : (setup.input.get c).kind ∈ kinds →
      Finds setup keeps may (next (setup.input.get c)) (setup.input.after c) found)
    (hmay : (setup.input.get c).kind ∉ kinds → ∀ e, may (.mismatch e)) :
    Finds setup keeps may (expectOne kinds complaint >>= next) c found :=
  finds_expectOne_bind_of h fun hk => hmay hk _

theorem run_discard (step : Parse α) (setup : Setup) (p : Progress) :
    (discard step).run setup p =
      match step.run setup p with
      | .ok _ q => .ok () q
      | .failed failure q => .failed failure q := rfl

theorem run_expect (kind : TokenKind) (complaint : Complaint) (setup : Setup) (p : Progress) :
    (expect kind complaint).run setup p =
      if (setup.input.get p.cursor).kind = kind then .ok () (p.pastToken setup.input)
      else .failed (.mismatch (.ofToken complaint (setup.input.get p.cursor))) p := by
  unfold expect
  rw [run_discard, run_expectOne]
  by_cases hk : (setup.input.get p.cursor).kind = kind <;> simp [hk]

theorem finds_expect_bind_of {kind : TokenKind} {complaint : Complaint} {next : Unit → Parse β}
    {c : Nat} {found : β → Nat → Prop}
    (h : (setup.input.get c).kind = kind →
      Finds setup keeps may (next ()) (setup.input.after c) found)
    (hmay : (setup.input.get c).kind ≠ kind →
      may (.mismatch (.ofToken complaint (setup.input.get c)))) :
    Finds setup keeps may (expect kind complaint >>= next) c found := by
  by_cases hk : (setup.input.get c).kind = kind
  · refine (finds_of_run fun p hc => ?_).mpr (h hk)
    rw [run_expect, hc, if_pos hk, pastToken_eq, hc]
  · intro p hc hp
    rw [run_bind, run_expect, hc, if_neg hk]
    exact ⟨hp, hmay hk⟩

theorem finds_expect_bind {kind : TokenKind} {complaint : Complaint} {next : Unit → Parse β}
    {c : Nat} {found : β → Nat → Prop}
    (h : (setup.input.get c).kind = kind →
      Finds setup keeps may (next ()) (setup.input.after c) found)
    (hmay : (setup.input.get c).kind ≠ kind → ∀ e, may (.mismatch e)) :
    Finds setup keeps may (expect kind complaint >>= next) c found :=
  finds_expect_bind_of h fun hk => hmay hk _

/-- An alternative that may fail to match is followed by one that finds what is asked for. -/
theorem finds_attemptAfter_cons {start : Nat} {furthest : SyntaxError} {alternative : Parse α}
    {others : List (Parse α)} {c : Nat} {found : α → Nat → Prop} (hmay : ∀ f, f.IsExhausted → may f)
    (h : Finds setup keeps Failure.IsTame alternative c found)
    (ho : ∀ e, Finds setup keeps may (attemptAfter start e others) start found) :
    Finds setup keeps may (attemptAfter start furthest (alternative :: others)) c found := by
  intro p hc hk
  have h1 := h p hc hk
  simp only [attemptAfter]
  split at h1
  next v q hq => simpa [hq] using h1
  next f q hq =>
    rw [hq]
    cases f with
    | mismatch e => exact ho _ _ rfl h1.1
    | unclosable => exact h1.2.elim
    | exhausted => exact ⟨h1.1, hmay _ trivial⟩

theorem finds_attempt {first : Parse α} {others : List (Parse α)} {c : Nat}
    {found : α → Nat → Prop} (hmay : ∀ f, f.IsExhausted → may f)
    (h : Finds setup keeps Failure.IsTame first c found)
    (ho : ∀ e, Finds setup keeps may (attemptAfter c e others) c found) :
    Finds setup keeps may (attempt first others) c found := by
  intro p hc hk
  have h1 := h p hc hk
  simp only [attempt]
  split at h1
  next v q hq => simpa [hq] using h1
  next f q hq =>
    rw [hq]
    cases f with
    | mismatch e => rw [hc]; exact ho _ _ rfl h1.1
    | unclosable => exact h1.2.elim
    | exhausted => exact ⟨h1.1, hmay _ trivial⟩

/-- An alternative that does not fail to match is the last one that is tried. -/
theorem Finds.attemptAfter {start : Nat} {furthest : SyntaxError} {alternative : Parse α}
    {others : List (Parse α)} {c : Nat} {found : α → Nat → Prop}
    (h : Finds setup keeps Failure.IsExhausted alternative c found) :
    Finds setup keeps Failure.IsExhausted (attemptAfter start furthest (alternative :: others)) c
      found := by
  intro p hc hk
  have h1 := h p hc hk
  simp only [Parse.attemptAfter]
  split at h1
  next v q hq => simpa [hq] using h1
  next f q hq =>
    rw [hq]
    cases f with
    | mismatch => exact h1.2.elim
    | unclosable | exhausted => exact h1

theorem Finds.attempt {first : Parse α} {others : List (Parse α)} {c : Nat}
    {found : α → Nat → Prop} (h : Finds setup keeps Failure.IsExhausted first c found) :
    Finds setup keeps Failure.IsExhausted (attempt first others) c found := by
  intro p hc hk
  have h1 := h p hc hk
  simp only [Parse.attempt]
  split at h1
  next v q hq => simpa [hq] using h1
  next f q hq =>
    rw [hq]
    cases f with
    | mismatch => exact h1.2.elim
    | unclosable | exhausted => exact h1

theorem finds_attemptAfter_nil {start : Nat} {furthest : SyntaxError} {c : Nat}
    {found : α → Nat → Prop} (h : ∀ e, may (.mismatch e)) :
    Finds setup keeps may (attemptAfter start furthest []) c found :=
  fun _ _ hk => ⟨hk, h _⟩

theorem Finds.nested {rule : Parse α} {c : Nat} {found : α → Nat → Prop}
    (h : Finds setup keeps may rule c found)
    (hmay : setup.nesting ≠ none → ∀ e, may (.mismatch e)) :
    Finds setup keeps may (nested rule) c found := by
  intro p hc hk
  have h1 := h p.deeper hc hk
  simp only [Parse.nested]
  by_cases hn : setup.nesting.any (· ≤ p.depth)
  · rw [if_pos hn]
    refine ⟨hk, hmay (fun ho => ?_) _⟩
    rw [ho] at hn
    cases hn
  · rw [if_neg hn]
    cases hr : rule.run setup p.deeper with
    | ok v q => rw [hr] at h1; exact h1
    | failed f q => rw [hr] at h1; exact h1

/-- A remembered rule, where what is found and what may go wrong is what the memo says. -/
theorem Finds.remembered {rule : Rule} {body : Parse Node} {c : Nat} {found : Node → Nat → Prop}
    (hnode : ∀ m n stop, keeps m →
      m.find? ⟨rule, c⟩ = some (.node n stop) → found n stop)
    (herror : ∀ m e, keeps m → m.find? ⟨rule, c⟩ = some (.error e) → may (.mismatch e))
    (hstore : ∀ m n stop, keeps m → found n stop → keeps (m.store ⟨rule, c⟩ (.node n stop)))
    (hstore' : ∀ m e, keeps m → may (.mismatch e) → keeps (m.store ⟨rule, c⟩ (.error e)))
    (h : Finds setup keeps may body c found) :
    Finds setup keeps may (remembered rule body) c found := by
  intro p hc hk
  subst hc
  have h1 := h p rfl hk
  simp only [Parse.remembered]
  cases hf : (if setup.remembers then p.memo.find? ⟨rule, p.cursor⟩ else none) with
  | some finding =>
    have hf : p.memo.find? ⟨rule, p.cursor⟩ = some finding := by
      split at hf
      · exact hf
      · cases hf
    cases finding with
    | node n stop => exact ⟨hk, hnode _ _ _ hk hf⟩
    | error e => exact ⟨hk, herror _ _ hk hf⟩
  | none =>
    cases hr : body.run setup p with
    | ok n q =>
      rw [hr] at h1
      exact ⟨hstore _ _ _ h1.1 h1.2, h1.2⟩
    | failed f q =>
      rw [hr] at h1
      cases f with
      | mismatch e => exact ⟨hstore' _ _ h1.1 h1.2, h1.2⟩
      | unclosable | exhausted => exact h1

end Parse

end MagSyntax
