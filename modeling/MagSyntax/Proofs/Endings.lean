import MagSyntax.Proofs.Reading
import MagSyntax.Proofs.Tracking

/-! How the rules end on tokens that are known. Cursor, depth and budget are followed exactly, the memo by
what holds of it before and after, so that a parse is known to be cut short, or known not to be. -/

namespace MagSyntax

open Input

namespace Parse

variable {α β : Type}

/-- How a step ends: with a value and behind a token, with tokens that do not match, or with the budget used
up. -/
inductive Ending (α : Type)
  | found (value : α) (stop : Nat)
  | mismatch
  | exhausted

namespace Ending

/-- Both fail, and for the same reason. -/
def FailsAs : Ending α → Ending β → Prop
  | mismatch, mismatch | exhausted, exhausted => True
  | _, _ => False

/-- How a remembered rule ended. -/
def ofFinding : Finding → Ending Node
  | .node n s => found n s
  | .error _ => mismatch

/-- No token of these kinds stands behind what is found. -/
def HaltsBefore (ending : Ending Node) (input : Input) (kinds : List TokenKind) : Prop :=
  ∀ v s, ending = .found v s → (input.get s).kind ∉ kinds

namespace HaltsBefore

variable {input : Input} {ending : Ending Node} {kinds kinds' : List TokenKind}

theorem mono (h : ending.HaltsBefore input kinds') (hsub : kinds ⊆ kinds') :
    ending.HaltsBefore input kinds :=
  fun v s hr hm => h v s hr (hsub hm)

theorem of_found {v : Node} {s : Nat} (h : (input.get s).kind ∉ kinds) :
    (found v s).HaltsBefore input kinds := by
  rintro _ _ ⟨⟩
  exact h

theorem of_mismatch : mismatch.HaltsBefore input kinds := by
  rintro _ _ ⟨⟩

theorem of_exhausted : exhausted.HaltsBefore input kinds := by
  rintro _ _ ⟨⟩

end HaltsBefore

end Ending

/-- The outcome is of this kind. -/
inductive Outcome.EndsAs : Outcome α → Ending α → Prop
  | found {v : α} {q : Progress} {s : Nat} (h : q.cursor = s) : EndsAs (.ok v q) (.found v s)
  | mismatch {e : SyntaxError} {q : Progress} : EndsAs (.failed (.mismatch e) q) .mismatch
  | exhausted {q : Progress} : EndsAs (.failed .exhausted q) .exhausted

/-- The parses that are followed together: those of an input, with the memo or without it, under some bounds
on nesting. -/
structure Course where
  input : Input
  remembers : Bool
  bounds : List (Option Nat)
  /-- No rule may be refused. -/
  quiet : Prop

namespace Course

/-- What is kept from one progress to the other has no more rules open at once than a bound allows. -/
def Keeps (k : Course) (p q : Progress) : Prop := ∀ limit, some limit ∈ k.bounds → q.deepest ≤ max p.deepest limit

theorem Keeps.trans {k : Course} {p q r : Progress} (h : k.Keeps p q) (h' : k.Keeps q r) : k.Keeps p r := by
  intro limit hl
  have h := h limit hl
  have h' := h' limit hl
  omega

theorem keeps_of_eq {k : Course} {p q : Progress} (h : q.deepest = p.deepest) : k.Keeps p q :=
  fun _ _ => h ▸ Nat.le_max_left _ _

/-- What an outcome from a progress has to be. -/
structure Allows (k : Course) (after : Memo → Prop) (ending : Ending α) (p : Progress)
    (o : Outcome α) : Prop where
  ends : o.EndsAs ending
  depth : o.progress.depth = p.depth
  memo : after o.progress.memo
  refused : k.quiet → o.progress.refused = p.refused
  keeps : ∀ v q, o = .ok v q → k.Keeps p q

section

variable {k : Course} {after : Memo → Prop} {p q : Progress} (hd : q.depth = p.depth) (hm : after q.memo)
  (hr : k.quiet → q.refused = p.refused)
include hd hm hr

theorem allows_mismatch (e : SyntaxError) :
    k.Allows after .mismatch p (.failed (.mismatch e) q : Outcome α) :=
  ⟨.mismatch, hd, hm, hr, fun _ _ h => by cases h⟩

theorem allows_exhausted : k.Allows after .exhausted p (.failed .exhausted q : Outcome α) :=
  ⟨.exhausted, hd, hm, hr, fun _ _ h => by cases h⟩

theorem allows_found {v : α} {s : Nat} (hs : q.cursor = s) (hk : k.Keeps p q) :
    k.Allows after (.found v s) p (.ok v q) :=
  ⟨.found hs, hd, hm, hr, fun _ _ h => by cases h; exact hk⟩

end

/-- One more rule may be open under every bound. -/
def Fits (k : Course) (d : Nat) : Prop := ∀ bound ∈ k.bounds, ¬bound.any (· ≤ d)

theorem Fits.mono {k : Course} {d d' : Nat} (h : k.Fits d) (hd : d' ≤ d) : k.Fits d' := by
  intro bound hb
  cases bound with
  | none => simp
  | some n =>
    have := h (some n) hb
    simp only [Option.any_some, decide_eq_true_eq, Nat.not_le] at this ⊢
    omega

/-- What the memo may give for an attempt at a token is how its rule ends there, and may be stored. -/
structure Recalls (k : Course) (before after : Memo → Prop) (c : Nat) (ending : Ending Node) :
    Prop where
  recalled : k.remembers → ∀ r m f, before m → m.find? ⟨r, c⟩ = some f → .ofFinding f = ending ∧ after m
  stored : ∀ r m f, after m → .ofFinding f = ending → after (m.store ⟨r, c⟩ f)

/-- The parses of an input without a memo. -/
def plain (input : Input) (bounds : List (Option Nat)) (quiet : Prop) : Course :=
  ⟨input, false, bounds, quiet⟩

/-- Whatever the memo is like. -/
def anything (_ : Memo) : Prop := True

/-- The parse of an input with the memo and under the bound on nesting that there is. -/
def usual (input : Input) : Course := ⟨input, true, [some 256], True⟩

theorem fits_usual (input : Input) {d : Nat} (hd : d < 256) : (usual input).Fits d := by
  simpa [Fits, usual] using hd

/-- Before the first attempt. -/
def untried (m : Memo) : Prop := m = .empty

/-- At first there is nothing to recall. -/
theorem recalls_untried (k : Course) (c : Nat) (ending : Ending Node) :
    k.Recalls untried anything c ending where
  recalled _ r m f hm hf := by
    rw [show m = .empty from hm, Memo.find?_empty] at hf
    cases hf
  stored _ _ _ _ _ := trivial

/-- No rule has been tried at a token. -/
def UntriedAt (c : Nat) (m : Memo) : Prop := ∀ r, m.find? ⟨r, c⟩ = none

theorem recalls_untriedAt (k : Course) (c : Nat) (ending : Ending Node) :
    k.Recalls (UntriedAt c) anything c ending where
  recalled _ r m f hm hf := by
    rw [hm r] at hf
    cases hf
  stored _ _ _ _ _ := trivial

/-- What is tried at one token is not tried at another. -/
theorem recalls_elsewhere (k : Course) {c c' : Nat} (h : c ≠ c') (ending : Ending Node) :
    k.Recalls untried (UntriedAt c') c ending where
  recalled _ r m f hm hf := by
    rw [show m = .empty from hm, Memo.find?_empty] at hf
    cases hf
  stored r m f hm _ r' := by
    rw [Memo.find?_store, if_neg fun he => h (congrArg Attempt.cursor he)]
    exact hm r'

theorem recalls_plain (input : Input) (bounds : List (Option Nat)) (quiet : Prop) (c : Nat)
    (ending : Ending Node) : (plain input bounds quiet).Recalls anything anything c ending :=
  ⟨fun h => absurd h Bool.false_ne_true, fun _ _ _ _ _ => trivial⟩

/-- The memo holds only endings that are allowed at their tokens. -/
def Holds (allowed : Nat → Ending Node → Prop) (m : Memo) : Prop :=
  ∀ a f, m.find? a = some f → allowed a.cursor (.ofFinding f)

section Holds

variable {allowed : Nat → Ending Node → Prop} {m : Memo}

theorem holds_empty : Holds allowed .empty := by
  intro a f h
  rw [Memo.find?_empty] at h
  cases h

theorem Holds.mono {allowed' : Nat → Ending Node → Prop} (h : Holds allowed m)
    (hsub : ∀ c ending, allowed c ending → allowed' c ending) : Holds allowed' m :=
  fun a f hf => hsub _ _ (h a f hf)

theorem Holds.store (h : Holds allowed m) {a : Attempt} {f : Finding}
    (hf : allowed a.cursor (.ofFinding f)) : Holds allowed (m.store a f) := by
  intro a' f' h'
  rw [Memo.find?_store] at h'
  split at h'
  next ha => cases h'; exact ha ▸ hf
  next => exact h a' f' h'

/-- At a token where nothing else is allowed. -/
theorem recalls_holds (k : Course) {c : Nat} {ending : Ending Node} (hc : allowed c ending)
    (honly : ∀ ending', allowed c ending' → ending' = ending) :
    k.Recalls (Holds allowed) (Holds allowed) c ending where
  recalled _ _ _ _ hm hf := ⟨honly _ (hm _ _ hf), hm⟩
  stored _ _ _ hm hf := hm.store (hf ▸ hc)

end Holds

end Course

/-- The step, started at a token with so many rules open and a memo that has the first property, ends like this
and with a memo that has the second. -/
def Ends (k : Course) (before after : Memo → Prop) (step : Parse α) (c d : Nat)
    (ending : Ending α) : Prop :=
  ∀ bound ∈ k.bounds, ∀ p : Progress, p.cursor = c → p.depth = d → before p.memo →
    k.Allows after ending p (step.run ⟨k.input, k.remembers, bound⟩ p)

namespace Ends

variable {k : Course} {P Q R : Memo → Prop} {c d s : Nat} {v : α} {first : Parse α}
  {next : α → Parse β} {ending : Ending β}

theorem mono {P' Q' : Memo → Prop} {ending : Ending α} (h : Ends k P Q first c d ending)
    (hP : ∀ m, P' m → P m) (hQ : ∀ m, Q m → Q' m) : Ends k P' Q' first c d ending := by
  intro bound hb p hc hd hp
  have h1 := h bound hb p hc hd (hP _ hp)
  exact ⟨h1.ends, h1.depth, hQ _ h1.memo, h1.refused, h1.keeps⟩

/-- A step that goes by the tokens alone and changes nothing but the cursor. -/
theorem of_run (h : ∀ bound (p : Progress), p.cursor = c →
    first.run ⟨k.input, k.remembers, bound⟩ p = .ok v { p with cursor := s }) :
    Ends k P P first c d (.found v s) := by
  intro bound _ p hc _ hp
  rw [h bound p hc]
  exact ⟨.found rfl, rfl, hp, fun _ => rfl, fun _ _ h => by cases h; exact Course.keeps_of_eq rfl⟩

theorem pure : Ends k P P (Pure.pure v) c d (.found v c) :=
  of_run fun _ p hc => by subst hc; rfl

theorem current : Ends k P P Parse.current c d (.found (k.input.get c) c) :=
  of_run fun _ p hc => by subst hc; rfl

theorem rounds : Ends k P P Parse.rounds c d (.found (k.input.before.size - c + 1) c) :=
  of_run fun _ p hc => by subst hc; rfl

theorem sees (kind : TokenKind) :
    Ends k P P (Parse.sees kind) c d (.found (decide ((k.input.get c).kind = kind)) c) :=
  of_run fun _ p hc => by subst hc; simp [Parse.sees]

theorem advance (h : (k.input.get c).kind ≠ .eof) :
    Ends k P P (discard Parse.advance) c d (.found () (c + 1)) :=
  of_run fun _ p hc => by
    rw [← hc] at h
    show Outcome.ok () _ = _
    rw [pastToken_eq, Input.after_of_ne _ h, hc]

theorem accept {kinds : List TokenKind} (h : (k.input.get c).kind ∈ kinds)
    (he : (k.input.get c).kind ≠ .eof) :
    Ends k P P (Parse.accept kinds) c d (.found (some (k.input.get c)) (c + 1)) :=
  of_run fun _ p hc => by
    subst hc
    simp [h, pastToken_eq, Input.after_of_ne _ he]

theorem accept_none {kinds : List TokenKind} (h : (k.input.get c).kind ∉ kinds) :
    Ends k P P (Parse.accept kinds) c d (.found none c) :=
  of_run fun _ p hc => by
    subst hc
    simp [h]

theorem skip {symbol : Symbol} (h : (k.input.get c).kind = symbol) :
    Ends k P P (Parse.skip symbol) c d (.found true (c + 1)) :=
  of_run fun _ p hc => by
    subst hc
    simp [Parse.skip, h, pastToken_eq, Input.after_of_ne k.input (c := p.cursor) (by simp [h])]

theorem skip_false {kind : TokenKind} (h : (k.input.get c).kind ≠ kind) :
    Ends k P P (Parse.skip kind) c d (.found false c) :=
  of_run fun _ p hc => by
    subst hc
    simp [Parse.skip, h]

theorem expectOne {kinds : List TokenKind} {complaint : Complaint} (h : (k.input.get c).kind ∈ kinds)
    (he : (k.input.get c).kind ≠ .eof) :
    Ends k P P (Parse.expectOne kinds complaint) c d (.found (k.input.get c) (c + 1)) :=
  of_run fun _ p hc => by
    subst hc
    simp [h, pastToken_eq, Input.after_of_ne _ he]

theorem expect {kind : TokenKind} {complaint : Complaint} (h : (k.input.get c).kind = kind)
    (he : kind ≠ .eof) : Ends k P P (Parse.expect kind complaint) c d (.found () (c + 1)) :=
  of_run fun _ p hc => by
    subst hc
    rw [run_expect, if_pos h, pastToken_eq, Input.after_of_ne _ (h ▸ he)]

theorem expect_mismatch {kind : TokenKind} {complaint : Complaint}
    (h : (k.input.get c).kind ≠ kind) : Ends k P P (Parse.expect kind complaint) c d .mismatch := by
  intro bound _ p hc _ hp
  rw [run_expect, hc, if_neg h]
  exact Course.allows_mismatch rfl hp (fun _ => rfl) _

theorem fail_exhausted : Ends k P P (Parse.fail .exhausted : Parse α) c d .exhausted :=
  fun _ _ _ _ _ hp => Course.allows_exhausted rfl hp fun _ => rfl

theorem bind (h : Ends k P Q first c d (.found v s)) (hn : Ends k Q R (next v) s d ending) :
    Ends k P R (first >>= next) c d ending := by
  intro bound hb p hc hd hp
  have h1 := h bound hb p hc hd hp
  rw [run_bind]
  generalize first.run ⟨k.input, k.remembers, bound⟩ p = o at h1
  obtain ⟨he, hdepth, hmemo, href, hkeeps⟩ := h1
  cases he with
  | found hs =>
    have h2 := hn bound hb _ hs (hdepth.trans hd) hmemo
    exact ⟨h2.ends, h2.depth.trans hdepth, h2.memo, fun hq => (h2.refused hq).trans (href hq),
      fun v q ho => (hkeeps _ _ rfl).trans (h2.keeps v q ho)⟩

/-- What comes after a step that fails is not run. -/
theorem bind_failed {ending' : Ending α} (h : Ends k P Q first c d ending')
    (hf : ending'.FailsAs ending) : Ends k P Q (first >>= next) c d ending := by
  intro bound hb p hc hd hp
  have h1 := h bound hb p hc hd hp
  rw [run_bind]
  generalize first.run ⟨k.input, k.remembers, bound⟩ p = o at h1
  obtain ⟨he, hdepth, hmemo, href, hkeeps⟩ := h1
  cases he with
  | found => exact hf.elim
  | mismatch =>
    cases ending with
    | mismatch => exact Course.allows_mismatch hdepth hmemo href _
    | found | exhausted => exact hf.elim
  | exhausted =>
    cases ending with
    | exhausted => exact Course.allows_exhausted hdepth hmemo href
    | found | mismatch => exact hf.elim

theorem bind_mismatch (h : Ends k P Q first c d .mismatch) :
    Ends k P Q (first >>= next) c d .mismatch :=
  h.bind_failed trivial

theorem bind_exhausted (h : Ends k P Q first c d .exhausted) :
    Ends k P Q (first >>= next) c d .exhausted :=
  h.bind_failed trivial

/-- A step that goes on with what it found, without taking anything more. -/
theorem bind_same {next : α → Parse α} {ending : Ending α} (h : Ends k P Q first c d ending)
    (hn : ∀ v s, ending = .found v s → Ends k Q Q (next v) s d (.found v s)) :
    Ends k P Q (first >>= next) c d ending := by
  cases ending with
  | found v s => exact h.bind (hn v s rfl)
  | mismatch | exhausted => exact h.bind_failed trivial

theorem map_exhausted {f : α → β} (h : Ends k P Q first c d .exhausted) :
    Ends k P Q (f <$> first) c d .exhausted :=
  h.bind_exhausted

theorem map {f : α → β} (h : Ends k P Q first c d (.found v s)) :
    Ends k P Q (f <$> first) c d (.found (f v) s) := by
  intro bound hb p hc hd hp
  have h1 := h bound hb p hc hd hp
  rw [run_map]
  generalize first.run ⟨k.input, k.remembers, bound⟩ p = o at h1
  obtain ⟨he, hdepth, hmemo, href, hkeeps⟩ := h1
  cases he with
  | found hs => exact Course.allows_found hdepth hmemo href hs (hkeeps _ _ rfl)

/-- Several courses that differ in their bounds, none of which keeps anything. -/
theorem of_bounds (h : ∀ bound ∈ k.bounds, Ends { k with bounds := [bound] } P Q first c d .mismatch) :
    Ends k P Q first c d .mismatch := by
  intro bound hb p hc hd hp
  have h1 := h bound hb bound (List.mem_singleton_self bound) p hc hd hp
  refine ⟨h1.ends, h1.depth, h1.memo, h1.refused, fun v q ho => ?_⟩
  have hends := h1.ends
  change Outcome.EndsAs (first.run ⟨k.input, k.remembers, bound⟩ p) _ at hends
  rw [ho] at hends
  cases hends

theorem nested {rule : Parse α} {ending : Ending α} (hfits : k.Fits d)
    (h : Ends k P Q rule c (d + 1) ending) : Ends k P Q (Parse.nested rule) c d ending := by
  intro bound hb p hc hd hp
  have h1 := h bound hb p.deeper hc (congrArg (· + 1) hd) hp
  simp only [Parse.nested]
  rw [if_neg (hd ▸ hfits bound hb)]
  generalize rule.run ⟨k.input, k.remembers, bound⟩ p.deeper = o at h1
  obtain ⟨he, hdepth, hmemo, href, hkeeps⟩ := h1
  cases he with
  | @found v q s hs =>
    refine Course.allows_found (q := { q with depth := q.depth - 1 }) (congrArg (· - 1) hdepth) hmemo href hs
      fun limit hl => ?_
    have hdeeper := hkeeps v q rfl limit hl
    have hroom := hfits (some limit) hl
    simp only [Option.any_some, decide_eq_true_eq, Nat.not_le, Progress.deeper] at hdeeper hroom ⊢
    omega
  | @mismatch e q =>
    exact Course.allows_mismatch (q := { q with depth := q.depth - 1 }) (congrArg (· - 1) hdepth) hmemo href e
  | @exhausted q =>
    exact Course.allows_exhausted (q := { q with depth := q.depth - 1 }) (congrArg (· - 1) hdepth) hmemo href

/-- Too many rules are open under every bound. -/
theorem nested_refused {rule : Parse α} (hq : ¬k.quiet) (h : ∀ bound ∈ k.bounds, bound.any (· ≤ d)) :
    Ends k P P (Parse.nested rule) c d .mismatch := by
  intro bound hb p hc hd hp
  simp only [Parse.nested]
  rw [if_pos (hd ▸ h bound hb)]
  exact ⟨.mismatch, rfl, hp, fun h => absurd h hq, fun _ _ h => by cases h⟩

theorem allows_recalled {f : Finding} {p : Progress} (h : Q p.memo) :
    k.Allows Q (.ofFinding f) p (.recalled f p) := by
  cases f with
  | node n s =>
    exact ⟨.found rfl, rfl, h, fun _ => rfl, fun _ _ h => by cases h; exact Course.keeps_of_eq rfl⟩
  | error e => exact Course.allows_mismatch rfl h (fun _ => rfl) e

/-- A rule that is stored is not run. -/
theorem of_stored {r : Rule} {body : Parse Node} {ending : Ending Node} (hr : k.remembers)
    (h : ∀ m, P m → ∃ f, m.find? ⟨r, c⟩ = some f ∧ .ofFinding f = ending) :
    Ends k P P (Parse.remembered r body) c d ending := by
  intro bound _ p hc _ hp
  obtain ⟨f, hf, rfl⟩ := h _ hp
  subst hc
  rw [run_remembered_hit hr hf]
  exact allows_recalled hp

theorem remembered {r : Rule} {body : Parse Node} {ending : Ending Node}
    (hrecalled : k.remembers → ∀ m f, P m → m.find? ⟨r, c⟩ = some f → .ofFinding f = ending ∧ R m)
    (h : Ends k (fun m => P m ∧ (k.remembers → m.find? ⟨r, c⟩ = none)) Q body c d ending)
    (hstored : ∀ m f, Q m → .ofFinding f = ending → R (m.store ⟨r, c⟩ f))
    (hexhausted : ending = .exhausted → ∀ m, Q m → R m) :
    Ends k P R (Parse.remembered r body) c d ending := by
  intro bound hb p hc hd hp
  subst hc
  by_cases hf : k.remembers ∧ (p.memo.find? ⟨r, p.cursor⟩).isSome
  · obtain ⟨hr, hf⟩ := hf
    obtain ⟨f, hf⟩ := Option.isSome_iff_exists.mp hf
    obtain ⟨rfl, hmemo⟩ := hrecalled hr _ f hp hf
    rw [run_remembered_hit hr hf]
    exact allows_recalled hmemo
  · have hnone (hr : k.remembers) : p.memo.find? ⟨r, p.cursor⟩ = none :=
      Option.not_isSome_iff_eq_none.mp fun h => hf ⟨hr, h⟩
    have h1 := h bound hb p rfl hd ⟨hp, hnone⟩
    rw [run_remembered_miss hnone]
    generalize body.run ⟨k.input, k.remembers, bound⟩ p = o at h1
    obtain ⟨he, hdepth, hmemo, href, hkeeps⟩ := h1
    cases he with
    | @found v q s hs =>
      have hmemo' := hstored _ (.node v q.cursor) hmemo (by rw [← hs]; rfl)
      exact Course.allows_found (q := { q with memo := q.memo.store _ _ }) hdepth hmemo' href hs (hkeeps v q rfl)
    | @mismatch e q =>
      have hmemo' := hstored _ (.error e) hmemo rfl
      exact Course.allows_mismatch (q := { q with memo := q.memo.store _ _ }) hdepth hmemo' href e
    | exhausted => exact Course.allows_exhausted hdepth (hexhausted rfl _ hmemo) href

theorem recalling {r : Rule} {body : Parse Node} {ending : Ending Node} (hr : k.Recalls P Q c ending)
    (h : Ends k P Q body c d ending) : Ends k P Q (Parse.remembered r body) c d ending :=
  .remembered (fun hm => hr.recalled hm r) (h.mono (fun _ h => h.1) fun _ h => h) (hr.stored r)
    fun _ _ h => h

/-- Another alternative, where the first does not match. -/
theorem attempt_next {first : Parse α} {others : List (Parse α)} {ending : Ending α}
    (h : Ends k P Q first c d .mismatch) (ho : ∀ e, Ends k Q R (attemptAfter c e others) c d ending) :
    Ends k P R (attempt first others) c d ending := by
  intro bound hb p hc hd hp
  have h1 := h bound hb p hc hd hp
  simp only [attempt]
  generalize first.run ⟨k.input, k.remembers, bound⟩ p = o at h1
  obtain ⟨he, hdepth, hmemo, href, hkeeps⟩ := h1
  cases he with
  | @mismatch e q =>
    have h2 := ho e bound hb { q with cursor := c, deepest := p.deepest } rfl (hdepth.trans hd) hmemo
    rw [hc]
    exact ⟨h2.ends, h2.depth.trans hdepth, h2.memo, fun hq => (h2.refused hq).trans (href hq), h2.keeps⟩

theorem attempt {first : Parse α} {others : List (Parse α)} {ending : Ending α}
    (h : Ends k P Q first c d ending) (hne : ending ≠ .mismatch) :
    Ends k P Q (Parse.attempt first others) c d ending := by
  intro bound hb p hc hd hp
  have h1 := h bound hb p hc hd hp
  simp only [Parse.attempt]
  generalize first.run ⟨k.input, k.remembers, bound⟩ p = o at h1 ⊢
  obtain ⟨he, hdepth, hmemo, href, hkeeps⟩ := h1
  cases he with
  | found hs => exact Course.allows_found hdepth hmemo href hs (hkeeps _ _ rfl)
  | mismatch => exact absurd rfl hne
  | exhausted => exact Course.allows_exhausted hdepth hmemo href

/-- The last alternative that is tried. -/
theorem attemptAfter {e : SyntaxError} {alternative : Parse α} {others : List (Parse α)}
    {ending : Ending α} (h : Ends k P Q alternative c d ending) (hne : ending ≠ .mismatch) :
    Ends k P Q (Parse.attemptAfter c e (alternative :: others)) c d ending := by
  intro bound hb p hc hd hp
  have h1 := h bound hb p hc hd hp
  simp only [Parse.attemptAfter]
  generalize alternative.run ⟨k.input, k.remembers, bound⟩ p = o at h1 ⊢
  obtain ⟨he, hdepth, hmemo, href, hkeeps⟩ := h1
  cases he with
  | found hs => exact Course.allows_found hdepth hmemo href hs (hkeeps _ _ rfl)
  | mismatch => exact absurd rfl hne
  | exhausted => exact Course.allows_exhausted hdepth hmemo href

/-- The last alternative does not match either. -/
theorem attemptAfter_mismatch {e : SyntaxError} {alternative : Parse α}
    (h : Ends k P Q alternative c d .mismatch) :
    Ends k P Q (Parse.attemptAfter c e [alternative]) c d .mismatch := by
  intro bound hb p hc hd hp
  have h1 := h bound hb p hc hd hp
  simp only [Parse.attemptAfter]
  generalize alternative.run ⟨k.input, k.remembers, bound⟩ p = o at h1 ⊢
  obtain ⟨he, hdepth, hmemo, href, hkeeps⟩ := h1
  cases he with
  | @mismatch e' q =>
    exact Course.allows_mismatch (q := { q with cursor := c, deepest := p.deepest }) hdepth hmemo href _

/-- A list of one element. -/
theorem delimited {element : Parse Node} {v : Node} (hopen : (k.input.get c).kind ≠ .eof)
    (hnonempty : (k.input.get (c + 1)).kind ≠ Symbol.rparen)
    (h : Ends k P Q element (c + 1) d (.found v s)) (hclose : (k.input.get s).kind = Symbol.rparen) :
    Ends k P Q (Parse.delimited Symbol.rparen element) c d (.found [v] (s + 1)) := by
  have helements (bound : Nat) :
      Ends k P Q (elements Symbol.rparen element (bound + 1) []) (c + 1) d (.found [v] s) := by
    refine .bind (.sees _) ?_
    simp only [hnonempty]
    exact .bind h (.bind (.skip_false (by simp [hclose])) .pure)
  exact .bind (.advance hopen) (.bind .rounds (.bind (helements _) (.bind (.expect hclose nofun) .pure)))

theorem delimited_mismatch {element : Parse Node} (hopen : (k.input.get c).kind ≠ .eof)
    (hnonempty : (k.input.get (c + 1)).kind ≠ Symbol.rparen)
    (h : Ends k P Q element (c + 1) d .mismatch) :
    Ends k P Q (Parse.delimited Symbol.rparen element) c d .mismatch := by
  have helements (bound : Nat) :
      Ends k P Q (elements Symbol.rparen element (bound + 1) []) (c + 1) d .mismatch := by
    refine .bind (.sees _) ?_
    simp only [hnonempty]
    exact .bind_mismatch h
  exact .bind (.advance hopen) (.bind .rounds (.bind_mismatch (helements _)))

/-- A parse that ends with the budget used up does so without refusing a rule. -/
theorem run_exhausted {input : Input} {step : Parse α}
    (h : Ends (.usual input) Course.untried Course.anything step 0 0 .exhausted) :
    ∃ q, step.run { input } .start = .failed .exhausted q ∧ q.refused = false := by
  have h1 := h (some 256) (List.mem_singleton_self _) .start rfl rfl rfl
  change Course.Allows _ _ _ _ (step.run { input } .start) at h1
  generalize step.run { input } .start = o at h1
  obtain ⟨he, -, -, href, -⟩ := h1
  cases he with
  | exhausted => exact ⟨_, rfl, href trivial⟩

/-- The same without a memo. -/
theorem run_plain_exhausted {input : Input} {step : Parse α}
    (h : Ends (.plain input [some 256] True) Course.anything Course.anything step 0 0 .exhausted) :
    ∃ q, step.run ⟨input, false, some 256⟩ .start = .failed .exhausted q ∧ q.refused = false := by
  have h1 := h (some 256) (List.mem_singleton_self _) .start rfl rfl trivial
  change Course.Allows _ _ _ _ (step.run ⟨input, false, some 256⟩ .start) at h1
  generalize step.run ⟨input, false, some 256⟩ .start = o at h1
  obtain ⟨he, -, -, href, -⟩ := h1
  cases he with
  | exhausted => exact ⟨_, rfl, href trivial⟩

/-- A parse that finds something without refusing a rule. -/
theorem run_found {input : Input} {step : Parse α}
    (h : Ends (.usual input) Course.untried Course.anything step 0 0 (.found v s)) :
    ∃ q, step.run { input } .start = .ok v q ∧ q.cursor = s ∧ q.refused = false := by
  have h1 := h (some 256) (List.mem_singleton_self _) .start rfl rfl rfl
  change Course.Allows _ _ _ _ (step.run { input } .start) at h1
  generalize step.run { input } .start = o at h1
  obtain ⟨he, -, -, href, -⟩ := h1
  cases he with
  | found hs => exact ⟨_, rfl, hs, href trivial⟩

/-- A parse whose tokens do not match. -/
theorem run_mismatch {input : Input} {quiet : Prop} {step : Parse α}
    (h : Ends ⟨input, true, [some 256], quiet⟩ Course.untried Q step 0 0 .mismatch) :
    ∃ e q, step.run { input } .start = .failed (.mismatch e) q := by
  have h1 := h (some 256) (List.mem_singleton_self _) .start rfl rfl rfl
  change Course.Allows _ _ _ _ (step.run { input } .start) at h1
  generalize step.run { input } .start = o at h1
  obtain ⟨he, -⟩ := h1
  cases he with
  | mismatch => exact ⟨_, _, rfl⟩

/-- What is found without a memo. -/
theorem run_plain {input : Input} {bounds : List (Option Nat)} {quiet : Prop} {step : Parse α}
    (h : Ends (.plain input bounds quiet) Course.anything Course.anything step 0 0 (.found v s)) :
    ∀ bound ∈ bounds, ∃ q, step.run ⟨input, false, bound⟩ .start = .ok v q ∧ q.cursor = s ∧
      (quiet → q.refused = false) ∧ ∀ limit, some limit ∈ bounds → q.deepest ≤ limit := by
  intro bound hb
  have h1 := h bound hb .start rfl rfl trivial
  change Course.Allows _ _ _ _ (step.run ⟨input, false, bound⟩ .start) at h1
  generalize step.run ⟨input, false, bound⟩ .start = o at h1
  obtain ⟨he, -, -, href, hkeeps⟩ := h1
  cases he with
  | @found _ q _ hs =>
    refine ⟨q, rfl, hs, href, fun limit hl => ?_⟩
    simpa [Progress.start, Progress.within] using hkeeps v q rfl limit hl

end Ends

end Parse

end MagSyntax
