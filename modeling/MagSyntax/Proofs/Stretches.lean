import MagSyntax.Proofs.Balance
import MagSyntax.Proofs.Contained
import MagSyntax.Proofs.Mirrors
import MagSyntax.Proofs.Reading

/-! The same tokens in two inputs that go on differently behind them, parsed side by side: without a memo and
without a bound on nesting, or with the memo and under bounds that let both open as many more rules.
As long as the count of brackets and `if`s says that something is open both parses stand on the
same token, and where nothing is open neither goes on, except that one behind which an assignment
stands may take it for its own. With one input on both sides this says how far into the tokens a
parse gets, and how far its complaints are. -/

namespace MagSyntax

namespace Parse

variable {α β : Type}

/-- Without a memo and without a bound on nesting. -/
def plain (input : Input) : Setup := ⟨input, false, none⟩

@[simp] theorem input_plain (input : Input) : (plain input).input = input := rfl

/-- Tokens that two inputs hold, and the count in front of them. -/
structure Stretch where
  left : Input
  right : Input
  tokens : List Token
  start : Nat
  start' : Nat
  before : Balance
  /-- The bounds on nesting of both parses, if they have one and the memo. -/
  bounds : Option (Nat × Nat)

namespace Stretch

/-- With the memo if there is a bound on nesting. -/
def guardedBy (input : Input) : Option Nat → Setup
  | none => plain input
  | some bound => { input, nesting := some bound }

/-- What the left parse is run with. -/
def setup (k : Stretch) : Setup := guardedBy k.left (k.bounds.map Prod.fst)

/-- What the right parse is run with. -/
def setup' (k : Stretch) : Setup := guardedBy k.right (k.bounds.map Prod.snd)

@[simp] theorem input_setup (k : Stretch) : k.setup.input = k.left := by
  rw [setup]
  cases k.bounds <;> rfl

@[simp] theorem input_setup' (k : Stretch) : k.setup'.input = k.right := by
  rw [setup']
  cases k.bounds <;> rfl

theorem setup_eq_plain {k : Stretch} (h : k.bounds = none) : k.setup = plain k.left := by
  rw [setup, h]
  rfl

theorem setup_eq_plain' {k : Stretch} (h : k.bounds = none) : k.setup' = plain k.right := by
  rw [setup', h]
  rfl

/-- The kinds of tokens that an operand goes on with, in its middle or at its end. -/
def asked : List TokenKind := Rule.starters ++ Rule.operand.continuers

/-- Neither of two tokens behind the others is taken: both are ends, or nothing is open and they do not go on
with an operand, or they would have to name a field and cannot. -/
inductive Halts (s : Balance) (t t' : Token) : Prop
  | ended (h : t.kind = .eof) (h' : t'.kind = .eof) (hn : t.namesField = false)
    (hn' : t'.namesField = false)
  | even (hs : s = .even) (h : t.kind ∉ TokenKind.symbol .assign :: asked) (h' : t'.kind ∉ asked)
  | dot (hs : s.behind = .dot) (hn : t.namesField = false) (hn' : t'.namesField = false)

/-- So many of the tokens have been taken, with this count behind them. -/
structure At (k : Stretch) (i : Nat) (s : Balance) : Prop where
  le : i ≤ k.tokens.length
  count : k.before.after (k.tokens.take i) = some s

/-- Both inputs hold the tokens, no end of an input among them, and neither parse takes what stands behind,
which is no assignment on the right if the parses are guarded. -/
structure IsFair (k : Stretch) : Prop where
  contains : k.left.Contains k.start k.tokens
  contains' : k.right.Contains k.start' k.tokens
  inside : ∀ t ∈ k.tokens, t.kind ≠ .eof
  halts : ∀ s, k.At k.tokens.length s →
    Halts s (k.left.get (k.start + k.tokens.length)) (k.right.get (k.start' + k.tokens.length))
  unassigned : k.bounds ≠ none → (k.right.get (k.start' + k.tokens.length)).kind ≠ Symbol.assign

/-- The complaint is about one of the tokens on the right, or the one behind them. Where the name of a field
is missing it is about that. -/
def Reaches (k : Stretch) (e : SyntaxError) : Prop :=
  ∃ i s complaint, k.At i s ∧ e = .ofToken complaint (k.right.get (k.start' + i)) ∧
    (s.behind = .dot → complaint = .fieldName)

/-- The right parse finds an assignment where the left one finds nothing to go on with. -/
def Swallows (k : Stretch) : Prop :=
  k.At k.tokens.length .even ∧ (k.right.get (k.start' + k.tokens.length)).kind = Symbol.assign

/-- What a rule finds leaves the count as it was, and is no block if it is a value. -/
structure Found (k : Stretch) (r : Rule) (s : Balance) (v : Node) (i : Nat) : Prop where
  counted : k.At i s.settle
  value : r.isValue → v.isBlock = false

/-- What a rule finds can take an assignment behind it for its own. -/
def Opens (r : Rule) (s : Balance) (v : Node) : Prop :=
  s.settle = .even ∧ (r = .expression ∨ v.endsOpen)

/-- The memos hold the same for a rule at one of the tokens: nothing, a node that the rule may find there, or
complaints. -/
inductive SameFinding (k : Stretch) (r : Rule) (j : Nat) : Option Finding → Option Finding → Prop
  | none : SameFinding k r j none none
  | node {n : Node} {i : Nat} (h : ∀ s, k.At j s → k.Found r s n i) :
    SameFinding k r j (some (.node n (k.start + i))) (some (.node n (k.start' + i)))
  | error {e e' : SyntaxError} (h : k.Reaches e') :
    SameFinding k r j (some (.error e)) (some (.error e'))

/-- Both parses may open as many more rules and have stored the same, and if the left one has refused a rule
the right one has too. -/
structure Kin (k : Stretch) (depth : Nat) (p q : Progress) (bounds : Nat × Nat) : Prop where
  level : p.depth = depth
  room : q.depth + bounds.1 = depth + bounds.2
  refused : p.refused = true → q.refused = true
  memo : ∀ r, ∀ j ≤ k.tokens.length,
    k.SameFinding r j (p.memo.find? ⟨r, k.start + j⟩) (q.memo.find? ⟨r, k.start' + j⟩)

/-- The parses are at a depth and, as far as they are guarded, akin. -/
def AreKin (k : Stretch) (depth : Nat) (p q : Progress) : Prop := ∀ bounds ∈ k.bounds, k.Kin depth p q bounds

/-- So many of the tokens have been taken by both. -/
structure Beside (k : Stretch) (i depth : Nat) (p q : Progress) : Prop where
  cursor : p.cursor = k.start + i
  cursor' : q.cursor = k.start' + i
  kin : k.AreKin depth p q

/-- One of them uses up its budget, or both find the same behind the same token, or neither matches; or the left
one finds something open at the end of the tokens, and the right one goes on with it. -/
inductive Agree (k : Stretch) (depth : Nat) (found : α → Nat → Prop) (opens : α → Prop) :
    Outcome α → Outcome α → Prop
  | exhausted {p : Progress} {o' : Outcome α} : Agree k depth found opens (.failed .exhausted p) o'
  | exhausted' {o : Outcome α} {q : Progress} : Agree k depth found opens o (.failed .exhausted q)
  | found {v : α} {p q : Progress} {i : Nat} (hb : k.Beside i depth p q) (hv : found v i) :
    Agree k depth found opens (.ok v p) (.ok v q)
  | mismatch {e e' : SyntaxError} {p q : Progress} (hb : k.AreKin depth p q) (he : k.Reaches e') :
    Agree k depth found opens (.failed (.mismatch e) p) (.failed (.mismatch e') q)
  | swallowed {v : α} {p : Progress} {o' : Outcome α} (hp : p.cursor = k.start + k.tokens.length)
    (hs : k.Swallows) (hv : opens v) : Agree k depth found opens (.ok v p) o'

variable {k : Stretch} {i depth : Nat} {s s' : Balance} {found : α → Nat → Prop} {opens : α → Prop}

theorem At.unique (h : k.At i s) (h' : k.At i s') : s = s' :=
  Option.some.inj (h.count.symm.trans h'.count)

theorem Beside.of_plain {p q : Progress} (hk : k.bounds = none) (hp : p.cursor = k.start + i)
    (hq : q.cursor = k.start' + i) : k.Beside i depth p q :=
  ⟨hp, hq, fun bounds hb => by rw [hk] at hb; cases hb⟩

namespace AreKin

variable {p q p' q' : Progress}

theorem seek (h : k.AreKin depth p q) (c d : Nat) :
    k.AreKin depth { p with cursor := c } { q with cursor := d } := by
  intro bounds hk
  obtain ⟨hlevel, hroom, hrefused, hmemo⟩ := h bounds hk
  exact ⟨hlevel, hroom, hrefused, hmemo⟩

theorem retry (h : k.AreKin depth p' q') (c d : Nat) :
    k.AreKin depth { p' with cursor := c, deepest := p.deepest } { q' with cursor := d, deepest := q.deepest } := by
  intro bounds hk
  obtain ⟨hlevel, hroom, hrefused, hmemo⟩ := h bounds hk
  exact ⟨hlevel, hroom, hrefused, hmemo⟩

theorem refuse (h : k.AreKin depth p q) :
    k.AreKin depth { p with refused := true } { q with refused := true } := by
  intro bounds hk
  obtain ⟨hlevel, hroom, -, hmemo⟩ := h bounds hk
  exact ⟨hlevel, hroom, fun _ => rfl, hmemo⟩

theorem deeper (h : k.AreKin depth p q) :
    k.AreKin (depth + 1) p.deeper q.deeper := by
  intro bounds hk
  obtain ⟨hlevel, hroom, hrefused, hmemo⟩ := h bounds hk
  exact ⟨congrArg (· + 1) hlevel, by simp only [Progress.deeper]; omega, hrefused, hmemo⟩

theorem back (h : k.AreKin depth p q) (h' : k.AreKin (depth + 1) p' q') :
    k.AreKin depth { p' with depth := p'.depth - 1 } { q' with depth := q'.depth - 1 } := by
  intro bounds hk
  have hroom := (h bounds hk).room
  obtain ⟨hlevel', hroom', hrefused, hmemo⟩ := h' bounds hk
  exact ⟨by simp only; omega, by simp only; omega, hrefused, hmemo⟩

/-- What is stored by both for a rule at a token is the same. -/
theorem store (h : k.AreKin depth p q) {r : Rule} {f f' : Finding} (hf : k.SameFinding r i (some f) (some f')) :
    k.AreKin depth { p with memo := p.memo.store ⟨r, k.start + i⟩ f }
      { q with memo := q.memo.store ⟨r, k.start' + i⟩ f' } := by
  intro bounds hk
  obtain ⟨hlevel, hroom, hrefused, hmemo⟩ := h bounds hk
  refine ⟨hlevel, hroom, hrefused, fun r' j hj => ?_⟩
  simp only [Memo.find?_store, Attempt.mk.injEq, Nat.add_left_cancel_iff]
  by_cases ha : r = r' ∧ i = j
  · obtain ⟨rfl, rfl⟩ := ha
    rw [if_pos ⟨rfl, rfl⟩, if_pos ⟨rfl, rfl⟩]
    exact hf
  · rw [if_neg ha, if_neg ha]
    exact hmemo r' j hj

end AreKin

theorem Beside.seek {p q : Progress} (h : k.Beside i depth p q) (j : Nat) :
    k.Beside j depth { p with cursor := k.start + j } { q with cursor := k.start' + j } :=
  ⟨rfl, rfl, h.kin.seek _ _⟩

/-- Where an assignment is swallowed the parses are not guarded. -/
theorem IsFair.unguarded (hk : k.IsFair) (hw : k.Swallows) : k.bounds = none := by
  by_contra hb
  exact hk.unassigned hb hw.2

theorem asked_ne_eof {kind : TokenKind} (h : kind ∈ asked) : kind ≠ .eof := by
  rintro rfl
  revert h
  decide

/-- Both parses stand on the same token, or behind the last one. -/
theorem IsFair.token (hk : k.IsFair) (h : k.At i s) :
    (i < k.tokens.length ∧ k.right.get (k.start' + i) = k.left.get (k.start + i) ∧
        (k.left.get (k.start + i)).kind ≠ .eof ∧
          ∀ s', s.step (k.left.get (k.start + i)) = some s' → k.At (i + 1) s') ∨
      i = k.tokens.length ∧ Halts s (k.left.get (k.start + i)) (k.right.get (k.start' + i)) := by
  rcases Nat.lt_or_ge i k.tokens.length with hi | hi
  · have hl := Input.get_of_contains hk.contains hi
    have hr := Input.get_of_contains hk.contains' hi
    refine .inl ⟨hi, hr.trans hl.symm, hl ▸ hk.inside _ (List.getElem_mem hi), fun s' hs => ⟨hi, ?_⟩⟩
    rw [List.take_add_one, List.getElem?_eq_getElem hi, Balance.after_append, h.count, Option.bind_some]
    simpa [hl] using hs
  · obtain rfl : i = k.tokens.length := Nat.le_antisymm h.le hi
    exact .inr ⟨rfl, hk.halts _ h⟩

/-- A parse can ask here whether a token of the kind comes next: operands go on with such a token, or something
is open, or this is not the end of the tokens. -/
def Asks (k : Stretch) (i : Nat) (s : Balance) (kind : TokenKind) : Prop :=
  kind ≠ .eof ∧ (kind ∈ asked ∨ s ≠ .even ∨ i < k.tokens.length)

theorem asks_of_mem {kind : TokenKind} (h : kind ∈ asked) : k.Asks i s kind := ⟨asked_ne_eof h, .inl h⟩

theorem asks_of_ne {kind : TokenKind} (hs : s ≠ .even) (h : kind ≠ .eof) : k.Asks i s kind :=
  ⟨h, .inr (.inl hs)⟩

/-- Behind the last token stands nothing that is asked for. -/
theorem Halts.not_asked {t t' : Token} (h : Halts s t t') (hd : s.behind ≠ .dot) {kind : TokenKind}
    (ha : k.Asks k.tokens.length s kind) : t.kind ≠ kind ∧ t'.kind ≠ kind := by
  cases h with
  | ended h h' => exact ⟨h ▸ ha.1.symm, h' ▸ ha.1.symm⟩
  | even hs h h' =>
    have hm := ha.2.resolve_right fun hn => hn.elim (fun hne => hne hs) (Nat.lt_irrefl _)
    exact ⟨fun ht => h (List.mem_cons_of_mem _ (ht ▸ hm)), fun ht => h' (ht ▸ hm)⟩
  | dot hs => exact absurd hs hd

/-- A token that is asked for is one of the tokens, if it stands on either side. -/
theorem IsFair.taken (hk : k.IsFair) (h : k.At i s) (hd : s.behind ≠ .dot) {kind : TokenKind}
    (ha : k.Asks i s kind)
    (hkind : (k.left.get (k.start + i)).kind = kind ∨ (k.right.get (k.start' + i)).kind = kind) :
    i < k.tokens.length ∧ k.right.get (k.start' + i) = k.left.get (k.start + i) ∧
      (k.left.get (k.start + i)).kind ≠ .eof ∧
        ∀ s', s.step (k.left.get (k.start + i)) = some s' → k.At (i + 1) s' := by
  obtain h | ⟨rfl, hstop⟩ := hk.token h
  · exact h
  · have hn := hstop.not_asked hd ha
    exact absurd hkind (not_or.mpr hn)

/-- Where something is open both parses stand on the same kind of token. -/
theorem IsFair.kind_eq (hk : k.IsFair) (h : k.At i s) (hd : s.behind ≠ .dot) (hs : s ≠ .even) :
    (k.right.get (k.start' + i)).kind = (k.left.get (k.start + i)).kind := by
  obtain ⟨-, hsame, -⟩ | ⟨-, hstop⟩ := hk.token h
  · rw [hsame]
  · cases hstop with
    | ended h h' => rw [h, h']
    | even he => exact absurd he hs
    | dot he => exact absurd he hd

theorem At.reaches (h : k.At i s) (hd : s.behind ≠ .dot) (complaint : Complaint) :
    k.Reaches (.ofToken complaint (k.right.get (k.start' + i))) :=
  ⟨i, s, complaint, h, rfl, fun h => absurd h hd⟩

/-- Behind the tokens on the left, with something open, the step ends there with something open. -/
def Stays (k : Stretch) (step : Parse α) (opens : α → Prop) : Prop :=
  Finds k.setup (fun _ => True) Failure.IsExhausted step (k.start + k.tokens.length)
    fun v d => d = k.start + k.tokens.length ∧ opens v

end Stretch

open Stretch

/-- From behind so many of the tokens, at any depth, both steps agree. -/
def InStep (k : Stretch) (i : Nat) (step step' : Parse α) (found : α → Nat → Prop) (opens : α → Prop) :
    Prop :=
  ∀ (depth : Nat) (p q : Progress), k.Beside i depth p q →
    k.Agree depth found opens (step.run k.setup p) (step'.run k.setup' q)

variable {k : Stretch} {i : Nat} {s s' : Balance} {found : α → Nat → Prop} {opens : α → Prop}

theorem InStep.imp {step step' : Parse α} {found' : α → Nat → Prop} {opens' : α → Prop}
    (h : InStep k i step step' found opens) (hf : ∀ v j, found v j → found' v j)
    (ho : ∀ v, opens v → opens' v) : InStep k i step step' found' opens' := by
  intro depth p q hb
  have h := h depth p q hb
  generalize step.run k.setup p = o at h ⊢
  generalize step'.run k.setup' q = o' at h ⊢
  cases h with
  | exhausted => exact .exhausted
  | exhausted' => exact .exhausted'
  | found hb hv => exact .found hb (hf _ _ hv)
  | mismatch hb he => exact .mismatch hb he
  | swallowed hp hs hv => exact .swallowed hp hs (ho _ hv)

theorem inStep_pure {v : α} (h : found v i) : InStep k i (pure v) (pure v) found opens :=
  fun _ _ _ hb => .found hb h

theorem inStep_exhausted {step' : Parse α} : InStep k i (fail .exhausted) step' found opens :=
  fun _ _ _ _ => .exhausted

theorem inStep_exhausted' {step : Parse α} : InStep k i step (fail .exhausted) found opens :=
  fun _ _ _ _ => .exhausted'

theorem InStep.bind {first first' : Parse α} {next next' : α → Parse β} {found' : β → Nat → Prop}
    {opens' : β → Prop} (h : InStep k i first first' found opens)
    (hn : ∀ v j, found v j → InStep k j (next v) (next' v) found' opens')
    (hs : k.Swallows → ∀ v, opens v → k.Stays (next v) opens') :
    InStep k i (first >>= next) (first' >>= next') found' opens' := by
  intro depth p q hb
  have h := h depth p q hb
  rw [run_bind, run_bind]
  generalize first.run k.setup p = o at h ⊢
  generalize first'.run k.setup' q = o' at h ⊢
  cases h with
  | exhausted => exact .exhausted
  | exhausted' => exact .exhausted'
  | found hb hv => exact hn _ _ hv _ _ _ hb
  | mismatch hb he => exact .mismatch hb he
  | @swallowed v p _ hp hw hv =>
    have hstay := hs hw v hv p hp trivial
    simp only
    cases hr : (next v).run k.setup p with
    | ok w p' =>
      rw [hr] at hstay
      exact .swallowed hstay.2.1 hw hstay.2.2
    | failed f p' =>
      rw [hr] at hstay
      cases f with
      | exhausted => exact .exhausted
      | mismatch | unclosable => exact hstay.2.elim

/-- Where something is open no assignment is swallowed. -/
theorem InStep.bind_inside {first first' : Parse α} {next next' : α → Parse β} {found' : β → Nat → Prop}
    {opens' : β → Prop} (h : InStep k i first first' found opens) (ho : ∀ v, ¬opens v)
    (hn : ∀ v j, found v j → InStep k j (next v) (next' v) found' opens') :
    InStep k i (first >>= next) (first' >>= next') found' opens' :=
  h.bind hn fun _ v hv => absurd hv (ho v)

theorem inStep_mismatch {e e' : SyntaxError} (h : k.Reaches e') :
    InStep k i (fail (.mismatch e) : Parse α) (fail (.mismatch e')) found opens :=
  fun _ _ _ hb => .mismatch hb.kin h

theorem inStep_complain (h : k.At i s) (hd : s.behind ≠ .dot) {complaint : Complaint} :
    InStep k i (complain complaint : Parse α) (complain complaint) found opens := by
  intro depth p q hb
  rw [run_complain, run_complain]
  refine .mismatch hb.kin ?_
  rw [input_setup', hb.cursor']
  exact h.reaches hd complaint

theorem inStep_complain_bind (h : k.At i s) (hd : s.behind ≠ .dot) {complaint : Complaint}
    {next next' : β → Parse α} :
    InStep k i (complain complaint >>= next) (complain complaint >>= next') found opens := by
  have hnone : InStep k i (complain complaint : Parse β) (complain complaint) (fun _ _ => False)
      fun _ => False := inStep_complain h hd
  exact hnone.bind_inside (fun _ => id) fun _ _ h => h.elim

/-- A step that succeeds on both sides and moves both cursors on alike. -/
theorem inStep_of_run {j : Nat} {first first' : Parse α} {next next' : α → Parse β} (v v' : α)
    {found : β → Nat → Prop} {opens : β → Prop}
    (hrun : ∀ p : Progress, p.cursor = k.start + i →
      first.run k.setup p = .ok v { p with cursor := k.start + j })
    (hrun' : ∀ q : Progress, q.cursor = k.start' + i →
      first'.run k.setup' q = .ok v' { q with cursor := k.start' + j })
    (h : InStep k j (next v) (next' v') found opens) :
    InStep k i (first >>= next) (first' >>= next') found opens := by
  intro depth p q hb
  rw [run_bind, run_bind, hrun p hb.cursor, hrun' q hb.cursor']
  exact h depth _ _ (hb.seek j)

theorem inStep_current_bind {next next' : Token → Parse α}
    (h : InStep k i (next (k.left.get (k.start + i))) (next' (k.right.get (k.start' + i))) found opens) :
    InStep k i (current >>= next) (current >>= next') found opens :=
  inStep_of_run _ _ (fun p hp => by rw [← hp, ← input_setup]; rfl)
    (fun q hq => by rw [← hq, ← input_setup']; rfl) h

theorem inStep_rounds_bind {next next' : Nat → Parse α}
    (h : ∀ bound bound', InStep k i (next bound) (next' bound') found opens) :
    InStep k i (rounds >>= next) (rounds >>= next') found opens :=
  inStep_of_run (k.left.before.size - (k.start + i) + 1) (k.right.before.size - (k.start' + i) + 1)
    (fun p hp => by rw [← hp, ← input_setup]; rfl) (fun q hq => by rw [← hq, ← input_setup']; rfl) (h _ _)

theorem inStep_check_same {kinds : List TokenKind} {next next' : Bool → Parse α}
    (hiff : (k.right.get (k.start' + i)).kind ∈ kinds ↔ (k.left.get (k.start + i)).kind ∈ kinds)
    (htrue : (k.left.get (k.start + i)).kind ∈ kinds →
      InStep k i (next true) (next' true) found opens)
    (hfalse : InStep k i (next false) (next' false) found opens) :
    InStep k i (check kinds >>= next) (check kinds >>= next') found opens := by
  by_cases hm : (k.left.get (k.start + i)).kind ∈ kinds
  · refine inStep_of_run true true (fun p hp => ?_) (fun q hq => ?_) (htrue hm)
    · rw [run_check, input_setup, hp, decide_eq_true hm, ← hp]
    · rw [run_check, input_setup', hq, decide_eq_true (hiff.mpr hm), ← hq]
  · refine inStep_of_run false false (fun p hp => ?_) (fun q hq => ?_) hfalse
    · rw [run_check, input_setup, hp, decide_eq_false hm, ← hp]
    · rw [run_check, input_setup', hq, decide_eq_false (mt hiff.mp hm), ← hq]

theorem inStep_check_bind (hk : k.IsFair) (h : k.At i s) (hd : s.behind ≠ .dot) {kinds : List TokenKind}
    (hkinds : ∀ kind ∈ kinds, k.Asks i s kind) {next next' : Bool → Parse α}
    (htrue : (k.left.get (k.start + i)).kind ∈ kinds →
      InStep k i (next true) (next' true) found opens)
    (hfalse : InStep k i (next false) (next' false) found opens) :
    InStep k i (check kinds >>= next) (check kinds >>= next') found opens := by
  refine inStep_check_same ⟨fun hm => ?_, fun hm => ?_⟩ htrue hfalse
  · rw [← (hk.taken h hd (hkinds _ hm) (.inr rfl)).2.1]
    exact hm
  · rw [(hk.taken h hd (hkinds _ hm) (.inl rfl)).2.1]
    exact hm

theorem inStep_sees_bind (hk : k.IsFair) (h : k.At i s) (hd : s.behind ≠ .dot) {kind : TokenKind}
    (ha : k.Asks i s kind) {next next' : Bool → Parse α}
    (htrue : (k.left.get (k.start + i)).kind = kind → InStep k i (next true) (next' true) found opens)
    (hfalse : InStep k i (next false) (next' false) found opens) :
    InStep k i (sees kind >>= next) (sees kind >>= next') found opens :=
  inStep_check_bind hk h hd (by simpa using ha) (fun hm => htrue (List.mem_singleton.mp hm)) hfalse

/-- Takes the token that both stand on. -/
theorem inStep_advance_bind (hsame : k.right.get (k.start' + i) = k.left.get (k.start + i))
    (hne : (k.left.get (k.start + i)).kind ≠ .eof) {next next' : Unit → Parse α}
    (h : InStep k (i + 1) (next ()) (next' ()) found opens) :
    InStep k i (discard advance >>= next) (discard advance >>= next') found opens := by
  refine inStep_of_run () () (fun p hp => ?_) (fun q hq => ?_) h
  · show Outcome.ok () _ = _
    rw [pastToken_eq, input_setup, hp, Input.after_of_ne _ hne, Nat.add_assoc]
  · show Outcome.ok () _ = _
    rw [pastToken_eq, input_setup', hq, Input.after_of_ne _ (hsame ▸ hne), Nat.add_assoc]

/-- Takes the token that both stand on, if it is of one of these kinds. -/
theorem inStep_accept_same {kinds : List TokenKind} {next next' : Option Token → Parse α}
    (hsame : k.right.get (k.start' + i) = k.left.get (k.start + i))
    (hne : (k.left.get (k.start + i)).kind ≠ .eof) (hm : (k.left.get (k.start + i)).kind ∈ kinds)
    (h : InStep k (i + 1) (next (some (k.left.get (k.start + i))))
      (next' (some (k.left.get (k.start + i)))) found opens) :
    InStep k i (accept kinds >>= next) (accept kinds >>= next') found opens := by
  refine inStep_of_run (j := i + 1) _ _ (fun p hp => ?_) (fun q hq => ?_) h
  · rw [run_accept, input_setup, hp, if_pos hm, pastToken_eq, hp, Input.after_of_ne _ hne, Nat.add_assoc]
  · rw [run_accept, input_setup', hq, hsame, if_pos hm, pastToken_eq, hq,
      Input.after_of_ne _ (hsame ▸ hne), Nat.add_assoc]

theorem inStep_accept_none {kinds : List TokenKind} {next next' : Option Token → Parse α}
    (hl : (k.left.get (k.start + i)).kind ∉ kinds) (hr : (k.right.get (k.start' + i)).kind ∉ kinds)
    (h : InStep k i (next none) (next' none) found opens) :
    InStep k i (accept kinds >>= next) (accept kinds >>= next') found opens := by
  refine inStep_of_run _ _ (fun p hp => ?_) (fun q hq => ?_) h
  · rw [run_accept, input_setup, hp, if_neg hl, ← hp]
  · rw [run_accept, input_setup', hq, if_neg hr, ← hq]

theorem inStep_accept_bind (hk : k.IsFair) (h : k.At i s) (hd : s.behind ≠ .dot) {kinds : List TokenKind}
    (hkinds : ∀ kind ∈ kinds, k.Asks i s kind)
    (hstep : ∀ t : Token, t.kind ∈ kinds → s.step t = some s') {next next' : Option Token → Parse α}
    (hsome : ∀ t : Token, t.kind ∈ kinds → k.At (i + 1) s' →
      InStep k (i + 1) (next (some t)) (next' (some t)) found opens)
    (hnone : InStep k i (next none) (next' none) found opens) :
    InStep k i (accept kinds >>= next) (accept kinds >>= next') found opens := by
  by_cases hm : (k.left.get (k.start + i)).kind ∈ kinds
  · obtain ⟨-, hsame, hne, hat⟩ := hk.taken h hd (hkinds _ hm) (.inl rfl)
    exact inStep_accept_same hsame hne hm (hsome _ hm (hat _ (hstep _ hm)))
  · refine inStep_accept_none hm (fun hr => hm ?_) hnone
    rw [← (hk.taken h hd (hkinds _ hr) (.inr rfl)).2.1]
    exact hr

theorem inStep_skip_bind (hk : k.IsFair) (h : k.At i s) (hd : s.behind ≠ .dot) {kind : TokenKind}
    (ha : k.Asks i s kind) (hstep : ∀ t : Token, t.kind = kind → s.step t = some s')
    {next next' : Bool → Parse α}
    (htrue : k.At (i + 1) s' → InStep k (i + 1) (next true) (next' true) found opens)
    (hfalse : InStep k i (next false) (next' false) found opens) :
    InStep k i (skip kind >>= next) (skip kind >>= next') found opens := by
  change InStep k i ((Option.isSome <$> accept [kind]) >>= next)
    ((Option.isSome <$> accept [kind]) >>= next') found opens
  rw [map_bind, map_bind]
  exact inStep_accept_bind hk h hd (by simpa using ha) (fun t ht => hstep t (List.mem_singleton.mp ht))
    (fun _ _ => htrue) hfalse

/-- A part that a mark announces and that may be missing. -/
theorem inStep_marked_bind (hk : k.IsFair) (h : k.At i s) (hd : s.behind ≠ .dot) {kind : TokenKind}
    (ha : k.Asks i s kind) (hstep : ∀ t : Token, t.kind = kind → s.step t = some s')
    {part part' : Parse β} {next next' : Option β → Parse α}
    (hpart : k.At (i + 1) s' → InStep k (i + 1) part part' (fun _ j => k.At j s) fun _ => False)
    (hn : ∀ o j, k.At j s → InStep k j (next o) (next' o) found opens) :
    InStep k i (skip kind >>= fun b => if b then some <$> part >>= next else pure none >>= next)
      (skip kind >>= fun b => if b then some <$> part' >>= next' else pure none >>= next')
      found opens := by
  refine inStep_skip_bind hk h hd ha hstep (fun hat => ?_) (hn none i h)
  simp only [if_true, map_bind]
  exact (hpart hat).bind_inside (fun _ => id) fun v j hat => hn (some v) j hat

theorem inStep_expectOne_bind (hk : k.IsFair) (h : k.At i s) (hd : s.behind ≠ .dot)
    {kinds : List TokenKind} (hkinds : ∀ kind ∈ kinds, k.Asks i s kind)
    (hstep : ∀ t : Token, t.kind ∈ kinds → s.step t = some s') {complaint : Complaint}
    {next next' : Token → Parse α}
    (hn : ∀ t : Token, t.kind ∈ kinds → k.At (i + 1) s' →
      InStep k (i + 1) (next t) (next' t) found opens) :
    InStep k i (expectOne kinds complaint >>= next) (expectOne kinds complaint >>= next')
      found opens := by
  unfold expectOne
  rw [bind_assoc, bind_assoc]
  exact inStep_accept_bind hk h hd hkinds hstep hn
    (inStep_complain_bind h hd)

theorem inStep_expect_bind (hk : k.IsFair) (h : k.At i s) (hd : s.behind ≠ .dot) {kind : TokenKind}
    (ha : k.Asks i s kind) (hstep : ∀ t : Token, t.kind = kind → s.step t = some s')
    {complaint : Complaint} {next next' : Unit → Parse α}
    (hn : k.At (i + 1) s' → InStep k (i + 1) (next ()) (next' ()) found opens) :
    InStep k i (expect kind complaint >>= next) (expect kind complaint >>= next') found opens := by
  change InStep k i ((expectOne [kind] complaint >>= fun _ => pure ()) >>= next)
    ((expectOne [kind] complaint >>= fun _ => pure ()) >>= next') found opens
  rw [bind_assoc, bind_assoc]
  exact inStep_expectOne_bind hk h hd (by simpa using ha)
    (fun t ht => hstep t (List.mem_singleton.mp ht)) fun _ _ hat => hn hat

/-- A step, and another in its place from the same token if the tokens do not match. -/
theorem inStep_recover {first first' : Parse α} {target target' : Nat → Nat}
    {next next' : Nat → SyntaxError → Parse α} (ht : target (k.start + i) = k.start + i)
    (ht' : target' (k.start' + i) = k.start' + i) (h : InStep k i first first' found opens)
    (hn : ∀ e e', k.Reaches e' →
      InStep k i (next (k.start + i) e) (next' (k.start' + i) e') found opens) :
    InStep k i (recover first target next) (recover first' target' next') found opens := by
  intro depth p q hb
  have h := h depth p q hb
  simp only [recover, hb.cursor, hb.cursor', ht, ht']
  generalize first.run k.setup p = o at h ⊢
  generalize first'.run k.setup' q = o' at h ⊢
  cases h with
  | exhausted => exact .exhausted
  | exhausted' => exact .exhausted'
  | found hb hv => exact .found hb hv
  | mismatch hb he => exact hn _ _ he _ _ _ ⟨rfl, rfl, hb.retry _ _⟩
  | swallowed hp hs hv => exact .swallowed hp hs hv

theorem Stretch.Reaches.further {e f : SyntaxError} (he : k.Reaches e) (hf : k.Reaches f) :
    k.Reaches (further e f) := by
  unfold Parse.further
  split
  · exact hf
  · exact he

theorem inStep_attemptAfter {e e' : SyntaxError} {alternatives alternatives' : List (Parse α)}
    (he : k.Reaches e')
    (h : List.Forall₂ (fun step step' => InStep k i step step' found opens) alternatives alternatives') :
    InStep k i (attemptAfter (k.start + i) e alternatives) (attemptAfter (k.start' + i) e' alternatives')
      found opens := by
  induction h generalizing e e' with
  | nil => exact inStep_mismatch he
  | cons hf _ ih =>
    rw [attemptAfter_cons, attemptAfter_cons]
    exact inStep_recover rfl rfl hf fun _ _ hf => ih (he.further hf)

theorem inStep_attempt {first first' : Parse α} {others others' : List (Parse α)}
    (h : InStep k i first first' found opens)
    (ho : List.Forall₂ (fun step step' => InStep k i step step' found opens) others others') :
    InStep k i (attempt first others) (attempt first' others') found opens := by
  rw [attempt_eq, attempt_eq]
  exact inStep_recover rfl rfl h fun _ _ he => inStep_attemptAfter he ho

/-- Where the parses are guarded one more rule is refused by both or by neither. -/
theorem InStep.nested {rule rule' : Parse α} (hat : k.At i s) (hd : s.behind ≠ .dot)
    (h : InStep k i rule rule' found opens) : InStep k i (nested rule) (nested rule') found opens := by
  intro depth p q hb
  have hiff : k.setup.nesting.any (· ≤ p.depth) = k.setup'.nesting.any (· ≤ q.depth) := by
    cases hk : k.bounds with
    | none => rw [setup_eq_plain hk, setup_eq_plain' hk, plain, plain, Option.any_none, Option.any_none]
    | some bounds =>
      have hkin := hb.kin bounds hk
      have hroom := hkin.room
      have hlevel := hkin.level
      rw [setup, setup', hk]
      simp only [guardedBy, Option.map_some, Option.any_some, decide_eq_decide]
      omega
  simp only [Parse.nested, ← hiff]
  by_cases hfull : k.setup.nesting.any (· ≤ p.depth)
  · rw [if_pos hfull, if_pos hfull, run_complain, run_complain, input_setup']
    refine .mismatch hb.kin.refuse ?_
    rw [hb.cursor']
    exact hat.reaches hd .tooDeep
  · rw [if_neg hfull, if_neg hfull]
    have h := h (depth + 1) p.deeper q.deeper
      ⟨hb.cursor, hb.cursor', hb.kin.deeper⟩
    generalize rule.run k.setup p.deeper = o at h ⊢
    generalize rule'.run k.setup' q.deeper = o' at h ⊢
    cases h with
    | exhausted => exact .exhausted
    | exhausted' => exact .exhausted'
    | found hb' hv => exact .found ⟨hb'.cursor, hb'.cursor', hb.kin.back hb'.kin⟩ hv
    | mismatch hb' he => exact .mismatch (hb.kin.back hb') he
    | swallowed hp hs hv => exact .swallowed hp hs hv

/-- A rule whose outcome is stored, or was stored on both sides. -/
theorem InStep.remembered {r : Rule} {body body' : Parse Node} {opens : Node → Prop} (hat : k.At i s)
    (h : InStep k i body body' (k.Found r s) opens) :
    InStep k i (remembered r body) (remembered r body') (k.Found r s) opens := by
  intro depth p q hb
  have hrun := h depth p q hb
  cases hk : k.bounds with
  | none =>
    rw [setup_eq_plain hk, setup_eq_plain' hk] at hrun ⊢
    rw [run_remembered_miss fun h => absurd h Bool.false_ne_true,
      run_remembered_miss fun h => absurd h Bool.false_ne_true]
    generalize body.run (plain k.left) p = o at hrun ⊢
    generalize body'.run (plain k.right) q = o' at hrun ⊢
    have hplain {p q : Progress} : k.AreKin depth p q := fun bounds hb => by rw [hk] at hb; cases hb
    cases hrun with
    | exhausted => exact .exhausted
    | exhausted' => exact .exhausted'
    | found hb hv => exact .found ⟨hb.cursor, hb.cursor', hplain⟩ hv
    | mismatch _ he => exact .mismatch hplain he
    | swallowed hp hs hv => exact .swallowed hp hs hv
  | some bounds =>
    have hfinding := (hb.kin bounds hk).memo r i hat.le
    have hremembers : k.setup.remembers = true := by rw [setup, hk]; rfl
    have hremembers' : k.setup'.remembers = true := by rw [setup', hk]; rfl
    rw [← hb.cursor, ← hb.cursor'] at hfinding
    cases hm : p.memo.find? ⟨r, p.cursor⟩ with
    | some f =>
      cases hm' : q.memo.find? ⟨r, q.cursor⟩ with
      | some f' =>
        rw [run_remembered_hit hremembers hm, run_remembered_hit hremembers' hm']
        rw [hm, hm'] at hfinding
        cases hfinding with
        | node hv => exact .found ⟨rfl, rfl, hb.kin.seek _ _⟩ (hv s hat)
        | error he => exact .mismatch hb.kin he
      | none =>
        rw [hm, hm'] at hfinding
        cases hfinding
    | none =>
      cases hm' : q.memo.find? ⟨r, q.cursor⟩ with
      | some f' =>
        rw [hm, hm'] at hfinding
        cases hfinding
      | none =>
        rw [run_remembered_miss fun _ => hm, run_remembered_miss fun _ => hm']
        generalize body.run k.setup p = o at hrun ⊢
        generalize body'.run k.setup' q = o' at hrun ⊢
        cases hrun with
        | exhausted => exact .exhausted
        | exhausted' => exact .exhausted'
        | @found v p' q' j hb' hv =>
          have hnode : k.SameFinding r i (some (.node v p'.cursor)) (some (.node v q'.cursor)) := by
            rw [hb'.cursor, hb'.cursor']
            exact .node fun s' hat' => by rwa [hat'.unique hat]
          refine .found ⟨hb'.cursor, hb'.cursor', ?_⟩ hv
          rw [hb.cursor, hb.cursor']
          exact hb'.kin.store hnode
        | mismatch hb' he =>
          refine .mismatch ?_ he
          rw [hb.cursor, hb.cursor']
          exact hb'.store (.error he)
        | swallowed hp hs hv => exact .swallowed hp hs hv

end Parse

end MagSyntax
