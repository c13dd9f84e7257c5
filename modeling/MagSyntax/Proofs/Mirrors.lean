import MagSyntax.Node.Equality
import MagSyntax.Proofs.Steps
import MagSyntax.Proofs.Tracking

/-! Two parses in step, of inputs that hold the same lexemes up to an index where both end. They find the same
trees up to their places and complain about tokens of the same index, they never get past that index,
and both are as deep afterwards as before. The rules below say it for each combinator. With one
input on both sides this is what a single parse keeps to. -/

namespace MagSyntax

namespace Parse

variable {α β : Type}

/-- Two parses that are run in step, up to an index. -/
structure Mirror where
  left : Setup
  right : Setup
  stop : Nat
  /-- The tokens have the same places too. -/
  placed : Prop

namespace Mirror

/-- Up to the index, where they end, both inputs hold the same lexemes, one behind the other in both or in
neither. -/
structure IsFair (m : Mirror) : Prop where
  remembers : m.left.remembers = m.right.remembers
  nesting : m.left.nesting = m.right.nesting
  room : m.stop ≤ m.left.input.before.size
  room' : m.stop ≤ m.right.input.before.size
  ends : (m.left.input.get m.stop).kind = .eof
  lexeme : ∀ c ≤ m.stop, (m.left.input.get c).toLexeme = (m.right.input.get c).toLexeme
  order : ∀ c ≤ m.stop, ∀ d ≤ m.stop,
    ((m.left.input.get c).place.position < (m.left.input.get d).place.position ↔
      (m.right.input.get c).place.position < (m.right.input.get d).place.position)
  place : m.placed → ∀ c ≤ m.stop, (m.left.input.get c).place = (m.right.input.get c).place

/-- The trees differ in places at most. -/
structure SameNode (m : Mirror) (n n' : Node) : Prop where
  alike : n.unplaced = n'.unplaced
  same : m.placed → n = n'

/-- The errors are the same complaint about tokens of one index. -/
structure SameError (m : Mirror) (e e' : SyntaxError) : Prop where
  cause : e.cause = e'.cause
  text : e.text = e'.text
  place : ∃ c ≤ m.stop, e.place = (m.left.input.get c).place ∧ e'.place = (m.right.input.get c).place

/-- The memos hold the same for a rule at a token: a tree that takes up a token at least, or an error. -/
inductive SameFinding (m : Mirror) (c : Nat) : Option Finding → Option Finding → Prop
  | none : SameFinding m c none none
  | node {n n' : Node} {d : Nat} : m.SameNode n n' → c < d → d ≤ m.stop →
    SameFinding m c (some (.node n d)) (some (.node n' d))
  | error {e e' : SyntaxError} : m.SameError e e' →
    SameFinding m c (some (.error e)) (some (.error e'))

/-- Both parses stand at the token and at the depth. -/
structure Beside (m : Mirror) (c depth : Nat) (p q : Progress) : Prop where
  cursor : p.cursor = c
  cursor' : q.cursor = c
  le : c ≤ m.stop
  level : p.depth = depth
  level' : q.depth = depth
  memo : ∀ a, m.SameFinding a.cursor (p.memo.find? a) (q.memo.find? a)

/-- Both come to values that `found` relates, to the same error, or to the end of their budgets, and stand
beside each other. -/
inductive Agree (m : Mirror) (mayExhaust : Prop) (depth : Nat) (found : α → α → Nat → Prop) :
    Outcome α → Outcome α → Prop
  | ok {v v' : α} {d : Nat} {p q : Progress} : m.Beside d depth p q → found v v' d →
    Agree m mayExhaust depth found (.ok v p) (.ok v' q)
  | mismatch {e e' : SyntaxError} {d : Nat} {p q : Progress} : m.Beside d depth p q →
    m.SameError e e' →
    Agree m mayExhaust depth found (.failed (.mismatch e) p) (.failed (.mismatch e') q)
  | exhausted {d : Nat} {p q : Progress} : mayExhaust → m.Beside d depth p q →
    Agree m mayExhaust depth found (.failed .exhausted p) (.failed .exhausted q)

variable {m : Mirror}

theorem Beside.seek {c d depth : Nat} {p q : Progress} (h : m.Beside c depth p q) (hd : d ≤ m.stop) :
    m.Beside d depth { p with cursor := d } { q with cursor := d } :=
  ⟨rfl, rfl, hd, h.level, h.level', h.memo⟩

theorem Agree.beside {mayExhaust : Prop} {depth : Nat} {found : α → α → Nat → Prop} {o o' : Outcome α}
    (h : m.Agree mayExhaust depth found o o') : ∃ d, m.Beside d depth o.progress o'.progress := by
  cases h with
  | ok hb | mismatch hb | exhausted _ hb => exact ⟨_, hb⟩

theorem SameFinding.store {a a' : Attempt} {f f' : Finding} {p q : Memo}
    (hf : m.SameFinding a.cursor (some f) (some f'))
    (h : m.SameFinding a'.cursor (p.find? a') (q.find? a')) :
    m.SameFinding a'.cursor ((p.store a f).find? a') ((q.store a f').find? a') := by
  rw [Memo.find?_store, Memo.find?_store]
  by_cases ha : a = a'
  · subst ha
    rw [if_pos rfl, if_pos rfl]
    exact hf
  · rw [if_neg ha, if_neg ha]
    exact h

section

variable (hm : m.IsFair)
include hm

theorem IsFair.kind {c : Nat} (hc : c ≤ m.stop) :
    (m.right.input.get c).kind = (m.left.input.get c).kind :=
  congrArg Lexeme.kind (hm.lexeme c hc).symm

theorem IsFair.value {c : Nat} (hc : c ≤ m.stop) :
    (m.right.input.get c).value = (m.left.input.get c).value :=
  congrArg Lexeme.value (hm.lexeme c hc).symm

theorem IsFair.lt {c : Nat} (hc : c ≤ m.stop) (hk : (m.left.input.get c).kind ≠ .eof) : c < m.stop :=
  Nat.lt_of_le_of_ne hc fun h => hk (h ▸ hm.ends)

theorem IsFair.after {c : Nat} (hc : c ≤ m.stop) :
    m.right.input.after c = m.left.input.after c ∧ m.left.input.after c ≤ m.stop := by
  unfold Input.after
  rw [hm.kind hc]
  split
  next => exact ⟨rfl, hc⟩
  next hk => exact ⟨rfl, hm.lt hc hk⟩

theorem IsFair.locOf (hp : m.placed) {c : Nat} (hc : c ≤ m.stop) :
    Grammar.locOf (m.left.input.get c) = Grammar.locOf (m.right.input.get c) := by
  unfold Grammar.locOf
  rw [hm.place hp c hc]

theorem IsFair.sameError {c : Nat} (hc : c ≤ m.stop) (complaint : Complaint) :
    m.SameError (.ofToken complaint (m.left.input.get c)) (.ofToken complaint (m.right.input.get c)) := by
  refine ⟨?_, ?_, c, hc, rfl, rfl⟩
  · simp only [SyntaxError.ofToken, hm.kind hc, hm.value hc]
  · simp only [SyntaxError.ofToken, hm.value hc]

/-- Where the tokens have the same places, so do the errors. -/
theorem IsFair.eq_of_sameError (hp : m.placed) {e e' : SyntaxError} (h : m.SameError e e') : e = e' := by
  obtain ⟨c, hc, he, he'⟩ := h.place
  cases e
  cases e'
  simp only [SyntaxError.mk.injEq]
  exact ⟨h.cause, he.trans ((hm.place hp c hc).trans he'.symm), h.text⟩

theorem IsFair.sameError_further {e e' f f' : SyntaxError} (he : m.SameError e e')
    (hf : m.SameError f f') : m.SameError (further e f) (further e' f') := by
  obtain ⟨c, hc, hec, hec'⟩ := he.place
  obtain ⟨d, hd, hfd, hfd'⟩ := hf.place
  have horder := hm.order c hc d hd
  rw [← hec, ← hec', ← hfd, ← hfd'] at horder
  unfold further
  by_cases h : e.place.position < f.place.position
  · rw [if_pos h, if_pos (horder.mp h)]
    exact hf
  · rw [if_neg h, if_neg fun h' => h (horder.mpr h')]
    exact he

end

end Mirror

open Mirror

/-- From a token on, at any depth, both steps agree. -/
def Mirrors (m : Mirror) (mayExhaust : Prop) (c : Nat) (step step' : Parse α)
    (found : α → α → Nat → Prop) : Prop :=
  ∀ depth p q, m.Beside c depth p q →
    m.Agree mayExhaust depth found (step.run m.left p) (step'.run m.right q)

variable {m : Mirror} {mayExhaust : Prop}

theorem bind_assoc {γ : Type} (first : Parse α) (next : α → Parse β) (last : β → Parse γ) :
    (first >>= next) >>= last = first >>= fun v => next v >>= last := by
  show Parse.mk _ = Parse.mk _
  congr
  funext setup p
  rw [run_bind]
  cases first.run setup p <;> rfl

/-- There is nothing to show from a token on that the parses do not get to. -/
theorem mirrors_of_le {c : Nat} {step step' : Parse α} {found : α → α → Nat → Prop}
    (h : c ≤ m.stop → Mirrors m mayExhaust c step step' found) :
    Mirrors m mayExhaust c step step' found :=
  fun depth p q hb => h hb.le depth p q hb

theorem Mirrors.imp {c : Nat} {step step' : Parse α} {found found' : α → α → Nat → Prop}
    (h : Mirrors m mayExhaust c step step' found) (hf : ∀ v v' d, found v v' d → found' v v' d) :
    Mirrors m mayExhaust c step step' found' := by
  intro depth p q hb
  have h := h depth p q hb
  generalize step.run m.left p = o at h ⊢
  generalize step'.run m.right q = o' at h ⊢
  cases h with
  | ok hb h => exact .ok hb (hf _ _ _ h)
  | mismatch hb h => exact .mismatch hb h
  | exhausted hx hb => exact .exhausted hx hb

theorem mirrors_pure {c : Nat} {v v' : α} {found : α → α → Nat → Prop} (h : found v v' c) :
    Mirrors m mayExhaust c (pure v) (pure v') found :=
  fun _ _ _ hb => .ok hb h

theorem mirrors_exhausted {c : Nat} {found : α → α → Nat → Prop} (hx : mayExhaust) :
    Mirrors m mayExhaust c (fail .exhausted) (fail .exhausted) found :=
  fun _ _ _ hb => .exhausted hx hb

theorem Mirrors.bind {c : Nat} {first first' : Parse α} {next next' : α → Parse β}
    {found : α → α → Nat → Prop} {found' : β → β → Nat → Prop}
    (h : Mirrors m mayExhaust c first first' found)
    (hn : ∀ v v' d, found v v' d → Mirrors m mayExhaust d (next v) (next' v') found') :
    Mirrors m mayExhaust c (first >>= next) (first' >>= next') found' := by
  intro depth p q hb
  have h := h depth p q hb
  rw [run_bind, run_bind]
  generalize first.run m.left p = o at h ⊢
  generalize first'.run m.right q = o' at h ⊢
  cases h with
  | ok hb h => exact hn _ _ _ h _ _ _ hb
  | mismatch hb h => exact .mismatch hb h
  | exhausted hx hb => exact .exhausted hx hb

/-- A step that succeeds on both sides and moves both cursors to one token. -/
theorem mirrors_of_run {c d : Nat} {first first' : Parse α} {next next' : α → Parse β} (v v' : α)
    {found : β → β → Nat → Prop}
    (hrun : ∀ p : Progress, p.cursor = c → first.run m.left p = .ok v { p with cursor := d })
    (hrun' : ∀ q : Progress, q.cursor = c → first'.run m.right q = .ok v' { q with cursor := d })
    (hd : c ≤ m.stop → d ≤ m.stop) (h : Mirrors m mayExhaust d (next v) (next' v') found) :
    Mirrors m mayExhaust c (first >>= next) (first' >>= next') found := by
  intro depth p q hb
  rw [run_bind, run_bind, hrun p hb.cursor, hrun' q hb.cursor']
  exact h depth _ _ (hb.seek (hd hb.le))

theorem mirrors_current_bind {c : Nat} {next next' : Token → Parse β} {found : β → β → Nat → Prop}
    (h : Mirrors m mayExhaust c (next (m.left.input.get c)) (next' (m.right.input.get c)) found) :
    Mirrors m mayExhaust c (current >>= next) (current >>= next') found :=
  mirrors_of_run _ _ (fun p hp => by rw [← hp]; rfl) (fun q hq => by rw [← hq]; rfl) id h

/-- The bounds on the rounds need not be the same; both leave a round for each token up to the end. -/
theorem mirrors_rounds_bind (hm : m.IsFair) {c : Nat} {next next' : Nat → Parse β}
    {found : β → β → Nat → Prop}
    (h : ∀ bound bound', m.stop - c < bound → m.stop - c < bound' →
      Mirrors m mayExhaust c (next bound) (next' bound') found) :
    Mirrors m mayExhaust c (rounds >>= next) (rounds >>= next') found := by
  have hroom := hm.room
  have hroom' := hm.room'
  exact mirrors_of_run (m.left.input.before.size - c + 1) (m.right.input.before.size - c + 1)
    (fun p hp => by rw [← hp]; rfl) (fun q hq => by rw [← hq]; rfl) id
    (h _ _ (by omega) (by omega))

theorem mirrors_bind_mismatch {c : Nat} {next next' : α → Parse β} {found : β → β → Nat → Prop}
    {e e' : SyntaxError} (h : m.SameError e e') :
    Mirrors m mayExhaust c (fail (.mismatch e) >>= next) (fail (.mismatch e') >>= next') found :=
  fun _ _ _ hb => .mismatch hb h

section

variable (hm : m.IsFair)
include hm

theorem mirrors_complain {c : Nat} {complaint : Complaint} {found : α → α → Nat → Prop} :
    Mirrors m mayExhaust c (complain complaint) (complain complaint) found := by
  intro depth p q hb
  rw [run_complain, run_complain, hb.cursor, hb.cursor']
  exact .mismatch hb (hm.sameError hb.le complaint)

theorem mirrors_complain_bind {c : Nat} {complaint : Complaint} {next next' : α → Parse β}
    {found : β → β → Nat → Prop} :
    Mirrors m mayExhaust c (complain complaint >>= next) (complain complaint >>= next') found := by
  have hnone : Mirrors m mayExhaust c (complain complaint) (complain complaint)
      fun (_ _ : α) (_ : Nat) => False := mirrors_complain hm
  exact hnone.bind fun _ _ _ h => h.elim

theorem mirrors_check_bind {kinds : List TokenKind} {c : Nat} {next next' : Bool → Parse β}
    {found : β → β → Nat → Prop}
    (h : (m.left.input.get c).kind ∈ kinds → Mirrors m mayExhaust c (next true) (next' true) found)
    (h' : (m.left.input.get c).kind ∉ kinds →
      Mirrors m mayExhaust c (next false) (next' false) found) :
    Mirrors m mayExhaust c (check kinds >>= next) (check kinds >>= next') found := by
  refine mirrors_of_le fun hc => mirrors_of_run (decide ((m.left.input.get c).kind ∈ kinds))
    (decide ((m.left.input.get c).kind ∈ kinds)) (fun p hp => ?_) (fun q hq => ?_) id ?_
  · rw [← hp]
    rfl
  · subst hq
    rw [run_check, hm.kind hc]
  · by_cases hk : (m.left.input.get c).kind ∈ kinds
    · rw [decide_eq_true hk]
      exact h hk
    · rw [decide_eq_false hk]
      exact h' hk

theorem mirrors_sees_bind {kind : TokenKind} {c : Nat} {next next' : Bool → Parse β}
    {found : β → β → Nat → Prop}
    (h : (m.left.input.get c).kind = kind → Mirrors m mayExhaust c (next true) (next' true) found)
    (h' : (m.left.input.get c).kind ≠ kind →
      Mirrors m mayExhaust c (next false) (next' false) found) :
    Mirrors m mayExhaust c (sees kind >>= next) (sees kind >>= next') found :=
  mirrors_check_bind hm (fun hk => h (List.mem_singleton.mp hk))
    fun hk => h' fun he => hk (List.mem_singleton.mpr he)

theorem mirrors_advance_bind {c : Nat} {next next' : Unit → Parse β} {found : β → β → Nat → Prop}
    (h : Mirrors m mayExhaust (m.left.input.after c) (next ()) (next' ()) found) :
    Mirrors m mayExhaust c (discard advance >>= next) (discard advance >>= next') found := by
  refine mirrors_of_le fun hc => mirrors_of_run _ _ (fun p hp => ?_) (fun q hq => ?_)
    (fun _ => (hm.after hc).2) h
  · rw [← hp, ← pastToken_eq]
    rfl
  · rw [← (hm.after hc).1, ← hq, ← pastToken_eq]
    rfl

/-- A token of one of these kinds, none of which is the end, is taken or is not there. -/
theorem mirrors_accept_bind {kinds : List TokenKind} (hkinds : .eof ∉ kinds) {c : Nat}
    {next next' : Option Token → Parse β} {found : β → β → Nat → Prop}
    (hsome : (m.left.input.get c).kind ∈ kinds → c < m.stop → Mirrors m mayExhaust (c + 1)
      (next (some (m.left.input.get c))) (next' (some (m.right.input.get c))) found)
    (hnone : (m.left.input.get c).kind ∉ kinds →
      Mirrors m mayExhaust c (next none) (next' none) found) :
    Mirrors m mayExhaust c (accept kinds >>= next) (accept kinds >>= next') found := by
  refine mirrors_of_le fun hc => ?_
  have hk := hm.kind hc
  by_cases h : (m.left.input.get c).kind ∈ kinds
  · have heof : (m.left.input.get c).kind ≠ .eof := fun he => hkinds (he ▸ h)
    have hlt := hm.lt hc heof
    refine mirrors_of_run _ _ (fun p hp => ?_) (fun q hq => ?_) (fun _ => hlt) (hsome h hlt)
    · rw [run_accept, hp, if_pos h, pastToken_eq, hp, Input.after_of_ne _ heof]
    · rw [run_accept, hq, if_pos (hk ▸ h), pastToken_eq, hq, Input.after_of_ne _ (hk ▸ heof)]
  · refine mirrors_of_run _ _ (fun p hp => ?_) (fun q hq => ?_) id (hnone h)
    · rw [run_accept, hp, if_neg h, ← hp]
    · rw [run_accept, hq, if_neg (hk ▸ h), ← hq]

theorem mirrors_skip_bind {kind : TokenKind} (hkind : kind ≠ .eof) {c : Nat}
    {next next' : Bool → Parse β} {found : β → β → Nat → Prop}
    (h : (m.left.input.get c).kind = kind → c < m.stop →
      Mirrors m mayExhaust (c + 1) (next true) (next' true) found)
    (h' : (m.left.input.get c).kind ≠ kind →
      Mirrors m mayExhaust c (next false) (next' false) found) :
    Mirrors m mayExhaust c (skip kind >>= next) (skip kind >>= next') found := by
  change Mirrors m mayExhaust c ((Option.isSome <$> accept [kind]) >>= next)
    ((Option.isSome <$> accept [kind]) >>= next') found
  rw [map_bind, map_bind]
  refine mirrors_accept_bind hm (by simpa using hkind.symm) (fun hk hlt => ?_) fun hk => ?_
  · exact h (List.mem_singleton.mp hk) hlt
  · exact h' fun he => hk (List.mem_singleton.mpr he)

theorem mirrors_expectOne_bind {kinds : List TokenKind} (hkinds : .eof ∉ kinds) {complaint : Complaint}
    {c : Nat} {next next' : Token → Parse β} {found : β → β → Nat → Prop}
    (h : (m.left.input.get c).kind ∈ kinds → c < m.stop → Mirrors m mayExhaust (c + 1)
      (next (m.left.input.get c)) (next' (m.right.input.get c)) found) :
    Mirrors m mayExhaust c (expectOne kinds complaint >>= next) (expectOne kinds complaint >>= next')
      found := by
  unfold expectOne
  rw [bind_assoc, bind_assoc]
  exact mirrors_accept_bind hm hkinds h fun _ => mirrors_complain_bind hm

theorem mirrors_expect_bind {kind : TokenKind} (hkind : kind ≠ .eof) {complaint : Complaint} {c : Nat}
    {next next' : Unit → Parse β} {found : β → β → Nat → Prop}
    (h : (m.left.input.get c).kind = kind → c < m.stop →
      Mirrors m mayExhaust (c + 1) (next ()) (next' ()) found) :
    Mirrors m mayExhaust c (expect kind complaint >>= next) (expect kind complaint >>= next') found := by
  change Mirrors m mayExhaust c ((expectOne [kind] complaint >>= fun _ => pure ()) >>= next)
    ((expectOne [kind] complaint >>= fun _ => pure ()) >>= next') found
  rw [bind_assoc, bind_assoc]
  exact mirrors_expectOne_bind hm (by simpa using hkind.symm) fun hk => h (List.mem_singleton.mp hk)

omit hm in
/-- A step, and another in its place from the same token if the tokens do not match. -/
theorem mirrors_recover {c : Nat} {first first' : Parse α} {target : Nat → Nat}
    {next next' : Nat → SyntaxError → Parse α} {found : α → α → Nat → Prop} (ht : target c = c)
    (h : Mirrors m mayExhaust c first first' found)
    (hn : ∀ e e', m.SameError e e' → Mirrors m mayExhaust c (next c e) (next' c e') found) :
    Mirrors m mayExhaust c (recover first target next) (recover first' target next') found := by
  intro depth p q hb
  have h := h depth p q hb
  simp only [recover, hb.cursor, hb.cursor', ht]
  generalize first.run m.left p = o at h ⊢
  generalize first'.run m.right q = o' at h ⊢
  cases h with
  | ok hb h => exact .ok hb h
  | mismatch hb' he => exact hn _ _ he depth _ _ ⟨rfl, rfl, hb.le, hb'.level, hb'.level', hb'.memo⟩
  | exhausted hx hb => exact .exhausted hx hb

theorem mirrors_attemptAfter {c : Nat} {e e' : SyntaxError} {alternatives alternatives' : List (Parse α)}
    {found : α → α → Nat → Prop} (he : m.SameError e e')
    (h : List.Forall₂ (fun step step' => Mirrors m mayExhaust c step step' found) alternatives
      alternatives') :
    Mirrors m mayExhaust c (attemptAfter c e alternatives) (attemptAfter c e' alternatives') found := by
  induction h generalizing e e' with
  | nil => exact fun _ _ _ hb => .mismatch hb he
  | cons hf _ ih =>
    rw [attemptAfter_cons, attemptAfter_cons]
    exact mirrors_recover rfl hf fun f f' hf => ih (hm.sameError_further he hf)

theorem mirrors_attempt {c : Nat} {first first' : Parse α} {others others' : List (Parse α)}
    (found : α → α → Nat → Prop) (h : Mirrors m mayExhaust c first first' found)
    (ho : List.Forall₂ (fun step step' => Mirrors m mayExhaust c step step' found) others others') :
    Mirrors m mayExhaust c (attempt first others) (attempt first' others') found := by
  rw [attempt_eq, attempt_eq]
  exact mirrors_recover rfl h fun e e' he => mirrors_attemptAfter hm he ho

theorem Mirrors.nested {c : Nat} {rule rule' : Parse α} {found : α → α → Nat → Prop}
    (h : Mirrors m mayExhaust c rule rule' found) :
    Mirrors m mayExhaust c (nested rule) (nested rule') found := by
  intro depth p q hb
  simp only [Parse.nested, hm.nesting, hb.level, hb.level']
  cases m.right.nesting.any (· ≤ depth) with
  | true =>
    simp only [if_true, run_complain, hb.cursor, hb.cursor']
    exact .mismatch (d := c) ⟨rfl, rfl, hb.le, rfl, rfl, hb.memo⟩ (hm.sameError hb.le .tooDeep)
  | false =>
    simp only [Bool.false_eq_true, if_false]
    have h := h (depth + 1) p.deeper q.deeper
      ⟨hb.cursor, hb.cursor', hb.le, congrArg (· + 1) hb.level, congrArg (· + 1) hb.level', hb.memo⟩
    generalize rule.run m.left p.deeper = o at h ⊢
    generalize rule'.run m.right q.deeper = o' at h ⊢
    -- one level is taken back whatever the rule comes to
    have back {d : Nat} {p q : Progress} (hb : m.Beside d (depth + 1) p q) :
        m.Beside d depth { p with depth := p.depth - 1 } { q with depth := q.depth - 1 } :=
      ⟨hb.cursor, hb.cursor', hb.le, by rw [hb.level, Nat.add_sub_cancel],
        by rw [hb.level', Nat.add_sub_cancel], hb.memo⟩
    cases h with
    | ok hb h => exact .ok (back hb) h
    | mismatch hb h => exact .mismatch (back hb) h
    | exhausted hx hb => exact .exhausted hx (back hb)

end

/-- Both find a node, and take a token at least for it. -/
def Mirror.Takes (m : Mirror) (c : Nat) (n n' : Node) (d : Nat) : Prop := m.SameNode n n' ∧ c < d

/-- What both look up is the same, and so is what both store. -/
theorem Mirrors.remembered (hm : m.IsFair) {r : Rule} {c : Nat} {body body' : Parse Node}
    (h : Mirrors m mayExhaust c body body' (m.Takes c)) :
    Mirrors m mayExhaust c (remembered r body) (remembered r body') (m.Takes c) := by
  intro depth p q hb
  have hfind := hb.memo ⟨r, c⟩
  have hmiss (hp : m.left.remembers → p.memo.find? ⟨r, c⟩ = none)
      (hq : m.right.remembers → q.memo.find? ⟨r, c⟩ = none) :
      m.Agree mayExhaust depth (m.Takes c) ((Parse.remembered r body).run m.left p)
        ((Parse.remembered r body').run m.right q) := by
    rw [run_remembered_miss (by rw [hb.cursor]; exact hp),
      run_remembered_miss (by rw [hb.cursor']; exact hq), hb.cursor, hb.cursor']
    have h := h depth p q hb
    generalize body.run m.left p = o at h ⊢
    generalize body'.run m.right q = o' at h ⊢
    cases h with
    | ok hb h =>
      refine .ok ⟨hb.cursor, hb.cursor', hb.le, hb.level, hb.level', fun a => ?_⟩ h
      rw [hb.cursor, hb.cursor']
      exact SameFinding.store (a := ⟨r, c⟩) (.node h.1 h.2 hb.le) (hb.memo a)
    | mismatch hb h =>
      refine .mismatch ⟨hb.cursor, hb.cursor', hb.le, hb.level, hb.level', fun a => ?_⟩ h
      exact SameFinding.store (a := ⟨r, c⟩) (.error h) (hb.memo a)
    | exhausted hx hb => exact .exhausted hx hb
  by_cases hs : m.left.remembers
  · generalize hf : p.memo.find? ⟨r, c⟩ = f at hfind
    generalize hf' : q.memo.find? ⟨r, c⟩ = f' at hfind
    have hs' : m.right.remembers := hm.remembers ▸ hs
    cases hfind with
    | none => exact hmiss (fun _ => hf) fun _ => hf'
    | node h hlt hle =>
      rw [run_remembered_hit hs (by rw [hb.cursor]; exact hf),
        run_remembered_hit hs' (by rw [hb.cursor']; exact hf')]
      exact .ok (hb.seek hle) ⟨h, hlt⟩
    | error h =>
      rw [run_remembered_hit hs (by rw [hb.cursor]; exact hf),
        run_remembered_hit hs' (by rw [hb.cursor']; exact hf')]
      exact .mismatch hb h
  · exact hmiss (fun h => absurd h hs) fun h => absurd (hm.remembers ▸ h) hs

end Parse

end MagSyntax
