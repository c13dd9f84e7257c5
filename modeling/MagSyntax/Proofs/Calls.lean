import MagSyntax.Proofs.MirroredRules
import MagSyntax.Proofs.TokensKept

/-! Calls of rules one after the other on one parser, on any tokens. Each call ends on a budget that the number
of tokens bounds, is as deep afterwards as before, never gets past the first end of the input, and
comes to what it comes to whatever stands behind that end. -/

namespace MagSyntax

open Parse Mirror

namespace Rule

/-- A budget that the rule cannot use up when so many tokens are left before the end: each takes three of it
at most, and only so many rules are open at one token. -/
def demand (r : Rule) (left : Nat) : Nat := 3 * (12 * left + r.rank + 1)

theorem rank_le (r : Rule) : r.rank ≤ 11 := by cases r <;> decide

theorem surcharge_le (r : Rule) : r.surcharge ≤ 2 := by cases r <;> decide

end Rule

/-- Before the token at an index, on a parser that has done nothing yet. -/
def Progress.startAt (c : Nat) : Progress := .within c 0

/-- Both find a node with the rule, and take a token at least for it unless it is a program. -/
def Parse.Mirror.Found (m : Mirror) (r : Rule) (c : Nat) (n n' : Node) (d : Nat) : Prop :=
  m.SameNode n n' ∧ (r ≠ .program → c < d)

namespace Grammar

variable {m : Mirror} {mayExhaust : Prop}

theorem mirrors_parse_succ (hm : m.IsFair) {b b' : Nat} {r : Rule} {c : Nat}
    (h : CallsMirror m mayExhaust (fun s => parse b s.surcharge s) (fun s => parse b' s.surcharge s)
      r.rank c) :
    Mirrors m mayExhaust c (parse (b + 1) 0 r) (parse (b' + 1) 0 r) (m.Found r c) := by
  by_cases hr : r = .program
  · subst hr
    exact (mirrors_program hm h (Nat.le_refl _)).imp fun n n' d hn => ⟨hn, fun hne => absurd rfl hne⟩
  · have hbody := mirrors_body hm h hr (Nat.le_refl _)
    have hcontent : Mirrors m mayExhaust c (content b r) (content b' r) (m.Takes c) := by
      simp only [content, counted]
      split
      · exact hbody.nested hm
      · exact hbody
    rw [parse_content, parse_content]
    suffices h : Mirrors m mayExhaust c _ _ (m.Takes c) from h.imp fun n n' d hn => ⟨hn.1, fun _ => hn.2⟩
    split
    · exact hcontent.remembered hm
    · exact hcontent

/-- A rule keeps two parses in step on equal budgets, and on any two that are large enough; on these it does not
use them up. -/
theorem mirrors_parse (hm : m.IsFair) {b b' : Nat} {r : Rule} {c : Nat}
    (hb : mayExhaust ∧ b = b' ∨ r.demand (m.stop - c) ≤ b ∧ r.demand (m.stop - c) ≤ b') :
    Mirrors m mayExhaust c (parse b r.surcharge r) (parse b' r.surcharge r) (m.Found r c) := by
  induction b using Nat.strongRecOn generalizing b' r c with
  | _ b ih =>
    have hs := r.surcharge_le
    rw [parse_due, parse_due b']
    have hcall {n n' : Nat} (hn : n + 1 = b - r.surcharge) (hn' : n' + 1 = b' - r.surcharge) :
        CallsMirror m mayExhaust (fun s => parse n s.surcharge s) (fun s => parse n' s.surcharge s)
          r.rank c := by
      refine fun s d hne hd => mirrors_of_le fun hstop => ?_
      refine (ih n (by omega) ?_).imp fun _ _ _ hf => ⟨hf.1, hf.2 hne⟩
      have hrank := s.rank_le
      refine hb.imp (fun hx => ⟨hx.1, by omega⟩) fun hx => ?_
      unfold Rule.demand at hx ⊢
      omega
    rcases hb with ⟨hx, rfl⟩ | hx
    · cases hn : b - r.surcharge with
      | zero => exact mirrors_exhausted hx
      | succ n => exact mirrors_parse_succ hm (hcall hn.symm hn.symm)
    · unfold Rule.demand at hx
      obtain ⟨n, hn⟩ := Nat.exists_eq_add_one_of_ne_zero (n := b - r.surcharge) (by omega)
      obtain ⟨n', hn'⟩ := Nat.exists_eq_add_one_of_ne_zero (n := b' - r.surcharge) (by omega)
      rw [hn, hn']
      exact mirrors_parse_succ hm (hcall hn.symm hn'.symm)

/-- Runs rules one after the other, each from where the one before it has left off, whatever that came to. -/
def calls (setup : Setup) (budget : Nat) : List Rule → Progress → Progress
  | [], p => p
  | r :: rules, p => calls setup budget rules ((parse budget r.surcharge r).run setup p).progress

/-- A budget that no rule uses up before the end. -/
def enough (stop : Nat) : Nat := 36 * (stop + 1)

theorem demand_le_enough (r : Rule) (stop c : Nat) : r.demand (stop - c) ≤ enough stop := by
  have hrank := r.rank_le
  unfold Rule.demand enough
  omega

/-- The parsers stand beside each other after the calls too. -/
theorem beside_calls (hm : m.IsFair) {b b' : Nat}
    (hb : mayExhaust ∧ b = b' ∨ enough m.stop ≤ b ∧ enough m.stop ≤ b') (rules : List Rule) {c : Nat}
    {p q : Progress} (h : m.Beside c 0 p q) :
    ∃ d, m.Beside d 0 (calls m.left b rules p) (calls m.right b' rules q) := by
  induction rules generalizing c p q with
  | nil => exact ⟨c, h⟩
  | cons r rules ih =>
    have hd := demand_le_enough r m.stop c
    have hr := mirrors_parse hm (r := r) (c := c) (hb.imp id fun hx => ⟨by omega, by omega⟩) 0 p q h
    obtain ⟨d, hd⟩ := hr.beside
    exact ih hd

/-- A call behind the calls of other rules keeps the parsers in step. -/
theorem agree_calls (hm : m.IsFair) {b b' : Nat}
    (hb : mayExhaust ∧ b = b' ∨ enough m.stop ≤ b ∧ enough m.stop ≤ b') (rules : List Rule) (r : Rule)
    {start : Nat} (hstart : start ≤ m.stop) :
    let p := calls m.left b rules (.startAt start)
    let q := calls m.right b' rules (.startAt start)
    m.Agree mayExhaust 0 (m.Found r p.cursor) ((parse b r.surcharge r).run m.left p)
        ((parse b' r.surcharge r).run m.right q) ∧ p.depth = 0 := by
  have hbegin : m.Beside start 0 (.startAt start) (.startAt start) := by
    refine ⟨rfl, rfl, hstart, rfl, rfl, fun a => ?_⟩
    rw [Progress.startAt, Progress.memo_within, Memo.find?_empty]
    exact .none
  obtain ⟨c, h⟩ := beside_calls hm hb rules hbegin
  have hd := demand_le_enough r m.stop c
  have hr := mirrors_parse hm (r := r) (c := c) (hb.imp id fun hx => ⟨by omega, by omega⟩)
  intro p q
  rw [h.cursor]
  exact ⟨hr 0 _ _ h, h.level⟩

end Grammar

namespace Parse

/-- The outcomes are the same value or the same failure, and the cursors are at the same token. -/
inductive Outcome.Matches {α : Type} : Outcome α → Outcome α → Prop
  | ok {v : α} {p q : Progress} (h : p.cursor = q.cursor) : Matches (.ok v p) (.ok v q)
  | failed {f : Failure} {p q : Progress} (h : p.cursor = q.cursor) :
    Matches (.failed f p) (.failed f q)

theorem Mirror.Agree.matches {m : Mirror} (hm : m.IsFair) (hp : m.placed) {mayExhaust : Prop}
    {depth c : Nat} {r : Rule} {o o' : Outcome Node} (h : m.Agree mayExhaust depth (m.Found r c) o o') :
    o.Matches o' := by
  cases h with
  | ok hb hn =>
    rw [hn.1.same hp]
    exact .ok (hb.cursor.trans hb.cursor'.symm)
  | mismatch hb he =>
    rw [hm.eq_of_sameError hp he]
    exact .failed (hb.cursor.trans hb.cursor'.symm)
  | exhausted _ hb => exact .failed (hb.cursor.trans hb.cursor'.symm)

theorem cursor_attemptAfter {α : Type} {start : Nat} {e f : SyntaxError} {alternatives : List (Parse α)}
    {setup : Setup} {p q : Progress} (hp : p.cursor = start)
    (h : (attemptAfter start f alternatives).run setup p = .failed (.mismatch e) q) : q.cursor = start := by
  induction alternatives generalizing f p with
  | nil =>
    cases h
    exact hp
  | cons first others ih =>
    simp only [attemptAfter] at h
    split at h
    next =>
      refine ih ?_ h
      rfl
    next hne => exact absurd h (hne e q)

/-- Alternatives none of which matches leave the cursor where it was. -/
theorem cursor_attempt {α : Type} {first : Parse α} {others : List (Parse α)} {setup : Setup}
    {p q : Progress} {e : SyntaxError}
    (h : (attempt first others).run setup p = .failed (.mismatch e) q) : q.cursor = p.cursor := by
  simp only [attempt] at h
  split at h
  next =>
    refine cursor_attemptAfter ?_ h
    rfl
  next hne => exact absurd h (hne e q)

end Parse

namespace Input

theorem kind_last_ofTokens (tokens : List Token) : (ofTokens tokens).last.kind = .eof := by
  unfold ofTokens
  split
  · rfl
  · split
    · assumption
    · rfl

theorem get_eq (input : Input) (c : Nat) : input.get c = input.toList[c]?.getD input.last := by
  rw [get, toList, List.getElem?_append, Array.getD_eq_getD_getElem?]
  split
  next h => rw [Array.getElem?_toList]
  next h =>
    rw [Array.getElem?_eq_none (by simpa using h)]
    cases c - input.before.toList.length <;> rfl

theorem length_toList (input : Input) : input.toList.length = input.before.size + 1 := by
  simp [toList]

/-- The first end of the input from an index on. -/
def endFrom (input : Input) (c : Nat) : Nat :=
  c + (input.toList.drop c).findIdx (·.kind = .eof)

theorem endFrom_spec {input : Input} (hl : input.last.kind = .eof) {c : Nat}
    (hc : c < input.toList.length) :
    c ≤ input.endFrom c ∧ input.endFrom c ≤ input.before.size ∧
      (input.get (input.endFrom c)).kind = .eof := by
  have hmem : input.last ∈ input.toList.drop c := by
    rw [List.mem_drop_iff_getElem]
    refine ⟨input.before.size - c, ?_, ?_⟩
    · rw [length_toList] at hc ⊢
      omega
    · rw [length_toList] at hc
      have hi : c + (input.before.size - c) = input.before.size := by omega
      simp [toList, hi]
  have hlt := List.findIdx_lt_length_of_exists (p := fun t : Token => decide (t.kind = .eof))
    ⟨_, hmem, decide_eq_true hl⟩
  have hkind := List.findIdx_getElem (w := hlt)
  rw [List.getElem_drop, decide_eq_true_eq] at hkind
  rw [List.length_drop, length_toList] at hlt
  refine ⟨Nat.le_add_right _ _, by unfold endFrom; omega, ?_⟩
  rw [get_eq, endFrom, List.getElem?_eq_getElem]
  exact hkind

/-- Inputs whose tokens agree up to an index have the same token there. -/
theorem get_eq_of_take {input input' : Input} {k c : Nat} (hk : k ≤ input.toList.length)
    (h : input'.toList.take k = input.toList.take k) (hc : c < k) : input'.get c = input.get c := by
  have he := congrArg (·[c]?) h
  simp only [List.getElem?_take_of_lt hc] at he
  rw [get_eq, get_eq, he, List.getElem?_eq_getElem (Nat.lt_of_lt_of_le hc hk)]
  rfl

end Input

namespace Grammar

/-- A call is as deep afterwards as before, does not get past an end of the input, and takes a token for what it
finds, unless that is a program. -/
structure IsOrderly (r : Rule) (stop : Nat) (p : Progress) (o : Outcome Node) : Prop where
  depth : o.progress.depth = p.depth
  cursor : o.progress.cursor ≤ stop
  advances : r ≠ .program → ∀ n q, o = .ok n q → p.cursor < q.cursor

/-- Two inputs with the same tokens up to an end, side by side. -/
def sideBySide (input input' : Input) (stop : Nat) : Mirror := ⟨{ input }, { input := input' }, stop, True⟩

theorem isFair_sideBySide {input input' : Input} {stop : Nat} (hstop : stop ≤ input.before.size)
    (hend : (input.get stop).kind = .eof)
    (h : input'.toList.take (stop + 1) = input.toList.take (stop + 1)) :
    (sideBySide input input' stop).IsFair := by
  have hlength : stop + 1 ≤ input.toList.length := by
    rw [Input.length_toList]
    omega
  have hget (c : Nat) (hc : c ≤ stop) : input'.get c = input.get c :=
    Input.get_eq_of_take hlength h (Nat.lt_succ_of_le hc)
  refine ⟨rfl, rfl, hstop, ?_, hend, fun c hc => ?_, fun c hc d hd => ?_, fun _ c hc => ?_⟩
  · have hl := congrArg List.length h
    rw [List.length_take, List.length_take, Nat.min_eq_left hlength, Input.length_toList] at hl
    change stop ≤ input'.before.size
    omega
  · exact congrArg Token.toLexeme (hget c hc).symm
  · change _ ↔ (input'.get c).place.position < (input'.get d).place.position
    rw [hget c hc, hget d hd]
    rfl
  · exact congrArg Token.place (hget c hc).symm

/-- Whatever the tokens are and whichever rules have been called before on the parser, failed calls included, a
call of a rule ends, because no budget that is large enough for the tokens up to the first end is used
up. It is as deep afterwards as before, it does not get past that end, it takes a token for what it
finds, and the tokens behind that end make no difference. Alternatives that do not match leave the
cursor where it was. -/
theorem calls_orderly (tokens : List Token) (start : Nat)
    (hstart : start < (Input.ofTokens tokens).toList.length) (before : List Rule) (r : Rule) :
    let stop := (Input.ofTokens tokens).endFrom start
    let reached (tokens : List Token) (budget : Nat) :=
      calls { input := .ofTokens tokens } budget before (.startAt start)
    let outcome (tokens : List Token) (budget : Nat) :=
      (parse budget r.surcharge r).run { input := .ofTokens tokens } (reached tokens budget)
    (∀ budget, IsOrderly r stop (reached tokens budget) (outcome tokens budget)) ∧
      (∀ budget budget', enough stop ≤ budget → enough stop ≤ budget' →
        (∀ p, outcome tokens budget ≠ .failed .exhausted p) ∧
          (outcome tokens budget).Matches (outcome tokens budget')) ∧
        (∀ tokens' budget, (Input.ofTokens tokens').toList.take (stop + 1) =
            (Input.ofTokens tokens).toList.take (stop + 1) →
          (outcome tokens budget).Matches (outcome tokens' budget)) ∧
          ∀ (α : Type) (first : Parse α) (others : List (Parse α)) (setup : Setup) (p q : Progress)
            (e : SyntaxError), (attempt first others).run setup p = .failed (.mismatch e) q →
              q.cursor = p.cursor := by
  intro stop reached outcome
  obtain ⟨hle, hsize, hend⟩ := Input.endFrom_spec (Input.kind_last_ofTokens tokens) hstart
  have hself := isFair_sideBySide hsize hend rfl
  refine ⟨fun budget => ?_, fun budget budget' hb hb' => ?_, fun tokens' budget htake => ?_,
    fun _ _ _ _ _ _ _ => cursor_attempt⟩
  · obtain ⟨hagree, hdepth⟩ := agree_calls hself (.inl ⟨trivial, rfl⟩ : True ∧ _ ∨ _) before r hle
    obtain ⟨d, hbeside⟩ := hagree.beside
    refine ⟨hbeside.level.trans hdepth.symm, hbeside.cursor ▸ hbeside.le, fun hr n q ho => ?_⟩
    change Mirror.Agree _ _ _ _ (outcome tokens budget) _ at hagree
    rw [ho] at hagree
    generalize hq : (parse budget r.surcharge r).run _ _ = o' at hagree
    cases hagree with
    | ok hb hn =>
      rw [hb.cursor]
      exact hn.2 hr
  · have hagree := (agree_calls hself (.inr ⟨hb, hb'⟩ : False ∧ _ ∨ _) before r hle).1
    refine ⟨fun p ho => ?_, hagree.matches hself trivial⟩
    change Mirror.Agree _ _ _ _ (outcome tokens budget) _ at hagree
    rw [ho] at hagree
    generalize hq : (parse budget' r.surcharge r).run _ _ = o' at hagree
    cases hagree with
    | exhausted hx => exact hx
  · have hfair := isFair_sideBySide hsize hend htake
    exact (agree_calls hfair (.inl ⟨trivial, rfl⟩ : True ∧ _ ∨ _) before r hle).1.matches hfair trivial

/-- A name, an end behind it, and another name behind that. -/
def endWithin : List Token :=
  [⟨⟨.ident, "a", 10, []⟩, ⟨0, 1, 1⟩⟩, .endAt ⟨1, 1, 2⟩, ⟨⟨.ident, "b", 10, []⟩, ⟨2, 1, 3⟩⟩]

/-- A statement is asked for first, which fails at the end, and then an operand. -/
theorem calls_orderly_endWithin :
    0 < (Input.ofTokens endWithin).toList.length ∧ (Input.ofTokens endWithin).endFrom 0 = 1 ∧
      (∀ budget, IsOrderly .operand 1
        (calls { input := .ofTokens endWithin } budget [.statement] (.startAt 0))
        ((parse budget 1 .operand).run { input := .ofTokens endWithin }
          (calls { input := .ofTokens endWithin } budget [.statement] (.startAt 0)))) ∧
        ∀ budget, ((parse budget 1 .operand).run { input := .ofTokens endWithin }
          (calls { input := .ofTokens endWithin } budget [.statement] (.startAt 0))).Matches
            ((parse budget 1 .operand).run { input := .ofTokens (endWithin.take 2) }
              (calls { input := .ofTokens (endWithin.take 2) } budget [.statement] (.startAt 0))) := by
  have h := calls_orderly endWithin 0 (by decide) [.statement] .operand
  exact ⟨by decide, by decide, h.1, fun budget => h.2.2.1 _ budget (by decide)⟩

end Grammar

end MagSyntax
