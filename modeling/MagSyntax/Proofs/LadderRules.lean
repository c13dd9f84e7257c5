import MagSyntax.Proofs.Complaints
import MagSyntax.Proofs.Entries
import MagSyntax.Proofs.Ladder

/-! The layers of the grammar read a sequence of names and numbers with binary operators between them as its tree,
each layer a stretch of it without looser operators. A budget of one for each power in a row and a few
more is enough. -/

namespace MagSyntax

open Parse Input Ladder

namespace Grammar

variable {setup : Setup} {keeps : Memo → Prop} {may : Failure → Prop} {b c : Nat}

/-- A name or a number is a primary. -/
theorem finds_primary_leaf {self : Rule → Parse Node}
    (hk : (setup.input.get c).kind = .ident ∨ (setup.input.get c).kind = .number) :
    Finds setup keeps may (primary self) c fun v d =>
      v = Atom.leaf (setup.input.get c) ∧ d = c + 1 := by
  simp only [primary]
  rw [finds_current_bind]
  rcases hk with hk | hk <;> simp only [hk] <;> rw [finds_advance_bind, after_of_ne _ (by simp [hk])]
  · exact finds_pure ⟨by simp [Atom.leaf, hk], rfl⟩
  · exact finds_pure ⟨by simp [Atom.leaf, hk], rfl⟩

theorem finds_postfixChain_leaf (hb : 2 ≤ b ∨ may .exhausted)
    (hk : (setup.input.get c).kind = .ident ∨ (setup.input.get c).kind = .number)
    (hend : (setup.input.get (c + 1)).kind ∉ Rule.links) :
    Finds setup keeps may (parse b 0 .postfixChain) c fun v d =>
      v = Atom.leaf (setup.input.get c) ∧ d = c + 1 := by
  refine finds_open rfl rfl (hb.imp_left fun h => by omega) fun n hn => ?_
  have hprimary : Finds setup keeps may (parse n 0 .primary) c fun v d =>
      v = Atom.leaf (setup.input.get c) ∧ d = c + 1 :=
    finds_open rfl rfl (hb.imp_left fun h => by omega) fun _ _ => finds_primary_leaf hk
  refine hprimary.bind fun v d hv => ?_
  obtain ⟨rfl, rfl⟩ := hv
  rw [finds_rounds_bind]
  exact finds_chain_stop hend ⟨rfl, rfl⟩

/-- An atom is an operand of a power. -/
theorem finds_atom {a : Atom} {stop : Nat} (ha : a.IsProper) (hb : 3 ≤ b ∨ may .exhausted)
    (hs : setup.input.Holds c a.tokens stop) (hend : (setup.input.get stop).kind ∉ Rule.links) :
    Finds setup keeps may (parse b 0 .unary) c fun v d => v = a.node ∧ d = stop := by
  refine finds_open rfl rfl (hb.imp_left fun h => by omega) fun n hn => ?_
  obtain ⟨sign, word⟩ := a
  have hb : 2 ≤ n ∨ may .exhausted := hb.imp_left fun h => by omega
  simp only [body, unary]
  rw [finds_accept_bind]
  cases sign with
  | none =>
    obtain ⟨rfl, hstop⟩ := holds_cons.mp hs
    obtain ⟨rfl, -⟩ := holds_nil.mp hstop
    have hk : (setup.input.get c).kind = .ident ∨ (setup.input.get c).kind = .number := ha.word
    rw [if_neg (by rcases hk with hk | hk <;> simp [hk])]
    exact finds_postfixChain_leaf hb hk hend
  | some sign =>
    obtain ⟨rfl, hs⟩ := holds_cons.mp hs
    obtain ⟨rfl, hstop⟩ := holds_cons.mp hs
    obtain ⟨rfl, -⟩ := holds_nil.mp hstop
    have hk : (setup.input.get c).kind = Symbol.sub := ha.sign _ rfl
    rw [if_pos (by simp [hk]), after_of_ne _ (by simp [hk])]
    refine (finds_postfixChain_leaf hb ha.word hend).bind fun v d hv => ?_
    obtain ⟨rfl, rfl⟩ := hv
    exact finds_pure ⟨rfl, rfl⟩

end Grammar

namespace Ladder

/-- The first operators of one kind, and what is left of a sequence behind them. -/
theorem exists_segment {kinds tighter : List TokenKind} {rest : List Tail}
    (h : Within (kinds ++ tighter) rest) :
    ∃ segment later, rest = segment ++ later ∧ Within tighter segment ∧
      (later = [] ∨ ∃ t more, later = t :: more ∧ t.isOf kinds) := by
  induction rest with
  | nil => exact ⟨[], [], rfl, List.forall_mem_nil _, .inl rfl⟩
  | cons t rest ih =>
    obtain ⟨ht, hrest⟩ := within_cons.mp h
    by_cases hk : t.isOf tighter
    · obtain ⟨segment, later, rfl, hsegment, hlater⟩ := ih hrest
      exact ⟨t :: segment, later, rfl, within_cons.mpr ⟨hk, hsegment⟩, hlater⟩
    · refine ⟨[], t :: rest, rfl, List.forall_mem_nil _, .inr ⟨t, rest, rfl, ?_⟩⟩
      rw [Tail.isOf, decide_eq_true_eq, List.mem_append] at ht
      rw [Tail.isOf, decide_eq_true_eq] at hk ⊢
      exact ht.resolve_right hk

/-- No more powers than this stand in a row. -/
def PowersUpTo (n : Nat) (rest : List Tail) : Prop :=
  ∀ run, run <:+: rest → Within powers run → run.length ≤ n

/-- The atoms of a sequence are proper. -/
structure IsProper (first : Atom) (rest : List Tail) : Prop where
  first : first.IsProper
  rest : ∀ t ∈ rest, t.atom.IsProper

theorem IsProper.behind {first : Atom} {left right : List Tail} {t : Tail}
    (h : IsProper first (left ++ t :: right)) : IsProper t.atom right := by
  have hr := List.forall_mem_cons.mp (List.forall_mem_append.mp h.rest).2
  exact ⟨hr.1, hr.2⟩

theorem IsProper.before {first : Atom} {left right : List Tail} (h : IsProper first (left ++ right)) :
    IsProper first left :=
  ⟨h.first, (List.forall_mem_append.mp h.rest).1⟩

theorem tokens_append (first : Atom) (left right : List Tail) :
    tokens first (left ++ right) = tokens first left ++ right.flatMap Tail.tokens := by
  simp [tokens]

theorem flatMap_tokens_cons (t : Tail) (right : List Tail) :
    (t :: right).flatMap Tail.tokens = t.operator :: tokens t.atom right := by
  simp [tokens, Tail.tokens]

theorem length_le_flatMap_tokens (rest : List Tail) : rest.length ≤ (rest.flatMap Tail.tokens).length := by
  induction rest with
  | nil => exact Nat.le_refl 0
  | cons t rest ih =>
    simp only [List.flatMap_cons, List.length_append, List.length_cons, Tail.tokens]
    omega

/-- What stands behind the first operators of one kind: what ends the sequence, or an operator. -/
theorem kind_behind_segment {input : Input} {c stop : Nat} {kinds tighter : List TokenKind}
    {later : List Tail} (hkinds : ∀ k ∈ kinds, k ∉ tighter ++ Rule.links)
    (hlater : later = [] ∨ ∃ t more, later = t :: more ∧ t.isOf kinds)
    (hs : input.Holds c (later.flatMap Tail.tokens) stop)
    (hend : (input.get stop).kind ∉ (kinds ++ tighter) ++ Rule.links) :
    (input.get c).kind ∉ tighter ++ Rule.links := by
  rcases hlater with rfl | ⟨t, more, rfl, ht⟩
  · obtain ⟨rfl, -⟩ := holds_nil.mp hs
    rw [List.append_assoc] at hend
    exact fun hm => hend (List.mem_append_right _ hm)
  · rw [Tail.isOf, decide_eq_true_eq] at ht
    rw [flatMap_tokens_cons] at hs
    rw [(holds_cons.mp hs).1]
    exact hkinds _ ht

end Ladder

namespace Grammar

variable {setup : Setup} {keeps : Memo → Prop} {may : Failure → Prop} {b c stop : Nat} {first : Atom}
  {rest whole : List Tail}

/-- The step reads each stretch of a sequence that has operators of these kinds alone as its tree. -/
def ReadsTree (setup : Setup) (keeps : Memo → Prop) (may : Failure → Prop) (step : Parse Node)
    (kinds : List TokenKind) (whole : List Tail) : Prop :=
  ∀ first rest c stop, rest <:+: whole → Within kinds rest → IsProper first rest →
    setup.input.Holds c (tokens first rest) stop → (setup.input.get stop).kind ∉ kinds ++ Rule.links →
      Finds setup keeps may step c fun v d => v = tree first rest ∧ d = stop

/-- A power of powers takes one of the budget for each. -/
theorem finds_powers {n : Nat} (hb : n + 4 ≤ b ∧ PowersUpTo n whole ∨ may .exhausted) :
    ReadsTree setup keeps may (parse b 0 .exponent) powers whole := by
  intro first rest c stop hin hrest hp hs hend
  replace hb : rest.length + 4 ≤ b ∨ may .exhausted := hb.imp_left fun h => by
    have := h.2 rest hin hrest
    omega
  clear hin
  induction rest generalizing first c b with
  | nil =>
    have htokens : tokens first [] = first.tokens := by simp [tokens]
    rw [htokens] at hs
    rw [List.mem_append, not_or] at hend
    rw [List.length_nil] at hb
    refine finds_open rfl rfl (hb.imp_left fun h => by omega) fun n hn => ?_
    refine (finds_atom hp.first (hb.imp_left fun h => by omega) hs hend.2).bind fun v d hv => ?_
    obtain ⟨rfl, rfl⟩ := hv
    rw [finds_accept_bind, if_neg hend.1]
    exact finds_pure ⟨(tree_nil first).symm, rfl⟩
  | cons t rest ih =>
    obtain ⟨ht, hrest⟩ := within_cons.mp hrest
    rw [tokens, flatMap_tokens_cons, holds_append] at hs
    obtain ⟨d, hfirst, hs⟩ := hs
    obtain ⟨hoperator, hlater⟩ := holds_cons.mp hs
    have hk : (setup.input.get d).kind = Symbol.pow := by
      rw [hoperator]
      simpa [Tail.isOf] using ht
    rw [List.length_cons] at hb
    refine finds_open rfl rfl (hb.imp_left fun h => by omega) fun n hn => ?_
    refine (finds_atom hp.first (hb.imp_left fun h => by omega) hfirst (by rw [hk]; decide)).bind
      fun v d hv => ?_
    obtain ⟨rfl, rfl⟩ := hv
    rw [finds_accept_bind, if_pos (by simp [hk]), after_of_ne _ (by simp [hk])]
    refine (ih t.atom _ hrest (show IsProper first ([] ++ t :: rest) from hp).behind hlater
      (hb.imp_left fun h => by omega)).bind fun w e hw => ?_
    obtain ⟨rfl, rfl⟩ := hw
    exact finds_pure ⟨by rw [hoperator, tree_power ht hrest], rfl⟩

section

variable {kinds tighter : List TokenKind} {operand : Parse Node}
  (hkinds : ∀ k ∈ kinds, k ∉ tighter ++ Rule.links) (heof : .eof ∉ kinds)
  (hoperand : ReadsTree setup keeps may operand tighter whole)
  (htree : ∀ first left t right, Within (kinds ++ tighter) left → t.isOf kinds → Within tighter right →
    tree first (left ++ t :: right) =
      .binary (tree first left).loc t.operator.value (tree first left) (tree t.atom right))
include hkinds heof hoperand htree

/-- Each round takes an operator and the tighter ones behind it, and what has been read so far is the tree of
the sequence up to there. -/
theorem finds_operatorsLeft_tree {bound : Nat} {left : List Tail} (hbound : rest.length < bound)
    (hin : left ++ rest <:+: whole) (hw : Within (kinds ++ tighter) (left ++ rest))
    (hhead : rest = [] ∨ ∃ t more, rest = t :: more ∧ t.isOf kinds) (hp : IsProper first (left ++ rest))
    (hs : setup.input.Holds c (rest.flatMap Tail.tokens) stop)
    (hend : (setup.input.get stop).kind ∉ (kinds ++ tighter) ++ Rule.links) :
    Finds setup keeps may (operatorsLeft kinds operand bound (tree first left)) c fun v d =>
      v = tree first (left ++ rest) ∧ d = stop := by
  induction bound generalizing left rest c with
  | zero => exact absurd hbound (Nat.not_lt_zero _)
  | succ bound ih =>
    simp only [operatorsLeft]
    rw [finds_accept_bind]
    rcases hhead with rfl | ⟨t, more, rfl, ht⟩
    · obtain ⟨rfl, -⟩ := holds_nil.mp hs
      rw [if_neg fun hk => hend (List.mem_append_left _ (List.mem_append_left _ hk))]
      exact finds_pure ⟨by rw [List.append_nil], rfl⟩
    obtain ⟨hleft, -, hmore⟩ : Within (kinds ++ tighter) left ∧ t.isOf (kinds ++ tighter) ∧
        Within (kinds ++ tighter) more := by
      rwa [within_append, within_cons] at hw
    obtain ⟨segment, later, rfl, hsegment, hlater⟩ := exists_segment hmore
    rw [flatMap_tokens_cons, tokens_append, holds_cons, holds_append] at hs
    obtain ⟨hoperator, d, hright, hs⟩ := hs
    have hk : (setup.input.get c).kind ∈ kinds := by
      rw [hoperator]
      simpa [Tail.isOf] using ht
    rw [if_pos hk, after_of_ne _ fun he => heof (he ▸ hk), hoperator]
    have hwhole : left ++ t :: (segment ++ later) = (left ++ t :: segment) ++ later := by simp
    rw [hwhole] at hin hp hw ⊢
    have hsegmentIn : segment <:+: left ++ t :: segment ++ later := ⟨left ++ [t], later, by simp⟩
    refine (hoperand t.atom segment (c + 1) d (hsegmentIn.trans hin) hsegment hp.before.behind hright
      (kind_behind_segment hkinds hlater hs hend)).bind fun v e hv => ?_
    obtain ⟨rfl, rfl⟩ := hv
    rw [← htree first left t segment hleft ht hsegment]
    rw [List.length_cons, List.length_append] at hbound
    exact ih (by omega) hin hw hlater hp hs

/-- Operators that group to the left, with tighter ones between them. -/
theorem finds_binaryLeft_tree : ReadsTree setup keeps may (binaryLeft kinds operand) (kinds ++ tighter) whole := by
  intro first rest c stop hin hw hp hs hend
  obtain ⟨segment, later, rfl, hsegment, hlater⟩ := exists_segment hw
  rw [tokens_append, holds_append] at hs
  obtain ⟨d, hfirst, hs⟩ := hs
  refine (hoperand first segment c d ((List.prefix_append segment later).isInfix.trans hin) hsegment hp.before
    hfirst (kind_behind_segment hkinds hlater hs hend)).bind fun v e hv => ?_
  obtain ⟨rfl, rfl⟩ := hv
  rw [finds_rounds_bind]
  have hlength := length_le_flatMap_tokens later
  have hroom := hs.le
  exact finds_operatorsLeft_tree hkinds heof hoperand htree (by omega) hin hw hlater hp hs hend

end

theorem finds_products {n : Nat} (hb : n + 6 ≤ b ∧ PowersUpTo n whole ∨ may .exhausted) :
    ReadsTree setup keeps may (parse b 1 .multiplicative) products whole := by
  intro first rest c stop hin hw hp hs hend
  refine finds_open rfl rfl (hb.imp_left fun h => by omega) fun m hm => ?_
  exact finds_binaryLeft_tree (by decide) (by decide) (finds_powers (hb.imp_left fun h => ⟨by omega, h.2⟩))
    (fun _ _ _ _ => tree_product) first rest c stop hin hw hp hs hend

theorem finds_sums {n : Nat} (hb : n + 8 ≤ b ∧ PowersUpTo n whole ∨ may .exhausted) :
    ReadsTree setup keeps may (parse b 1 .additive)
      sums whole := by
  intro first rest c stop hin hw hp hs hend
  refine finds_open rfl rfl (hb.imp_left fun h => by omega) fun m hm => ?_
  exact finds_binaryLeft_tree (by decide) (by decide) (finds_products (hb.imp_left fun h => ⟨by omega, h.2⟩))
    (fun _ _ _ _ => tree_sum) first rest c stop hin hw hp hs hend

end Grammar

namespace Ladder

open Grammar (comparisons)

variable {first : Atom} {left middle right : List Tail} {t t' : Tail}

theorem filter_comparisons_eq_nil (h : Within sums left) :
    left.filter (Tail.isOf comparisons) = [] :=
  List.filter_eq_nil_iff.mpr (h.not_isOf (by decide))

/-- Without a comparison. -/
theorem reading_of_sums (h : Within sums left) :
    reading first left = .ok (tree first left) := by
  rw [reading, filter_comparisons_eq_nil h]

/-- With one comparison. -/
theorem reading_of_comparison (hl : Within sums left)
    (ht : t.isOf comparisons)
    (hr : Within sums right) :
    reading first (left ++ t :: right) = .ok (.binary (tree first left).loc t.operator.value (tree first left)
      (tree t.atom right)) := by
  rw [reading, List.filter_append, List.filter_cons_of_pos ht, filter_comparisons_eq_nil hl,
    filter_comparisons_eq_nil hr, tree_comparison hl ht]
  rfl

/-- The second of several comparisons is the one that is complained about. -/
theorem reading_of_comparisons (hl : Within sums left)
    (ht : t.isOf comparisons)
    (hm : Within sums middle)
    (ht' : t'.isOf comparisons) :
    reading first (left ++ t :: (middle ++ t' :: right)) =
      .error (.ofToken .chainedComparison t'.operator) := by
  rw [reading, List.filter_append, List.filter_cons_of_pos ht, List.filter_append, List.filter_cons_of_pos ht',
    filter_comparisons_eq_nil hl, filter_comparisons_eq_nil hm]
  rfl

end Ladder

namespace Grammar

variable {setup : Setup} {keeps : Memo → Prop} {may : Failure → Prop} {b c stop : Nat} {first : Atom}
  {rest : List Tail}

/-- The whole sequence is read as its tree, or the second comparison is complained about. -/
theorem finds_reading {n : Nat} (hb : n + 9 ≤ b ∧ PowersUpTo n rest ∨ may .exhausted)
    (herror : ∀ e, reading first rest = .error e → may (.mismatch e)) (hw : Within operators rest)
    (hp : IsProper first rest) (hs : setup.input.Holds c (tokens first rest) stop)
    (hend : (setup.input.get stop).kind ∉ operators ++ Rule.links) :
    Finds setup keeps may (parse b 0 .comparison) c fun v d => reading first rest = .ok v ∧ d = stop := by
  refine finds_open rfl rfl (hb.imp_left fun h => by omega) fun m hm => ?_
  have hsums : ReadsTree setup keeps may (parse m 1 .additive)
      sums rest :=
    finds_sums (hb.imp_left fun h => ⟨by omega, h.2⟩)
  have hkinds : ∀ k ∈ comparisons,
      k ∉ sums ++ Rule.links := by decide
  obtain ⟨left, later, rfl, hleft, hlater⟩ := exists_segment hw
  rw [tokens_append, holds_append] at hs
  obtain ⟨d, hfirst, hs⟩ := hs
  refine (hsums first left c d (List.prefix_append left later).isInfix hleft hp.before hfirst
    (kind_behind_segment hkinds hlater hs hend)).bind fun v e hv => ?_
  obtain ⟨rfl, rfl⟩ := hv
  rw [finds_accept_bind]
  rcases hlater with rfl | ⟨t, more, rfl, ht⟩
  · obtain ⟨rfl, -⟩ := holds_nil.mp hs
    rw [if_neg fun hk => hend (List.mem_append_left _ (List.mem_append_left _ hk))]
    exact finds_pure ⟨by rw [List.append_nil, reading_of_sums hleft], rfl⟩
  have hmore : Within operators more := (within_cons.mp (within_append.mp hw).2).2
  obtain ⟨right, later, rfl, hright, hlater⟩ := exists_segment hmore
  rw [flatMap_tokens_cons, tokens_append, holds_cons, holds_append] at hs
  obtain ⟨hoperator, e', hs, hs'⟩ := hs
  have hk : (setup.input.get e).kind ∈ comparisons := by
    rw [hoperator]
    simpa [Tail.isOf] using ht
  rw [if_pos hk, after_of_ne _ fun he => absurd (he ▸ hk) (by decide)]
  have hin : right <:+: left ++ t :: (right ++ later) := ⟨left ++ [t], later, by simp⟩
  refine (hsums t.atom right (e + 1) e' hin hright hp.behind.before hs
    (kind_behind_segment hkinds hlater hs' hend)).bind fun w f hw => ?_
  obtain ⟨rfl, rfl⟩ := hw
  rw [finds_check_bind]
  rcases hlater with rfl | ⟨t', more, rfl, ht'⟩
  · obtain ⟨rfl, -⟩ := holds_nil.mp hs'
    rw [decide_eq_false fun hk => hend (List.mem_append_left _ (List.mem_append_left _ hk))]
    exact finds_pure ⟨by rw [List.append_nil, reading_of_comparison hleft ht hright, hoperator], rfl⟩
  · rw [flatMap_tokens_cons, holds_cons] at hs'
    rw [decide_eq_true (by rw [hs'.1]; simpa [Tail.isOf] using ht')]
    exact finds_complain_bind_of (herror _ (by rw [reading_of_comparisons hleft ht hright ht', hs'.1]))

end Grammar

end MagSyntax
