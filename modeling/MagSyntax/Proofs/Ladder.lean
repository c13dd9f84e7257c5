import MagSyntax.Proofs.Contained
import MagSyntax.Proofs.Reading

/-! The tree of a sequence of names and numbers with binary operators between them, said without a grammar: where
the loosest operator stands the sequence falls into two, and each side is read the same way. -/

namespace MagSyntax

open Grammar

namespace Ladder

/-- A name or a number, with a sign in front of it or none. -/
structure Atom where
  sign : Option Token
  word : Token

/-- An operator and what stands to the right of it. -/
structure Tail where
  operator : Token
  atom : Atom

namespace Atom

/-- The tokens of an atom. -/
def tokens (a : Atom) : List Token := a.sign.toList ++ [a.word]

/-- The tree of a name or a number. -/
def leaf (word : Token) : Node :=
  if word.kind = .number then .numeric (locOf word) word.value word.base
  else .identifier (locOf word) word.value

/-- The tree of an atom. -/
def node (a : Atom) : Node :=
  match a.sign with
  | none => leaf a.word
  | some sign => .unary (locOf sign) sign.value (leaf a.word) true

/-- The word is a name or a number, and the sign is a minus. -/
structure IsProper (a : Atom) : Prop where
  word : a.word.kind = .ident ∨ a.word.kind = .number
  sign : ∀ t ∈ a.sign, t.kind = Symbol.sub

end Atom

/-- The kinds of the operators of powers. -/
abbrev powers : List TokenKind := [TokenKind.symbol .pow]

/-- The kinds of the operators of products and of those that are tighter. -/
abbrev products : List TokenKind := multiplicatives ++ powers

/-- The kinds of the operators of sums and of those that are tighter. -/
abbrev sums : List TokenKind := additives ++ products

/-- The kinds of all binary operators. -/
abbrev operators : List TokenKind := comparisons ++ sums

namespace Tail

/-- The tokens of an operator and of what stands to the right of it. -/
def tokens (t : Tail) : List Token := t.operator :: t.atom.tokens

/-- The operator is one of these kinds. -/
def isOf (kinds : List TokenKind) (t : Tail) : Bool := t.operator.kind ∈ kinds

/-- The operator and the atom behind it are. -/
structure IsProper (t : Tail) : Prop where
  operator : t.isOf operators
  atom : t.atom.IsProper

end Tail

/-- The tokens of a sequence. -/
def tokens (first : Atom) (rest : List Tail) : List Token :=
  first.tokens ++ rest.flatMap Tail.tokens

variable {α : Type} {p : α → Bool}

/-- What stands before the first element with a property, that element, and what stands behind it. -/
def splitFirst? (p : α → Bool) : List α → Option (List α × α × List α)
  | [] => none
  | x :: l =>
    if p x then some ([], x, l)
    else (splitFirst? p l).map fun found => (x :: found.1, found.2)

/-- What stands before the last element with a property, that element, and what stands behind it. -/
def splitLast? (p : α → Bool) : List α → Option (List α × α × List α)
  | [] => none
  | x :: l =>
    match splitLast? p l with
    | some found => some (x :: found.1, found.2)
    | none => if p x then some ([], x, l) else none

theorem eq_of_splitFirst? {l a b : List α} {x : α} (h : splitFirst? p l = some (a, x, b)) :
    l = a ++ x :: b := by
  induction l generalizing a with
  | nil => cases h
  | cons y l ih =>
    rw [splitFirst?] at h
    split at h
    next =>
      cases h
      rfl
    next =>
      rw [Option.map_eq_some_iff] at h
      obtain ⟨⟨a', x', b'⟩, h, he⟩ := h
      cases he
      rw [ih h, List.cons_append]

theorem eq_of_splitLast? {l a b : List α} {x : α} (h : splitLast? p l = some (a, x, b)) :
    l = a ++ x :: b := by
  induction l generalizing a with
  | nil => cases h
  | cons y l ih =>
    rw [splitLast?] at h
    split at h
    next found hl =>
      obtain ⟨a', x', b'⟩ := found
      cases h
      rw [ih hl, List.cons_append]
    next =>
      split at h
      next =>
        cases h
        rfl
      next => cases h

theorem splitFirst?_eq_none {l : List α} (h : ∀ x ∈ l, ¬p x) : splitFirst? p l = none := by
  induction l with
  | nil => rfl
  | cons y l ih =>
    rw [List.forall_mem_cons] at h
    rw [splitFirst?, if_neg h.1, ih h.2, Option.map_none]

theorem splitLast?_eq_none {l : List α} (h : ∀ x ∈ l, ¬p x) : splitLast? p l = none := by
  induction l with
  | nil => rfl
  | cons y l ih =>
    rw [List.forall_mem_cons] at h
    simp only [splitLast?, ih h.2]
    exact if_neg h.1

theorem splitFirst?_append {a b : List α} {x : α} (ha : ∀ y ∈ a, ¬p y) (hx : p x) :
    splitFirst? p (a ++ x :: b) = some (a, x, b) := by
  induction a with
  | nil => rw [List.nil_append, splitFirst?, if_pos hx]
  | cons y a ih =>
    rw [List.forall_mem_cons] at ha
    rw [List.cons_append, splitFirst?, if_neg ha.1, ih ha.2, Option.map_some]

theorem splitLast?_append {a b : List α} {x : α} (hx : p x) (hb : ∀ y ∈ b, ¬p y) :
    splitLast? p (a ++ x :: b) = some (a, x, b) := by
  induction a with
  | nil =>
    simp only [List.nil_append, splitLast?, splitLast?_eq_none hb]
    exact if_pos hx
  | cons y a ih => simp only [List.cons_append, splitLast?, ih]

/-- Where a sequence falls into two: at the comparison if there is one, otherwise at the last sum or difference,
otherwise at the last product, quotient or remainder, and otherwise at the first power. -/
def split? (rest : List Tail) : Option (List Tail × Tail × List Tail) :=
  splitFirst? (Tail.isOf comparisons) rest <|> splitLast? (Tail.isOf additives) rest <|>
    splitLast? (Tail.isOf multiplicatives) rest <|> splitFirst? (Tail.isOf powers) rest

theorem eq_of_split? {rest left right : List Tail} {t : Tail} (h : split? rest = some (left, t, right)) :
    rest = left ++ t :: right := by
  simp only [split?, Option.orElse_eq_orElse, Option.orElse_eq_or, Option.or_eq_some_iff] at h
  rcases h with h | ⟨-, h | ⟨-, h | ⟨-, h⟩⟩⟩
  · exact eq_of_splitFirst? h
  · exact eq_of_splitLast? h
  · exact eq_of_splitLast? h
  · exact eq_of_splitFirst? h

theorem length_of_split? {rest left right : List Tail} {t : Tail} (h : split? rest = some (left, t, right)) :
    left.length < rest.length ∧ right.length < rest.length := by
  rw [eq_of_split? h, List.length_append, List.length_cons]
  omega

/-- The tree of a sequence with one comparison at most. -/
def tree (first : Atom) (rest : List Tail) : Node :=
  match h : split? rest with
  | none => first.node
  | some (left, t, right) =>
    have := length_of_split? h
    let l := tree first left
    .binary l.loc t.operator.value l (tree t.atom right)
termination_by rest.length
decreasing_by
  · exact this.1
  · exact this.2

/-- What a sequence reads as: its tree, or the complaint about a second comparison. -/
def reading (first : Atom) (rest : List Tail) : Except SyntaxError Node :=
  match rest.filter (Tail.isOf comparisons) with
  | _ :: second :: _ => .error (.ofToken .chainedComparison second.operator)
  | _ => .ok (tree first rest)

theorem tree_of_split? {first : Atom} {rest left right : List Tail} {t : Tail}
    (h : split? rest = some (left, t, right)) :
    tree first rest =
      .binary (tree first left).loc t.operator.value (tree first left) (tree t.atom right) := by
  rw [tree]
  split
  next h' =>
    rw [h] at h'
    cases h'
  next h' =>
    rw [h] at h'
    cases h'
    rfl

theorem tree_nil (first : Atom) : tree first [] = first.node := by
  rw [tree]
  rfl

/-- All operators are of these kinds. -/
def Within (kinds : List TokenKind) (rest : List Tail) : Prop := ∀ t ∈ rest, t.isOf kinds

theorem Within.mono {kinds kinds' : List TokenKind} {rest : List Tail} (h : Within kinds rest)
    (hsub : kinds ⊆ kinds') : Within kinds' rest := by
  intro t ht
  have := h t ht
  rw [Tail.isOf, decide_eq_true_eq] at this ⊢
  exact hsub this

theorem within_append {kinds : List TokenKind} {a b : List Tail} :
    Within kinds (a ++ b) ↔ Within kinds a ∧ Within kinds b :=
  List.forall_mem_append

theorem within_cons {kinds : List TokenKind} {t : Tail} {rest : List Tail} :
    Within kinds (t :: rest) ↔ t.isOf kinds ∧ Within kinds rest :=
  List.forall_mem_cons

/-- Kinds that are none of others. -/
theorem Within.not_isOf {kinds kinds' : List TokenKind} {rest : List Tail} (h : Within kinds rest)
    (hne : ∀ k ∈ kinds, k ∉ kinds') : ∀ t ∈ rest, ¬t.isOf kinds' := by
  intro t ht
  have := h t ht
  rw [Tail.isOf, decide_eq_true_eq] at this ⊢
  exact hne _ this

theorem not_isOf {kinds kinds' : List TokenKind} {t : Tail} (h : t.isOf kinds)
    (hne : ∀ k ∈ kinds, k ∉ kinds') : ¬t.isOf kinds' := by
  rw [Tail.isOf, decide_eq_true_eq] at h ⊢
  exact hne _ h

/-! The tree at each operator, where nothing that is looser stands beside it. -/

variable {first : Atom} {left right : List Tail} {t : Tail}

/-- Powers group to the right. -/
theorem tree_power (ht : t.isOf powers) (hr : Within powers right) :
    tree first (t :: right) =
      .binary first.node.loc t.operator.value first.node (tree t.atom right) := by
  have hall : Within powers (t :: right) := within_cons.mpr ⟨ht, hr⟩
  have hs : split? (t :: right) = some ([], t, right) := by
    rw [split?, splitFirst?_eq_none (hall.not_isOf (by decide)),
      splitLast?_eq_none (hall.not_isOf (by decide)), splitLast?_eq_none (hall.not_isOf (by decide))]
    exact splitFirst?_append (a := []) (List.forall_mem_nil _) ht
  rw [tree_of_split? hs, tree_nil]

theorem tree_product (hl : Within products left)
    (ht : t.isOf multiplicatives) (hr : Within powers right) :
    tree first (left ++ t :: right) =
      .binary (tree first left).loc t.operator.value (tree first left) (tree t.atom right) := by
  have hall : Within products (left ++ t :: right) :=
    within_append.mpr ⟨hl, within_cons.mpr
      ⟨(show Within _ [t] from List.forall_mem_singleton.mpr ht).mono (by decide) t (List.mem_singleton_self t),
        hr.mono (by decide)⟩⟩
  refine tree_of_split? ?_
  rw [split?, splitFirst?_eq_none (hall.not_isOf (by decide)),
    splitLast?_eq_none (hall.not_isOf (by decide)), splitLast?_append ht (hr.not_isOf (by decide))]
  rfl

theorem tree_sum (hl : Within sums left)
    (ht : t.isOf additives) (hr : Within products right) :
    tree first (left ++ t :: right) =
      .binary (tree first left).loc t.operator.value (tree first left) (tree t.atom right) := by
  refine tree_of_split? ?_
  have hnone : ∀ x ∈ left ++ t :: right, ¬x.isOf comparisons :=
    List.forall_mem_append.mpr ⟨hl.not_isOf (by decide), List.forall_mem_cons.mpr
      ⟨not_isOf ht (by decide), hr.not_isOf (by decide)⟩⟩
  rw [split?, splitFirst?_eq_none hnone, splitLast?_append ht (hr.not_isOf (by decide))]
  rfl

theorem tree_comparison (hl : Within sums left)
    (ht : t.isOf comparisons) :
    tree first (left ++ t :: right) =
      .binary (tree first left).loc t.operator.value (tree first left) (tree t.atom right) := by
  refine tree_of_split? ?_
  rw [split?, splitFirst?_append (hl.not_isOf (by decide)) ht]
  rfl

end Ladder

end MagSyntax
