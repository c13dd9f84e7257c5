import MagSyntax.Proofs.Flat

/-! Where the parentheses of a tree stand. What a tree without blocks is written as has its brackets paired and
commas between brackets only. So each pair of parentheses can stand around one part only, and the tree is told from
its lexemes and from what it is without its parentheses. -/

namespace MagSyntax

open Lexeme

namespace Lexeme

/-- How deep in brackets the next lexeme stands, if this one can stand where it does. Outside of all brackets a
comma can stand between items only. -/
def nest (items : Bool) (depth : Nat) (l : Lexeme) : Option Nat :=
  match l.kind with
  | .symbol .lparen | .symbol .lbrack => some (depth + 1)
  | .symbol .rparen | .symbol .rbrack => if depth = 0 then none else some (depth - 1)
  | .symbol .comma => if items || 0 < depth then some depth else none
  | _ => some depth

/-- How deep in brackets lexemes end that start at a depth. -/
def nesting (items : Bool) (depth : Nat) (ls : List Lexeme) : Option Nat := ls.foldlM (nest items) depth

/-- The brackets among the lexemes are paired, and no comma stands outside of them. -/
def AreItem (ls : List Lexeme) : Prop := nesting false 0 ls = some 0

/-- The brackets among the lexemes are paired. -/
def AreItems (ls : List Lexeme) : Prop := nesting true 0 ls = some 0

variable {l : Lexeme} {a b x y : List Lexeme} {items : Bool} {depth : Nat}

@[simp] theorem nesting_nil (items : Bool) (depth : Nat) : nesting items depth [] = some depth := rfl

@[simp] theorem nesting_cons (items : Bool) (depth : Nat) (l : Lexeme) (ls : List Lexeme) :
    nesting items depth (l :: ls) = (nest items depth l).bind (nesting items · ls) := rfl

@[simp] theorem nesting_append (items : Bool) (depth : Nat) (a b : List Lexeme) :
    nesting items depth (a ++ b) = (nesting items depth a).bind (nesting items · b) := List.foldlM_append

theorem nest_succ {depth' : Nat} (h : nest true depth l = some depth') (items : Bool) :
    nest items (depth + 1) l = some (depth' + 1) := by
  unfold nest at h ⊢
  split at h <;> simp_all <;> omega

/-- What is in order at some depth is so between one bracket more, where commas may stand. -/
theorem nesting_succ {ls : List Lexeme} {depth' : Nat} (h : nesting true depth ls = some depth') (items : Bool) :
    nesting items (depth + 1) ls = some (depth' + 1) := by
  induction ls generalizing depth with
  | nil =>
    cases h
    rfl
  | cons l ls ih =>
    obtain ⟨d, hd, h⟩ := Option.bind_eq_some_iff.mp h
    rw [nesting_cons, nest_succ hd]
    exact ih h

theorem nest_items {depth' : Nat} (h : nest items depth l = some depth') : nest true depth l = some depth' := by
  unfold nest at h ⊢
  split at h <;> simp_all

theorem nesting_items {ls : List Lexeme} {depth' : Nat} (h : nesting items depth ls = some depth') :
    nesting true depth ls = some depth' := by
  induction ls generalizing depth with
  | nil => exact h
  | cons l ls ih =>
    obtain ⟨d, hd, h⟩ := Option.bind_eq_some_iff.mp h
    rw [nesting_cons, nest_items hd]
    exact ih h

theorem AreItem.areItems (h : AreItem a) : AreItems a := nesting_items h

theorem AreItem.append (ha : AreItem a) (hb : AreItem b) : AreItem (a ++ b) := by
  rw [AreItem, nesting_append, ha]
  exact hb

theorem AreItem.of_append (ha : AreItem a) (h : AreItem (a ++ b)) : AreItem b := by
  rw [AreItem, nesting_append, ha] at h
  exact h

theorem AreItems.append (ha : AreItems a) (hb : AreItems b) : AreItems (a ++ b) := by
  rw [AreItems, nesting_append, ha]
  exact hb

/-- The lexeme is neither a bracket nor a comma. -/
def isInItem (l : Lexeme) : Bool :=
  l.kind ∉ [TokenKind.symbol .lparen, Symbol.lbrack, Symbol.rparen, Symbol.rbrack, Symbol.comma]

theorem nest_of_isInItem (h : l.isInItem) (items : Bool) (depth : Nat) : nest items depth l = some depth := by
  simp only [isInItem, List.mem_cons, List.not_mem_nil, or_false, not_or, decide_eq_true_eq] at h
  unfold nest
  split <;> simp_all

theorem AreItem.cons (h : l.isInItem) (ha : AreItem a) : AreItem (l :: a) := by
  rw [AreItem, nesting_cons, nest_of_isInItem h]
  exact ha

theorem areItem_nil : AreItem [] := rfl

theorem areItem_singleton (h : l.isInItem) : AreItem [l] := areItem_nil.cons h

theorem AreItems.parentheses (h : AreItems a) : AreItem (.ofSymbol .lparen :: a ++ [.ofSymbol .rparen]) := by
  rw [AreItem, List.cons_append, nesting_cons]
  simp only [nest, ofSymbol, Option.bind_some, nesting_append, nesting_succ h]
  rfl

theorem AreItems.brackets (h : AreItems a) : AreItem (.ofSymbol .lbrack :: a ++ [.ofSymbol .rbrack]) := by
  rw [AreItem, List.cons_append, nesting_cons]
  simp only [nest, ofSymbol, Option.bind_some, nesting_append, nesting_succ h]
  rfl

theorem NamesField.isInItem {word : Lexeme} (h : word.NamesField) : word.isInItem := by
  have hs := h.kind_ne_symbol
  simp [Lexeme.isInItem, hs]

/-- An item that another one goes on with ends there, if nothing is added to it but parentheses and commas and a
parenthesis is not the first that is. -/
theorem AreItem.eq_nil_of_append (ha : AreItem a) (hab : AreItem (a ++ b)) (hm : marks (a ++ b) = marks a)
    (hb : ∀ l ∈ b.head?, l.kind ≠ Symbol.lparen) : b = [] := by
  cases b with
  | nil => rfl
  | cons l b =>
    rw [AreItem, nesting_append, ha, Option.bind_some, nesting_cons] at hab
    obtain ⟨d, hd, -⟩ := Option.bind_eq_some_iff.mp hab
    have hl : l.mark? = none := by
      rw [marks_append, List.append_right_eq_self, marks_cons, List.append_eq_nil_iff] at hm
      exact Option.toList_eq_nil_iff.mp hm.1
    have hk := hb l rfl
    unfold mark? at hl
    split at hl
    next h =>
      simp only [List.mem_cons, hk, List.not_mem_nil, or_false, false_or] at h
      rcases h with h | h <;> simp [nest, h] at hd
    next => cases hl

/-- Two items before what starts with no parenthesis end at the same place, if they are the same but for
parentheses and commas. -/
theorem AreItem.append_inj (ha : AreItem a) (hb : AreItem b) (hm : marks a = marks b)
    (hx : ∀ l ∈ x.head?, l.kind ≠ Symbol.lparen) (hy : ∀ l ∈ y.head?, l.kind ≠ Symbol.lparen)
    (h : a ++ x = b ++ y) : a = b ∧ x = y := by
  have hhead {d y : List Lexeme} (h : ∀ l ∈ (d ++ y).head?, l.kind ≠ Symbol.lparen) :
      ∀ l ∈ d.head?, l.kind ≠ Symbol.lparen := by
    cases d with
    | nil => simp
    | cons => exact h
  rcases List.append_eq_append_iff.mp h with ⟨d, rfl, rfl⟩ | ⟨d, rfl, rfl⟩
  · obtain rfl := ha.eq_nil_of_append hb hm.symm (hhead hx)
    simp
  · obtain rfl := hb.eq_nil_of_append ha hm (hhead hy)
    simp

/-- Behind an opening parenthesis no item ends before the parenthesis is closed. -/
theorem AreItems.eq_nil_of_prefix (ha : AreItems a) (hb : AreItem b) (hne : b ≠ [])
    (h : .ofSymbol .lparen :: a ++ [.ofSymbol .rparen] = b ++ x) : x = [] := by
  cases b with
  | nil => exact absurd rfl hne
  | cons l b =>
    rcases List.eq_nil_or_concat x with hx | ⟨y, last, rfl⟩
    · exact hx
    rw [List.concat_eq_append, ← List.append_assoc] at h
    obtain ⟨rfl, -⟩ := List.append_inj' (List.cons.inj h).2 rfl
    obtain rfl := (List.cons.inj h).1
    -- the item is the opening parenthesis and a part of what stands behind it
    obtain ⟨depth, hdepth, -⟩ := Option.bind_eq_some_iff.mp ((nesting_append true 0 b y).symm.trans ha)
    rw [AreItem, nesting_cons] at hb
    simp only [nest, ofSymbol, Option.bind_some, nesting_succ hdepth] at hb
    cases hb

/-- Items before a list in parentheses end at the same place, since the last parenthesis closes one only. -/
theorem AreItem.append_parentheses_inj (ha : AreItem a) (hb : AreItem b) (hx : AreItems x) (hy : AreItems y)
    (h : a ++ (.ofSymbol .lparen :: x ++ [.ofSymbol .rparen]) =
      b ++ (.ofSymbol .lparen :: y ++ [.ofSymbol .rparen])) : a = b ∧ x = y := by
  have hends {a d x y : List Lexeme} (ha : AreItem a) (hd : AreItem (a ++ d)) (hx : AreItems x)
      (h : .ofSymbol .lparen :: x ++ [.ofSymbol .rparen] =
        d ++ (.ofSymbol .lparen :: y ++ [.ofSymbol .rparen])) : d = [] := by
    cases d with
    | nil => rfl
    | cons l d => exact absurd (hx.eq_nil_of_prefix (ha.of_append hd) (List.cons_ne_nil l d) h) (by simp)
  rcases List.append_eq_append_iff.mp h with ⟨d, rfl, hrest⟩ | ⟨d, rfl, hrest⟩
  · obtain rfl := hends ha hb hx hrest
    exact ⟨(List.append_nil a).symm, (List.append_inj' (List.cons.inj hrest).2 rfl).1⟩
  · obtain rfl := hends hb ha hy hrest
    exact ⟨List.append_nil b, (List.append_inj' (List.cons.inj hrest).2 rfl).1.symm⟩

end Lexeme

namespace Node

theorem isInItem_ofOperator {operator : Text} {level : Level} (ho : Level.ofOperator operator = .ok level) :
    (ofOperator operator).isInItem := by
  obtain ⟨s, rfl, -⟩ := Level.symbol_of_ofOperator ho
  rw [ofOperator_spelling]
  cases s <;> first | rfl | cases ho

variable {bare : Node → Prop} {ls : List Lexeme}

theorem areItem_conditionWords {consequent : Node} (h : consequent.isBlock = false) (explicitThen : Bool)
    {a : List Lexeme} (ha : AreItem a) : AreItem (conditionWords consequent explicitThen a) := by
  rw [conditionWords, h]
  refine AreItem.cons rfl ?_
  cases explicitThen with
  | true => exact ha.append (areItem_singleton rfl)
  | false => exact ha.areItems.parentheses

mutual

/-- What a tree is written as has its brackets paired and no comma outside of them. -/
theorem areItem_of_writtenAs (n : Node) (h : n.IsFlat) {ls : List Lexeme} (hw : n.WrittenAs bare ls) :
    AreItem ls := by
  cases n with
  | identifier | numeric | string | regex =>
    cases hw
    exact areItem_singleton rfl
  | boolean loc value =>
    cases hw
    cases value <;> exact areItem_singleton rfl
  | parenthesized loc e =>
    obtain ⟨a, ha, rfl⟩ := hw
    exact (areItem_of_writtenAs e h ha).areItems.parentheses
  | array loc elements =>
    obtain ⟨a, ha, rfl⟩ := hw
    exact (areItems_of_listWrittenAs elements h ha).brackets
  | arrayPattern loc elements =>
    obtain ⟨a, ha, rfl⟩ := hw
    exact (areItems_of_listWrittenAs elements h ha).brackets
  | field loc object name =>
    obtain ⟨a, word, ha, hword, -, rfl⟩ := hw
    exact (areItem_of_writtenAs object h.1 ha).append
      (.cons rfl (areItem_singleton hword.isInItem))
  | index loc object i =>
    obtain ⟨a, b, ha, hb, rfl⟩ := hw
    rw [List.append_assoc]
    exact (areItem_of_writtenAs object h.1 ha).append (areItem_of_writtenAs i h.2 hb).areItems.brackets
  | call loc callee arguments =>
    obtain ⟨a, b, ha, hb, rfl⟩ := hw
    rw [List.append_assoc]
    exact (areItem_of_writtenAs callee h.1 ha).append (areItems_of_listWrittenAs arguments h.2 hb).parentheses
  | unary loc operator argument leading =>
    obtain ⟨a, ha, rfl⟩ := hw
    rw [h.1]
    exact (areItem_of_writtenAs argument h.2 ha).cons rfl
  | binary loc operator left right =>
    obtain ⟨⟨level, ho⟩, hl, hr⟩ := h
    obtain ⟨a, b, ha, hb, rfl⟩ := hw
    exact (areItem_of_writtenAs left hl ha).append
      ((areItem_of_writtenAs right hr hb).cons (isInItem_ofOperator ho))
  | assignment loc left right operator =>
    obtain ⟨a, b, ha, hb, rfl⟩ := hw
    rw [h.1]
    exact (areItem_of_writtenAs left h.2.1 ha).append ((areItem_of_writtenAs right h.2.2 hb).cons rfl)
  | conditional loc condition consequent alternate explicitThen =>
    obtain ⟨a, b, d, ha, hb, hd, rfl⟩ := hw
    have hcondition := areItem_conditionWords h.2.1.isBlock explicitThen
      (areItem_of_writtenAs condition h.1 ha)
    exact (hcondition.append (areItem_of_writtenAs consequent h.2.1 hb)).append
      ((areItem_of_writtenAs alternate h.2.2 hd).cons rfl)
  | _ => cases h

theorem areItems_of_listWrittenAs (l : List Node) (h : AllFlat l) {ls : List Lexeme}
    (hw : ListWrittenAs bare l ls) : AreItems ls := by
  cases l with
  | nil =>
    cases hw
    rfl
  | cons n rest =>
    obtain ⟨a, b, ha, hb, rfl⟩ := hw
    exact (areItem_of_writtenAs n h.1 ha).areItems.append (areItems_of_restWrittenAs rest h.2 hb)

theorem areItems_of_restWrittenAs (l : List Node) (h : AllFlat l) {ls : List Lexeme}
    (hw : RestWrittenAs bare l ls) : AreItems ls := by
  cases l with
  | nil => rcases hw with rfl | rfl <;> rfl
  | cons n rest =>
    obtain ⟨a, b, ha, hb, rfl⟩ := hw
    have hitem : AreItems [ofSymbol .comma] := rfl
    exact hitem.append ((areItem_of_writtenAs n h.1 ha).areItems.append (areItems_of_restWrittenAs rest h.2 hb))

end

theorem IsFlat.ne_nil {n : Node} (h : n.IsFlat) (hw : n.WrittenAs bare ls) : ls ≠ [] := by
  cases n with
  | identifier | numeric | string | boolean | regex =>
    cases hw
    exact List.cons_ne_nil _ _
  | parenthesized | array | arrayPattern | unary =>
    obtain ⟨a, -, rfl⟩ := hw
    exact List.cons_ne_nil _ _
  | field =>
    obtain ⟨a, word, -, -, -, rfl⟩ := hw
    simp
  | conditional =>
    obtain ⟨a, b, d, -, -, -, rfl⟩ := hw
    simp
  | index | call | binary | assignment =>
    obtain ⟨a, b, -, -, rfl⟩ := hw
    simp
  | _ => cases h

/-- Only a tree in parentheses is written as something in parentheses. -/
theorem ne_parentheses {n : Node} (h : n.IsFlat) (hp : n.isParenthesized = false) (hw : n.WrittenAs bare ls)
    {a : List Lexeme} (ha : AreItems a) : .ofSymbol .lparen :: a ++ [.ofSymbol .rparen] ≠ ls := by
  -- an operand at the front would end before the parenthesis is closed
  have hfront {m : Node} {b x : List Lexeme} (hm : m.IsFlat) (hb : m.WrittenAs bare b) (hx : x ≠ []) :
      .ofSymbol .lparen :: a ++ [.ofSymbol .rparen] ≠ b ++ x := fun heq =>
    hx (ha.eq_nil_of_prefix (areItem_of_writtenAs m hm hb) (hm.ne_nil hb) heq)
  cases n with
  | identifier | numeric | string | boolean | regex =>
    cases hw
    simp
  | parenthesized => cases hp
  | array | arrayPattern =>
    obtain ⟨b, -, rfl⟩ := hw
    exact fun heq => absurd (List.cons.inj heq).1 (by decide)
  | unary loc operator argument leading =>
    obtain ⟨b, -, rfl⟩ := hw
    rw [h.1]
    exact fun heq => absurd (List.cons.inj heq).1 (by decide)
  | conditional =>
    obtain ⟨b, d, e, -, -, -, rfl⟩ := hw
    exact fun heq => absurd (List.cons.inj heq).1 (by decide)
  | field loc object name =>
    obtain ⟨b, word, hb, -, -, rfl⟩ := hw
    exact hfront h.1 hb (List.cons_ne_nil _ _)
  | index loc object i =>
    obtain ⟨b, d, hb, -, rfl⟩ := hw
    rw [List.append_assoc]
    exact hfront h.1 hb (List.cons_ne_nil _ _)
  | call loc callee arguments =>
    obtain ⟨b, d, hb, -, rfl⟩ := hw
    rw [List.append_assoc]
    exact hfront h.1 hb (List.cons_ne_nil _ _)
  | binary loc operator left right =>
    obtain ⟨b, d, hb, -, rfl⟩ := hw
    exact hfront h.2.1 hb (List.cons_ne_nil _ _)
  | assignment loc left right operator =>
    obtain ⟨b, d, hb, -, rfl⟩ := hw
    exact hfront h.2.1 hb (List.cons_ne_nil _ _)
  | _ => cases h

/-- Trees that are written alike are both in parentheses or neither is. -/
theorem isParenthesized_eq {n m : Node} (hn : n.IsFlat) (hm : m.IsFlat) (hw : n.WrittenAs bare ls)
    (hw' : m.WrittenAs bare ls) : n.isParenthesized = m.isParenthesized := by
  cases hpn : n.isParenthesized with
  | true =>
    cases hpm : m.isParenthesized with
    | true => rfl
    | false =>
      cases n with
      | parenthesized loc e =>
        obtain ⟨a, ha, heq⟩ := hw
        exact absurd heq.symm (ne_parentheses hm hpm hw' (areItem_of_writtenAs e hn ha).areItems)
      | _ => cases hpn
  | false =>
    cases hpm : m.isParenthesized with
    | true =>
      cases m with
      | parenthesized loc e =>
        obtain ⟨a, ha, heq⟩ := hw'
        exact absurd heq.symm (ne_parentheses hn hpn hw (areItem_of_writtenAs e hm ha).areItems)
      | _ => cases hpm
    | false => rfl

/-- Two trees that are the same without their parentheses end at the same place before what starts with no
parenthesis. -/
theorem written_append_inj {n m : Node} (hn : n.IsFlat) (hm : m.IsFlat)
    (hu : n.unwrapped.unplaced = m.unwrapped.unplaced) {a b x y : List Lexeme} (ha : n.WrittenAs bare a)
    (hb : m.WrittenAs bare b) (hx : ∀ l ∈ x.head?, l.kind ≠ Symbol.lparen)
    (hy : ∀ l ∈ y.head?, l.kind ≠ Symbol.lparen) (h : a ++ x = b ++ y) : a = b ∧ x = y := by
  have hmarks : marks a = marks b := by
    rw [marks_of_writtenAs n hn ha, hu, marks_of_writtenAs m hm hb]
  exact (areItem_of_writtenAs n hn ha).append_inj (areItem_of_writtenAs m hm hb) hmarks hx hy h

theorem head?_ofOperator {operator : Text} (h : ∃ level, Level.ofOperator operator = .ok level) (x : List Lexeme) :
    ∀ l ∈ (ofOperator operator :: x).head?, l.kind ≠ Symbol.lparen := by
  obtain ⟨level, ho⟩ := h
  have hin := isInItem_ofOperator ho
  simp only [isInItem, List.mem_cons, not_or, decide_eq_true_eq] at hin
  simpa using hin.1

theorem head?_rest {rest : List Node} {x : List Lexeme} (h : RestWrittenAs bare rest x) :
    ∀ l ∈ x.head?, l.kind ≠ Symbol.lparen := by
  cases rest with
  | nil => rcases h with rfl | rfl <;> simp [ofSymbol]
  | cons n rest =>
    obtain ⟨a, b, -, -, rfl⟩ := h
    simp [ofSymbol]

/-- The conditions of two `if`s without blocks end at the same place. -/
theorem conditionWords_append_inj {n m q q' : Node} (hn : n.IsFlat) (hm : m.IsFlat)
    (hu : n.unwrapped.unplaced = m.unwrapped.unplaced) (hq : q.isBlock = false) (hq' : q'.isBlock = false)
    {explicitThen : Bool} {a b x y : List Lexeme} (ha : n.WrittenAs bare a) (hb : m.WrittenAs bare b)
    (h : conditionWords q explicitThen a ++ x = conditionWords q' explicitThen b ++ y) : a = b ∧ x = y := by
  cases explicitThen with
  | true =>
    simp only [conditionWords, hq, hq', Bool.false_eq_true, if_false, if_true, List.cons_append,
      List.append_assoc, List.nil_append] at h
    obtain ⟨rfl, hrest⟩ := written_append_inj hn hm hu ha hb (by simp [ofKeyword]) (by simp [ofKeyword])
      (List.cons.inj h).2
    exact ⟨rfl, (List.cons.inj hrest).2⟩
  | false =>
    simp only [conditionWords, hq, hq', Bool.false_eq_true, if_false, List.cons_append,
      List.append_assoc, List.nil_append] at h
    obtain ⟨rfl, hrest⟩ := written_append_inj hn hm hu ha hb (by simp [ofSymbol]) (by simp [ofSymbol])
      (List.cons.inj (List.cons.inj h).2).2
    exact ⟨rfl, (List.cons.inj hrest).2⟩

mutual

/-- A tree without blocks is told from its lexemes and from what it is without its parentheses. -/
theorem unplaced_eq_of_writtenAs (n m : Node) (hn : n.IsFlat) (hm : m.IsFlat)
    (hu : n.unwrapped.unplaced = m.unwrapped.unplaced) {ls : List Lexeme} (hw : n.WrittenAs bare ls)
    (hw' : m.WrittenAs bare ls) : n.unplaced = m.unplaced := by
  have hp := isParenthesized_eq hn hm hw hw'
  cases n with
  | identifier | numeric | string | boolean | regex =>
    cases m with
    | identifier | numeric | string | boolean | regex => exact hu
    | _ => first | cases hu | cases hp
  | parenthesized loc e =>
    cases m with
    | parenthesized loc' e' =>
      obtain ⟨a, ha, rfl⟩ := hw
      obtain ⟨b, hb, heq⟩ := hw'
      obtain ⟨rfl, -⟩ := List.append_inj' (List.cons.inj heq).2 rfl
      simp only [unplaced, unplaced_eq_of_writtenAs e e' hn hm hu ha hb]
    | _ => cases hp
  | array loc elements =>
    cases m with
    | array loc' elements' =>
      simp only [unwrapped, unplaced, array.injEq, true_and] at hu ⊢
      obtain ⟨a, ha, rfl⟩ := hw
      obtain ⟨b, hb, heq⟩ := hw'
      obtain ⟨rfl, -⟩ := List.append_inj' (List.cons.inj heq).2 rfl
      exact allUnplaced_eq_of_listWrittenAs elements elements' hn hm hu ha hb
    | _ => first | cases hu | cases hp
  | arrayPattern loc elements =>
    cases m with
    | arrayPattern loc' elements' =>
      simp only [unwrapped, unplaced, arrayPattern.injEq, true_and] at hu ⊢
      obtain ⟨a, ha, rfl⟩ := hw
      obtain ⟨b, hb, heq⟩ := hw'
      obtain ⟨rfl, -⟩ := List.append_inj' (List.cons.inj heq).2 rfl
      exact allUnplaced_eq_of_listWrittenAs elements elements' hn hm hu ha hb
    | _ => first | cases hu | cases hp
  | field loc object name =>
    cases m with
    | field loc' object' name' =>
      simp only [unwrapped, unplaced, field.injEq, true_and] at hu ⊢
      obtain ⟨a, word, ha, -, -, rfl⟩ := hw
      obtain ⟨b, word', hb, -, -, heq⟩ := hw'
      obtain ⟨rfl, -⟩ := written_append_inj hn.1 hm.1 hu.1 ha hb (by simp [ofSymbol]) (by simp [ofSymbol]) heq
      refine ⟨unplaced_eq_of_writtenAs object object' hn.1 hm.1 hu.1 ha hb, ?_⟩
      cases name with
      | identifier =>
        cases name' with
        | identifier => exact hu.2
        | _ => cases hm.2
      | _ => cases hn.2
    | _ => first | cases hu | cases hp
  | index loc object i =>
    cases m with
    | index loc' object' i' =>
      simp only [unwrapped, unplaced, index.injEq, true_and] at hu ⊢
      obtain ⟨a, b, ha, hb, rfl⟩ := hw
      obtain ⟨a', b', ha', hb', heq⟩ := hw'
      rw [List.append_assoc, List.append_assoc] at heq
      obtain ⟨rfl, hrest⟩ := written_append_inj hn.1 hm.1 hu.1 ha ha' (by simp [ofSymbol]) (by simp [ofSymbol]) heq
      obtain ⟨rfl, -⟩ := List.append_inj' (List.cons.inj hrest).2 rfl
      exact ⟨unplaced_eq_of_writtenAs object object' hn.1 hm.1 hu.1 ha ha',
        unplaced_eq_of_writtenAs i i' hn.2 hm.2 hu.2 hb hb'⟩
    | _ => first | cases hu | cases hp
  | call loc callee arguments =>
    cases m with
    | call loc' callee' arguments' =>
      simp only [unwrapped, unplaced, call.injEq, true_and] at hu ⊢
      obtain ⟨a, b, ha, hb, rfl⟩ := hw
      obtain ⟨a', b', ha', hb', heq⟩ := hw'
      rw [List.append_assoc, List.append_assoc] at heq
      obtain ⟨rfl, rfl⟩ := (areItem_of_writtenAs callee hn.1 ha).append_parentheses_inj
        (areItem_of_writtenAs callee' hm.1 ha') (areItems_of_listWrittenAs arguments hn.2 hb)
        (areItems_of_listWrittenAs arguments' hm.2 hb') heq
      exact ⟨unplaced_eq_of_writtenAs callee callee' hn.1 hm.1 hu.1 ha ha',
        allUnplaced_eq_of_listWrittenAs arguments arguments' hn.2 hm.2 hu.2 hb hb'⟩
    | _ => first | cases hu | cases hp
  | unary loc operator argument leading =>
    cases m with
    | unary loc' operator' argument' leading' =>
      simp only [unwrapped, unplaced, unary.injEq, true_and] at hu ⊢
      obtain ⟨a, ha, rfl⟩ := hw
      obtain ⟨b, hb, heq⟩ := hw'
      obtain rfl := (List.cons.inj heq).2
      exact ⟨hu.1, unplaced_eq_of_writtenAs argument argument' hn.2 hm.2 hu.2.1 ha hb, hu.2.2⟩
    | _ => first | cases hu | cases hp
  | binary loc operator left right =>
    cases m with
    | binary loc' operator' left' right' =>
      simp only [unwrapped, unplaced, binary.injEq, true_and] at hu ⊢
      obtain ⟨a, b, ha, hb, rfl⟩ := hw
      obtain ⟨a', b', ha', hb', heq⟩ := hw'
      obtain ⟨rfl, hrest⟩ := written_append_inj hn.2.1 hm.2.1 hu.2.1 ha ha' (head?_ofOperator hn.1 b)
        (head?_ofOperator hm.1 b') heq
      obtain rfl := (List.cons.inj hrest).2
      exact ⟨hu.1, unplaced_eq_of_writtenAs left left' hn.2.1 hm.2.1 hu.2.1 ha ha',
        unplaced_eq_of_writtenAs right right' hn.2.2 hm.2.2 hu.2.2 hb hb'⟩
    | _ => first | cases hu | cases hp
  | assignment loc left right operator =>
    cases m with
    | assignment loc' left' right' operator' =>
      obtain ⟨rfl, hnl, hnr⟩ := hn
      obtain ⟨rfl, hml, hmr⟩ := hm
      simp only [unwrapped, unplaced, assignment.injEq, true_and] at hu ⊢
      obtain ⟨a, b, ha, hb, rfl⟩ := hw
      obtain ⟨a', b', ha', hb', heq⟩ := hw'
      rw [ofOperator_spelling] at heq
      obtain ⟨rfl, hrest⟩ := written_append_inj hnl hml hu.1 ha ha' (by simp [ofSymbol]) (by simp [ofSymbol]) heq
      obtain rfl := (List.cons.inj hrest).2
      exact ⟨unplaced_eq_of_writtenAs left left' hnl hml hu.1 ha ha',
        unplaced_eq_of_writtenAs right right' hnr hmr hu.2.1 hb hb', trivial⟩
    | _ => first | cases hu | cases hp
  | conditional loc condition consequent alternate explicitThen =>
    cases m with
    | conditional loc' condition' consequent' alternate' explicitThen' =>
      simp only [unwrapped, unplaced, conditional.injEq, true_and] at hu ⊢
      obtain ⟨huc, huq, hua, rfl⟩ := hu
      obtain ⟨a, b, d, ha, hb, hd, rfl⟩ := hw
      obtain ⟨a', b', d', ha', hb', hd', heq⟩ := hw'
      rw [List.append_assoc, List.append_assoc] at heq
      obtain ⟨rfl, hrest⟩ := conditionWords_append_inj hn.1 hm.1 huc hn.2.1.isBlock hm.2.1.isBlock ha ha' heq
      obtain ⟨rfl, helse⟩ := written_append_inj hn.2.1 hm.2.1 huq hb hb' (by simp [ofKeyword]) (by simp [ofKeyword])
        hrest
      obtain rfl := (List.cons.inj helse).2
      exact ⟨unplaced_eq_of_writtenAs condition condition' hn.1 hm.1 huc ha ha',
        unplaced_eq_of_writtenAs consequent consequent' hn.2.1 hm.2.1 huq hb hb',
        unplaced_eq_of_writtenAs alternate alternate' hn.2.2 hm.2.2 hua hd hd', rfl⟩
    | _ => first | cases hu | cases hp
  | _ => cases hn

theorem allUnplaced_eq_of_listWrittenAs (l l' : List Node) (hn : AllFlat l) (hm : AllFlat l')
    (hu : allUnplaced (allUnwrapped l) = allUnplaced (allUnwrapped l')) {ls : List Lexeme}
    (hw : ListWrittenAs bare l ls) (hw' : ListWrittenAs bare l' ls) : allUnplaced l = allUnplaced l' := by
  cases l with
  | nil =>
    cases l' with
    | nil => rfl
    | cons => cases hu
  | cons n rest =>
    cases l' with
    | nil => cases hu
    | cons m rest' =>
      simp only [allUnwrapped, allUnplaced, List.cons.injEq] at hu ⊢
      obtain ⟨a, b, ha, hb, rfl⟩ := hw
      obtain ⟨a', b', ha', hb', heq⟩ := hw'
      obtain ⟨rfl, rfl⟩ := written_append_inj hn.1 hm.1 hu.1 ha ha' (head?_rest hb) (head?_rest hb') heq
      exact ⟨unplaced_eq_of_writtenAs n m hn.1 hm.1 hu.1 ha ha',
        allUnplaced_eq_of_restWrittenAs rest rest' hn.2 hm.2 hu.2 hb hb'⟩

theorem allUnplaced_eq_of_restWrittenAs (l l' : List Node) (hn : AllFlat l) (hm : AllFlat l')
    (hu : allUnplaced (allUnwrapped l) = allUnplaced (allUnwrapped l')) {ls : List Lexeme}
    (hw : RestWrittenAs bare l ls) (hw' : RestWrittenAs bare l' ls) : allUnplaced l = allUnplaced l' := by
  cases l with
  | nil =>
    cases l' with
    | nil => rfl
    | cons => cases hu
  | cons n rest =>
    cases l' with
    | nil => cases hu
    | cons m rest' =>
      simp only [allUnwrapped, allUnplaced, List.cons.injEq] at hu ⊢
      obtain ⟨a, b, ha, hb, rfl⟩ := hw
      obtain ⟨a', b', ha', hb', heq⟩ := hw'
      obtain ⟨rfl, rfl⟩ := written_append_inj hn.1 hm.1 hu.1 ha ha' (head?_rest hb) (head?_rest hb')
        (List.cons.inj heq).2
      exact ⟨unplaced_eq_of_writtenAs n m hn.1 hm.1 hu.1 ha ha',
        allUnplaced_eq_of_restWrittenAs rest rest' hn.2 hm.2 hu.2 hb hb'⟩

end

end Node

end MagSyntax
