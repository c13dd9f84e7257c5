import MagSyntax.Proofs.Tally
import MagSyntax.Proofs.Writing

/-! Taking apart what the tokens are a way to write: for each kind of node, where its parts stand and
which tokens stand between them. -/

namespace MagSyntax.Input

variable {input : Input} {bare : Node → Prop} {c stop : Nat} {loc : Loc}

theorem kind_of_shows_symbol {s : Symbol} {ls : List Lexeme}
    (h : input.Shows c (.ofSymbol s :: ls)) : (input.get c).kind = s :=
  kind_of_shows h

theorem kind_of_shows_keyword {w : Keyword} {ls : List Lexeme}
    (h : input.Shows c (.ofKeyword w :: ls)) : (input.get c).kind = w :=
  kind_of_shows h

/-- The tokens between two places are a part in brackets. -/
theorem shows_bracketed {s t : Symbol} {a : List Lexeme}
    (h : input.Shows c (.ofSymbol s :: a ++ [.ofSymbol t])) :
    (input.get c).kind = s ∧ input.Shows (c + 1) a ∧ (input.get (c + 1 + a.length)).kind = t := by
  obtain ⟨hs, ht⟩ := shows_append.mp h
  refine ⟨kind_of_shows_symbol hs, hs.2.2, ?_⟩
  rw [List.length_cons, Nat.add_comm a.length 1, ← Nat.add_assoc] at ht
  exact kind_of_shows_symbol ht

/-- The tokens between two places are two parts around one token. -/
theorem shows_around {l : Lexeme} {a b : List Lexeme} (h : input.Shows c (a ++ l :: b)) :
    input.Shows c a ∧ (input.get (c + a.length)).kind = l.kind ∧
      input.Shows (c + a.length + 1) b := by
  obtain ⟨ha, hb⟩ := shows_append.mp h
  exact ⟨ha, kind_of_shows hb, hb.2.2⟩

/-- A node that is one token long stands where the token does. -/
theorem Writes.of_token {n : Node} {l : Lexeme} (h : input.Writes bare c n stop)
    (hn : n.WrittenAs bare = fun ls => ls = [l]) : input.Shows c [l] ∧ stop = c + 1 := by
  obtain ⟨ls, hw, hs, rfl⟩ := h
  rw [hn] at hw
  cases hw
  exact ⟨hs, rfl⟩

theorem Writes.of_parenthesized {e : Node} (h : input.Writes bare c (.parenthesized loc e) stop) :
    ∃ d, (input.get c).kind = Symbol.lparen ∧ input.Writes bare (c + 1) e d ∧
      (input.get d).kind = Symbol.rparen ∧ stop = d + 1 := by
  obtain ⟨ls, ⟨a, ha, rfl⟩, hs, rfl⟩ := h
  obtain ⟨ho, hs, hc⟩ := shows_bracketed hs
  exact ⟨_, ho, ⟨a, ha, hs, rfl⟩, hc, by simp; omega⟩

theorem Writes.of_binary {s : Symbol} {left right : Node}
    (h : input.Writes bare c (.binary loc s.spelling left right) stop) :
    ∃ d, input.Writes bare c left d ∧ (input.get d).kind = s ∧
      input.Writes bare (d + 1) right stop := by
  obtain ⟨ls, ⟨a, b, ha, hb, rfl⟩, hs, rfl⟩ := h
  rw [Lexeme.ofOperator_spelling] at *
  obtain ⟨sa, hk, sb⟩ := shows_around hs
  exact ⟨_, ⟨a, ha, sa, rfl⟩, hk, ⟨b, hb, sb, by simp; omega⟩⟩

theorem Writes.of_assignment {left right : Node}
    (h : input.Writes bare c (.assignment loc left right Symbol.assign.spelling) stop) :
    ∃ d, input.Writes bare c left d ∧ (input.get d).kind = Symbol.assign ∧
      input.Writes bare (d + 1) right stop := by
  obtain ⟨ls, ⟨a, b, ha, hb, rfl⟩, hs, rfl⟩ := h
  rw [Lexeme.ofOperator_spelling] at *
  obtain ⟨sa, hk, sb⟩ := shows_around hs
  exact ⟨_, ⟨a, ha, sa, rfl⟩, hk, ⟨b, hb, sb, by simp; omega⟩⟩

theorem Writes.of_unary {argument : Node} {leading : Bool}
    (h : input.Writes bare c (.unary loc Symbol.sub.spelling argument leading) stop) :
    (input.get c).kind = Symbol.sub ∧ input.Writes bare (c + 1) argument stop := by
  obtain ⟨ls, ⟨a, ha, rfl⟩, hs, rfl⟩ := h
  rw [Lexeme.ofOperator_spelling] at *
  exact ⟨kind_of_shows_symbol hs, ⟨a, ha, hs.2.2, by simp; omega⟩⟩

theorem Writes.of_field {object name : Node}
    (h : input.Writes bare c (.field loc object name) stop) :
    ∃ d, input.Writes bare c object d ∧ (input.get d).kind = Symbol.dot ∧
      (input.get (d + 1)).essence.NamesField ∧ (input.get (d + 1)).value = name.nameText ∧
      stop = d + 2 := by
  obtain ⟨ls, ⟨a, word, ha, hw, hv, rfl⟩, hs, rfl⟩ := h
  obtain ⟨sa, hk, sb⟩ := shows_around hs
  refine ⟨_, ⟨a, ha, sa, rfl⟩, hk, ?_, ?_, by simp; omega⟩
  · rw [sb.1]
    exact hw
  · rw [value_of_shows sb]
    exact hv

theorem Writes.of_index {object i : Node} (h : input.Writes bare c (.index loc object i) stop) :
    ∃ d e, input.Writes bare c object d ∧ (input.get d).kind = Symbol.lbrack ∧
      input.Writes bare (d + 1) i e ∧ (input.get e).kind = Symbol.rbrack ∧ stop = e + 1 := by
  obtain ⟨ls, ⟨a, b, ha, hb, rfl⟩, hs, rfl⟩ := h
  rw [List.append_assoc] at hs
  obtain ⟨sa, hs⟩ := shows_append.mp hs
  obtain ⟨ho, sb, hc⟩ := shows_bracketed hs
  exact ⟨_, _, ⟨a, ha, sa, rfl⟩, ho, ⟨b, hb, sb, rfl⟩, hc, by simp; omega⟩

theorem Writes.of_call {callee : Node} {arguments : List Node}
    (h : input.Writes bare c (.call loc callee arguments) stop) :
    ∃ d e, input.Writes bare c callee d ∧ (input.get d).kind = Symbol.lparen ∧
      input.ListWrites bare (d + 1) arguments e ∧ (input.get e).kind = Symbol.rparen ∧
      stop = e + 1 := by
  obtain ⟨ls, ⟨a, b, ha, hb, rfl⟩, hs, rfl⟩ := h
  rw [List.append_assoc] at hs
  obtain ⟨sa, hs⟩ := shows_append.mp hs
  obtain ⟨ho, sb, hc⟩ := shows_bracketed hs
  exact ⟨_, _, ⟨a, ha, sa, rfl⟩, ho, ⟨b, hb, sb, rfl⟩, hc, by simp; omega⟩

theorem Writes.of_array {elements : List Node}
    (h : input.Writes bare c (.array loc elements) stop) :
    ∃ d, (input.get c).kind = Symbol.lbrack ∧ input.ListWrites bare (c + 1) elements d ∧
      (input.get d).kind = Symbol.rbrack ∧ stop = d + 1 := by
  obtain ⟨ls, ⟨a, ha, rfl⟩, hs, rfl⟩ := h
  obtain ⟨ho, hs, hc⟩ := shows_bracketed hs
  exact ⟨_, ho, ⟨a, ha, hs, rfl⟩, hc, by simp; omega⟩

theorem Writes.of_arrayPattern {elements : List Node}
    (h : input.Writes bare c (.arrayPattern loc elements) stop) :
    ∃ d, (input.get c).kind = Symbol.lbrack ∧ input.ListWrites bare (c + 1) elements d ∧
      (input.get d).kind = Symbol.rbrack ∧ stop = d + 1 :=
  Writes.of_array (show input.Writes bare c (.array loc elements) stop from h)

/-- A list has elements or not; behind an element stands a comma or nothing more of the list. -/
theorem ListWrites.cases {items : List Node} (h : input.ListWrites bare c items stop) :
    items = [] ∧ stop = c ∨ ∃ n rest d, items = n :: rest ∧ input.Writes bare c n d ∧
      (rest = [] ∧ stop = d ∨
        (input.get d).kind = Symbol.comma ∧ input.ListWrites bare (d + 1) rest stop) := by
  obtain ⟨ls, hl, hs, rfl⟩ := h
  cases items with
  | nil =>
    cases hl
    exact .inl ⟨rfl, rfl⟩
  | cons n rest =>
    obtain ⟨a, b, ha, hb, rfl⟩ := hl
    obtain ⟨sa, sb⟩ := shows_append.mp hs
    refine .inr ⟨n, rest, _, rfl, ⟨a, ha, sa, rfl⟩, ?_⟩
    cases rest with
    | nil =>
      rcases hb with rfl | rfl
      · exact .inl ⟨rfl, by simp⟩
      · exact .inr ⟨kind_of_shows_symbol sb, [], rfl, trivial, by simp; omega⟩
    | cons m rest =>
      obtain ⟨x, y, hx, hy, rfl⟩ := hb
      exact .inr ⟨kind_of_shows_symbol sb, x ++ y, ⟨x, y, hx, hy, rfl⟩, sb.2.2, by simp; omega⟩

theorem AllWrites.of_cons {n : Node} {rest : List Node}
    (h : input.AllWrites bare c (n :: rest) stop) :
    ∃ d, input.Writes bare c n d ∧ input.AllWrites bare d rest stop := by
  obtain ⟨ls, ⟨a, b, ha, hb, rfl⟩, hs, rfl⟩ := h
  obtain ⟨sa, sb⟩ := shows_append.mp hs
  exact ⟨_, ⟨a, ha, sa, rfl⟩, b, hb, sb, by simp; omega⟩

theorem AllWrites.of_nil (h : input.AllWrites bare c [] stop) : stop = c := by
  obtain ⟨ls, hl, -, rfl⟩ := h
  cases hl
  rfl

theorem Writes.of_block {body : List Node} (h : input.Writes bare c (.block loc body) stop) :
    ∃ d, (input.get c).kind = Symbol.lbrace ∧ input.AllWrites bare (c + 1) body d ∧
      (input.get d).kind = Symbol.rbrace ∧ stop = d + 1 := by
  obtain ⟨ls, ⟨a, ha, rfl⟩, hs, rfl⟩ := h
  obtain ⟨ho, hs, hc⟩ := shows_bracketed hs
  exact ⟨_, ho, ⟨a, ha, hs, rfl⟩, hc, by simp; omega⟩

theorem Writes.of_expressionStatement {e : Node}
    (h : input.Writes bare c (.expressionStatement loc e) stop) :
    ∃ d, input.Writes bare c e d ∧ (input.get d).kind = Symbol.semi ∧ stop = d + 1 := by
  obtain ⟨ls, ⟨a, ha, rfl⟩, hs, rfl⟩ := h
  obtain ⟨sa, hk, -⟩ := shows_around hs
  exact ⟨_, ⟨a, ha, sa, rfl⟩, hk, by simp; omega⟩

theorem MarkedWrites.of_none {mark : Lexeme} (h : input.MarkedWrites bare mark c .none stop) :
    stop = c := by
  obtain ⟨ls, hl, -, rfl⟩ := h
  cases hl
  rfl

theorem MarkedWrites.of_some {mark : Lexeme} {n : Node}
    (h : input.MarkedWrites bare mark c (some n) stop) :
    (input.get c).kind = mark.kind ∧ input.Writes bare (c + 1) n stop := by
  obtain ⟨ls, ⟨a, ha, rfl⟩, hs, rfl⟩ := h
  exact ⟨kind_of_shows hs, a, ha, hs.2.2, by simp; omega⟩

theorem MarkedWrites.after_of_some {mark : Lexeme} {n : Node}
    (h : input.MarkedWrites bare mark c (some n) stop) : input.after c = c + 1 := by
  obtain ⟨ls, ⟨a, ha, rfl⟩, hs, -⟩ := h
  exact after_of_shows hs

/-- An `if` between statements, when no condition is bare. -/
theorem Writes.of_conditionalStatement {condition consequent : Node} {alternate : Option Node}
    (h : input.Writes (fun _ => False) c
      (.conditionalStatement loc condition consequent alternate) stop) :
    ∃ d e, (input.get c).kind = Keyword.ifWord ∧ (input.get (c + 1)).kind = Symbol.lparen ∧
      input.Writes (fun _ => False) (c + 2) condition d ∧ (input.get d).kind = Symbol.rparen ∧
      input.Writes (fun _ => False) (d + 1) consequent e ∧
      input.MarkedWrites (fun _ => False) (.ofKeyword .elseWord) e alternate stop := by
  obtain ⟨ls, ⟨a, b, d, ha, hb, hd, hls⟩, hs, rfl⟩ := h
  obtain rfl := hls.resolve_right fun h => h.2.2.1
  obtain ⟨hs, sd⟩ := shows_append.mp hs
  obtain ⟨hs, hk, sb⟩ := shows_around hs
  have hlen : c + (Lexeme.ofKeyword .ifWord :: Lexeme.ofSymbol .lparen :: a).length =
      c + 2 + a.length := by
    simp only [List.length_cons]
    omega
  rw [hlen] at hk sb
  refine ⟨_, _, kind_of_shows_keyword hs, kind_of_shows_symbol hs.2.2, ⟨a, ha, hs.2.2.2.2, rfl⟩, hk,
    ⟨b, hb, sb, rfl⟩, ⟨d, hd, ?_, by simp; omega⟩⟩
  rw [List.length_append, ← Nat.add_assoc, hlen, List.length_cons, Nat.add_comm b.length 1,
    ← Nat.add_assoc] at sd
  exact sd

/-- An `if` with a value, behind the words around its condition. -/
theorem Writes.of_conditional {condition consequent alternate : Node} {explicitThen : Bool}
    (h : input.Writes bare c (.conditional loc condition consequent alternate explicitThen) stop) :
    ∃ d e, input.ConditionWrites bare c condition consequent explicitThen d ∧
      input.Writes bare d consequent e ∧ (input.get e).kind = Keyword.elseWord ∧
      input.Writes bare (e + 1) alternate stop := by
  obtain ⟨ls, ⟨a, b, d, ha, hb, hd, rfl⟩, hs, rfl⟩ := h
  rw [List.append_assoc] at hs
  obtain ⟨hs, sb⟩ := shows_append.mp hs
  obtain ⟨sb, hk, sd⟩ := shows_around sb
  exact ⟨_, _, ⟨a, ha, hs, rfl⟩, ⟨b, hb, sb, rfl⟩, hk, d, hd, sd, by simp; omega⟩

theorem ConditionWrites.of_parentheses {condition consequent : Node}
    (h : input.ConditionWrites bare c condition consequent false stop)
    (hb : consequent.isBlock = false) :
    ∃ d, (input.get c).kind = Keyword.ifWord ∧ (input.get (c + 1)).kind = Symbol.lparen ∧
      input.Writes bare (c + 2) condition d ∧ (input.get d).kind = Symbol.rparen ∧
      stop = d + 1 := by
  obtain ⟨a, ha, hs, rfl⟩ := h
  simp only [Node.conditionWords, hb, Bool.false_eq_true, if_false] at hs ⊢
  obtain ⟨ho, sa, hc⟩ := shows_bracketed hs.2.2
  exact ⟨_, kind_of_shows_keyword hs, ho, ⟨a, ha, sa, rfl⟩, hc, by simp; omega⟩

theorem ConditionWrites.of_word {condition consequent : Node}
    (h : input.ConditionWrites bare c condition consequent true stop)
    (hb : consequent.isBlock = false) :
    ∃ d, (input.get c).kind = Keyword.ifWord ∧ input.Writes bare (c + 1) condition d ∧
      (input.get d).kind = Keyword.thenWord ∧ stop = d + 1 := by
  obtain ⟨a, ha, hs, rfl⟩ := h
  simp only [Node.conditionWords, hb, Bool.false_eq_true, if_false, if_true] at hs ⊢
  obtain ⟨sa, hk, -⟩ := shows_around hs.2.2
  exact ⟨_, kind_of_shows_keyword hs, ⟨a, ha, sa, rfl⟩, hk, by simp; omega⟩

theorem ConditionWrites.of_block {condition consequent : Node} {explicitThen : Bool}
    (h : input.ConditionWrites bare c condition consequent explicitThen stop)
    (hb : consequent.isBlock) :
    (input.get c).kind = Keyword.ifWord ∧ input.Writes bare (c + 1) condition stop := by
  obtain ⟨a, ha, hs, rfl⟩ := h
  simp only [Node.conditionWords, hb, if_true] at hs ⊢
  exact ⟨kind_of_shows_keyword hs, a, ha, hs.2.2, by simp; omega⟩

theorem Writes.of_declaration {left : Node} {type right : Option Node} {constant mutable : Bool}
    (h : input.Writes bare c (.declaration loc left type right constant mutable) stop) :
    ∃ d e f, input.Shows c (Node.declarationWords constant mutable) ∧
      input.Writes bare (c + (Node.declarationWords constant mutable).length) left d ∧
      input.MarkedWrites bare (.ofSymbol .colon) d type e ∧
      input.MarkedWrites bare (.ofSymbol .assign) e right f ∧ (input.get f).kind = Symbol.semi ∧
      stop = f + 1 := by
  obtain ⟨ls, ⟨a, b, d, ha, hb, hd, rfl⟩, hs, rfl⟩ := h
  obtain ⟨hs, hk, -⟩ := shows_around hs
  obtain ⟨hs, sd⟩ := shows_append.mp hs
  obtain ⟨hs, sb⟩ := shows_append.mp hs
  obtain ⟨hs, sa⟩ := shows_append.mp hs
  simp only [List.length_append, ← Nat.add_assoc] at sb sd hk ⊢
  exact ⟨_, _, _, hs, ⟨a, ha, sa, rfl⟩, ⟨b, hb, sb, rfl⟩, ⟨d, hd, sd, rfl⟩, hk, by simp⟩

/-- Of two sequences of lexemes that stand at a token the shorter one starts the longer one. -/
theorem shows_prefix {a b : List Lexeme} (ha : input.Shows c a) (hb : input.Shows c b)
    (h : a.length ≤ b.length) : a <+: b := by
  induction a generalizing b c with
  | nil => exact List.nil_prefix
  | cons l a ih =>
    cases b with
    | nil => simp at h
    | cons m b =>
      obtain rfl : l = m := ha.1.symm.trans hb.1
      exact (List.cons_prefix_cons).mpr ⟨rfl, ih ha.2.2 hb.2.2 (by simpa using h)⟩

/-- What leaves the count of open `if`s as it is cannot go on with a token that no open `if` takes. -/
theorem not_shows_longer {a b : List Lexeme} (ha : Lexeme.Pass a) (hb : Lexeme.Pass b)
    (sa : input.Shows c a) (sb : input.Shows c b) (h : a.length < b.length)
    (hk : (Tally.settled 0 0).next (input.get (c + a.length)).kind = none) : False := by
  obtain ⟨rest, rfl⟩ := shows_prefix sa sb (Nat.le_of_lt h)
  cases rest with
  | nil => simp at h
  | cons l rest =>
    have hr := hb 0 0
    rw [Tally.run_append, ha] at hr
    rw [kind_of_shows (shows_append.mp sb).2] at hk
    simp [hk] at hr

/-- An expression with an `else` behind it and another one with a `then` or a block behind it do not
stand at the same token. -/
theorem not_both {a b : List Lexeme} (ha : Lexeme.Pass a) (hb : Lexeme.Pass b)
    (sa : input.Shows c a) (sb : input.Shows c b)
    (ea : (input.get (c + a.length)).kind = Keyword.elseWord)
    (eb : (input.get (c + b.length)).kind = Keyword.thenWord ∨
      (input.get (c + b.length)).kind = Symbol.lbrace) : False := by
  rcases Nat.lt_trichotomy a.length b.length with h | h | h
  · exact not_shows_longer ha hb sa sb h (by rw [ea]; rfl)
  · rw [h] at ea
    rcases eb with eb | eb <;> rw [ea] at eb <;> cases eb
  · refine not_shows_longer hb ha sb sa h ?_
    rcases eb with eb | eb <;> rw [eb] <;> rfl

end MagSyntax.Input
