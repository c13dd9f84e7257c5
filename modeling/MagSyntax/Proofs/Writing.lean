import MagSyntax.Proofs.Reading

/-! Composing what the tokens are a way to write: for each kind of node, from its parts and the tokens
between them. -/

namespace MagSyntax.Input

variable {input : Input} {bare : Node → Prop}

theorem Writes.le {c stop : Nat} {n : Node} (h : input.Writes bare c n stop) : c ≤ stop := by
  obtain ⟨ls, -, -, rfl⟩ := h
  omega

/-- A node that is one token long. -/
theorem Writes.token {c : Nat} {n : Node} (hk : (input.get c).kind ≠ .eof)
    (hw : n.WrittenAs bare [(input.get c).essence]) : input.Writes bare c n (c + 1) :=
  ⟨[(input.get c).essence], hw, ⟨rfl, hk, trivial⟩, rfl⟩

theorem Writes.parenthesized {loc : Loc} {c d : Nat} {e : Node}
    (hp : input.IsProper) (hopen : (input.get c).kind = Symbol.lparen)
    (he : input.Writes bare (c + 1) e d) (hclose : (input.get d).kind = Symbol.rparen) :
    input.Writes bare c (.parenthesized loc e) (d + 1) := by
  obtain ⟨a, ha, sa, rfl⟩ := he
  refine ⟨.ofSymbol .lparen :: a ++ [.ofSymbol .rparen], ⟨a, ha, rfl⟩, ?_, by simp; omega⟩
  exact hp.shows_symbol_cons hopen (shows_append.mpr ⟨sa, hp.shows_symbol hclose⟩)

theorem Writes.binary {loc : Loc} {c d stop : Nat} {left right : Node}
    {s : Symbol} (hp : input.IsProper) (hl : input.Writes bare c left d)
    (hk : (input.get d).kind = s) (hr : input.Writes bare (d + 1) right stop) :
    input.Writes bare c (.binary loc s.spelling left right) stop := by
  obtain ⟨a, ha, sa, rfl⟩ := hl
  obtain ⟨b, hb, sb, rfl⟩ := hr
  refine ⟨a ++ .ofSymbol s :: b, ⟨a, b, ha, hb, by rw [Lexeme.ofOperator_spelling]⟩, ?_,
    by simp; omega⟩
  exact shows_append.mpr ⟨sa, hp.shows_symbol_cons hk sb⟩

theorem Writes.assignment {loc : Loc} {c d stop : Nat} {left right : Node}
    (hp : input.IsProper) (hl : input.Writes bare c left d)
    (hk : (input.get d).kind = Symbol.assign) (hr : input.Writes bare (d + 1) right stop) :
    input.Writes bare c (.assignment loc left right "=") stop := by
  obtain ⟨a, ha, sa, rfl⟩ := hl
  obtain ⟨b, hb, sb, rfl⟩ := hr
  refine ⟨a ++ .ofSymbol .assign :: b, ⟨a, b, ha, hb, rfl⟩, ?_, by simp; omega⟩
  exact shows_append.mpr ⟨sa, hp.shows_symbol_cons hk sb⟩

theorem Writes.unary {loc : Loc} {c stop : Nat} {argument : Node}
    {leading : Bool} (hp : input.IsProper) (hk : (input.get c).kind = Symbol.sub)
    (ha : input.Writes bare (c + 1) argument stop) :
    input.Writes bare c (.unary loc "-" argument leading) stop := by
  obtain ⟨a, ha, sa, rfl⟩ := ha
  exact ⟨.ofSymbol .sub :: a, ⟨a, ha, rfl⟩, hp.shows_symbol_cons hk sa, by simp; omega⟩

theorem Writes.field {loc loc' : Loc} {c d : Nat} {object : Node}
    (hp : input.IsProper) (ho : input.Writes bare c object d)
    (hk : (input.get d).kind = Symbol.dot) (hw : (input.get (d + 1)).essence.NamesField) :
    input.Writes bare c (.field loc object (.identifier loc' (input.get (d + 1)).value))
      (d + 2) := by
  obtain ⟨a, ha, sa, rfl⟩ := ho
  refine ⟨a ++ [.ofSymbol .dot, (input.get (c + a.length + 1)).essence],
    ⟨a, _, ha, hw, rfl, rfl⟩, ?_, by simp; omega⟩
  exact shows_append.mpr ⟨sa, hp.shows_symbol_cons hk ⟨rfl, hw.1, trivial⟩⟩

theorem Writes.index {loc : Loc} {c d e : Nat} {object i : Node}
    (hp : input.IsProper) (ho : input.Writes bare c object d)
    (hopen : (input.get d).kind = Symbol.lbrack) (hi : input.Writes bare (d + 1) i e)
    (hclose : (input.get e).kind = Symbol.rbrack) :
    input.Writes bare c (.index loc object i) (e + 1) := by
  obtain ⟨a, ha, sa, rfl⟩ := ho
  obtain ⟨b, hb, sb, rfl⟩ := hi
  refine ⟨a ++ .ofSymbol .lbrack :: b ++ [.ofSymbol .rbrack], ⟨a, b, ha, hb, rfl⟩, ?_,
    by simp; omega⟩
  rw [List.append_assoc]
  exact shows_append.mpr ⟨sa, hp.shows_symbol_cons hopen
    (shows_append.mpr ⟨sb, hp.shows_symbol hclose⟩)⟩

/-- The tokens between two places are a way to write the trees with commas between them. -/
def ListWrites (input : Input) (bare : Node → Prop) (c : Nat) (items : List Node) (stop : Nat) :
    Prop :=
  ∃ ls, Node.ListWrittenAs bare items ls ∧ input.Shows c ls ∧ stop = c + ls.length

theorem ListWrites.nil {c : Nat} : input.ListWrites bare c [] c :=
  ⟨[], rfl, trivial, rfl⟩

theorem ListWrites.singleton {c d : Nat} {n : Node}
    (h : input.Writes bare c n d) : input.ListWrites bare c [n] d := by
  obtain ⟨a, ha, sa, rfl⟩ := h
  exact ⟨a, ⟨a, [], ha, .inl rfl, by simp⟩, sa, rfl⟩

theorem ListWrites.cons {c d e : Nat} {n : Node} {rest : List Node}
    (hp : input.IsProper) (h : input.Writes bare c n d)
    (hk : (input.get d).kind = Symbol.comma) (hr : input.ListWrites bare (d + 1) rest e) :
    input.ListWrites bare c (n :: rest) e := by
  obtain ⟨a, ha, sa, rfl⟩ := h
  obtain ⟨b, hb, sb, rfl⟩ := hr
  refine ⟨a ++ .ofSymbol .comma :: b, ⟨a, .ofSymbol .comma :: b, ha, ?_, rfl⟩,
    shows_append.mpr ⟨sa, hp.shows_symbol_cons hk sb⟩, by simp; omega⟩
  cases rest with
  | nil =>
    obtain rfl : b = [] := hb
    exact .inr rfl
  | cons m rest =>
    obtain ⟨x, y, hx, hy, rfl⟩ := hb
    exact ⟨x, y, hx, hy, rfl⟩

theorem Writes.call {loc : Loc} {c d e : Nat} {callee : Node}
    {arguments : List Node} (hp : input.IsProper) (hf : input.Writes bare c callee d)
    (hopen : (input.get d).kind = Symbol.lparen)
    (ha : input.ListWrites bare (d + 1) arguments e)
    (hclose : (input.get e).kind = Symbol.rparen) :
    input.Writes bare c (.call loc callee arguments) (e + 1) := by
  obtain ⟨a, ha', sa, rfl⟩ := hf
  obtain ⟨b, hb, sb, rfl⟩ := ha
  refine ⟨a ++ .ofSymbol .lparen :: b ++ [.ofSymbol .rparen], ⟨a, b, ha', hb, rfl⟩, ?_,
    by simp; omega⟩
  rw [List.append_assoc]
  exact shows_append.mpr ⟨sa, hp.shows_symbol_cons hopen
    (shows_append.mpr ⟨sb, hp.shows_symbol hclose⟩)⟩

theorem Writes.array {loc : Loc} {c d : Nat} {elements : List Node}
    (hp : input.IsProper) (hopen : (input.get c).kind = Symbol.lbrack)
    (he : input.ListWrites bare (c + 1) elements d)
    (hclose : (input.get d).kind = Symbol.rbrack) :
    input.Writes bare c (.array loc elements) (d + 1) := by
  obtain ⟨a, ha, sa, rfl⟩ := he
  refine ⟨.ofSymbol .lbrack :: a ++ [.ofSymbol .rbrack], ⟨a, ha, rfl⟩, ?_, by simp; omega⟩
  exact hp.shows_symbol_cons hopen (shows_append.mpr ⟨sa, hp.shows_symbol hclose⟩)

theorem Writes.arrayPattern {loc : Loc} {c d : Nat} {elements : List Node}
    (hp : input.IsProper) (hopen : (input.get c).kind = Symbol.lbrack)
    (he : input.ListWrites bare (c + 1) elements d)
    (hclose : (input.get d).kind = Symbol.rbrack) :
    input.Writes bare c (.arrayPattern loc elements) (d + 1) :=
  show input.Writes bare c (.array loc elements) (d + 1) from .array hp hopen he hclose

/-- The tokens between two places are a way to write the trees one after the other. -/
def AllWrites (input : Input) (bare : Node → Prop) (c : Nat) (body : List Node) (stop : Nat) : Prop :=
  ∃ ls, Node.AllWrittenAs bare body ls ∧ input.Shows c ls ∧ stop = c + ls.length

theorem AllWrites.nil {c : Nat} : input.AllWrites bare c [] c := ⟨[], rfl, trivial, rfl⟩

theorem AllWrites.cons {c d e : Nat} {n : Node} {rest : List Node} (h : input.Writes bare c n d)
    (hr : input.AllWrites bare d rest e) : input.AllWrites bare c (n :: rest) e := by
  obtain ⟨a, ha, sa, rfl⟩ := h
  obtain ⟨b, hb, sb, rfl⟩ := hr
  exact ⟨a ++ b, ⟨a, b, ha, hb, rfl⟩, shows_append.mpr ⟨sa, sb⟩, by simp; omega⟩

theorem Writes.block {loc : Loc} {c d : Nat} {body : List Node} (hp : input.IsProper)
    (hopen : (input.get c).kind = Symbol.lbrace) (hb : input.AllWrites bare (c + 1) body d)
    (hclose : (input.get d).kind = Symbol.rbrace) :
    input.Writes bare c (.block loc body) (d + 1) := by
  obtain ⟨a, ha, sa, rfl⟩ := hb
  refine ⟨.ofSymbol .lbrace :: a ++ [.ofSymbol .rbrace], ⟨a, ha, rfl⟩, ?_, by simp; omega⟩
  exact hp.shows_symbol_cons hopen (shows_append.mpr ⟨sa, hp.shows_symbol hclose⟩)

theorem Writes.expressionStatement {loc : Loc} {c d : Nat} {e : Node} (hp : input.IsProper)
    (he : input.Writes bare c e d) (hk : (input.get d).kind = Symbol.semi) :
    input.Writes bare c (.expressionStatement loc e) (d + 1) := by
  obtain ⟨a, ha, sa, rfl⟩ := he
  exact ⟨a ++ [.ofSymbol .semi], ⟨a, ha, rfl⟩, shows_append.mpr ⟨sa, hp.shows_symbol hk⟩,
    by simp; omega⟩

/-- The tokens between two places are a mark and a way to write the tree, or none if there is no tree. -/
def MarkedWrites (input : Input) (bare : Node → Prop) (mark : Lexeme) (c : Nat) (n : Option Node)
    (stop : Nat) : Prop :=
  ∃ ls, Node.MarkedWrittenAs bare mark n ls ∧ input.Shows c ls ∧ stop = c + ls.length

theorem MarkedWrites.none {mark : Lexeme} {c : Nat} : input.MarkedWrites bare mark c .none c :=
  ⟨[], rfl, trivial, rfl⟩

theorem MarkedWrites.symbol {s : Symbol} {c d : Nat} {n : Node} (hp : input.IsProper)
    (hk : (input.get c).kind = s) (h : input.Writes bare (c + 1) n d) :
    input.MarkedWrites bare (.ofSymbol s) c (some n) d := by
  obtain ⟨a, ha, sa, rfl⟩ := h
  exact ⟨.ofSymbol s :: a, ⟨a, ha, rfl⟩, hp.shows_symbol_cons hk sa, by simp; omega⟩

theorem MarkedWrites.keyword {w : Keyword} {c d : Nat} {n : Node} (hp : input.IsProper)
    (hk : (input.get c).kind = w) (h : input.Writes bare (c + 1) n d) :
    input.MarkedWrites bare (.ofKeyword w) c (some n) d := by
  obtain ⟨a, ha, sa, rfl⟩ := h
  exact ⟨.ofKeyword w :: a, ⟨a, ha, rfl⟩, hp.shows_keyword_cons hk sa, by simp; omega⟩

/-- An `if` between statements with its condition in parentheses. -/
theorem Writes.conditionalStatement {loc : Loc} {c d e stop : Nat} {condition consequent : Node}
    {alternate : Option Node} (hp : input.IsProper) (hif : (input.get c).kind = Keyword.ifWord)
    (hopen : (input.get (c + 1)).kind = Symbol.lparen)
    (hc : input.Writes bare (c + 2) condition d) (hclose : (input.get d).kind = Symbol.rparen)
    (ht : input.Writes bare (d + 1) consequent e)
    (he : input.MarkedWrites bare (.ofKeyword .elseWord) e alternate stop) :
    input.Writes bare c (.conditionalStatement loc condition consequent alternate) stop := by
  obtain ⟨x, hx, sx, rfl⟩ := hc
  obtain ⟨y, hy, sy, rfl⟩ := ht
  obtain ⟨z, hz, sz, rfl⟩ := he
  refine ⟨.ofKeyword .ifWord :: .ofSymbol .lparen :: x ++ .ofSymbol .rparen :: y ++ z,
    ⟨x, y, z, hx, hy, hz, .inl rfl⟩, ?_, by simp; omega⟩
  rw [List.append_assoc]
  exact hp.shows_keyword_cons hif (hp.shows_symbol_cons hopen (shows_append.mpr ⟨sx,
    hp.shows_symbol_cons hclose (shows_append.mpr ⟨sy, sz⟩)⟩))

/-- An `if` between statements with a bare condition before a block. -/
theorem Writes.conditionalStatement_bare {loc : Loc} {c d e stop : Nat}
    {condition consequent : Node} {alternate : Option Node} (hp : input.IsProper)
    (hif : (input.get c).kind = Keyword.ifWord) (hc : input.Writes bare (c + 1) condition d)
    (hlevel : condition.bindsAt .comparison) (hbare : bare condition) (hb : consequent.isBlock)
    (ht : input.Writes bare d consequent e)
    (he : input.MarkedWrites bare (.ofKeyword .elseWord) e alternate stop) :
    input.Writes bare c (.conditionalStatement loc condition consequent alternate) stop := by
  obtain ⟨x, hx, sx, rfl⟩ := hc
  obtain ⟨y, hy, sy, rfl⟩ := ht
  obtain ⟨z, hz, sz, rfl⟩ := he
  refine ⟨.ofKeyword .ifWord :: x ++ y ++ z,
    ⟨x, y, z, hx, hy, hz, .inr ⟨hb, hlevel, hbare, rfl⟩⟩, ?_, by simp; omega⟩
  rw [List.append_assoc]
  exact hp.shows_keyword_cons hif (shows_append.mpr ⟨sx,
    shows_append.mpr ⟨sy, sz⟩⟩)

/-- The tokens between two places are the words of an `if` with a value around its condition. -/
def ConditionWrites (input : Input) (bare : Node → Prop) (c : Nat) (condition consequent : Node)
    (explicitThen : Bool) (stop : Nat) : Prop :=
  ∃ ls, condition.WrittenAs bare ls ∧
    input.Shows c (Node.conditionWords consequent explicitThen ls) ∧
    stop = c + (Node.conditionWords consequent explicitThen ls).length

theorem ConditionWrites.parentheses {c d : Nat} {condition consequent : Node}
    (hp : input.IsProper) (hif : (input.get c).kind = Keyword.ifWord)
    (hopen : (input.get (c + 1)).kind = Symbol.lparen)
    (h : input.Writes bare (c + 2) condition d) (hclose : (input.get d).kind = Symbol.rparen)
    (hb : consequent.isBlock = false) :
    input.ConditionWrites bare c condition consequent false (d + 1) := by
  obtain ⟨x, hx, sx, rfl⟩ := h
  refine ⟨x, hx, ?_, by simp [Node.conditionWords, hb]; omega⟩
  simp only [Node.conditionWords, hb, Bool.false_eq_true, if_false]
  exact hp.shows_keyword_cons hif (hp.shows_symbol_cons hopen (shows_append.mpr ⟨sx,
    hp.shows_symbol hclose⟩))

theorem ConditionWrites.word {c d : Nat} {condition consequent : Node}
    (hp : input.IsProper) (hif : (input.get c).kind = Keyword.ifWord)
    (h : input.Writes bare (c + 1) condition d) (hthen : (input.get d).kind = Keyword.thenWord)
    (hb : consequent.isBlock = false) :
    input.ConditionWrites bare c condition consequent true (d + 1) := by
  obtain ⟨x, hx, sx, rfl⟩ := h
  refine ⟨x, hx, ?_, by simp [Node.conditionWords, hb]; omega⟩
  simp only [Node.conditionWords, hb, Bool.false_eq_true, if_false, if_true]
  exact hp.shows_keyword_cons hif (shows_append.mpr ⟨sx, hp.shows_keyword hthen⟩)

theorem ConditionWrites.block {c d : Nat} {condition consequent : Node} (explicitThen : Bool)
    (hp : input.IsProper) (hif : (input.get c).kind = Keyword.ifWord)
    (h : input.Writes bare (c + 1) condition d) (hb : consequent.isBlock) :
    input.ConditionWrites bare c condition consequent explicitThen d := by
  obtain ⟨x, hx, sx, rfl⟩ := h
  refine ⟨x, hx, ?_, by simp [Node.conditionWords, hb]; omega⟩
  simp only [Node.conditionWords, hb, if_true]
  exact hp.shows_keyword_cons hif sx

theorem Writes.conditional {loc : Loc} {c d e stop : Nat} {condition consequent alternate : Node}
    {explicitThen : Bool} (hp : input.IsProper)
    (hc : input.ConditionWrites bare c condition consequent explicitThen d)
    (ht : input.Writes bare d consequent e) (helse : (input.get e).kind = Keyword.elseWord)
    (he : input.Writes bare (e + 1) alternate stop) :
    input.Writes bare c (.conditional loc condition consequent alternate explicitThen) stop := by
  obtain ⟨x, hx, sx, rfl⟩ := hc
  obtain ⟨y, hy, sy, rfl⟩ := ht
  obtain ⟨z, hz, sz, rfl⟩ := he
  refine ⟨_, ⟨x, y, z, hx, hy, hz, rfl⟩, ?_, by simp; omega⟩
  rw [List.append_assoc]
  exact shows_append.mpr ⟨sx, shows_append.mpr ⟨sy, hp.shows_keyword_cons helse sz⟩⟩

theorem Writes.declaration {loc : Loc} {a c d e stop : Nat} {left : Node} {type right : Option Node}
    {constant mutable : Bool} (hp : input.IsProper)
    (hw : input.Shows a (Node.declarationWords constant mutable))
    (hc : c = a + (Node.declarationWords constant mutable).length)
    (hl : input.Writes bare c left d)
    (ht : input.MarkedWrites bare (.ofSymbol .colon) d type e)
    (hr : input.MarkedWrites bare (.ofSymbol .assign) e right stop)
    (hk : (input.get stop).kind = Symbol.semi) :
    input.Writes bare a (.declaration loc left type right constant mutable) (stop + 1) := by
  subst hc
  obtain ⟨x, hx, sx, rfl⟩ := hl
  obtain ⟨y, hy, sy, rfl⟩ := ht
  obtain ⟨z, hz, sz, rfl⟩ := hr
  refine ⟨_, ⟨x, y, z, hx, hy, hz, rfl⟩, ?_, by simp; omega⟩
  simp only [List.append_assoc]
  exact shows_append.mpr ⟨hw, shows_append.mpr ⟨sx, shows_append.mpr ⟨sy,
    shows_append.mpr ⟨sz, hp.shows_symbol hk⟩⟩⟩⟩

end MagSyntax.Input
