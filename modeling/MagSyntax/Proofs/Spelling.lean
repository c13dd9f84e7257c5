import MagSyntax.Proofs.Canonical

/-! Trees as sequences of tokens. `Node.lexemes` writes a tree out, with parentheses only where the
tree has them, around arguments and around the condition of an `if`. `Node.WrittenAs` relates a tree
to all sequences that differ from this one in what the grammar leaves open: a comma behind the
last element of a list, the parentheses around the condition of an `if` between statements whose
branch is a block, and the kind of the token that names a field. -/

namespace MagSyntax

theorem Keyword.spelling_of_ofSpelling? {word : Text} {w : Keyword} (h : ofSpelling? word = some w) :
    w.spelling = word := by
  simpa using List.find?_some h

namespace Lexeme

/-- A keyword or a symbol has the value that belongs to it. -/
def HasOwnValue (l : Lexeme) : Prop :=
  (∀ w : Keyword, l.kind = w → l.value = w.spelling) ∧
    ∀ s : Symbol, l.kind = s → l.value = s.spelling

/-- The lexeme of a reserved word. -/
def ofKeyword (word : Keyword) : Lexeme := ⟨word, word.spelling, 10, []⟩

/-- The lexeme of an operator, given by its spelling. -/
def ofOperator (operator : Text) : Lexeme :=
  match Symbol.all.find? (·.spelling = operator) with
  | some symbol => ofSymbol symbol
  | none => ⟨.other operator, operator, 10, []⟩

theorem ofOperator_spelling (s : Symbol) : ofOperator s.spelling = ofSymbol s := by
  cases s <;> rfl

@[simp] theorem hasOwnValue_ofKeyword (w : Keyword) : (ofKeyword w).HasOwnValue := by
  simp +contextual [HasOwnValue, ofKeyword]

@[simp] theorem hasOwnValue_ofSymbol (s : Symbol) : (ofSymbol s).HasOwnValue := by
  simp +contextual [HasOwnValue, ofSymbol]

@[simp] theorem hasOwnValue_ofWord (word : Text) : (ofWord word).HasOwnValue := by
  unfold ofWord
  split
  next w h => simp +contextual [HasOwnValue, Keyword.spelling_of_ofSpelling? h]
  next => simp [HasOwnValue]

/-- The lexeme can stand behind a point as the name of a field. -/
structure NamesField (word : Lexeme) : Prop where
  inside : word.kind ≠ .eof
  own : word.HasOwnValue
  named : word.kind = .ident ∨ (Keyword.ofSpelling? word.value).isSome

theorem namesField_ofWord (word : Text) : (ofWord word).NamesField := by
  refine ⟨?_, hasOwnValue_ofWord word, ?_⟩
  · unfold ofWord
    split <;> simp
  · unfold ofWord
    split
    next w h => exact .inr (by simp [h])
    next => exact .inl rfl

theorem value_ofWord (word : Text) : (ofWord word).value = word := by
  unfold ofWord
  split <;> rfl

theorem NamesField.kind_ne_symbol {word : Lexeme} (h : word.NamesField) (s : Symbol) :
    word.kind ≠ s := by
  intro hs
  have hn := h.named.resolve_left (by simp [hs])
  rw [h.own.2 s hs] at hn
  revert hn
  cases s <;> decide

end Lexeme

/-- What the grammar can see of a token: its place is left out, and so are the base of anything but a
number and the flags of anything but a regular expression. -/
def Token.essence (t : Token) : Lexeme where
  kind := t.kind
  value := t.value
  base := if t.kind = .number then t.base else 10
  flags := if t.kind = .regex then t.flags else []

@[simp] theorem Token.kind_essence (t : Token) : t.essence.kind = t.kind := rfl

@[simp] theorem Token.value_essence (t : Token) : t.essence.value = t.value := rfl

namespace Node

/-- The text of an identifier. -/
def nameText : Node → Text
  | .identifier _ name => name
  | _ => []

/-- The words before a branch of an `if` with a value, around the condition. -/
def conditionWords (consequent : Node) (explicitThen : Bool) (condition : List Lexeme) :
    List Lexeme :=
  .ofKeyword .ifWord ::
    if consequent.isBlock then condition
    else if explicitThen then condition ++ [.ofKeyword .thenWord]
    else .ofSymbol .lparen :: condition ++ [.ofSymbol .rparen]

/-- The words that open a declaration. -/
def declarationWords (constant mutable : Bool) : List Lexeme :=
  if constant then [.ofKeyword .constWord]
  else if mutable then [.ofKeyword .letWord, .ofKeyword .mutWord]
  else [.ofKeyword .letWord]

mutual

/-- The tree written out. -/
def lexemes : Node → List Lexeme
  | .program _ body => allLexemes body
  | .block _ body => .ofSymbol .lbrace :: allLexemes body ++ [.ofSymbol .rbrace]
  | .expressionStatement _ e => e.lexemes ++ [.ofSymbol .semi]
  | .conditionalStatement _ condition consequent alternate =>
    .ofKeyword .ifWord :: .ofSymbol .lparen :: condition.lexemes ++
      .ofSymbol .rparen :: consequent.lexemes ++ markedLexemes (.ofKeyword .elseWord) alternate
  | .declaration _ left type right constant mutable =>
    declarationWords constant mutable ++ left.lexemes ++
      markedLexemes (.ofSymbol .colon) type ++ markedLexemes (.ofSymbol .assign) right ++
      [.ofSymbol .semi]
  | .parenthesized _ e => .ofSymbol .lparen :: e.lexemes ++ [.ofSymbol .rparen]
  | .conditional _ condition consequent alternate explicitThen =>
    conditionWords consequent explicitThen condition.lexemes ++ consequent.lexemes ++
      .ofKeyword .elseWord :: alternate.lexemes
  | .assignment _ left right operator => left.lexemes ++ .ofOperator operator :: right.lexemes
  | .binary _ operator left right => left.lexemes ++ .ofOperator operator :: right.lexemes
  | .unary _ operator argument _ => .ofOperator operator :: argument.lexemes
  | .field _ object name => object.lexemes ++ [.ofSymbol .dot, .ofWord name.nameText]
  | .index _ object i =>
    object.lexemes ++ .ofSymbol .lbrack :: i.lexemes ++ [.ofSymbol .rbrack]
  | .call _ callee arguments =>
    callee.lexemes ++ .ofSymbol .lparen :: listLexemes arguments ++ [.ofSymbol .rparen]
  | .array _ elements => .ofSymbol .lbrack :: listLexemes elements ++ [.ofSymbol .rbrack]
  | .arrayPattern _ elements => .ofSymbol .lbrack :: listLexemes elements ++ [.ofSymbol .rbrack]
  | .identifier _ name => [⟨.ident, name, 10, []⟩]
  | .numeric _ digits base => [⟨.number, digits, base, []⟩]
  | .string _ value => [⟨.string, value, 10, []⟩]
  | .boolean _ value => [.ofKeyword (if value then .trueWord else .falseWord)]
  | .regex _ pattern flags => [⟨.regex, pattern, 10, flags⟩]
  | .bare _ => []

/-- The trees written out one after the other. -/
def allLexemes : List Node → List Lexeme
  | [] => []
  | n :: rest => n.lexemes ++ allLexemes rest

/-- The trees written out with commas between them. -/
def listLexemes : List Node → List Lexeme
  | [] => []
  | n :: rest => n.lexemes ++ restLexemes rest

/-- The trees written out, each behind a comma. -/
def restLexemes : List Node → List Lexeme
  | [] => []
  | n :: rest => .ofSymbol .comma :: n.lexemes ++ restLexemes rest

/-- The tree, if it is there, written out behind a mark. -/
def markedLexemes (mark : Lexeme) : Option Node → List Lexeme
  | none => []
  | some n => mark :: n.lexemes

end

variable (bare : Node → Prop)

mutual

/-- The tree can be written as these lexemes, when the conditions that `bare` holds of may stand without
parentheses before a block. -/
def WrittenAs : Node → List Lexeme → Prop
  | .program _ body, ls => AllWrittenAs body ls
  | .block _ body, ls =>
    ∃ a, AllWrittenAs body a ∧ ls = .ofSymbol .lbrace :: a ++ [.ofSymbol .rbrace]
  | .expressionStatement _ e, ls => ∃ a, e.WrittenAs a ∧ ls = a ++ [.ofSymbol .semi]
  | .conditionalStatement _ condition consequent alternate, ls =>
    ∃ a b d, condition.WrittenAs a ∧ consequent.WrittenAs b ∧
      MarkedWrittenAs (.ofKeyword .elseWord) alternate d ∧
      (ls = .ofKeyword .ifWord :: .ofSymbol .lparen :: a ++ .ofSymbol .rparen :: b ++ d ∨
        (consequent.isBlock ∧ condition.bindsAt .comparison ∧ bare condition ∧
          ls = .ofKeyword .ifWord :: a ++ b ++ d))
  | .declaration _ left type right constant mutable, ls =>
    ∃ a b d, left.WrittenAs a ∧ MarkedWrittenAs (.ofSymbol .colon) type b ∧
      MarkedWrittenAs (.ofSymbol .assign) right d ∧
      ls = declarationWords constant mutable ++ a ++ b ++ d ++ [.ofSymbol .semi]
  | .parenthesized _ e, ls =>
    ∃ a, e.WrittenAs a ∧ ls = .ofSymbol .lparen :: a ++ [.ofSymbol .rparen]
  | .conditional _ condition consequent alternate explicitThen, ls =>
    ∃ a b d, condition.WrittenAs a ∧ consequent.WrittenAs b ∧ alternate.WrittenAs d ∧
      ls = conditionWords consequent explicitThen a ++ b ++ .ofKeyword .elseWord :: d
  | .assignment _ left right operator, ls =>
    ∃ a b, left.WrittenAs a ∧ right.WrittenAs b ∧ ls = a ++ .ofOperator operator :: b
  | .binary _ operator left right, ls =>
    ∃ a b, left.WrittenAs a ∧ right.WrittenAs b ∧ ls = a ++ .ofOperator operator :: b
  | .unary _ operator argument _, ls =>
    ∃ a, argument.WrittenAs a ∧ ls = .ofOperator operator :: a
  | .field _ object name, ls =>
    ∃ a word, object.WrittenAs a ∧ word.NamesField ∧ word.value = name.nameText ∧
      ls = a ++ [.ofSymbol .dot, word]
  | .index _ object i, ls =>
    ∃ a b, object.WrittenAs a ∧ i.WrittenAs b ∧
      ls = a ++ .ofSymbol .lbrack :: b ++ [.ofSymbol .rbrack]
  | .call _ callee arguments, ls =>
    ∃ a b, callee.WrittenAs a ∧ ListWrittenAs arguments b ∧
      ls = a ++ .ofSymbol .lparen :: b ++ [.ofSymbol .rparen]
  | .array _ elements, ls =>
    ∃ a, ListWrittenAs elements a ∧ ls = .ofSymbol .lbrack :: a ++ [.ofSymbol .rbrack]
  | .arrayPattern _ elements, ls =>
    ∃ a, ListWrittenAs elements a ∧ ls = .ofSymbol .lbrack :: a ++ [.ofSymbol .rbrack]
  | .identifier _ name, ls => ls = [⟨.ident, name, 10, []⟩]
  | .numeric _ digits base, ls => ls = [⟨.number, digits, base, []⟩]
  | .string _ value, ls => ls = [⟨.string, value, 10, []⟩]
  | .boolean _ value, ls => ls = [.ofKeyword (if value then .trueWord else .falseWord)]
  | .regex _ pattern flags, ls => ls = [⟨.regex, pattern, 10, flags⟩]
  | .bare _, ls => ls = []

/-- The trees can be written as these lexemes, one after the other. -/
def AllWrittenAs : List Node → List Lexeme → Prop
  | [], ls => ls = []
  | n :: rest, ls => ∃ a b, n.WrittenAs a ∧ AllWrittenAs rest b ∧ ls = a ++ b

/-- The trees can be written as these lexemes with commas between them and perhaps one behind the
last. -/
def ListWrittenAs : List Node → List Lexeme → Prop
  | [], ls => ls = []
  | n :: rest, ls => ∃ a b, n.WrittenAs a ∧ RestWrittenAs rest b ∧ ls = a ++ b

/-- The trees can be written as these lexemes, each behind a comma, and perhaps a comma behind the
last. -/
def RestWrittenAs : List Node → List Lexeme → Prop
  | [], ls => ls = [] ∨ ls = [.ofSymbol .comma]
  | n :: rest, ls =>
    ∃ a b, n.WrittenAs a ∧ RestWrittenAs rest b ∧ ls = .ofSymbol .comma :: a ++ b

/-- The tree, if it is there, can be written as these lexemes behind a mark. -/
def MarkedWrittenAs (mark : Lexeme) : Option Node → List Lexeme → Prop
  | none, ls => ls = []
  | some n, ls => ∃ a, n.WrittenAs a ∧ ls = mark :: a

end

mutual

/-- Writing a tree out is one way to write it. -/
theorem writtenAs_lexemes (n : Node) : n.WrittenAs bare n.lexemes := by
  cases n with
  | program _ body => exact allWrittenAs_allLexemes body
  | block _ body => exact ⟨_, allWrittenAs_allLexemes body, rfl⟩
  | expressionStatement _ e => exact ⟨_, writtenAs_lexemes e, rfl⟩
  | conditionalStatement _ condition consequent alternate =>
    exact ⟨_, _, _, writtenAs_lexemes condition, writtenAs_lexemes consequent,
      markedWrittenAs_markedLexemes _ alternate, .inl rfl⟩
  | declaration _ left type right =>
    exact ⟨_, _, _, writtenAs_lexemes left, markedWrittenAs_markedLexemes _ type,
      markedWrittenAs_markedLexemes _ right, rfl⟩
  | parenthesized _ e => exact ⟨_, writtenAs_lexemes e, rfl⟩
  | conditional _ condition consequent alternate =>
    exact ⟨_, _, _, writtenAs_lexemes condition, writtenAs_lexemes consequent,
      writtenAs_lexemes alternate, rfl⟩
  | assignment _ left right => exact ⟨_, _, writtenAs_lexemes left, writtenAs_lexemes right, rfl⟩
  | binary _ _ left right => exact ⟨_, _, writtenAs_lexemes left, writtenAs_lexemes right, rfl⟩
  | unary _ _ argument => exact ⟨_, writtenAs_lexemes argument, rfl⟩
  | field _ object name =>
    exact ⟨_, _, writtenAs_lexemes object, Lexeme.namesField_ofWord _, Lexeme.value_ofWord _, rfl⟩
  | index _ object i => exact ⟨_, _, writtenAs_lexemes object, writtenAs_lexemes i, rfl⟩
  | call _ callee arguments =>
    exact ⟨_, _, writtenAs_lexemes callee, listWrittenAs_listLexemes arguments, rfl⟩
  | array _ elements => exact ⟨_, listWrittenAs_listLexemes elements, rfl⟩
  | arrayPattern _ elements => exact ⟨_, listWrittenAs_listLexemes elements, rfl⟩
  | _ => rfl

theorem allWrittenAs_allLexemes (l : List Node) : AllWrittenAs bare l (allLexemes l) := by
  cases l with
  | nil => rfl
  | cons n rest => exact ⟨_, _, writtenAs_lexemes n, allWrittenAs_allLexemes rest, rfl⟩

theorem listWrittenAs_listLexemes (l : List Node) : ListWrittenAs bare l (listLexemes l) := by
  cases l with
  | nil => rfl
  | cons n rest => exact ⟨_, _, writtenAs_lexemes n, restWrittenAs_restLexemes rest, rfl⟩

theorem restWrittenAs_restLexemes (l : List Node) : RestWrittenAs bare l (restLexemes l) := by
  cases l with
  | nil => exact .inl rfl
  | cons n rest => exact ⟨_, _, writtenAs_lexemes n, restWrittenAs_restLexemes rest, rfl⟩

theorem markedWrittenAs_markedLexemes (mark : Lexeme) (n : Option Node) :
    MarkedWrittenAs bare mark n (markedLexemes mark n) := by
  cases n with
  | none => rfl
  | some n => exact ⟨_, writtenAs_lexemes n, rfl⟩

end

end Node

namespace Lexeme

/-- The lexeme can stand before the end of an input, and it has a base or flags only if it is of a kind
that has them. -/
def IsInner (l : Lexeme) : Prop :=
  l.kind ≠ .eof ∧ l.HasOwnValue ∧ (l.kind ≠ .number → l.base = 10) ∧ (l.kind ≠ .regex → l.flags = [])

@[simp] theorem isInner_ofKeyword (w : Keyword) : (ofKeyword w).IsInner :=
  ⟨by simp [ofKeyword], hasOwnValue_ofKeyword w, by simp [ofKeyword], by simp [ofKeyword]⟩

@[simp] theorem isInner_ofSymbol (s : Symbol) : (ofSymbol s).IsInner :=
  ⟨by simp [ofSymbol], hasOwnValue_ofSymbol s, by simp [ofSymbol], by simp [ofSymbol]⟩

@[simp] theorem isInner_ofWord (word : Text) : (ofWord word).IsInner := by
  refine ⟨(namesField_ofWord word).inside, hasOwnValue_ofWord word, ?_⟩
  unfold ofWord
  split <;> simp

@[simp] theorem isInner_ofOperator (operator : Text) : (ofOperator operator).IsInner := by
  unfold ofOperator
  split
  · exact isInner_ofSymbol _
  · simp [IsInner, HasOwnValue]

theorem IsInner.essence_ofLexeme {l : Lexeme} (h : l.IsInner) (place : Place) :
    (Token.ofLexeme l place).essence = l := by
  obtain ⟨-, -, hb, hf⟩ := h
  obtain ⟨kind, value, base, flags⟩ := l
  simp only at hb hf
  by_cases hn : kind = .number
  · subst hn
    simp [Token.essence, Token.ofLexeme, hf]
  · by_cases hr : kind = .regex
    · subst hr
      simp [Token.essence, Token.ofLexeme, hb]
    · simp [Token.essence, Token.ofLexeme, hn, hr, hb, hf]

end Lexeme

namespace Node

theorem isInner_conditionWords {consequent : Node} {explicitThen : Bool} {ls : List Lexeme}
    (h : ∀ l ∈ ls, l.IsInner) : ∀ l ∈ conditionWords consequent explicitThen ls, l.IsInner := by
  unfold conditionWords
  split
  · simpa using h
  · split <;> simpa [or_imp, forall_and] using h

theorem isInner_declarationWords {constant mutable : Bool} :
    ∀ l ∈ declarationWords constant mutable, l.IsInner := by
  cases constant <;> cases mutable <;> simp [declarationWords]

mutual

theorem isInner_lexemes (n : Node) : ∀ l ∈ n.lexemes, l.IsInner := by
  cases n with
  | program _ body => exact isInner_allLexemes body
  | block _ body => simpa [lexemes, or_imp, forall_and] using isInner_allLexemes body
  | expressionStatement _ e => simpa [lexemes, or_imp, forall_and] using isInner_lexemes e
  | conditionalStatement _ condition consequent alternate =>
    simpa [lexemes, or_imp, forall_and] using ⟨isInner_lexemes condition, isInner_lexemes consequent,
      isInner_markedLexemes (Lexeme.isInner_ofKeyword _) alternate⟩
  | declaration _ left type right =>
    simpa [lexemes, or_imp, forall_and] using ⟨isInner_declarationWords, isInner_lexemes left,
      isInner_markedLexemes (Lexeme.isInner_ofSymbol _) type,
      isInner_markedLexemes (Lexeme.isInner_ofSymbol _) right⟩
  | parenthesized _ e => simpa [lexemes, or_imp, forall_and] using isInner_lexemes e
  | conditional _ condition consequent alternate =>
    simpa [lexemes, or_imp, forall_and] using ⟨isInner_conditionWords (isInner_lexemes condition),
      isInner_lexemes consequent, isInner_lexemes alternate⟩
  | assignment _ left right =>
    simpa [lexemes, or_imp, forall_and] using ⟨isInner_lexemes left, isInner_lexemes right⟩
  | binary _ _ left right =>
    simpa [lexemes, or_imp, forall_and] using ⟨isInner_lexemes left, isInner_lexemes right⟩
  | unary _ _ argument => simpa [lexemes] using isInner_lexemes argument
  | field _ object name => simpa [lexemes, or_imp, forall_and] using isInner_lexemes object
  | index _ object i =>
    simpa [lexemes, or_imp, forall_and] using ⟨isInner_lexemes object, isInner_lexemes i⟩
  | call _ callee arguments =>
    simpa [lexemes, or_imp, forall_and] using ⟨isInner_lexemes callee, isInner_listLexemes arguments⟩
  | array _ elements => simpa [lexemes, or_imp, forall_and] using isInner_listLexemes elements
  | arrayPattern _ elements => simpa [lexemes, or_imp, forall_and] using isInner_listLexemes elements
  | boolean _ value => simp [lexemes]
  | bare => simp [lexemes]
  | _ => simp [lexemes, Lexeme.IsInner, Lexeme.HasOwnValue]

theorem isInner_allLexemes (l : List Node) : ∀ x ∈ allLexemes l, x.IsInner := by
  cases l with
  | nil => simp [allLexemes]
  | cons n rest =>
    simpa [allLexemes, or_imp, forall_and] using ⟨isInner_lexemes n, isInner_allLexemes rest⟩

theorem isInner_listLexemes (l : List Node) : ∀ x ∈ listLexemes l, x.IsInner := by
  cases l with
  | nil => simp [listLexemes]
  | cons n rest =>
    simpa [listLexemes, or_imp, forall_and] using ⟨isInner_lexemes n, isInner_restLexemes rest⟩

theorem isInner_restLexemes (l : List Node) : ∀ x ∈ restLexemes l, x.IsInner := by
  cases l with
  | nil => simp [restLexemes]
  | cons n rest =>
    simpa [restLexemes, or_imp, forall_and] using ⟨isInner_lexemes n, isInner_restLexemes rest⟩

theorem isInner_markedLexemes {mark : Lexeme} (hm : mark.IsInner) (n : Option Node) :
    ∀ x ∈ markedLexemes mark n, x.IsInner := by
  cases n with
  | none => simp [markedLexemes]
  | some n => simpa [markedLexemes, hm] using isInner_lexemes n

end

end Node

end MagSyntax
