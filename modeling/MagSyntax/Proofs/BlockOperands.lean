import MagSyntax.Proofs.HandBuilt

/-! If-expressions whose branches are blocks, as operands. They end in a brace, behind which an operator, a field,
an index or arguments go on with them, so printing them needs no parentheses. The one exception is a sign of
division, which is read as the start of a regular expression there. -/

namespace MagSyntax

namespace Node

/-- Up to places the tree is one with the property. -/
def Resembles (Q : Node → Prop) (n : Node) : Prop := ∃ m, Q m ∧ m.alike n

/-- Up to places the tree is an expression that was read from a source whose fields are named by words. -/
def IsRead : Node → Prop :=
  Resembles fun n => ∃ source : Text, source.NamesFields ∧ Entry.expression.ofSource source = .ok n

/-- Up to places the tree is a statement that was read from a source whose fields are named by words. -/
def IsReadStatement : Node → Prop :=
  Resembles fun n => ∃ (source : Text) (loc : Loc) (body : List Node), source.NamesFields ∧
    Entry.program.ofSource source = .ok (.program loc body) ∧ n ∈ body

/-- The tree is a block of statements that were read. -/
inductive IsReadBlock : Node → Prop
  | block {loc : Loc} {body : List Node} : (∀ n ∈ body, n.IsReadStatement) → IsReadBlock (.block loc body)

/-- The tree is an `if` with a value, a condition that was read and blocks as branches; in place of the second
block there may be another such `if`. -/
inductive IsBlockBodied : Node → Prop
  | blocks {loc : Loc} {condition consequent alternate : Node} : condition.IsRead →
      consequent.IsReadBlock → alternate.IsReadBlock →
      IsBlockBodied (.conditional loc condition consequent alternate false)
  | chain {loc : Loc} {condition consequent alternate : Node} : condition.IsRead →
      consequent.IsReadBlock → alternate.IsBlockBodied →
      IsBlockBodied (.conditional loc condition consequent alternate false)

/-- The second tree goes on with the first one, by an operator other than a division, a field, an index or
arguments. -/
inductive GoesOn (operand : Node) : Node → Prop
  | binary {loc : Loc} {s : Symbol} {level : Level} {right : Node} :
      Level.ofOperator s.spelling = .ok level → s ≠ .div → right.IsRead →
      GoesOn operand (.binary loc s.spelling operand right)
  | field {loc loc' : Loc} {name : Text} : Lexeme.IsName name →
      GoesOn operand (.field loc operand (.identifier loc' name))
  | index {loc : Loc} {i : Node} : i.IsRead → GoesOn operand (.index loc operand i)
  | call {loc : Loc} {arguments : List Node} : (∀ a ∈ arguments, a.IsRead) →
      GoesOn operand (.call loc operand arguments)

/-- The node can be read back from what is printed for it, with no more than parentheses added. -/
def IsPrintable (n : Node) : Prop := n.KeepsElse ∧ n.IsLegible ∧ n.DividesValue

theorem readsBack_isPrintable : ReadsBack IsPrintable where
  isLegible _ h := h.2.1
  endsValue loc left right h := h.1.2.2 loc left right rfl

theorem isPrintable_of_readsBack {n : Node} (h : n.IsWellPlaced ∧ n.IsLegible ∧ n.DividesValue) :
    n.IsPrintable :=
  ⟨h.1.keepsElse, h.2⟩

theorem Resembles.mono {Q R : Node → Prop} {n : Node} (h : n.Resembles Q) (hQ : ∀ m, Q m → R m) :
    n.Resembles R := by
  obtain ⟨m, hm, halike⟩ := h
  exact ⟨m, hQ m hm, halike⟩

theorem resembles_all {Q : Node → Prop} {l : List Node} (h : ∀ n ∈ l, n.Resembles Q) :
    ∃ l', (∀ n ∈ l', Q n) ∧ allAlike l' l := by
  induction l with
  | nil => exact ⟨[], by simp, rfl⟩
  | cons n rest ih =>
    obtain ⟨⟨m, hm, halike⟩, hrest⟩ := List.forall_mem_cons.mp h
    obtain ⟨l', hl', hrest⟩ := ih hrest
    exact ⟨m :: l', List.forall_mem_cons.mpr ⟨hm, hl'⟩, by simp [allAlike, halike, hrest]⟩

theorem IsRead.expressionOf {n : Node} (h : n.IsRead) : n.Resembles (ExpressionOf IsPrintable) := by
  refine h.mono ?_
  rintro m ⟨source, hf, hm⟩
  have htree := Entry.expression.treeOf_of_ofSource hm hf
  exact htree.both (fun n h _ => isPrintable_of_readsBack h) htree

theorem IsReadStatement.statementOf {n : Node} (h : n.IsReadStatement) :
    n.Resembles (StatementOf IsPrintable) := by
  refine h.mono ?_
  rintro m ⟨source, loc, body, hf, hbody, hm⟩
  have htree : StatementsOf _ body := Entry.program.treeOf_of_ofSource hbody hf
  exact statementsOf_iff.mp (htree.both (fun n h _ => isPrintable_of_readsBack h) htree) m hm

theorem isPrintable_block (loc : Loc) (body : List Node) : (block loc body).IsPrintable := by
  refine ⟨trivial, trivial, ?_⟩
  rintro _ _ _ ⟨⟩

theorem IsReadBlock.statementOf {n : Node} (h : n.IsReadBlock) :
    n.Resembles fun m => m.isBlock ∧ m.StatementOf IsPrintable := by
  obtain @⟨loc, body, hbody⟩ := h
  obtain ⟨body', hprintable, halike⟩ := resembles_all fun n hn => (hbody n hn).statementOf
  exact ⟨.block loc body', ⟨rfl, isPrintable_block _ _, statementsOf_iff.mpr hprintable⟩, halike⟩

theorem isPrintable_conditional (loc : Loc) (condition consequent alternate : Node) (explicitThen : Bool) :
    (conditional loc condition consequent alternate explicitThen).IsPrintable := by
  refine ⟨trivial, trivial, ?_⟩
  rintro _ _ _ ⟨⟩

theorem IsBlockBodied.expressionOf {n : Node} (h : n.IsBlockBodied) :
    n.Resembles fun m => m.isConditional ∧ m.ExpressionOf IsPrintable := by
  induction h with
  | @blocks loc _ _ _ hc hq ha =>
    obtain ⟨c, hc, hcalike⟩ := hc.expressionOf
    obtain ⟨q, ⟨hqblock, hq⟩, hqalike⟩ := hq.statementOf
    obtain ⟨a, ha, haalike⟩ := ha.statementOf
    exact ⟨.conditional loc c q a false,
      ⟨rfl, isPrintable_conditional .., hc, .inr ⟨rfl, hqblock, hq, .inl ha⟩⟩,
      by simp [alike, hcalike, hqalike, haalike]⟩
  | @chain loc _ _ _ hc hq _ ih =>
    obtain ⟨c, hc, hcalike⟩ := hc.expressionOf
    obtain ⟨q, ⟨hqblock, hq⟩, hqalike⟩ := hq.statementOf
    obtain ⟨a, ha, haalike⟩ := ih
    exact ⟨.conditional loc c q a false,
      ⟨rfl, isPrintable_conditional .., hc, .inr ⟨rfl, hqblock, hq, .inr ha⟩⟩,
      by simp [alike, hcalike, hqalike, haalike]⟩

theorem GoesOn.expressionOf {operand n : Node} (h : operand.GoesOn n)
    (ho : operand.Resembles (ExpressionOf IsPrintable)) : n.Resembles (ExpressionOf IsPrintable) := by
  obtain ⟨o, ho, hoalike⟩ := ho
  cases h with
  | @binary loc s level right hlevel hs hr =>
    obtain ⟨r, hr, hralike⟩ := hr.expressionOf
    refine ⟨.binary loc s.spelling o r, ⟨⟨trivial, trivial, ?_⟩, ⟨level, hlevel⟩, ho, hr⟩,
      by simp [alike, hoalike, hralike]⟩
    rintro _ _ _ heq
    injection heq with _ hspelling
    exact absurd (Symbol.spelling_injective hspelling) hs
  | @field loc loc' name hn =>
    refine ⟨.field loc o (.identifier loc' name), ⟨⟨trivial, hn, ?_⟩, ho, rfl⟩, by simp [alike, hoalike]⟩
    rintro _ _ _ ⟨⟩
  | @index loc _ hi =>
    obtain ⟨i, hi, hialike⟩ := hi.expressionOf
    refine ⟨.index loc o i, ⟨⟨trivial, trivial, ?_⟩, ho, hi⟩, by simp [alike, hoalike, hialike]⟩
    rintro _ _ _ ⟨⟩
  | @call loc _ ha =>
    obtain ⟨arguments, ha, haalike⟩ := resembles_all fun n hn => (ha n hn).expressionOf
    refine ⟨.call loc o arguments, ⟨⟨trivial, trivial, ?_⟩, ho, expressionsOf_iff.mpr ha⟩,
      by simp [alike, hoalike, haalike]⟩
    rintro _ _ _ ⟨⟩

/-- An `if` with blocks as branches stands as an operand without parentheses. What is printed is read as the same
tree but for parentheses and printed the same again, unless its parse is cut short. -/
theorem blockOperand_roundTrip {operand n : Node} (hb : operand.IsBlockBodied) (h : operand.GoesOn n) :
    ∃ text, n.text = .ok text ∧
      (Entry.expression.CutsShort text ∨ ∃ t, Entry.expression.ofSource text = .ok t ∧
        t.unwrapped.alike n.unwrapped ∧ t.text = .ok text) := by
  obtain ⟨m, hm, hmalike⟩ := h.expressionOf (hb.expressionOf.mono fun _ h => h.2)
  obtain ⟨text, hprint, hagain⟩ := Entry.expression.reprint (n := m) readsBack_isPrintable hm
  refine ⟨text, (text_eq_of_alike hmalike).symm.trans hprint, hagain.imp_right ?_⟩
  rintro ⟨t, ht, halike, hsame⟩
  refine ⟨t, ht, ?_, hsame⟩
  have hwrap := alike_unwrapped halike
  rw [unwrapped_enclosed (fun _ h => h.1) m hm] at hwrap
  exact (alike_iff _ _).mpr (((alike_iff _ _).mp hwrap).trans ((alike_iff _ _).mp (alike_unwrapped hmalike)))

theorem isRead_identifier : (identifier .unknown "a").IsRead :=
  ⟨_, ⟨"a", by decide +kernel, rfl⟩, rfl⟩

theorem isReadStatement_regex :
    (expressionStatement .unknown (.regex .unknown "a" "g")).IsReadStatement :=
  ⟨_, ⟨"/a/g;", _, _, by decide +kernel, rfl, List.mem_singleton.mpr rfl⟩, rfl⟩

theorem blockOperand_roundTrip_chain :
    let a : Node := .identifier .unknown "a"
    let empty : Node := .block .unknown []
    let full : Node := .block .unknown [.expressionStatement .unknown (.regex .unknown "a" "g")]
    let operand : Node := .conditional .unknown a full (.conditional .unknown a empty empty false) false
    let n : Node := .binary .unknown "-" operand a
    let text : Text := "if a { /a/g; } else if a {} else {} - a"
    operand.IsBlockBodied ∧ operand.GoesOn n ∧ n.text = .ok text ∧ ¬Entry.expression.CutsShort text ∧
      ∃ t, Entry.expression.ofSource text = .ok t ∧ t.unwrapped.alike n.unwrapped ∧ t.text = .ok text := by
  intro a empty full operand n text
  have ha : a.IsRead := isRead_identifier
  have hempty : empty.IsReadBlock := .block (by simp)
  have hfull : full.IsReadBlock := .block (by simpa using isReadStatement_regex)
  have hb : operand.IsBlockBodied := .chain ha hfull (.blocks ha hempty hempty)
  have h : operand.GoesOn n := .binary (s := .sub) rfl (by decide) ha
  have hcut : ¬Entry.expression.CutsShort text := by decide +kernel
  have hprint : n.text = .ok text := by decide +kernel
  obtain ⟨text', htext', hread⟩ := blockOperand_roundTrip hb h
  cases htext'.symm.trans hprint
  exact ⟨hb, h, hprint, hcut, hread.resolve_left hcut⟩

/-- An `if` with blocks as branches is printed before a sign of division without parentheses, too, and the rest of
the line is read as a regular expression that nothing closes. -/
theorem blockOperand_not_divided :
    let a : Node := .identifier .unknown "a"
    let empty : Node := .block .unknown []
    let operand : Node := .conditional .unknown a empty empty false
    let n : Node := .binary .unknown "/" operand a
    operand.IsBlockBodied ∧ a.IsRead ∧ n.text = .ok "if a {} else {} / a" ∧
      Entry.expression.ofSource "if a {} else {} / a" = .error ⟨.lexical .openRegex, ⟨16, 1, 17⟩, none⟩ := by
  intro a empty operand n
  have ha : a.IsRead := isRead_identifier
  have hempty : empty.IsReadBlock := .block (by simp)
  have htokens : tokenize "if a {} else {} / a" = .error ⟨.lexical .openRegex, ⟨16, 1, 17⟩, none⟩ := by
    decide +kernel
  refine ⟨.blocks ha hempty hempty, ha, rfl, ?_⟩
  rw [Entry.ofSource, htokens]
  rfl

end Node

end MagSyntax
