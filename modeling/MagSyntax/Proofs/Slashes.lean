import MagSyntax.Proofs.Layout

/-! Where the slashes of a tree that is written out are read as they should be. Wherever an expression can
start, its own slashes fall into place: a regular expression stands where a value would, and a sign
of division stands behind one. The one doubtful place is behind an `if`, where a group in parentheses
would be taken for the whole condition. -/

namespace MagSyntax

namespace SlashContext

/-- An expression can start here. -/
structure IsOpen (c : SlashContext) : Prop where
  regexAllowed : c.regexAllowed = true
  previous : c.previous ≠ some (Symbol.dot : TokenKind)

/-- An expression can start here, and a parenthesis opens no condition. -/
structure IsFree (c : SlashContext) : Prop where
  isOpen : c.IsOpen
  opensCondition : c.opensCondition = false

theorem isFree_start : start.IsFree := ⟨⟨rfl, by decide⟩, rfl⟩

/-- Behind a token that ends no value, except for a point and an `if`. -/
theorem isFree_after {kind : TokenKind} (hv : kind ∉ valueEnds) (hd : kind ≠ Symbol.dot)
    (hif : kind ≠ Keyword.ifWord) (c : SlashContext) : (c.after kind).IsFree := by
  refine ⟨⟨?_, ?_⟩, ?_⟩
  · simp [regexAllowed, after, hv]
  · simpa [after] using hd
  · simp [after, hif]

theorem isOpen_after_if (c : SlashContext) : (c.after Keyword.ifWord).IsOpen :=
  ⟨by simp [regexAllowed, after, valueEnds], by simp [after]⟩

theorem groups_after {kind : TokenKind} (hl : kind ≠ Symbol.lparen) (hr : kind ≠ Symbol.rparen)
    (c : SlashContext) : (c.after kind).groups = c.groups := by
  simp [after, groupsAfter, hl, hr]

theorem groups_after_lparen (c : SlashContext) :
    (c.after Symbol.lparen).groups = c.opensCondition :: c.groups := rfl

theorem groups_after_rparen (c : SlashContext) : (c.after Symbol.rparen).groups = c.groups.tail := rfl

theorem afterCondition_after_rparen (c : SlashContext) :
    (c.after Symbol.rparen).afterCondition = decide (c.groups.head? = some true) := rfl

theorem opensCondition_after {kind : TokenKind} (h : kind ≠ Keyword.ifWord) (c : SlashContext) :
    (c.after kind).opensCondition = false := by
  simp [after, h]

theorem afterCondition_after {kind : TokenKind} (h : kind ≠ Symbol.rparen) (c : SlashContext) :
    (c.after kind).afterCondition = false := by
  simp [after, h]

end SlashContext

namespace Lexeme

open SlashContext

variable {l : Lexeme} {a b : List Lexeme} {g d : Bool}

/-- The lexemes are those of a value: `group` says that they are a group in parentheses, and `divided` that
a sign of division stands behind a group at their front. -/
structure AreValue (ls : List Lexeme) (group divided : Bool) : Prop where
  admits : ∀ c : SlashContext, c.IsOpen → (c.opensCondition → divided = false) → c.Admits ls
  groups : ∀ c : SlashContext, (c.afterAll ls).groups = c.groups
  opensCondition : ∀ c : SlashContext, (c.afterAll ls).opensCondition = false
  afterCondition : ∀ c : SlashContext,
    (c.afterAll ls).afterCondition = (c.opensCondition && group)

/-- The lexemes can stand between brackets. -/
structure AreInner (ls : List Lexeme) : Prop where
  admits : ∀ c : SlashContext, c.IsFree → c.Admits ls
  groups : ∀ c : SlashContext, (c.afterAll ls).groups = c.groups

/-- The lexemes are those of statements. -/
structure AreStatements (ls : List Lexeme) : Prop extends AreInner ls where
  isFree : ∀ c : SlashContext, c.IsFree → (c.afterAll ls).IsFree

theorem fits_ofSymbol {s : Symbol} (h : s ≠ .div) (c : Bool) : (ofSymbol s).Fits c :=
  fits_of_kind (fun hk => h (TokenKind.symbol.inj hk)) (by simp [ofSymbol]) c

theorem fits_ofKeyword (k : Keyword) (c : Bool) : (ofKeyword k).Fits c :=
  fits_of_kind (by simp [ofKeyword]) (by simp [ofKeyword]) c

theorem AreValue.inner (h : AreValue a g d) : AreInner a :=
  ⟨fun c hc => h.admits c hc.isOpen fun ho => absurd ho (by simp [hc.opensCondition]), h.groups⟩

/-- A value that is one token long. -/
theorem areValue_singleton (hd : l.kind ≠ Symbol.div) (hl : l.kind ≠ Symbol.lparen)
    (hr : l.kind ≠ Symbol.rparen) (hif : l.kind ≠ Keyword.ifWord) : AreValue [l] false false where
  admits _ hc _ := ⟨⟨fun h => absurd h hd, fun _ => hc.regexAllowed⟩, trivial⟩
  groups := groups_after hl hr
  opensCondition := opensCondition_after hif
  afterCondition c := (afterCondition_after hr c).trans (Bool.and_false _).symm

/-- The lexemes stand wherever they like and are nothing that a condition could end with. -/
structure AreClosed (ls : List Lexeme) : Prop where
  admits : ∀ c : SlashContext, c.Admits ls
  groups : ∀ c : SlashContext, (c.afterAll ls).groups = c.groups
  opensCondition : ∀ c : SlashContext, (c.afterAll ls).opensCondition = false
  afterCondition : ∀ c : SlashContext, c.opensCondition = false →
    (c.afterAll ls).afterCondition = false

/-- A list in parentheses, which is a condition right behind an `if` only. -/
theorem AreInner.group (h : AreInner a) :
    AreClosed (.ofSymbol .lparen :: a ++ [.ofSymbol .rparen]) ∧
      ∀ c : SlashContext, (c.afterAll (.ofSymbol .lparen :: a ++ [.ofSymbol .rparen])).afterCondition =
        c.opensCondition := by
  have hafter (c : SlashContext) : c.afterAll (.ofSymbol .lparen :: a ++ [.ofSymbol .rparen]) =
      ((c.after Symbol.lparen).afterAll a).after Symbol.rparen :=
    afterAll_append _ a [.ofSymbol .rparen]
  have hcondition (c : SlashContext) : ((c.after Symbol.lparen).afterAll a).groups =
      c.opensCondition :: c.groups := by
    rw [h.groups, groups_after_lparen]
  have hclosing (c : SlashContext) :
      (c.afterAll (.ofSymbol .lparen :: a ++ [.ofSymbol .rparen])).afterCondition =
        c.opensCondition := by
    rw [hafter, afterCondition_after_rparen, hcondition]
    simp
  refine ⟨⟨fun c => ?_, fun c => ?_, fun c => ?_, fun c hc => (hclosing c).trans hc⟩, hclosing⟩
  · refine ⟨fits_ofSymbol (by decide) _, admits_append.mpr ⟨h.admits _ ?_, ?_⟩⟩
    · exact isFree_after (by decide) (by decide) (by decide) c
    · exact ⟨fits_ofSymbol (by decide) _, trivial⟩
  · rw [hafter, groups_after_rparen, hcondition, List.tail_cons]
  · rw [hafter, opensCondition_after (by decide)]

/-- What stands between brackets other than parentheses. -/
theorem AreInner.between (h : AreInner a) (left right : Symbol)
    (hleft : left ∈ [Symbol.lbrack, .lbrace]) (hright : right ∈ [Symbol.rbrack, .rbrace]) :
    AreClosed (.ofSymbol left :: a ++ [.ofSymbol right]) ∧
      ∀ c : SlashContext, (c.afterAll (.ofSymbol left :: a ++ [.ofSymbol right])).afterCondition =
        false := by
  have hl : left ≠ .div ∧ left ≠ .lparen ∧ left ≠ .rparen ∧ (left : TokenKind) ∉ valueEnds ∧
      left ≠ .dot := by
    revert hleft
    cases left <;> decide
  have hr : right ≠ .div ∧ right ≠ .lparen ∧ right ≠ .rparen := by
    revert hright
    cases right <;> decide
  have hafter (c : SlashContext) : c.afterAll (.ofSymbol left :: a ++ [.ofSymbol right]) =
      ((c.after left).afterAll a).after right :=
    afterAll_append _ a [.ofSymbol right]
  have hlast (c : SlashContext) :
      (c.afterAll (.ofSymbol left :: a ++ [.ofSymbol right])).afterCondition = false := by
    rw [hafter, afterCondition_after (by simpa using hr.2.2)]
  refine ⟨⟨fun c => ?_, fun c => ?_, fun c => ?_, fun c _ => hlast c⟩, hlast⟩
  · refine ⟨fits_ofSymbol hl.1 _, admits_append.mpr ⟨h.admits _ ?_, fits_ofSymbol hr.1 _, trivial⟩⟩
    exact isFree_after hl.2.2.2.1 (by simpa using hl.2.2.2.2) (by simp) c
  · rw [hafter, groups_after (by simpa using hr.2.1) (by simpa using hr.2.2), h.groups,
      groups_after (by simpa using hl.2.1) (by simpa using hl.2.2.1)]
  · rw [hafter, opensCondition_after (by simp)]

theorem AreInner.parenthesized (h : AreInner a) :
    AreValue (.ofSymbol .lparen :: a ++ [.ofSymbol .rparen]) true false where
  admits c _ _ := h.group.1.admits c
  groups := h.group.1.groups
  opensCondition := h.group.1.opensCondition
  afterCondition c := (h.group.2 c).trans (Bool.and_true _).symm

/-- An array, or a block that is a branch. -/
theorem AreInner.bracketed (h : AreInner a) {left right : Symbol}
    (hleft : left ∈ [Symbol.lbrack, .lbrace]) (hright : right ∈ [Symbol.rbrack, .rbrace]) :
    AreValue (.ofSymbol left :: a ++ [.ofSymbol right]) false false where
  admits c _ _ := (h.between left right hleft hright).1.admits c
  groups := (h.between left right hleft hright).1.groups
  opensCondition := (h.between left right hleft hright).1.opensCondition
  afterCondition c := ((h.between left right hleft hright).2 c).trans (Bool.and_false _).symm

/-- The name of a field behind its point. -/
theorem areClosed_field (w : Text) : AreClosed [.ofSymbol .dot, .ofWord w] := by
  have hkind : (ofWord w).kind ≠ Symbol.div ∧ (ofWord w).kind ≠ .regex ∧
      (ofWord w).kind ≠ Symbol.lparen ∧ (ofWord w).kind ≠ Symbol.rparen := by
    rcases kind_ofWord w with h | ⟨k, h⟩ <;> simp [h]
  refine ⟨fun c => ⟨fits_ofSymbol (by decide) _, fits_of_kind hkind.1 hkind.2.1 _, trivial⟩,
    fun c => ?_, fun c => ?_, fun c _ => ?_⟩
  · exact groups_after hkind.2.2.1 hkind.2.2.2 _
  -- behind a point an `if` is the name of a field
  · simp [afterAll, SlashContext.after, ofSymbol]
  · exact afterCondition_after hkind.2.2.2 _

/-- A link of a chain behind its object. -/
theorem AreValue.link (h : AreValue a g false) (hb : AreClosed b) : AreValue (a ++ b) false false where
  admits c hc _ := admits_append.mpr ⟨h.admits c hc fun _ => rfl, hb.admits _⟩
  groups c := by rw [afterAll_append, hb.groups, h.groups]
  opensCondition c := by rw [afterAll_append, hb.opensCondition]
  afterCondition c := by
    rw [afterAll_append, hb.afterCondition _ (h.opensCondition c), Bool.and_false]

theorem AreValue.index (h : AreValue a g false) (hb : AreInner b) :
    AreValue (a ++ .ofSymbol .lbrack :: b ++ [.ofSymbol .rbrack]) false false := by
  simpa using h.link (hb.between .lbrack .rbrack (by decide) (by decide)).1

theorem AreValue.call (h : AreValue a g false) (hb : AreInner b) :
    AreValue (a ++ .ofSymbol .lparen :: b ++ [.ofSymbol .rparen]) false false := by
  simpa using h.link hb.group.1

/-- Behind a value the lexemes stand wherever they like. -/
structure AreTail (ls : List Lexeme) : Prop where
  admits : ∀ c : SlashContext, c.Admits ls
  groups : ∀ c : SlashContext, (c.afterAll ls).groups = c.groups

/-- The lexemes open an `if` with a value. -/
structure AreOpening (ls : List Lexeme) : Prop where
  admits : ∀ c : SlashContext, c.IsOpen → c.Admits ls
  groups : ∀ c : SlashContext, (c.afterAll ls).groups = c.groups

/-- Behind the lexeme an expression can start, wherever it stands itself. -/
structure IsMark (l : Lexeme) : Prop where
  fits : ∀ regexAllowed, l.Fits regexAllowed
  isFree : ∀ c : SlashContext, (c.after l.kind).IsFree
  groups : ∀ c : SlashContext, (c.after l.kind).groups = c.groups

theorem isMark_ofSymbol {s : Symbol} (h : s ∉ [.div, .lparen, .rparen, .rbrack, .dot]) :
    (ofSymbol s).IsMark := by
  simp only [List.mem_cons, List.not_mem_nil, or_false, not_or] at h
  exact ⟨fits_ofSymbol h.1, isFree_after (by simp [valueEnds, ofSymbol, h]) (by simp [ofSymbol, h])
    (by simp [ofSymbol]), groups_after (by simp [ofSymbol, h]) (by simp [ofSymbol, h])⟩

theorem isMark_ofKeyword {k : Keyword} (h : k ∉ [.ifWord, .trueWord, .falseWord]) :
    (ofKeyword k).IsMark := by
  simp only [List.mem_cons, List.not_mem_nil, or_false, not_or] at h
  exact ⟨fits_ofKeyword k, isFree_after (by simp [valueEnds, ofKeyword, h]) (by simp [ofKeyword])
    (by simp [ofKeyword, h]), groups_after (by simp [ofKeyword]) (by simp [ofKeyword])⟩

theorem areTail_nil : AreTail [] := ⟨fun _ => trivial, fun _ => rfl⟩

theorem areInner_nil : AreInner [] := ⟨fun _ _ => trivial, fun _ => rfl⟩

theorem AreInner.marked (h : AreInner a) (hl : l.IsMark) : AreTail (l :: a) where
  admits c := ⟨hl.fits _, h.admits _ (hl.isFree c)⟩
  groups c := (h.groups _).trans (hl.groups c)

theorem AreTail.append (ha : AreTail a) (hb : AreTail b) : AreTail (a ++ b) where
  admits c := admits_append.mpr ⟨ha.admits c, hb.admits _⟩
  groups c := by rw [afterAll_append, hb.groups, ha.groups]

theorem AreTail.inner (h : AreTail a) : AreInner a := ⟨fun c _ => h.admits c, h.groups⟩

theorem AreInner.append (ha : AreInner a) (hb : AreTail b) : AreInner (a ++ b) where
  admits c hc := admits_append.mpr ⟨ha.admits c hc, hb.admits _⟩
  groups c := by rw [afterAll_append, hb.groups, ha.groups]

/-- Marks in front of what stands between brackets. -/
theorem AreInner.behind (h : AreInner b) (ha : ∀ l ∈ a, l.IsMark) : AreInner (a ++ b) := by
  induction a with
  | nil => exact h
  | cons l a ih =>
    rw [List.forall_mem_cons] at ha
    exact ((ih ha.2).marked ha.1).inner

/-- A value behind a mark that others stand before. -/
theorem AreOpening.value {x : List Lexeme} (hx : AreOpening x) (hl : l.IsMark) (h : AreValue a g d) :
    AreValue (x ++ l :: a) false false where
  admits c hc _ := admits_append.mpr ⟨hx.admits c hc, hl.fits _, h.inner.admits _ (hl.isFree _)⟩
  groups c := by
    rw [afterAll_append]
    exact (h.groups _).trans ((hl.groups _).trans (hx.groups c))
  opensCondition c := by
    rw [afterAll_append]
    exact h.opensCondition _
  afterCondition c := by
    rw [afterAll_append, Bool.and_false]
    refine (h.afterCondition _).trans ?_
    rw [(hl.isFree _).opensCondition, Bool.false_and]

theorem AreValue.unary (h : AreValue a g d) : AreValue (.ofSymbol .sub :: a) false false :=
  AreOpening.value (x := []) ⟨fun _ _ => trivial, fun _ => rfl⟩ (isMark_ofSymbol (by decide)) h

theorem previous_afterAll {x : Lexeme} (h : a.getLast? = some x) (c : SlashContext) :
    (c.afterAll a).previous = some x.kind := by
  obtain ⟨init, rfl⟩ := List.getLast?_eq_some_iff.mp h
  rw [afterAll_append]
  rfl

/-- An operator between two values; a sign of division must find the end of one before it. -/
theorem AreValue.joinBy {s : Symbol} (hs : s ∉ [Symbol.lparen, .rparen, .rbrack, .dot])
    (hdiv : s = .div → ∃ x, a.getLast? = some x ∧ x.kind ∈ valueEnds) (ha : AreValue a g d)
    (hgd : g → d = false) {g' d' : Bool} (hb : AreValue b g' d') :
    AreValue (a ++ .ofSymbol s :: b) false (if g then s = .div else d) := by
  have hfree (c : SlashContext) : (c.after s).IsFree := by
    simp only [List.mem_cons, List.not_mem_nil, or_false, not_or] at hs
    exact isFree_after (by simp [valueEnds, hs]) (by simp [hs]) (by simp) c
  have hgroups (c : SlashContext) : (c.after s).groups = c.groups := by
    simp only [List.mem_cons, List.not_mem_nil, or_false, not_or] at hs
    exact groups_after (by simp [hs]) (by simp [hs]) c
  refine ⟨fun c hc ho => ?_, fun c => ?_, fun c => ?_, fun c => ?_⟩
  · have hadmits : c.Admits a := by
      refine ha.admits c hc fun hopen => ?_
      cases g with
      | true => exact hgd rfl
      | false => exact ho hopen
    refine admits_append.mpr ⟨hadmits, ⟨fun hk => ?_, by simp [ofSymbol]⟩, hb.inner.admits _ (hfree _)⟩
    -- a sign of division behind a group that is the whole condition would start a regular expression
    obtain rfl : s = .div := TokenKind.symbol.inj hk
    obtain ⟨x, hx, hv⟩ := hdiv rfl
    have hlast : (c.opensCondition && g) = false := by
      cases g with
      | false => exact Bool.and_false _
      | true => exact (Bool.and_true _).trans (Bool.eq_false_iff.mpr fun hopen => by cases ho hopen)
    simp [regexAllowed, ha.afterCondition, hlast, previous_afterAll hx, hv]
  · rw [afterAll_append]
    exact (hb.groups _).trans ((hgroups _).trans (ha.groups c))
  · rw [afterAll_append]
    exact hb.opensCondition _
  · rw [afterAll_append, Bool.and_false]
    refine (hb.afterCondition _).trans ?_
    show ((SlashContext.after _ s).opensCondition && g') = false
    rw [(hfree _).opensCondition, Bool.false_and]

/-- Behind an `if` and its condition in parentheses a branch can start. -/
theorem AreInner.isFree_condition (h : AreInner a) {c : SlashContext} (hc : c.IsOpen) :
    ((c.after Keyword.ifWord).afterAll (.ofSymbol .lparen :: a ++ [.ofSymbol .rparen])).IsFree := by
  have hopens : (c.after Keyword.ifWord).opensCondition = true := by
    simp [SlashContext.after, hc.previous]
  have hlast : (.ofSymbol .lparen :: a ++ [.ofSymbol .rparen] : List Lexeme).getLast? =
      some (.ofSymbol .rparen) := List.getLast?_concat
  refine ⟨⟨?_, ?_⟩, h.group.1.opensCondition _⟩
  · rw [regexAllowed, h.group.2, hopens, Bool.true_or]
  · rw [previous_afterAll hlast]
    simp [ofSymbol]

theorem groups_after_if (c : SlashContext) : (c.after Keyword.ifWord).groups = c.groups :=
  groups_after (by simp) (by simp) c

theorem AreInner.opening_group (h : AreInner a) (hb : AreInner b) :
    AreOpening (.ofKeyword .ifWord :: (.ofSymbol .lparen :: a ++ [.ofSymbol .rparen]) ++ b) where
  admits c hc := ⟨fits_ofKeyword _ _, admits_append.mpr
    ⟨h.group.1.admits _, hb.admits _ (h.isFree_condition hc)⟩⟩
  groups c := by
    show ((c.after Keyword.ifWord).afterAll (_ ++ b)).groups = _
    rw [afterAll_append, hb.groups, h.group.1.groups, groups_after_if]

theorem AreValue.opening_block (h : AreValue a g false) (hb : AreClosed b) :
    AreOpening (.ofKeyword .ifWord :: a ++ b) where
  admits c _ := ⟨fits_ofKeyword _ _, admits_append.mpr
    ⟨h.admits _ (isOpen_after_if c) fun _ => rfl, hb.admits _⟩⟩
  groups c := by
    show ((c.after Keyword.ifWord).afterAll (a ++ b)).groups = _
    rw [afterAll_append, hb.groups, h.groups, groups_after_if]

theorem AreValue.opening_then (h : AreValue a g false) (hb : AreInner b) :
    AreOpening (.ofKeyword .ifWord :: (a ++ [.ofKeyword .thenWord]) ++ b) := by
  have hthen := hb.marked (isMark_ofKeyword (k := .thenWord) (by decide))
  refine ⟨fun c _ => ⟨fits_ofKeyword _ _, ?_⟩, fun c => ?_⟩
  · rw [List.append_eq, List.append_assoc]
    exact admits_append.mpr ⟨h.admits _ (isOpen_after_if c) fun _ => rfl, hthen.admits _⟩
  · show ((c.after Keyword.ifWord).afterAll (a ++ [.ofKeyword .thenWord] ++ b)).groups = _
    rw [List.append_assoc, afterAll_append]
    exact (hthen.groups _).trans ((h.groups _).trans (groups_after_if c))

/-- The trees in a list, with commas between them. -/
theorem areInner_list {l : List Node} (h : ∀ n ∈ l, AreInner n.lexemes) :
    AreInner (Node.listLexemes l) := by
  have hrest : ∀ l : List Node, (∀ n ∈ l, AreInner n.lexemes) → AreTail (Node.restLexemes l) := by
    intro l h
    induction l with
    | nil => exact areTail_nil
    | cons n rest ih =>
      rw [List.forall_mem_cons] at h
      rw [Node.restLexemes, List.cons_append]
      exact (h.1.append (ih h.2)).marked (isMark_ofSymbol (by decide))
  cases l with
  | nil => exact areInner_nil
  | cons n rest =>
    rw [List.forall_mem_cons] at h
    exact h.1.append (hrest rest h.2)

theorem areStatements_nil : AreStatements [] := ⟨areInner_nil, fun _ h => h⟩

theorem AreStatements.append (ha : AreStatements a) (hb : AreStatements b) : AreStatements (a ++ b) where
  admits c hc := admits_append.mpr ⟨ha.admits c hc, hb.admits _ (ha.isFree c hc)⟩
  groups c := by rw [afterAll_append, hb.groups, ha.groups]
  isFree c hc := by
    rw [afterAll_append]
    exact hb.isFree _ (ha.isFree c hc)

/-- Lexemes that a mark stands behind, such as a semicolon or a closing brace. -/
theorem AreInner.statement (h : AreInner a) (hl : l.IsMark) : AreStatements (a ++ [l]) where
  toAreInner := h.append (areInner_nil.marked hl)
  isFree c _ := by
    rw [afterAll_append]
    exact hl.isFree _

/-- A mark in front of statements. -/
theorem AreStatements.marked (h : AreStatements a) (hl : l.IsMark) : AreStatements (l :: a) where
  admits c _ := (h.toAreInner.marked hl).admits c
  groups := (h.toAreInner.marked hl).groups
  isFree c _ := h.isFree _ (hl.isFree c)

/-- An `if` between statements. -/
theorem AreInner.conditionalStatement (h : AreInner a) (hb : AreStatements b) :
    AreStatements (.ofKeyword .ifWord :: (.ofSymbol .lparen :: a ++ [.ofSymbol .rparen]) ++ b) where
  admits c hc := (h.opening_group hb.toAreInner).admits c hc.isOpen
  groups := (h.opening_group hb.toAreInner).groups
  isFree c hc := by
    show ((c.after Keyword.ifWord).afterAll (_ ++ b)).IsFree
    rw [afterAll_append]
    exact hb.isFree _ (h.isFree_condition hc.isOpen)

end Lexeme

end MagSyntax
