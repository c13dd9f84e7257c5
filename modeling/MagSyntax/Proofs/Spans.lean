import MagSyntax.Proofs.Soundness

/-! Where the parts of a tree stand. A tree that is read from some of the tokens carries the place of the
first of them, and its parts are read from tokens among these, in the order of its fields and none from a
token of another part. -/

namespace MagSyntax

/-- The parts of a node in the order of its fields. -/
def Node.parts : Node → List Node
  | .program _ body | .block _ body => body
  | .expressionStatement _ e | .parenthesized _ e | .unary _ _ e _ => [e]
  | .conditionalStatement _ condition consequent alternate =>
    condition :: consequent :: alternate.toList
  | .declaration _ left type right _ _ => left :: (type.toList ++ right.toList)
  | .conditional _ condition consequent alternate _ => [condition, consequent, alternate]
  | .assignment _ left right _ | .binary _ _ left right => [left, right]
  | .field _ object name => [object, name]
  | .index _ object i => [object, i]
  | .call _ callee arguments => callee :: arguments
  | .array _ elements | .arrayPattern _ elements => elements
  | .identifier .. | .numeric .. | .string .. | .boolean .. | .regex .. | .bare _ => []

namespace Input

open Grammar

mutual

/-- The tree is read from the tokens between two places: they are a way to write it, it stands where the first
of them does, and its parts are read from tokens in between. Only a program can be read from no token, and
stands where the next one does. The name of a field can have the spelling of a keyword. -/
inductive Spans (input : Input) : Nat → Node → Nat → Prop
  | node {c stop : Nat} {n : Node} : input.Writes (fun _ => True) c n stop →
    c < stop ∨ n = .program n.loc [] → n.loc = locOf (input.get c) → AllSpan input c n.parts stop →
      Spans input c n stop
  | field {c d : Nat} {loc : Loc} {object : Node} : Spans input c object d →
    input.Writes (fun _ => True) c
      (.field loc object (.identifier (locOf (input.get (d + 1))) (input.get (d + 1)).value)) (d + 2) →
      loc = locOf (input.get c) → Spans input c
        (.field loc object (.identifier (locOf (input.get (d + 1))) (input.get (d + 1)).value)) (d + 2)

/-- The trees are read from tokens between two places, each from tokens behind those of the trees before it. -/
inductive AllSpan (input : Input) : Nat → List Node → Nat → Prop
  | nil {c stop : Nat} : c ≤ stop → AllSpan input c [] stop
  | cons {c d e stop : Nat} {n : Node} {rest : List Node} : c ≤ d → Spans input d n e →
    AllSpan input e rest stop → AllSpan input c (n :: rest) stop

end

variable {input : Input}

theorem Spans.writes {c stop : Nat} {n : Node} (h : input.Spans c n stop) :
    input.Writes (fun _ => True) c n stop := by
  cases h with
  | node hw => exact hw
  | field _ hw => exact hw

theorem Spans.le {c stop : Nat} {n : Node} (h : input.Spans c n stop) : c ≤ stop := h.writes.le

theorem Spans.loc {c stop : Nat} {n : Node} (h : input.Spans c n stop) : n.loc = locOf (input.get c) := by
  cases h with
  | node _ _ hloc => exact hloc
  | field _ _ hloc => exact hloc

namespace AllSpan

variable {c d e stop : Nat} {n : Node} {l l' : List Node}

theorem before (h : input.AllSpan d l stop) (hc : c ≤ d) : input.AllSpan c l stop := by
  cases h with
  | nil hle => exact .nil (Nat.le_trans hc hle)
  | cons hd hn hr => exact .cons (Nat.le_trans hc hd) hn hr

theorem append (h : input.AllSpan c l d) (h' : input.AllSpan d l' stop) : input.AllSpan c (l ++ l') stop := by
  induction l generalizing c with
  | nil =>
    cases h with
    | nil hle => exact h'.before hle
  | cons n l ih =>
    cases h with
    | cons hc hn hr => exact .cons hc hn (ih hr)

theorem behind (h : input.AllSpan c l d) (hd : d ≤ stop) : input.AllSpan c l stop := by
  rw [← List.append_nil l]
  exact h.append (.nil hd)

theorem le (h : input.AllSpan c l stop) : c ≤ stop := by
  induction l generalizing c with
  | nil =>
    cases h with
    | nil hle => exact hle
  | cons n l ih =>
    cases h with
    | cons hc hn hr => exact Nat.le_trans hc (Nat.le_trans hn.le (ih hr))

theorem single (h : input.Spans d n e) (hc : c ≤ d) (he : e ≤ stop) : input.AllSpan c [n] stop :=
  .cons hc h (.nil he)

end AllSpan

mutual

/-- What an expression is read as when something is assigned to it is read from the same tokens. -/
theorem Spans.asTarget (n : Node) {t : Node} {c stop : Nat} (h : input.Spans c n stop)
    (ht : n.asTarget = .ok t) : input.Spans c t stop := by
  have hw : input.Writes (fun _ => True) c t stop :=
    h.writes.imp fun ls hls => ⟨Node.writtenAs_of_asTarget n ht hls.1, hls.2⟩
  cases n with
  | array loc elements =>
    simp only [Node.asTarget] at ht
    split at ht
    next targets hts =>
      cases ht
      obtain ⟨-, hlt, hloc, hparts⟩ := h
      exact .node hw (.inl (hlt.resolve_right (by simp))) hloc (AllSpan.asTargets elements hparts hts)
    next => cases ht
  | identifier => cases ht; exact h
  | field =>
    simp only [Node.asTarget] at ht
    split at ht <;> cases ht
    exact h
  | index =>
    simp only [Node.asTarget] at ht
    split at ht <;> cases ht
    exact h
  | _ => cases ht

theorem AllSpan.asTargets (l : List Node) {ts : List Node} {c stop : Nat} (h : input.AllSpan c l stop)
    (ht : Node.asTargets l = .ok ts) : input.AllSpan c ts stop := by
  cases l with
  | nil => cases ht; exact h
  | cons n rest =>
    simp only [Node.asTargets] at ht
    split at ht
    next => cases ht
    next target hn =>
      split at ht
      next => cases ht
      next targets hr =>
        cases ht
        cases h with
        | cons hc hspan hrest =>
          exact .cons hc (Spans.asTarget n hspan hn) (AllSpan.asTargets rest hrest hr)

end

/-- The tree is read from tokens between two places, from one at least. -/
structure Occupies (input : Input) (c : Nat) (n : Node) (stop : Nat) : Prop where
  lt : c < stop
  spans : input.Spans c n stop

/-- The tree is read from the tokens between two places, if they are a way to write it. -/
structure Settles (input : Input) (c : Nat) (n : Node) (stop : Nat) : Prop where
  lt : c < stop
  spans : input.Writes (fun _ => True) c n stop → input.Spans c n stop

variable {c d stop : Nat} {n left right : Node}

theorem Occupies.settles (h : input.Occupies c n stop) : input.Settles c n stop := ⟨h.lt, fun _ => h.spans⟩

theorem Settles.occupies (h : input.Settles c n stop) (hw : input.Writes (fun _ => True) c n stop) :
    input.Occupies c n stop :=
  ⟨h.lt, h.spans hw⟩

theorem settles_of_parts (hlt : c < stop) (hloc : n.loc = locOf (input.get c))
    (hparts : input.AllSpan c n.parts stop) : input.Settles c n stop :=
  ⟨hlt, fun hw => .node hw (.inl hlt) hloc hparts⟩

/-- A node of two parts with a token between them, which stands where the first of them does. -/
theorem Occupies.operands (hl : input.Occupies c left d) (hr : input.Occupies (d + 1) right stop)
    (hloc : n.loc = left.loc) (hparts : n.parts = [left, right]) : input.Settles c n stop := by
  refine settles_of_parts (Nat.lt_trans hl.lt (Nat.lt_of_succ_lt hr.lt)) (hloc.trans hl.spans.loc) ?_
  rw [hparts]
  exact .cons (Nat.le_refl c) hl.spans (.single hr.spans (Nat.le_succ d) (Nat.le_refl stop))

/-! What stands on the left of an operator or of a link is a tree already, and stays one among the parts of the
next. -/

section

variable {e : Nat} {object i callee : Node} {arguments : List Node} (hp : input.IsProper)
include hp

theorem Occupies.binary {s : Symbol} (hl : input.Occupies c left d) (hk : (input.get d).kind = s)
    (hr : input.Occupies (d + 1) right stop) :
    input.Occupies c (.binary left.loc (input.get d).value left right) stop := by
  have hsettles : input.Settles c (.binary left.loc (input.get d).value left right) stop :=
    hl.operands hr rfl rfl
  refine hsettles.occupies ?_
  rw [hp.value_eq hk]
  exact hl.spans.writes.binary hp hk hr.spans.writes

theorem Occupies.field (ho : input.Occupies c object d) (hk : (input.get d).kind = Symbol.dot)
    (hn : (input.get (d + 1)).essence.NamesField) :
    input.Occupies c (.field object.loc object
      (.identifier (locOf (input.get (d + 1))) (input.get (d + 1)).value)) (d + 2) :=
  ⟨Nat.lt_add_right 2 ho.lt, .field ho.spans (ho.spans.writes.field hp hk hn) ho.spans.loc⟩

theorem Occupies.index (ho : input.Occupies c object d) (hopen : (input.get d).kind = Symbol.lbrack)
    (hi : input.Occupies (d + 1) i e) (hclose : (input.get e).kind = Symbol.rbrack) :
    input.Occupies c (.index object.loc object i) (e + 1) := by
  have hlt : c < e := Nat.lt_trans ho.lt (Nat.lt_of_succ_lt hi.lt)
  have hsettles : input.Settles c (.index object.loc object i) (e + 1) :=
    settles_of_parts (Nat.lt_succ_of_lt hlt) ho.spans.loc
      (.cons (Nat.le_refl c) ho.spans (.single hi.spans (Nat.le_succ d) (Nat.le_succ e)))
  exact hsettles.occupies (ho.spans.writes.index hp hopen hi.spans.writes hclose)

theorem Occupies.call (ho : input.Occupies c callee d) (hopen : (input.get d).kind = Symbol.lparen)
    (ha : input.AllSpan (d + 1) arguments e) (hw : input.ListWrites (fun _ => True) (d + 1) arguments e)
    (hclose : (input.get e).kind = Symbol.rparen) :
    input.Occupies c (.call callee.loc callee arguments) (e + 1) := by
  have hlt : c < e := Nat.lt_of_lt_of_le ho.lt (Nat.le_of_succ_le ha.le)
  have hsettles : input.Settles c (.call callee.loc callee arguments) (e + 1) :=
    settles_of_parts (Nat.lt_succ_of_lt hlt) ho.spans.loc
      (.cons (Nat.le_refl c) ho.spans ((ha.before (Nat.le_succ d)).behind (Nat.le_succ e)))
  exact hsettles.occupies (ho.spans.writes.call hp hopen hw hclose)

end

end Input

end MagSyntax
