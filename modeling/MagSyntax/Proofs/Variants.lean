import MagSyntax.Proofs.Flat

/-! Trees that are the same but for their parentheses, and the texts that they are printed as when no parentheses are
added. A variant of a tree is put together from variants of its parts. -/

namespace MagSyntax

open Lexeme Print Text

namespace Node

/-- The second tree is the first one but for its parentheses, and the text is printed for it, with no parentheses
but its own. -/
structure Varies (n s : Node) (text : Text) : Prop where
  prints : text.Prints s.lexemes
  unwrapped : s.unwrapped = n.unwrapped
  isFlat : s.IsFlat

/-- Trees that vary others one by one. -/
inductive VaryAll : List Node → List Node → List Text → Prop
  | nil : VaryAll [] [] []
  | cons {n s : Node} {u : Text} {l l' : List Node} {us : List Text} :
    n.Varies s u → VaryAll l l' us → VaryAll (n :: l) (s :: l') (u :: us)

variable {loc : Loc} {n m o n' m' o' : Node} {u v w : Text}

/-- The words of an `if` without blocks between its condition and its first branch. -/
def thenText (explicitThen : Bool) : Text := if explicitThen then " then " else " "

/-- An `if` without blocks that has no `then` has its condition in parentheses. -/
theorem text_branches {condition consequent alternate : Node} {explicitThen : Bool}
    (hq : consequent.isBlock = false) (hu : condition.text = .ok u) (hv : consequent.text = .ok v)
    (hw : alternate.text = .ok w) :
    (conditional loc condition consequent alternate explicitThen).text =
      .ok ("if " ++ groupText (!explicitThen || condition.needsGroupBare) u ++ thenText explicitThen ++ v ++ " else " ++
        w) := by
  refine (text_conditional hq).mpr ⟨u, v, w, hu, hv, hw, ?_⟩
  cases explicitThen <;> rfl

theorem Varies.group (h : n.Varies n' u) (needed : Bool) : n.Varies (grouped needed n') (groupText needed u) where
  prints := h.prints.group needed rfl
  unwrapped := (unwrapped_grouped needed n').trans h.unwrapped
  isFlat := by cases needed <;> exact h.isFlat

namespace VaryAll

variable {l l' k k' : List Node} {us vs : List Text}

theorem append (h : VaryAll l l' us) (hk : VaryAll k k' vs) : VaryAll (l ++ k) (l' ++ k') (us ++ vs) := by
  induction h with
  | nil => exact hk
  | cons hn _ ih => exact .cons hn ih

theorem prints (h : VaryAll l l' us) : PrintsAll us l' := by
  induction h with
  | nil => exact .nil
  | cons hn _ ih => exact .cons hn.prints ih

theorem unwrapped (h : VaryAll l l' us) : allUnwrapped l' = allUnwrapped l := by
  induction h with
  | nil => rfl
  | cons hn _ ih => simp only [allUnwrapped, hn.unwrapped, ih]

theorem isFlat (h : VaryAll l l' us) : AllFlat l' := by
  induction h with
  | nil => trivial
  | cons hn _ ih => exact ⟨hn.isFlat, ih⟩

theorem prints_brackets (h : VaryAll l l' us) :
    ("[" ++ List.intercalate ", " us ++ "]" : Text).Prints
      (.ofSymbol .lbrack :: listLexemes l' ++ [.ofSymbol .rbrack]) :=
  ⟨⟨'[', _, rfl, by decide⟩, (laysOut_between .lbrack .rbrack (by decide) (by decide) (ends_cons (by decide) _)
    h.prints.lays).weaken⟩

theorem array (h : VaryAll l l' us) :
    (array loc l).Varies (.array loc l') ("[" ++ List.intercalate ", " us ++ "]") where
  prints := h.prints_brackets
  unwrapped := by simp only [Node.unwrapped, h.unwrapped]
  isFlat := h.isFlat

theorem arrayPattern (h : VaryAll l l' us) :
    (arrayPattern loc l).Varies (.arrayPattern loc l') ("[" ++ List.intercalate ", " us ++ "]") where
  prints := h.prints_brackets
  unwrapped := by simp only [Node.unwrapped, h.unwrapped]
  isFlat := h.isFlat

end VaryAll

namespace Varies

theorem parenthesized (h : n.Varies n' u) : (parenthesized loc n).Varies (.parenthesized loc n') (parenthesize u) where
  prints := h.prints.parenthesize
  unwrapped := h.unwrapped
  isFlat := h.isFlat

theorem field (h : n.Varies n' u) {name : Node} (hw : name.isWord) :
    (field loc n name).Varies (.field loc n' name) (u ++ "." ++ name.nameText) where
  prints := h.prints.field (isName_of_isWord hw)
  unwrapped := by simp only [Node.unwrapped, h.unwrapped]
  isFlat := ⟨h.isFlat, hw⟩

theorem index (h : n.Varies n' u) (hi : m.Varies m' v) :
    (index loc n m).Varies (.index loc n' m') (u ++ "[" ++ v ++ "]") where
  prints := h.prints.between .lbrack .rbrack (by decide) (by decide) (ends_cons (by decide))
    (ends_cons (by decide) _) hi.prints.lays
  unwrapped := by simp only [Node.unwrapped, h.unwrapped, hi.unwrapped]
  isFlat := ⟨h.isFlat, hi.isFlat⟩

theorem call {l l' : List Node} {us : List Text} (h : n.Varies n' u) (hl : VaryAll l l' us) :
    (call loc n l).Varies (.call loc n' l') (u ++ "(" ++ List.intercalate ", " us ++ ")") where
  prints := h.prints.between .lparen .rparen (by decide) (by decide) (ends_cons (by decide))
    (ends_cons (by decide) _) hl.prints.lays
  unwrapped := by simp only [Node.unwrapped, h.unwrapped, hl.unwrapped]
  isFlat := ⟨h.isFlat, hl.isFlat⟩

theorem unary (h : n.Varies n' u) {leading : Bool} :
    (unary loc Symbol.sub.spelling n leading).Varies (.unary loc Symbol.sub.spelling n' leading)
      (Symbol.sub.spelling ++ u) where
  prints := by
    rw [lexemes, ofOperator_spelling]
    exact Prints.behind ⟨'-', [], rfl, by decide⟩ (laysOut_symbol .sub (by decide)) h.prints.lays
  unwrapped := by simp only [Node.unwrapped, h.unwrapped]
  isFlat := ⟨rfl, h.isFlat⟩

theorem binary {operator : Text} {level : Level} (ho : Level.ofOperator operator = .ok level)
    (h : n.Varies n' u) (hm : m.Varies m' v) :
    (binary loc operator n m).Varies (.binary loc operator n' m') (u ++ " " ++ operator ++ " " ++ v) where
  prints := by
    obtain ⟨sym, rfl, -⟩ := Level.symbol_of_ofOperator ho
    rw [lexemes, ofOperator_spelling]
    exact h.prints.joinBy sym hm.prints
  unwrapped := by simp only [Node.unwrapped, h.unwrapped, hm.unwrapped]
  isFlat := ⟨⟨level, ho⟩, h.isFlat, hm.isFlat⟩

theorem assignment (h : n.Varies n' u) (hm : m.Varies m' v) :
    (assignment loc n m Symbol.assign.spelling).Varies (.assignment loc n' m' Symbol.assign.spelling)
      (u ++ " " ++ Symbol.assign.spelling ++ " " ++ v) where
  prints := by
    rw [lexemes, ofOperator_spelling]
    exact h.prints.joinBy .assign hm.prints
  unwrapped := by simp only [Node.unwrapped, h.unwrapped, hm.unwrapped]
  isFlat := ⟨rfl, h.isFlat, hm.isFlat⟩

/-- The condition of an `if` without blocks stands in parentheses that are its own if there is no `then`, and in some
that are added if those are needed before a `then`. -/
theorem conditional (loc : Loc) (explicitThen needed : Bool) (h : n.Varies n' u) (hm : m.Varies m' v)
    (ho : o.Varies o' w) : (conditional loc n m o explicitThen).Varies
      (.conditional loc (grouped (explicitThen && needed) n') m' o' explicitThen)
      ("if " ++ groupText (!explicitThen || needed) u ++ thenText explicitThen ++ v ++ " else " ++ w) where
  prints := by
    refine prints_branches ⟨'i', _, rfl, by decide⟩ ?_ hm.prints.lays ho.prints.lays
    rw [conditionWords, hm.isFlat.isBlock]
    cases explicitThen with
    | true => exact laysOut_if_then (h.group needed).prints.lays
    | false => exact laysOut_if h.prints.parenthesize.lays
  unwrapped := by simp only [Node.unwrapped, unwrapped_grouped, h.unwrapped, hm.unwrapped, ho.unwrapped]
  isFlat := ⟨(h.group _).isFlat, hm.isFlat, ho.isFlat⟩

end Varies

mutual

/-- A flat tree varies as the one with the parentheses that printing adds. -/
theorem varies_enclosed (n : Node) (h : n.IsFlat) : ∃ s, n.text = .ok s ∧ n.Varies n.enclosed s := by
  cases n with
  | identifier loc name => exact ⟨name, rfl, prints_of_isLegible h, rfl, h⟩
  | numeric loc digits base => exact ⟨_, h.2, prints_of_isLegible h.1, rfl, h⟩
  | string loc value => exact ⟨_, rfl, prints_of_isLegible (Lexeme.isLegible_string value), rfl, h⟩
  | boolean loc value =>
    refine ⟨_, rfl, ?_, rfl, h⟩
    cases value
    · exact prints_of_isLegible (Lexeme.isLegible_ofKeyword .falseWord)
    · exact prints_of_isLegible (Lexeme.isLegible_ofKeyword .trueWord)
  | regex loc pattern flags => exact ⟨_, rfl, prints_of_isLegible h, rfl, h⟩
  | parenthesized loc e =>
    obtain ⟨s, hs, hv⟩ := varies_enclosed e h
    exact ⟨_, text_parenthesized.mpr ⟨s, hs, rfl⟩, hv.parenthesized⟩
  | array loc elements =>
    obtain ⟨l, hl, hv⟩ := varyAll_enclosed elements h
    exact ⟨_, bracketed_iff.mpr ⟨l, hl, rfl⟩, hv.array⟩
  | arrayPattern loc elements =>
    obtain ⟨l, hl, hv⟩ := varyAll_enclosed elements h
    exact ⟨_, bracketed_iff.mpr ⟨l, hl, rfl⟩, hv.arrayPattern⟩
  | field loc object name =>
    obtain ⟨s, hs, hv⟩ := varies_enclosed object h.1
    exact ⟨_, text_field.mpr ⟨s, hs, isIdentifier_of_isWord h.2, rfl⟩, (hv.group _).field h.2⟩
  | index loc object i =>
    obtain ⟨s, hs, hv⟩ := varies_enclosed object h.1
    obtain ⟨u, hu, hv'⟩ := varies_enclosed i h.2
    exact ⟨_, text_index.mpr ⟨s, u, hs, hu, rfl⟩, (hv.group _).index hv'⟩
  | call loc callee arguments =>
    obtain ⟨s, hs, hv⟩ := varies_enclosed callee h.1
    obtain ⟨l, hl, hv'⟩ := varyAll_enclosed arguments h.2
    exact ⟨_, text_call.mpr ⟨s, l, hs, hl, rfl⟩, (hv.group _).call hv'⟩
  | unary loc operator argument leading =>
    obtain ⟨rfl, ha⟩ := h
    obtain ⟨s, hs, hv⟩ := varies_enclosed argument ha
    exact ⟨_, text_unary.mpr ⟨s, hs, rfl⟩, (hv.group _).unary⟩
  | binary loc operator left right =>
    obtain ⟨⟨level, ho⟩, hl, hr⟩ := h
    obtain ⟨s, hs, hv⟩ := varies_enclosed left hl
    obtain ⟨u, hu, hv'⟩ := varies_enclosed right hr
    refine ⟨_, (text_binary ho).mpr ⟨s, u, hs, hu, rfl⟩, ?_⟩
    rw [enclosed_binary ho]
    exact .binary ho (hv.group _) (hv'.group _)
  | assignment loc left right operator =>
    obtain ⟨rfl, hl, hr⟩ := h
    obtain ⟨s, hs, hv⟩ := varies_enclosed left hl
    obtain ⟨u, hu, hv'⟩ := varies_enclosed right hr
    exact ⟨_, text_assignment.mpr ⟨s, u, hs, hu, rfl⟩, hv.assignment hv'⟩
  | conditional loc condition consequent alternate explicitThen =>
    obtain ⟨c, hc, hv⟩ := varies_enclosed condition h.1
    obtain ⟨u, hu, hv'⟩ := varies_enclosed consequent h.2.1
    obtain ⟨v, ha, hv''⟩ := varies_enclosed alternate h.2.2
    refine ⟨_, text_branches h.2.1.isBlock hc hu ha, ?_⟩
    rw [enclosed, h.2.1.isBlock, Bool.or_false]
    exact hv.conditional loc explicitThen _ hv' hv''
  | _ => cases h

/-- Flat trees vary as those with the parentheses that printing adds. -/
theorem varyAll_enclosed (l : List Node) (h : AllFlat l) :
    ∃ us, allTexts l = .ok us ∧ VaryAll l (allEnclosed l) us := by
  cases l with
  | nil => exact ⟨[], rfl, .nil⟩
  | cons n rest =>
    obtain ⟨s, hs, hv⟩ := varies_enclosed n h.1
    obtain ⟨us, hus, hall⟩ := varyAll_enclosed rest h.2
    refine ⟨s :: us, ?_, .cons hv hall⟩
    rw [allTexts, hs, hus]
    rfl

end

end Node

end MagSyntax
