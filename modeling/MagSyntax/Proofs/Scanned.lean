import MagSyntax.Proofs.Placement
import MagSyntax.Proofs.Reprinted

/-! Accepted trees can be read back. Their names and literals were read in a source, and every sign of division
in it stands behind the end of a value, where the printer leaves it. Only a field that is named by
something else than a word may be printed as what it was not. -/

namespace MagSyntax

open Lexeme

theorem SlashContext.mem_valueEnds_of_admits {c : SlashContext} {ls : List Lexeme} (h : c.Admits ls)
    {x y : Lexeme} (hxy : [x, y] <:+: ls) (hk : y.kind = Symbol.div) : x.kind ∈ valueEnds := by
  obtain ⟨s, t, rfl⟩ := hxy
  rw [List.append_assoc, admits_append] at h
  have hdivides := h.2.2.1.1 hk
  simp only [regexAllowed, after, Bool.or_eq_false_iff] at hdivides
  simpa using hdivides.2

theorem List.mem_zip_tail_of_infix {α : Type} {x y : α} {l : List α} (h : [x, y] <:+: l) :
    (x, y) ∈ l.zip l.tail := by
  obtain ⟨s, t, rfl⟩ := h
  induction s with
  | nil => exact List.mem_cons_self
  | cons a s ih =>
    cases hs : s ++ [x, y] ++ t with
    | nil => simp at hs
    | cons b rest =>
      rw [hs] at ih
      rw [List.cons_append, List.cons_append, hs]
      exact List.mem_cons_of_mem _ ih

/-- Every point in the source stands before a name or a reserved word. -/
def Text.NamesFields (source : Text) : Prop :=
  ∀ tokens, tokenize source = .ok tokens →
    ∀ pair ∈ tokens.zip tokens.tail, pair.1.kind = Symbol.dot → pair.2.kind.isWord

instance (source : Text) : Decidable source.NamesFields :=
  match h : tokenize source with
  | .ok tokens =>
    decidable_of_iff (∀ pair ∈ tokens.zip tokens.tail, pair.1.kind = Symbol.dot → pair.2.kind.isWord)
      ⟨fun hall tokens' h' => Except.ok.inj (h.symm.trans h') ▸ hall, fun hall => hall tokens h⟩
  | .error _ => .isTrue fun tokens h' => by cases h.symm.trans h'

namespace Lexeme

/-- The lexemes stand together in a source whose fields are named by words. -/
structure AreScanned (ls : List Lexeme) : Prop where
  scanned : ∀ l ∈ ls, l.kind ≠ .eof ∧ l.IsScanned
  divides : ∀ x y, [x, y] <:+: ls → y.kind = Symbol.div → x.kind ∈ SlashContext.valueEnds
  names : ∀ x y, [x, y] <:+: ls → x.kind = Symbol.dot → y.kind.isWord

theorem AreScanned.part {a b : List Lexeme} (h : AreScanned b) (hab : a <:+: b) : AreScanned a where
  scanned l hl := h.scanned l (hab.subset hl)
  divides x y hxy := h.divides x y (hxy.trans hab)
  names x y hxy := h.names x y (hxy.trans hab)

end Lexeme

theorem Text.Scans.areScanned {source : Text} {ls : List Lexeme} (h : source.Scans ls)
    (hf : source.NamesFields) : AreScanned ls where
  scanned := h.scanned
  divides _ _ := SlashContext.mem_valueEnds_of_admits h.admits
  names x y hxy hk := by
    obtain ⟨tokens, ht, hmap⟩ := h.tokens
    have hxy : [x, y] <:+: tokens.map Token.toLexeme :=
      hmap ▸ hxy.trans (List.prefix_append ls _).isInfix
    obtain ⟨pair, hpair, he⟩ := List.infix_map_iff.mp hxy
    obtain ⟨s, rest, rfl, rfl, hrest⟩ := List.map_eq_cons_iff.mp he.symm
    obtain ⟨t, rfl, rfl⟩ := List.map_eq_singleton_iff.mp hrest
    exact hf tokens ht _ (List.mem_zip_tail_of_infix hpair) hk

namespace Node

theorem ne_nil_of_writtenAs {n : Node} {bare : Node → Prop} {ls : List Lexeme} (he : n.isExpression)
    (hw : n.WrittenAs bare ls) : ls ≠ [] := by
  obtain ⟨first, rest, rfl, -⟩ := startsAs_of_writtenAs n he hw
  exact List.cons_ne_nil first rest

/-- What ends a value in a source still does when it is printed. -/
theorem endsValue_enclosed (n : Node) {bare : Node → Prop} {ls : List Lexeme} (he : n.isExpression)
    (hw : n.WrittenAs bare ls) (hls : AreScanned ls) (h : EndValue ls) : n.enclosed.EndsValue := by
  cases n with
  | identifier | numeric | string | boolean | regex =>
    cases hw
    exact h
  | parenthesized | array | index | call => exact endValue_concat.mpr (by decide)
  | field loc object name =>
    obtain ⟨a, word, -, -, hv, rfl⟩ := hw
    have hword := hls.names (.ofSymbol .dot) word ⟨a, [], by simp⟩ rfl
    obtain ⟨-, hword⟩ := (hls.scanned word (by simp)).2.of_word hword
    rw [hv] at hword
    rw [hword] at h
    exact (h.of_append (List.cons_ne_nil _ _)).append
  | unary loc operator argument leading =>
    obtain ⟨a, ha, rfl⟩ := hw
    simp only [isExpression, Bool.and_eq_true] at he
    have hend := endsValue_enclosed argument he.1.2 ha (hls.part (List.suffix_cons _ a).isInfix)
      (h.of_cons (a := []) (ne_nil_of_writtenAs he.1.2 ha))
    exact (endsValue_grouped hend _).append (a := [_])
  | binary loc operator left right =>
    obtain ⟨a, b, -, hb, rfl⟩ := hw
    cases ho : Level.ofOperator operator with
    | error => simp [isExpression, Level.operands, ho, bind, Except.bind] at he
    | ok level =>
      rw [isExpression_binary ho] at he
      simp only [Bool.and_eq_true] at he
      have hpart : AreScanned b := hls.part ⟨a ++ [.ofOperator operator], [], by simp⟩
      have hend := endsValue_enclosed right he.1.2 hb hpart
        (h.of_cons (ne_nil_of_writtenAs he.1.2 hb))
      rw [enclosed_binary ho]
      exact ((endsValue_grouped hend _).append (a := [_])).append
  | assignment loc left right operator =>
    obtain ⟨a, b, -, hb, rfl⟩ := hw
    simp only [isExpression, Bool.and_eq_true] at he
    have hpart : AreScanned b := hls.part ⟨a ++ [.ofOperator operator], [], by simp⟩
    have hend := endsValue_enclosed right he.2 hb hpart (h.of_cons (ne_nil_of_writtenAs he.2 hb))
    exact (hend.append (a := [_])).append
  | conditional loc condition consequent alternate explicitThen =>
    obtain ⟨a, b, d, -, -, hd, rfl⟩ := hw
    have hpart : AreScanned d :=
      hls.part ⟨conditionWords consequent explicitThen a ++ b ++ [.ofKeyword .elseWord], [], by simp⟩
    cases hblock : alternate.isBlock with
    | true =>
      -- the brace that ends a block ends no value
      cases alternate with
      | block loc body =>
        obtain ⟨e, -, rfl⟩ := hd
        exact absurd (endValue_concat.mp (h.of_cons (by simp))) (by decide)
      | _ => cases hblock
    | false =>
      have ha : alternate.isExpression := by
        simp only [isExpression, Bool.and_eq_true] at he
        have he := he.2
        split at he <;> simp [hblock] at he
        · exact he.2.2
        · exact he.2
      have hend := endsValue_enclosed alternate ha hd hpart (h.of_cons (ne_nil_of_writtenAs ha hd))
      exact (hend.append (a := [_])).append
  | _ => cases he

/-- If the node is a division, its left operand still ends a value when it is printed. -/
def DividesValue (n : Node) : Prop :=
  ∀ loc left right, n = .binary loc Symbol.div.spelling left right → left.enclosed.EndsValue

/-- The names and literals that a source writes can be read. -/
theorem isReadable_of_writtenAs {bare : Node → Prop} {n : Node} {ls : List Lexeme} (hw : n.WrittenAs bare ls)
    (h : ∀ l ∈ ls, l.kind ≠ .eof ∧ l.IsScanned) : n.IsReadable := by
  intro hfield
  cases n with
  | identifier | regex =>
    cases hw
    have hl := h _ (List.mem_singleton_self _)
    exact hl.2.isLegible hl.1
  | numeric =>
    cases hw
    have hl := h _ (List.mem_singleton_self _)
    exact ⟨hl.2.isLegible hl.1, hl.2.numeral rfl⟩
  | field loc object name => exact absurd rfl (hfield loc object name)
  | _ => trivial

theorem gives_isReadable : Gives (fun _ => True) (fun ls => ∀ l ∈ ls, l.kind ≠ .eof ∧ l.IsScanned) IsReadable where
  part _ _ hin h l hl := h l (hin.subset hl)
  node _ _ _ hw h := isReadable_of_writtenAs hw h

/-- What a source writes in a canonical tree is well placed and can be read back. -/
theorem gives_readsBack : Gives (fun _ => True) AreScanned
    fun n => n.IsWellPlaced ∧ n.IsLegible ∧ n.DividesValue where
  part _ _ hab h := h.part hab
  node n ls hn hw h := by
    refine ⟨(gives_isWellPlaced.node n ls hn hw h.scanned).1, ?_, ?_⟩
    · cases n with
      | field loc object name =>
        obtain ⟨a, word, -, -, hv, rfl⟩ := hw
        have hword := h.names (.ofSymbol .dot) word ⟨a, [], by simp⟩ rfl
        rw [IsLegible, ← hv]
        exact ((h.scanned word (by simp)).2.of_word hword).1
      | _ => exact isReadable_of_writtenAs hw h.scanned (by simp)
    · rintro loc left right rfl
      obtain ⟨a, b, ha, -, rfl⟩ := hw
      have he : left.isExpression := by
        rcases hn with he | he | he
        · rw [isExpression_binary (show Level.ofOperator Symbol.div.spelling = .ok _ from rfl)] at he
          simp only [Bool.and_eq_true] at he
          exact he.1.1.1
        · cases he
        · cases he
      obtain ⟨x, hx⟩ := Option.isSome_iff_exists.mp
        (List.getLast?_isSome.mpr (ne_nil_of_writtenAs he ha))
      obtain ⟨a, rfl⟩ := List.getLast?_eq_some_iff.mp hx
      refine endsValue_enclosed left he ha (h.part (List.prefix_append _ _).isInfix) ⟨x, hx, ?_⟩
      exact h.divides x (.ofSymbol .div) ⟨a, b, by simp [ofOperator_spelling]⟩ rfl

theorem readsBack : ReadsBack fun n => n.IsWellPlaced ∧ n.IsLegible ∧ n.DividesValue where
  isLegible _ h := h.2.1
  endsValue loc left right h := h.1.2.2 loc left right rfl

end Node

end MagSyntax
