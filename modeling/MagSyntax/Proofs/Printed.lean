import MagSyntax.Proofs.Formed
import MagSyntax.Proofs.Layout

/-! What is printed lays out the lexemes of the tree, with what printing adds. The texts of the parts are
put together one behind the other, and each part stands before something that ends it. -/

namespace MagSyntax

namespace Lexeme

theorem ofKeyword_eq (k : Keyword) : ofKeyword k = ofWord k.spelling := by
  cases k <;> rfl

theorem isLegible_ofKeyword (k : Keyword) : (ofKeyword k).IsLegible := by
  rw [ofKeyword_eq]
  apply isLegible_ofWord
  have hall : ∀ k ∈ Keyword.all, k.spelling.head?.any CodePoint.startsName ∧
      ∀ c ∈ k.spelling, c.continuesName := by
    decide +kernel
  obtain ⟨hh, hc⟩ := hall k (by cases k <;> decide)
  refine ⟨?_, hc⟩
  cases hs : k.spelling with
  | nil => rw [hs] at hh; cases hh
  | cons c r => exact ⟨c, r, rfl, by rw [hs] at hh; exact hh⟩

end Lexeme

namespace Text

/-- The text lays the lexemes out before every text of a class. -/
def PrintsBefore (follow : Text → Prop) (s : Text) (ls : List Lexeme) : Prop :=
  ∀ t lx, follow t → t.Lays lx → (s ++ t).Lays (ls ++ lx)

/-- The text lays the lexemes out, whatever stands behind it. -/
abbrev LaysOut (s : Text) (ls : List Lexeme) : Prop := s.PrintsBefore (fun _ => True) ls

/-- The text ends whatever stands before it. -/
def Ends (s : Text) : Prop := ∀ t : Text, (s ++ t).Stops

/-- The text lays the lexemes out before whatever ends them, and it starts with no blank. -/
structure Prints (s : Text) (ls : List Lexeme) : Prop where
  head : ∃ c r, s = c :: r ∧ c.isBlank = false
  lays : s.PrintsBefore Stops ls

/-- The text lays the lexemes out, and no blank stands around it. -/
structure IsContent (s : Text) (ls : List Lexeme) : Prop where
  head : ∃ c r, s = c :: r ∧ c.isBlank = false
  last : ∃ r c, s = r ++ [c] ∧ c.isBlank = false
  lays : s.LaysOut ls

variable {s u : Text} {a b : List Lexeme} {follow follow' : Text → Prop}

theorem PrintsBefore.append (hs : s.PrintsBefore follow a) (hu : u.PrintsBefore follow' b)
    (h : ∀ t, follow' t → follow (u ++ t)) : (s ++ u).PrintsBefore follow' (a ++ b) := by
  intro t lx ht hl
  rw [List.append_assoc, List.append_assoc]
  exact hs _ _ (h t ht) (hu t lx ht hl)

theorem PrintsBefore.andThen (hs : s.LaysOut a) (hu : u.PrintsBefore follow b) :
    (s ++ u).PrintsBefore follow (a ++ b) :=
  PrintsBefore.append hs hu fun _ _ => trivial

/-- A text before another that ends it. -/
theorem PrintsBefore.before (hs : s.PrintsBefore Stops a) (hu : u.PrintsBefore follow b) (h : u.Ends) :
    (s ++ u).PrintsBefore follow (a ++ b) :=
  hs.append hu fun t _ => h t

theorem PrintsBefore.weaken (h : s.LaysOut a) : s.PrintsBefore follow a :=
  fun t lx _ => h t lx trivial

theorem laysOut_nil : LaysOut [] [] := fun _ _ _ h => h

theorem isGap_space : IsGap " " := List.forall_mem_singleton.mpr rfl

theorem laysOut_gap (h : s.IsGap) : s.LaysOut [] := fun _ _ _ => Lays.gap h

theorem ends_cons {c : CodePoint} (h : c ∈ enders) (t : Text) : Ends (c :: t) := fun _ => .inl h

theorem laysOut_symbol (sym : Symbol) (h : sym.isTight) : sym.spelling.LaysOut [.ofSymbol sym] :=
  fun t _ _ => Lays.cons (Lexeme.readsBefore_of_isTight h t)

theorem prints_of_isLegible {l : Lexeme} (h : l.IsLegible) : l.spelled.Prints [l] :=
  ⟨h.head, fun t _ ht hl => Lays.cons (h.reads t ht) hl⟩

/-- A space may stand behind everything. -/
theorem PrintsBefore.space (h : s.PrintsBefore Stops a) : (s ++ " ").LaysOut a := by
  have := h.before (laysOut_gap isGap_space) (ends_cons (by decide) [])
  rwa [List.append_nil] at this

theorem laysOut_word (k : Keyword) : (k.spelling ++ " ").LaysOut [.ofKeyword k] := by
  have h := (prints_of_isLegible (Lexeme.isLegible_ofKeyword k)).lays.space
  cases k <;> exact h

theorem laysOut_space_word (k : Keyword) : (" " ++ (k.spelling ++ " ")).LaysOut [.ofKeyword k] :=
  (laysOut_gap isGap_space).andThen (laysOut_word k)

theorem Prints.parenthesize (h : s.Prints a) :
    (Print.parenthesize s).Prints (.ofSymbol .lparen :: a ++ [.ofSymbol .rparen]) := by
  refine ⟨⟨'(', _, rfl, by decide⟩, ?_⟩
  have hopen : LaysOut "(" [.ofSymbol .lparen] := laysOut_symbol .lparen (by decide)
  have hclose : LaysOut ")" [.ofSymbol .rparen] := laysOut_symbol .rparen (by decide)
  exact ((hopen.andThen h.lays).before hclose (ends_cons (by decide) [])).weaken

theorem Prints.group (h : s.Prints a) (needed : Bool) {n : Node} (hn : n.lexemes = a) :
    (Print.groupText needed s).Prints (Node.grouped needed n).lexemes := by
  subst hn
  cases needed with
  | true => exact h.parenthesize
  | false => exact h

theorem Prints.behind {u : Text} (hu : ∃ c r, u = c :: r ∧ c.isBlank = false) (hlays : u.LaysOut b)
    (h : s.PrintsBefore Stops a) : (u ++ s).Prints (b ++ a) := by
  obtain ⟨c, r, rfl, hc⟩ := hu
  exact ⟨⟨c, r ++ s, rfl, hc⟩, hlays.andThen h⟩

theorem Prints.append (hs : s.Prints a) (hu : u.PrintsBefore follow b)
    (h : ∀ t, Stops t → Stops (u ++ t)) (hf : ∀ t, Stops t → follow t) : (s ++ u).Prints (a ++ b) := by
  obtain ⟨c, r, rfl, hc⟩ := hs.head
  refine ⟨⟨c, r ++ u, rfl, hc⟩, ?_⟩
  exact hs.lays.append (fun t lx ht => hu t lx (hf t ht)) h

/-- Texts that are printed, with commas between them, and the lexemes of each. -/
inductive PrintsAll : List Text → List Node → Prop
  | nil : PrintsAll [] []
  | cons {s : Text} {n : Node} {texts : List Text} {nodes : List Node} :
    s.Prints n.lexemes → PrintsAll texts nodes → PrintsAll (s :: texts) (n :: nodes)

theorem PrintsAll.lays {texts : List Text} {nodes : List Node} (h : PrintsAll texts nodes) :
    PrintsBefore Stops (List.intercalate ", " texts) (Node.listLexemes nodes) := by
  have hcomma : LaysOut ", " [.ofSymbol .comma] :=
    (laysOut_symbol .comma (by decide)).andThen (laysOut_gap isGap_space)
  have hends : Ends ", " := ends_cons (by decide) _
  cases h with
  | nil => exact laysOut_nil.weaken
  | @cons s n texts nodes hs h =>
    rw [Node.listLexemes]
    induction h generalizing s n with
    | nil =>
      rw [Node.restLexemes, List.append_nil, List.intercalate_singleton]
      exact hs.lays
    | @cons u m texts nodes hu _ ih =>
      rw [List.intercalate_cons_cons, List.append_assoc, Node.restLexemes]
      refine hs.lays.append (hcomma.andThen (ih hu)) fun t _ => ?_
      rw [List.append_assoc]
      exact hends _

variable {i : Int}

theorem isGap_indentation (i : Int) : IsGap (Print.indentation i) := by
  intro c hc
  rw [List.eq_of_mem_replicate hc]
  rfl

theorem trimLeft_of_head {c : CodePoint} (h : c.isBlank = false) (r : Text) :
    trimLeft (c :: r) = c :: r :=
  List.dropWhile_cons_of_neg (by simp [h])

theorem trimLeft_line (h : s.IsContent a) : (Print.line i s).trimLeft = s := by
  obtain ⟨c, r, rfl, hc⟩ := h.head
  rw [Print.line, Print.indentation, trimLeft, List.dropWhile_append_of_pos]
  · exact trimLeft_of_head hc r
  · intro d hd
    rw [List.eq_of_mem_replicate hd]
    decide

theorem trim_line (h : s.IsContent a) : (Print.line i s).trim = s := by
  obtain ⟨r, c, rfl, hc⟩ := h.last
  rw [trim, trimLeft_line h, trimEnd, List.reverse_append, List.reverse_singleton,
    List.singleton_append, List.dropWhile_cons_of_neg (by simp [hc]), List.reverse_cons,
    List.reverse_reverse]

theorem laysOut_line (h : s.LaysOut a) : (Print.line i s).LaysOut a :=
  (laysOut_gap (isGap_indentation i)).andThen h

/-- A content behind words that start with no blank. -/
theorem IsContent.behind (hu : ∃ c r, u = c :: r ∧ c.isBlank = false) (hlays : u.LaysOut b)
    (h : s.IsContent a) : (u ++ s).IsContent (b ++ a) := by
  obtain ⟨c, r, rfl, hc⟩ := hu
  obtain ⟨r', d, rfl, hd⟩ := h.last
  exact ⟨⟨c, _, rfl, hc⟩, ⟨c :: r ++ r', d, (List.append_assoc _ _ _).symm, hd⟩, hlays.andThen h.lays⟩

/-- Lines that lay the lexemes out, each on its own. -/
inductive LinesOf : List Text → List Lexeme → Prop
  | nil : LinesOf [] []
  | cons {i : Int} {s : Text} {a b : List Lexeme} {rest : List Text} :
    s.IsContent a → LinesOf rest b → LinesOf (Print.line i s :: rest) (a ++ b)

namespace LinesOf

variable {x y : List Text}

theorem singleton (h : s.IsContent a) : LinesOf [Print.line i s] a := by
  have := cons (i := i) h nil
  rwa [List.append_nil] at this

theorem append (hx : LinesOf x a) (hy : LinesOf y b) : LinesOf (x ++ y) (a ++ b) := by
  induction hx with
  | nil => exact hy
  | cons h _ ih =>
    rw [List.append_assoc]
    exact cons h ih

theorem of_append (h : LinesOf (x ++ y) a) :
    ∃ a₁ a₂, a = a₁ ++ a₂ ∧ LinesOf x a₁ ∧ LinesOf y a₂ := by
  induction x generalizing a with
  | nil => exact ⟨[], a, rfl, nil, h⟩
  | cons l x ih =>
    rw [List.cons_append] at h
    cases h with
    | cons hs h =>
      obtain ⟨a₁, a₂, rfl, hx, hy⟩ := ih h
      exact ⟨_ ++ a₁, a₂, (List.append_assoc _ _ _).symm, cons hs hx, hy⟩

/-- The lines one below the other. -/
theorem laysOut (h : LinesOf x a) : LaysOut (x.flatMap fun line : Text => line ++ "\n") a := by
  have hfeed : IsGap "\n" := List.forall_mem_singleton.mpr rfl
  induction h with
  | nil => exact laysOut_nil
  | @cons i s a b rest hs _ ih =>
    have hline := (laysOut_line (i := i) hs.lays).andThen (laysOut_gap hfeed)
    rw [List.append_nil] at hline
    rw [List.flatMap_cons]
    exact hline.andThen ih

/-- The lines one behind the other, without their indentation. -/
theorem laysOut_intercalate (h : LinesOf x a) :
    LaysOut (List.intercalate (" " : Text) (x.map trim)) a ∧
      (x ≠ [] → List.intercalate (" " : Text) (x.map trim) ≠ []) := by
  induction h with
  | nil => exact ⟨laysOut_nil, fun h => absurd rfl h⟩
  | @cons i s a b rest hs hrest ih =>
    obtain ⟨c, r, hcr, -⟩ := hs.head
    rw [List.map_cons, trim_line hs]
    cases hrest with
    | nil =>
      rw [List.map_nil, List.intercalate_singleton, List.append_nil]
      exact ⟨hs.lays, fun _ => by simp [hcr]⟩
    | cons =>
      rw [List.map_cons, List.intercalate_cons_cons, List.append_assoc]
      exact ⟨hs.lays.andThen ((laysOut_gap isGap_space).andThen ih.1), fun _ => by simp [hcr]⟩

/-- A block on one line. -/
theorem inline (h : LinesOf x a) :
    IsContent (Print.inlineText x) (.ofSymbol .lbrace :: a ++ [.ofSymbol .rbrace]) := by
  have hopen : LaysOut "\x7b" [.ofSymbol .lbrace] := laysOut_symbol .lbrace (by decide)
  have hclose : LaysOut "\x7d" [.ofSymbol .rbrace] := laysOut_symbol .rbrace (by decide)
  obtain ⟨hlays, hne⟩ := laysOut_intercalate h
  rw [Print.inlineText]
  cases h with
  | nil => exact ⟨⟨_, _, rfl, by decide⟩, ⟨"\x7b", _, rfl, by decide⟩, hopen.andThen hclose⟩
  | cons hs h =>
    have hfilled := hne (List.cons_ne_nil _ _)
    rw [if_neg (by simpa using hfilled)]
    have hlast : ∀ t : Text, t ++ " \x7d" = t ++ " " ++ [CodePoint.ofChar '\x7d'] := fun t =>
      (List.append_assoc t " " "\x7d").symm
    have hleft := (hopen.andThen (laysOut_gap isGap_space)).andThen hlays
    have hright := (laysOut_gap isGap_space).andThen hclose
    exact ⟨⟨_, _, rfl, by decide⟩, ⟨_, _, hlast _, by decide⟩, hleft.andThen hright⟩

end LinesOf

end Text

end MagSyntax
