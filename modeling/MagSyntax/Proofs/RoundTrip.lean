import MagSyntax.Proofs.Scanned
import MagSyntax.Proofs.Unplaced

/-! Printing and reading again. What is printed for a tree that can be read back is read as the tree with
what printing adds to it, unless a guard cuts the parse short, and is printed the same again. For an
accepted tree printing adds parentheses around conditions that end in an open branch, and nothing else. -/

namespace MagSyntax

open Text

namespace Entry

/-- The text that is printed for a tree of the entry. -/
def print : Entry → Node → Except PrintError Text
  | program, n => n.source
  | expression, n => n.text

/-- The source has tokens, and a guard cuts their parse short. -/
def CutsShort (entry : Entry) (source : Text) : Prop :=
  ∃ tokens, tokenize source = .ok tokens ∧
    ((Grammar.rule entry.rule).run { input := .ofTokens tokens } .start).IsCutShort

instance (entry : Entry) (source : Text) : Decidable (entry.CutsShort source) :=
  match h : tokenize source with
  | .ok tokens => decidable_of_iff
    ((Grammar.rule entry.rule).run { input := .ofTokens tokens } .start).IsCutShort (by simp [CutsShort, h])
  | .error _ => .isFalse (by simp [CutsShort, h])

variable {P : Node → Prop} {n m : Node} {text : Text}

theorem print_eq_of_alike (entry : Entry) (h : n.alike m) : entry.print n = entry.print m := by
  cases entry with
  | program => exact Node.source_eq_of_alike h
  | expression => exact Node.text_eq_of_alike h

theorem source_program {loc : Loc} {body : List Node} {ls : List Text}
    (h : Node.allLines 0 body = .ok ls) :
    (Node.program loc body).source = .ok (ls.flatMap fun line : Text => line ++ "\n") := by
  simp only [Node.source, Sheet.addTree_eq, Node.treeLines, Sheet.add, Node.lines, Sheet.empty, h]
  rfl

/-- What is printed for a tree that can be read back lays out the lexemes of the tree with what printing
adds, and its slashes stand where they should. -/
theorem print_of_treeOf (entry : Entry) (hP : Node.ReadsBack P) (h : entry.TreeOf P n) :
    ∃ text, entry.print n = .ok text ∧ entry.print n.enclosed = .ok text ∧
      text.Lays n.enclosed.lexemes ∧ SlashContext.start.Admits n.enclosed.lexemes := by
  have hdone : Lays [] [] := .done (List.forall_mem_nil _)
  cases entry with
  | program =>
    cases n with
    | program loc body =>
      obtain ⟨ls, hls, hlines⟩ := Node.allLines_prints hP.isLegible body h 0
      have hlays := hlines.laysOut [] [] trivial hdone
      rw [List.append_nil, List.append_nil] at hlays
      exact ⟨_, source_program hls, source_program (Node.allLines_enclosed body hls), hlays,
        (Node.areStatements_all hP body h).admits _ SlashContext.isFree_start⟩
    | _ => exact h.elim
  | expression =>
    obtain ⟨text, htext, hprints⟩ := Node.text_prints hP.isLegible n h
    have hlays := hprints.lays [] [] trivial hdone
    rw [List.append_nil, List.append_nil] at hlays
    exact ⟨text, htext, Node.text_enclosed n htext, hlays,
      (Node.areValue_enclosed hP n h).inner.admits _ SlashContext.isFree_start⟩

theorem isCanonical_enclosed (entry : Entry) (h : entry.TreeOf P n) :
    entry.isCanonical n.enclosed := by
  cases entry with
  | program =>
    cases n with
    | program loc body => exact Node.allStatements_enclosed body h
    | _ => exact h.elim
  | expression => exact Node.isExpression_enclosed n h

theorem writtenBy_of_toLexeme {tokens : List Token} {last : Token}
    (h : tokens.map Token.toLexeme = n.lexemes) (hlast : last.kind = .eof) : n.WrittenBy tokens last := by
  refine ⟨?_, hlast⟩
  rw [← h]
  refine List.map_congr_left fun t ht => Token.essence_eq ?_
  exact Node.isInner_lexemes n t.toLexeme (h ▸ List.mem_map_of_mem ht)

/-- The tokens of a text that lays out the lexemes of a tree are a way to write the tree. -/
theorem writtenBy_of_lays (hlays : text.Lays n.lexemes) (ha : SlashContext.start.Admits n.lexemes) :
    ∃ tokens last, tokenize text = .ok (tokens ++ [last]) ∧ n.WrittenBy tokens last := by
  obtain ⟨all, ht, hall⟩ := tokenize_of_lays hlays ha
  obtain ⟨tokens, rest, rfl, hls, hrest⟩ := List.map_eq_append_iff.mp hall
  obtain ⟨last, rfl, hlast⟩ := List.map_eq_singleton_iff.mp hrest
  exact ⟨tokens, last, ht, writtenBy_of_toLexeme hls (congrArg Lexeme.kind hlast)⟩

/-- A text that lays out the lexemes of a canonical tree is accepted as that tree, unless its parse is cut
short. -/
theorem reads_of_lays (entry : Entry) (hcanonical : entry.isCanonical n) (hlays : text.Lays n.lexemes)
    (ha : SlashContext.start.Admits n.lexemes) :
    entry.CutsShort text ∨ ∃ t, entry.ofSource text = .ok t ∧ t.alike n := by
  obtain ⟨tokens, last, ht, hw⟩ := writtenBy_of_lays hlays ha
  refine (entry.finds_canonical hcanonical hw).imp (fun hcut => ⟨_, ht, hcut⟩) ?_
  rintro ⟨t, hfound, halike⟩
  refine ⟨t, ?_, halike⟩
  rw [ofSource, ht]
  exact hfound

/-- What is printed for a tree that can be read back is accepted, as the tree with what printing adds, and
printed again as the same text, unless its parse is cut short. -/
theorem reprint (entry : Entry) (hP : Node.ReadsBack P) (h : entry.TreeOf P n) :
    ∃ text, entry.print n = .ok text ∧
      (entry.CutsShort text ∨
        ∃ t, entry.ofSource text = .ok t ∧ t.alike n.enclosed ∧ entry.print t = .ok text) := by
  obtain ⟨text, hprint, hagain, hlays, ha⟩ := entry.print_of_treeOf hP h
  refine ⟨text, hprint, (entry.reads_of_lays (entry.isCanonical_enclosed h) hlays ha).imp_right ?_⟩
  rintro ⟨t, ht, halike⟩
  exact ⟨t, ht, halike, (entry.print_eq_of_alike halike).trans hagain⟩

theorem TreeOf.both {Q R : Node → Prop} (hR : ∀ n, P n → Q n → R n) {entry : Entry}
    (hp : entry.TreeOf P n) (hq : entry.TreeOf Q n) : entry.TreeOf R n := by
  cases entry with
  | program =>
    cases n with
    | program loc body => exact Node.StatementsOf.both hR hp hq
    | _ => exact hp.elim
  | expression => exact Node.ExpressionOf.both hR hp hq

theorem enclosed_eq_of_treeOf (entry : Entry) (hP : ∀ n, P n → n.IsWellPlaced ∧ n.HasBareCondition)
    (h : entry.TreeOf P n) : n.enclosed = n := by
  cases entry with
  | program =>
    cases n with
    | program loc body => rw [Node.enclosed, Node.allEnclosed_eq_statements hP body h]
    | _ => exact h.elim
  | expression => exact Node.enclosed_eq hP n h

/-- The nodes of an accepted tree are well placed and can be read back, if words name its fields. -/
theorem treeOf_of_ofSource (entry : Entry) {source : Text} (h : entry.ofSource source = .ok n)
    (hf : source.NamesFields) :
    entry.TreeOf (fun n => n.IsWellPlaced ∧ n.IsLegible ∧ n.DividesValue) n := by
  obtain ⟨ls, hls, hcanonical, hw⟩ := entry.written_of_ofSource h
  exact entry.treeOf_writtenAs Node.gives_readsBack hcanonical hw (hls.areScanned hf)

/-- What is printed for an accepted tree is read as that tree, if words name its fields and its conditions
stand as they are before a `then` or a block, unless the parse is cut short. -/
theorem roundTrip_of_bareConditions (entry : Entry) {source : Text} {tree : Node}
    (h : entry.ofSource source = .ok tree) (hf : source.NamesFields)
    (hc : entry.TreeOf Node.HasBareCondition tree) :
    ∃ text, entry.print tree = .ok text ∧
      (entry.CutsShort text ∨ ∃ t, entry.ofSource text = .ok t ∧ t.alike tree) := by
  have htree := entry.treeOf_of_ofSource h hf
  obtain ⟨text, hprint, hagain⟩ := entry.reprint Node.readsBack htree
  have heq : tree.enclosed = tree :=
    entry.enclosed_eq_of_treeOf (fun _ h => h) (htree.both (fun _ h hc => ⟨h.1, hc⟩) hc)
  rw [heq] at hagain
  exact ⟨text, hprint, hagain.imp_right fun ⟨t, ht, halike, _⟩ => ⟨t, ht, halike⟩⟩

/-- The tree of `let x = if a.if < b then c else d[0];`. -/
def thenForm : Node :=
  let condition : Node := .binary ⟨1, 12⟩ "<" (.field ⟨1, 12⟩ (.identifier ⟨1, 12⟩ "a")
    (.identifier ⟨1, 14⟩ "if")) (.identifier ⟨1, 19⟩ "b")
  let value : Node := .conditional ⟨1, 9⟩ condition (.identifier ⟨1, 26⟩ "c")
    (.index ⟨1, 33⟩ (.identifier ⟨1, 33⟩ "d") (.numeric ⟨1, 35⟩ "0" 10)) true
  .program ⟨1, 1⟩ [.declaration ⟨1, 1⟩ (.identifier ⟨1, 5⟩ "x") none (some value) false false]

theorem roundTrip_of_bareConditions_thenForm :
    program.ofSource "let x = if a.if < b then c else d[0];" = .ok thenForm ∧
      program.print thenForm = .ok "let x = if a.if < b then c else d[0];\n" ∧
        ¬program.CutsShort "let x = if a.if < b then c else d[0];\n" ∧
          ∃ t, program.ofSource "let x = if a.if < b then c else d[0];\n" = .ok t ∧ t.alike thenForm := by
  have hf : Text.NamesFields "let x = if a.if < b then c else d[0];" := by decide +kernel
  have hbare : program.TreeOf Node.HasBareCondition thenForm :=
    ⟨⟨trivial, rfl, trivial, trivial, ⟨fun _ => rfl, ⟨trivial, ⟨_, rfl⟩, ⟨trivial, trivial, rfl⟩,
      trivial⟩, .inl ⟨trivial, trivial, trivial, trivial⟩⟩, rfl⟩, trivial⟩
  have hprint : program.print thenForm = .ok "let x = if a.if < b then c else d[0];\n" := by decide +kernel
  have hcut : ¬program.CutsShort "let x = if a.if < b then c else d[0];\n" := by decide +kernel
  obtain ⟨text, htext, hread⟩ := roundTrip_of_bareConditions .program rfl hf hbare
  cases htext.symm.trans hprint
  exact ⟨rfl, hprint, hcut, hread.resolve_left hcut⟩

/-- A condition that ends in an open branch is printed in parentheses that it did not have. -/
theorem openCondition_not_roundTrip :
    ∃ tree text t, program.ofSource "(if if a then b else c then d else e);" = .ok tree ∧
      program.print tree = .ok text ∧ program.ofSource text = .ok t ∧ t.alike tree = false := by
  refine ⟨_, _, _, rfl, rfl, rfl, ?_⟩
  decide +kernel

end Entry

end MagSyntax
