import Mathlib.Data.List.Chain
import MagSyntax.Proofs.Composed
import MagSyntax.Proofs.Coordinates
import MagSyntax.Proofs.GroupStatements

/-! Where names come from. An identifier was read from a name, or behind a dot from a name or from whatever is
spelled like a reserved word, a string or a regular expression too. Behind a dot nothing else is let through. -/

namespace MagSyntax

open Grammar

namespace Numeral

theorem exists_not_mem_hexDigits (w : Keyword) : ∃ c ∈ w.spelling, c ∉ hexDigits ++ "_" := by
  cases w <;> decide

theorem not_mem_decimalDigits_of_head (w : Keyword) : ∀ c ∈ w.spelling.head?, c ∉ decimalDigits := by
  cases w <;> decide

/-- No reserved word is spelled like a numeral. -/
theorem ofSpelling?_eq_none {a : Text} {l : Lexeme} (hd : startsWithDigit a) (h : (read a).outcome = .ok l) :
    Keyword.ofSpelling? l.value = none := by
  refine Option.eq_none_iff_forall_ne_some.mpr fun w hw => ?_
  have hspelling := Keyword.spelling_of_ofSpelling? hw
  unfold read at h
  split at h
  next r hr =>
    obtain ⟨hmem, -⟩ := mem_of_radix? hr
    obtain ⟨-, hsub, -⟩ := mark_of_mem hmem
    have hrun := isRun_digitRun r.digits (a.drop 2)
    simp only at h
    split at h
    next => cases h
    next =>
      obtain ⟨rfl, -⟩ := of_checked h
      obtain ⟨c, hc, hnot⟩ := exists_not_mem_hexDigits w
      rw [hspelling] at hc
      have hdigit := hrun c hc
      simp only [Bool.or_eq_true, decide_eq_true_eq] at hdigit
      exact hnot (List.mem_append.mpr (hdigit.imp (fun hm => hsub hm) fun hu => List.mem_singleton.mpr hu))
  next =>
    obtain ⟨rfl, -, hends⟩ := of_checked h
    obtain ⟨c, v, hv, hc⟩ := head_decimal hd hends
    exact not_mem_decimalDigits_of_head w c (by rw [hspelling, hv]; rfl) hc

end Numeral

namespace Token

/-- The token is taken for the name of a field: it is a word, or a string or a regular expression that is spelled
like a reserved word. -/
def isFieldName (t : Token) : Bool :=
  t.kind.isWord || (t.kind = .string || t.kind = .regex) && (Keyword.ofSpelling? t.value).isSome

/-- Of what was read in a source only this can name a field. -/
theorem namesField_of_readAs {l : Lexeme} (h : l.ReadAs) (place : Place) :
    (ofLexeme l place).namesField = (ofLexeme l place).isFieldName := by
  cases h with
  | @word w =>
    unfold Lexeme.ofWord
    split
    next w' hw => simp [namesField, isFieldName, ofLexeme, TokenKind.isWord, hw]
    next => rfl
  | number hd h =>
    have hk := (Numeral.kind_of_read hd h).2
    simp [namesField, isFieldName, ofLexeme, TokenKind.isWord, hk, Numeral.ofSpelling?_eq_none hd h]
  | string => simp [namesField, isFieldName, ofLexeme, TokenKind.isWord]
  | regex _ h =>
    obtain ⟨p, f, r, rfl, -⟩ := Regex.read_again h
    simp [namesField, isFieldName, ofLexeme, TokenKind.isWord]
  | symbol s => cases s <;> rfl

end Token

namespace Lexeme

/-- A dot stands in front of the name of a field. -/
def Named (x y : Lexeme) : Prop := x.kind = Symbol.dot → y.NamesField

/-- Each dot in the lexemes stands in front of a name, whatever follows them. -/
def PassDots (ls : List Lexeme) : Prop := ∀ rest : List Lexeme, rest.IsChain Named → (ls ++ rest).IsChain Named

theorem passDots_single {l : Lexeme} (hk : l.kind ≠ Symbol.dot) : PassDots [l] :=
  fun _ h => List.isChain_cons.mpr ⟨fun _ _ hd => absurd hd hk, h⟩

theorem PassDots.append {a b : List Lexeme} (ha : PassDots a) (hb : PassDots b) : PassDots (a ++ b) := by
  intro rest h
  rw [List.append_assoc]
  exact ha _ (hb _ h)

/-- Only the name of a field is written behind a dot. -/
theorem composes_passDots : Composes PassDots where
  nil := fun _ h => h
  append ha hb := ha.append hb
  single hl := passDots_single fun hk => hl (by simp [hk])
  field hw := fun _ h => List.isChain_cons_cons.mpr ⟨fun _ => hw, passDots_single (hw.kind_ne_symbol .dot) _ h⟩
  braced ha := (passDots_single (by decide)).append (ha.append (passDots_single (by decide)))

end Lexeme

open Parse

/-- Every identifier of the tree was read from one of the tokens: from a name, or as the name of a field from the
token behind a dot. -/
inductive Node.NamedFrom (tokens : List Token) : Node → Prop
  | name {t : Token} : t ∈ tokens → t.kind = .ident → NamedFrom tokens (.identifier (locOf t) t.value)
  | field {i : Nat} {loc : Loc} {object : Node} {dot t : Token} :
    tokens[i]? = some dot → dot.kind = Symbol.dot → tokens[i + 1]? = some t → t.isFieldName →
      NamedFrom tokens object → NamedFrom tokens (.field loc object (.identifier (locOf t) t.value))
  | node {n : Node} : n.isIdentifier = false → (∀ m ∈ n.parts, NamedFrom tokens m) → NamedFrom tokens n

namespace Input

variable {input : Input} {tokens : List Token} {limit : Nat}
  (htokens : ∀ i < limit, tokens[i]? = some (input.get i))
  (hnames : ∀ i < limit, (input.get i).namesField = (input.get i).isFieldName)
include htokens hnames

/-- A tree is named from the tokens that it is read from. -/
theorem Spans.namedFrom {c stop : Nat} {n : Node} (h : input.Spans c n stop) :
    stop ≤ limit → n.NamedFrom tokens := by
  refine @Spans.rec input (fun _ n stop _ => stop ≤ limit → n.NamedFrom tokens)
    (fun _ l stop _ => stop ≤ limit → ∀ n ∈ l, n.NamedFrom tokens) ?node ?field ?nil ?cons c n stop h
  case node =>
    intro c stop n hw hlt hloc _ hparts hs
    cases hn : n.isIdentifier with
    | false => exact .node hn (hparts hs)
    | true =>
      cases n with
      | identifier loc name =>
        obtain ⟨hshows, rfl⟩ := hw.of_token rfl
        obtain rfl : loc = locOf (input.get c) := hloc
        obtain rfl : (input.get c).value = name := value_of_shows hshows
        exact .name (List.mem_of_getElem? (htokens c hs)) (kind_of_shows hshows)
      | _ => cases hn
  case field =>
    intro c d loc object _ hw _ ho hs
    obtain ⟨d, -, hdot, hname, -, hd⟩ := hw.of_field
    obtain rfl := Nat.add_right_cancel hd
    refine .field (htokens _ (Nat.lt_of_succ_lt hs)) hdot (htokens _ hs) ?_
      (ho (Nat.le_trans (Nat.le_add_right _ 2) hs))
    rw [← hnames _ hs]
    simpa [Token.namesField] using hname.named
  case nil => exact fun _ _ => List.forall_mem_nil _
  case cons =>
    intro c d e stop n rest _ _ hr hn hrest hs
    exact List.forall_mem_cons.mpr ⟨hn (Nat.le_trans hr.le hs), hrest hs⟩

end Input

namespace Parse.Stretch

open Balance

/-- The tokens up to a dot, counted with a bracket open in front of them as if they stood in a block. -/
def upToDot (input : Input) (front : List Token) (dot : Token) : Stretch :=
  alone input (front ++ [dot]) 0 even.opened

/-- What stands behind the dot names no field, so no rule gets past it. -/
structure IsStuck (input : Input) (front : List Token) (dot : Token) : Prop where
  contains : input.Contains 0 (front ++ [dot])
  inside : ∀ t ∈ front ++ [dot], t.kind ≠ .eof
  kind : dot.kind = Symbol.dot
  own : dot.namesField = false
  behind : (input.get (front ++ [dot]).length).namesField = false

variable {input : Input} {front : List Token} {dot : Token} (h : IsStuck input front dot)
include h

theorem IsStuck.behind_eq {s : Balance} (hat : (upToDot input front dot).At (front ++ [dot]).length s) :
    s.behind = .dot := by
  have hcount := hat.count
  simp only [upToDot, alone, List.take_length, after_append] at hcount
  obtain ⟨s', -, hcount⟩ := Option.bind_eq_some_iff.mp hcount
  obtain ⟨t, hstep, ht⟩ := Option.bind_eq_some_iff.mp hcount
  obtain rfl := Option.some.inj ht
  by_cases hd : s'.behind = .dot
  · simp [step, hd, h.own] at hstep
  · rw [step_dot hd h.kind] at hstep
    obtain rfl := Option.some.inj hstep
    rfl

theorem IsStuck.isFair : (upToDot input front dot).IsFair := by
  refine ⟨h.contains, h.contains, h.inside, fun s hs => .dot (h.behind_eq hs) ?_ ?_, fun hn => absurd rfl hn⟩ <;>
    simpa only [upToDot, alone, Nat.zero_add] using h.behind

/-- A complaint is about the token behind the dot, where the name is missing, or about one up to the dot. -/
theorem IsStuck.of_reaches {e : SyntaxError} (he : (upToDot input front dot).Reaches e) :
    e = .ofToken .fieldName (input.get (front ++ [dot]).length) ∨
      ∃ t ∈ front ++ [dot], ∃ complaint, e = .ofToken complaint t := by
  obtain ⟨i, s, complaint, hat, rfl, hcomplaint⟩ := he
  simp only [upToDot, alone, Nat.zero_add]
  obtain hi | rfl := Nat.lt_or_eq_of_le hat.le
  · have hget := Input.get_of_contains h.contains hi
    rw [Nat.zero_add] at hget
    exact .inr ⟨_, List.getElem_mem hi, complaint, by rw [hget]; rfl⟩
  · exact .inl (by rw [hcomplaint (h.behind_eq hat)]; rfl)

/-- A rule that starts up to the dot ends there, with the same count. -/
theorem IsStuck.finds {i b : Nat} {r : Rule} (hr : r ≠ .program)
    (hat : (upToDot input front dot).At i even.opened) :
    Finds (plain input) (fun _ => True) (Failure.Misses (upToDot input front dot).Reaches)
      (Grammar.parse b r.surcharge r) i fun _ d =>
        d < (front ++ [dot]).length ∧ (upToDot input front dot).At d even.opened := by
  have hfits : (upToDot input front dot).Fits r i even.opened :=
    ⟨hat, nofun, fun _ => Nat.one_ne_zero, fun _ => .inl (opened_ne_even _), hr⟩
  have hfinds := finds_within (b := b) h.isFair hfits
  rw [Nat.zero_add] at hfinds
  refine hfinds.imp ?_
  rintro v d ⟨j, rfl, hv⟩
  have hj : (upToDot input front dot).At j even.opened := hv.counted
  rw [Nat.zero_add]
  refine ⟨Nat.lt_of_le_of_ne hj.le fun he => ?_, hj⟩
  have hbehind := h.behind_eq (he ▸ hj)
  cases hbehind

/-- The statements of a program do not get past the dot. -/
theorem IsStuck.finds_program (b : Nat) :
    Finds (plain input) (fun _ => True) (Failure.Misses (upToDot input front dot).Reaches)
      (Grammar.parse b 0 .program) 0 fun _ _ => False := by
  refine finds_plain trivial (fun n => ?_) b 0
  simp only [body, program]
  rw [finds_current_bind, finds_rounds_bind]
  refine (finds_statementsToEnd (fun i => i < (front ++ [dot]).length ∧ (upToDot input front dot).At i even.opened)
    (fun _ _ _ => False) trivial ?_ ?_ _ ⟨by simp, at_zero _⟩).bind fun _ _ hv => hv.1.elim
  · rintro i ⟨-, hat⟩
    exact (h.finds (r := .statement) (by decide) hat).imp fun v d hd => ⟨hd, fun _ _ => id⟩
  · rintro i ⟨hi, -⟩ hk
    have hget := Input.get_of_contains h.contains hi
    rw [Nat.zero_add] at hget
    rw [input_plain, hget] at hk
    exact h.inside _ (List.getElem_mem hi) hk

end Parse.Stretch

/-- The tokens of a source before its last one are none of them ends, and among all of them only those that are
taken for names can name a field. -/
theorem names_of_tokenize {source : Text} {tokens : List Token} (h : tokenize source = .ok tokens) :
    (∀ t ∈ tokens.dropLast, t.kind ≠ .eof) ∧ ∀ t ∈ tokens, t.namesField = t.isFieldName := by
  obtain ⟨inner, last, rfl, hlast, -, hinner⟩ := tokens_of_tokenize h
  rw [List.dropLast_concat]
  refine ⟨fun t ht => (hinner t ht).1, ?_⟩
  rw [List.forall_mem_append, List.forall_mem_singleton]
  refine ⟨fun t ht => Token.namesField_of_readAs ((hinner t ht).2.readAs (hinner t ht).1) t.place, ?_⟩
  obtain ⟨l, place⟩ := last
  obtain rfl : l = .endOfInput := hlast
  rfl

/-- Tokens with an end behind them stand in their input each at its place. -/
theorem Input.getElem?_ofTokens {tokens : List Token} {last : Token} (hlast : last.kind = .eof) :
    ∀ i ≤ tokens.length, (tokens ++ [last])[i]? = some ((ofTokens (tokens ++ [last])).get i) := by
  intro i hi
  rw [ofTokens_append hlast, get_mk]
  obtain hlt | rfl := Nat.lt_or_eq_of_le hi
  · rw [List.getElem?_append_left hlt, List.getElem?_eq_getElem hlt, Option.getD_some]
  · simp

namespace Entry

open Stretch Input Lexeme

variable {entry : Entry} {source : Text} {tree : Node} {front rest : List Token} {dot word : Token}

/-- An accepted tree is named from the tokens of its source. -/
theorem namedFrom_of_ofSource (h : entry.ofSource source = .ok tree) :
    ∃ tokens, tokenize source = .ok tokens ∧ tree.NamedFrom tokens := by
  obtain ⟨tokens, ht, hspans⟩ := entry.spans_of_ofSource h
  have hnames := (names_of_tokenize ht).2
  obtain ⟨inner, last, rfl, hlast, -⟩ := tokens_of_tokenize ht
  rw [List.length_append, List.length_singleton, Nat.add_sub_cancel] at hspans
  have hget (i : Nat) (hi : i < inner.length) :=
    getElem?_ofTokens (congrArg Lexeme.kind hlast) i (Nat.le_of_lt hi)
  exact ⟨_, ht, hspans.namedFrom hget (fun i hi => hnames _ (List.mem_of_getElem? (hget i hi))) (Nat.le_refl _)⟩

/-- In an accepted source a dot stands in front of what is taken for a name. -/
theorem isFieldName_of_ofSource (h : entry.ofSource source = .ok tree)
    (ht : tokenize source = .ok (front ++ dot :: word :: rest)) (hdot : dot.kind = Symbol.dot) :
    word.isFieldName := by
  obtain ⟨ls, hls, hcanonical, hw⟩ := entry.written_of_ofSource h
  obtain ⟨tokens, ht', hmap⟩ := hls.tokens
  obtain rfl := Except.ok.inj (ht'.symm.trans ht)
  have hdots : PassDots ls := by
    cases entry with
    | expression => exact Node.composed_of_isExpression composes_passDots tree hcanonical hw
    | program =>
      cases tree with
      | program loc body =>
        exact Node.composed_of_all composes_passDots hw fun n hn _ =>
          Node.composed_of_isStatement composes_passDots n (Node.allStatements_iff.mp hcanonical n hn)
      | _ => cases hcanonical
  have hchain := hdots [.endOfInput] (List.isChain_singleton _)
  have hpair : [dot.toLexeme, word.toLexeme] <:+: ls ++ [.endOfInput] :=
    ⟨front.map Token.toLexeme, rest.map Token.toLexeme, by rw [← hmap]; simp⟩
  have hnamed : [dot.toLexeme, word.toLexeme].IsChain Named := List.IsChain.infix hchain hpair
  have hname := List.isChain_pair.mp hnamed hdot
  rw [← (names_of_tokenize ht).2 word (by simp)]
  simpa [Token.namesField] using hname.named

/-- No rule gets past a dot in a source that stands in front of what is not taken for a name. -/
theorem isStuck_of_tokenize (ht : tokenize source = .ok (front ++ dot :: word :: rest)) (hdot : dot.kind = Symbol.dot)
    (hword : word.isFieldName = false) :
    IsStuck (.ofTokens (front ++ dot :: word :: rest)) front dot ∧
      (ofTokens (front ++ dot :: word :: rest)).get (front ++ [dot]).length = word := by
  obtain ⟨hinside, hnames⟩ := names_of_tokenize ht
  obtain ⟨inner, last, he, hlast, -⟩ := tokens_of_tokenize ht
  have hsplit : inner ++ [last] = (front ++ [dot]) ++ word :: rest := by simp [← he]
  have hinner : inner = (front ++ [dot]) ++ (word :: rest).dropLast := by
    rw [← List.dropLast_append_of_ne_nil (List.cons_ne_nil word rest), ← hsplit, List.dropLast_concat]
  have hlt : (front ++ [dot]).length ≤ inner.length := by
    rw [hinner]
    exact (List.prefix_append (front ++ [dot]) _).length_le
  have hget : (ofTokens (front ++ dot :: word :: rest)).get (front ++ [dot]).length = word := by
    have h := getElem?_ofTokens (congrArg Lexeme.kind hlast) _ hlt
    rw [← he] at h
    refine Option.some.inj (h.symm.trans ?_)
    rw [he, hsplit, List.getElem?_append_right (Nat.le_refl _), Nat.sub_self]
    rfl
  rw [he, List.dropLast_concat, hinner] at hinside
  refine ⟨⟨?_, (List.forall_mem_append.mp hinside).1, hdot, ?_, ?_⟩, hget⟩
  · have hcontains := (holds_mk inner last).contains
    rw [← ofTokens_append (congrArg Lexeme.kind hlast), ← he, hinner] at hcontains
    exact (contains_append.mp hcontains).1
  · rw [hnames dot (by simp), Token.isFieldName, hdot]
    rfl
  · rw [hget, hnames word (by simp), hword]

/-- Where a rule has stopped in front of a token that is no end, the entry of expressions complains about it. -/
theorem expression_of_unfinished {input : Input} {n : Node} {p : Progress}
    (h : (Grammar.rule .expression).run { input } .start = .ok n p) (hend : (input.get p.cursor).kind ≠ .eof) :
    expression.ofInput input = .error (.ofToken .inputEnd (input.get p.cursor)) := by
  simp only [ofInput, parse, Grammar.run, run_bind, h, Grammar.expectEnd, sees, run_check,
    List.mem_singleton, hend]
  rfl

/-- A source with something else than a name behind a dot is rejected: for the missing name, or for a token up to the
dot, unless the parse is cut short. -/
theorem rejects_of_isStuck {input : Input} (h : IsStuck input front dot) (hlast : input.last.kind = .eof) :
    ((Grammar.rule entry.rule).run { input } .start).IsCutShort ∨
      ∃ e, entry.ofInput input = .error e ∧
        (e = .ofToken .fieldName (input.get (front ++ [dot]).length) ∨
          ∃ t ∈ front ++ [dot], ∃ complaint, e = .ofToken complaint t) := by
  cases entry with
  | program =>
    refine (rule_of_finds (r := .program) hlast fun b => h.finds_program b).imp_right ?_
    rintro (⟨v, p, -, hv⟩ | ⟨e, p, hp, he⟩)
    · exact hv.elim
    · exact ⟨e, program.ofInput_of_failed hp, h.of_reaches he⟩
  | expression =>
    refine (rule_of_finds (r := .expression) hlast fun b => h.finds (by decide) (at_zero _)).imp_right ?_
    rintro (⟨v, p, hp, hlt, -⟩ | ⟨e, p, hp, he⟩)
    · have hget := get_of_contains h.contains hlt
      rw [Nat.zero_add] at hget
      have hmem : input.get p.cursor ∈ front ++ [dot] := hget ▸ List.getElem_mem hlt
      exact ⟨_, expression_of_unfinished hp (h.inside _ hmem), .inr ⟨_, hmem, .inputEnd, rfl⟩⟩
    · exact ⟨e, expression.ofInput_of_failed hp, h.of_reaches he⟩

/-- Names come from names, except that a string and a regular expression are taken for the reserved word that they
are spelled like. In an accepted tree each identifier was read from a name, or as the name of a field from the
token behind a dot, which is a word or is spelled like a reserved word. Anything else behind a dot is
rejected: for the missing name, or for a token up to the dot, unless the parse is cut short. -/
theorem names_from_words (entry : Entry) (source : Text) :
    (∀ tree, entry.ofSource source = .ok tree → ∃ tokens, tokenize source = .ok tokens ∧ tree.NamedFrom tokens) ∧
      ∀ (front : List Token) (dot word : Token) (rest : List Token),
        tokenize source = .ok (front ++ dot :: word :: rest) → dot.kind = Symbol.dot →
        word.isFieldName = false → ∃ e, entry.ofSource source = .error e ∧
          (entry.rule.CutsShort (front ++ dot :: word :: rest) ∨ e = .ofToken .fieldName word ∨
            ∃ t ∈ front ++ [dot], ∃ complaint, e = .ofToken complaint t) := by
  refine ⟨fun tree h => namedFrom_of_ofSource h, fun front dot word rest ht hdot hword => ?_⟩
  cases h : entry.ofSource source with
  | ok tree => exact absurd (isFieldName_of_ofSource h ht hdot) (by simp [hword])
  | error e =>
    obtain ⟨hstuck, hget⟩ := isStuck_of_tokenize ht hdot hword
    refine ⟨e, rfl, ?_⟩
    have hofInput : entry.ofInput (ofTokens (front ++ dot :: word :: rest)) = .error e := by
      rw [ofSource, ht] at h
      exact h
    refine (rejects_of_isStuck hstuck (kind_last_ofTokens _)).imp_right ?_
    rintro ⟨e', he', hreason⟩
    obtain rfl := Except.error.inj (hofInput.symm.trans he')
    rwa [hget] at hreason

/-- A keyword and a string that name fields, and a string that does not. -/
theorem names_from_words_literals :
    let named := Text.ofString "a.then.\"else\""
    let tree : Node := .field ⟨1, 1⟩ (.field ⟨1, 1⟩ (.identifier ⟨1, 1⟩ "a") (.identifier ⟨1, 3⟩ "then"))
      (.identifier ⟨1, 8⟩ "else")
    let quoted := Text.ofString "a.\"b\""
    let before : List Token := [⟨⟨.ident, "a", 10, []⟩, ⟨0, 1, 1⟩⟩, .ofLexeme (.ofSymbol .dot) ⟨1, 1, 2⟩]
    let word : Token := ⟨⟨.string, "b", 10, []⟩, ⟨2, 1, 3⟩⟩
    (expression.ofSource named = .ok tree ∧ ∃ tokens, tokenize named = .ok tokens ∧ tree.NamedFrom tokens) ∧
      word.isFieldName = false ∧ ∃ e, expression.ofSource quoted = .error e ∧
        (e = .ofToken .fieldName word ∨ ∃ t ∈ before, ∃ complaint, e = .ofToken complaint t) := by
  refine ⟨⟨rfl, (names_from_words expression _).1 _ rfl⟩, rfl, ?_⟩
  obtain ⟨e, he, hreason⟩ := (names_from_words expression (Text.ofString "a.\"b\"")).2
    [⟨⟨.ident, "a", 10, []⟩, ⟨0, 1, 1⟩⟩] (.ofLexeme (.ofSymbol .dot) ⟨1, 1, 2⟩) ⟨⟨.string, "b", 10, []⟩, ⟨2, 1, 3⟩⟩
    [.ofLexeme .endOfInput ⟨5, 1, 6⟩] rfl rfl rfl
  exact ⟨e, he, hreason.resolve_left (by decide +kernel)⟩

/-- The name of a field that was read from a string, and one that was read from a regular expression. -/
theorem literal_names_field :
    let name (n : Text) (position : Nat) : Node := .identifier ⟨1, position + 1⟩ n
    let token (l : Lexeme) (position : Nat) : Token := ⟨l, ⟨position, 1, position + 1⟩⟩
    let tokens (word : Lexeme) : List Token :=
      [token ⟨.ident, "x", 10, []⟩ 0, token (.ofSymbol .dot) 1, token word 2, token .endOfInput 6]
    (tokenize "x.\"if\"" = .ok (tokens ⟨.string, "if", 10, []⟩) ∧
        expression.ofSource "x.\"if\"" = .ok (.field ⟨1, 1⟩ (name "x" 0) (name "if" 2))) ∧
      tokenize "x./if/" = .ok (tokens ⟨.regex, "if", 10, []⟩) ∧
        expression.ofSource "x./if/" = .ok (.field ⟨1, 1⟩ (name "x" 0) (name "if" 2)) := by
  intro name token tokens
  have hstring : tokenize "x.\"if\"" = .ok (tokens ⟨.string, "if", 10, []⟩) := by decide +kernel
  have hregex : tokenize "x./if/" = .ok (tokens ⟨.regex, "if", 10, []⟩) := by decide +kernel
  refine ⟨⟨hstring, ?_⟩, hregex, ?_⟩
  · rw [ofSource, hstring]
    cbv
  · rw [ofSource, hregex]
    cbv

end Entry

end MagSyntax
