import MagSyntax.Proofs.Calls
import MagSyntax.Proofs.Entries
import MagSyntax.Proofs.Lossless

/-! Two sources with the same tokens up to their places: an entry accepts both, with trees that differ in
places at most, or neither, for the same reason at the same token. -/

namespace MagSyntax

open Parse Mirror

namespace Grammar

variable {m : Mirror}

/-- From outside, a budget that is used up is a complaint about a token too. -/
theorem mirrors_run (hm : m.IsFair) {α : Type} {c : Nat} {step step' : Parse α}
    {found : α → α → Nat → Prop} (h : Mirrors m True c step step' found) :
    Mirrors m False c (run step) (run step') found := by
  intro depth p q hb
  have h := h depth p q hb
  simp only [run]
  generalize step.run m.left p = o at h ⊢
  generalize step'.run m.right q = o' at h ⊢
  cases h with
  | ok hb hf => exact .ok hb hf
  | mismatch hb he => exact .mismatch hb he
  | exhausted _ hb =>
    simp only [run_complain, hb.cursor, hb.cursor']
    exact .mismatch hb (hm.sameError hb.le .tooDeep)

theorem mirrors_entry (hm : m.IsFair) (entry : Entry) (c : Nat) :
    Mirrors m False c entry.parse entry.parse fun n n' _ => m.SameNode n n' := by
  have hrun (r : Rule) : Mirrors m False c (run (rule r)) (run (rule r))
      fun n n' _ => m.SameNode n n' :=
    (mirrors_run hm (mirrors_parse hm (.inl ⟨trivial, rfl⟩))).imp fun n n' d hn => hn.1
  cases entry with
  | program => exact hrun .program
  | expression =>
    refine (hrun .expression).bind fun n n' d hn => ?_
    unfold expectEnd
    rw [bind_assoc, bind_assoc]
    exact mirrors_sees_bind hm (fun _ => mirrors_pure hn) fun _ => mirrors_complain_bind hm

end Grammar

/-- An entry comes to the same on both inputs, an error being one about tokens of the same index. -/
theorem Entry.ofInput_mirrored (entry : Entry) {input input' : Input} {stop : Nat} {placed : Prop}
    (hm : Mirror.IsFair ⟨{ input }, { input := input' }, stop, placed⟩) :
    (∃ n n', entry.ofInput input = .ok n ∧ entry.ofInput input' = .ok n' ∧ n.alike n') ∨
      ∃ e e', ∃ c ≤ stop, entry.ofInput input = .error e ∧ entry.ofInput input' = .error e' ∧
        e.cause = e'.cause ∧ e.place = (input.get c).place ∧ e'.place = (input'.get c).place := by
  have hbegin : Mirror.Beside ⟨{ input }, { input := input' }, stop, placed⟩ 0 0 .start .start := by
    refine ⟨rfl, rfl, Nat.zero_le _, rfl, rfl, fun a => ?_⟩
    rw [Progress.start, Progress.memo_within, Memo.find?_empty]
    exact .none
  have h := Grammar.mirrors_entry hm entry 0 0 _ _ hbegin
  simp only [ofInput]
  generalize entry.parse.run { input } .start = o at h ⊢
  generalize entry.parse.run { input := input' } .start = o' at h ⊢
  cases h with
  | ok _ hn => exact .inl ⟨_, _, rfl, rfl, (Node.alike_iff _ _).mpr hn.alike⟩
  | mismatch _ he =>
    obtain ⟨c, hc, hp, hp'⟩ := he.place
    exact .inr ⟨_, _, c, hc, rfl, rfl, he.cause, hp, hp'⟩
  | exhausted hx => exact hx.elim

/-- The tokens of a text stand in it in order, each in front of its end. -/
theorem Text.SplitsInto.ordered {position : Int} {t : Text} {tokens : List Token}
    (h : t.SplitsInto position tokens) :
    tokens.Pairwise (fun a b => a.place.position < b.place.position) ∧
      ∀ token ∈ tokens, position ≤ token.place.position ∧
        token.place.position < position + t.length := by
  induction h with
  | done => exact ⟨.nil, by simp⟩
  | @next position g s t token tokens _ hspells hplace _ ih =>
    have hs := List.length_pos_iff.mpr hspells.ne_nil
    obtain ⟨hpairwise, hbounds⟩ := ih
    simp only [List.length_append]
    refine ⟨List.pairwise_cons.mpr ⟨fun other ho => ?_, hpairwise⟩,
      List.forall_mem_cons.mpr ⟨⟨by omega, by omega⟩, fun other ho => ?_⟩⟩
    · have := (hbounds other ho).1
      omega
    · have := hbounds other ho
      omega

/-- The tokens of a source, the end among them, stand in it in order. -/
theorem ordered_of_tokenize {source : Text} {tokens : List Token} (h : tokenize source = .ok tokens) :
    tokens.Pairwise fun a b => a.place.position < b.place.position := by
  obtain ⟨inner, last, rfl, -, hlast, hsplits⟩ := splitsInto_of_tokenize h
  obtain ⟨hpairwise, hbounds⟩ := hsplits.ordered
  refine List.pairwise_append.mpr ⟨hpairwise, List.pairwise_singleton _ _, fun a ha b hb => ?_⟩
  rw [List.mem_singleton.mp hb, hlast]
  have := (hbounds a ha).2
  omega

namespace Input

theorem getElem?_toList {input : Input} {c : Nat} (hc : c ≤ input.before.size) :
    input.toList[c]? = some (input.get c) := by
  rw [get_eq, List.getElem?_eq_getElem (by rw [length_toList]; omega)]
  rfl

theorem toList_ofTokens {tokens : List Token} {inner : List Token} {last : Token}
    (h : tokens = inner ++ [last]) (hl : last.kind = .eof) : (ofTokens tokens).toList = tokens := by
  rw [h, ofTokens_append hl, toList]

/-- Where the tokens stand in order, one stands behind the other if it comes later. -/
theorem position_lt_iff {input : Input}
    (h : input.toList.Pairwise fun a b => a.place.position < b.place.position) {c d : Nat}
    (hc : c ≤ input.before.size) (hd : d ≤ input.before.size) :
    (input.get c).place.position < (input.get d).place.position ↔ c < d := by
  rw [List.pairwise_iff_getElem] at h
  obtain ⟨hc', hgetc⟩ := List.getElem?_eq_some_iff.mp (input.getElem?_toList hc)
  obtain ⟨hd', hgetd⟩ := List.getElem?_eq_some_iff.mp (input.getElem?_toList hd)
  rw [← hgetc, ← hgetd]
  constructor
  · intro hlt
    by_contra hge
    rcases Nat.lt_or_eq_of_le (Nat.not_lt.mp hge) with hdc | rfl
    · have := h d c hd' hc' hdc
      omega
    · omega
  · exact h c d hc' hd'

end Input

/-- Two inputs with the same lexemes, the tokens of each in order, side by side. -/
theorem isFair_of_lexemes {input input' : Input} (hlast : input.last.kind = .eof)
    (hl : input.toList.map Token.toLexeme = input'.toList.map Token.toLexeme)
    (hordered : input.toList.Pairwise fun a b => a.place.position < b.place.position)
    (hordered' : input'.toList.Pairwise fun a b => a.place.position < b.place.position) (placed : Prop)
    (hplaced : placed → input = input') :
    Mirror.IsFair ⟨{ input }, { input := input' }, input.before.size, placed⟩ := by
  have hsize : input'.before.size = input.before.size := by
    have hlength := congrArg List.length hl
    rw [List.length_map, List.length_map, Input.length_toList, Input.length_toList] at hlength
    omega
  have hget (c : Nat) (hc : c ≤ input.before.size) : (input.get c).toLexeme = (input'.get c).toLexeme := by
    have he := congrArg (·[c]?) hl
    simp only [List.getElem?_map] at he
    rw [Input.getElem?_toList hc, Input.getElem?_toList (hsize ▸ hc)] at he
    exact Option.some.inj he
  refine ⟨rfl, rfl, Nat.le_refl _, Nat.le_of_eq hsize.symm, ?_, hget, fun c hc d hd => ?_,
    fun hp c hc => by rw [hplaced hp]⟩
  · simp [Input.get, hlast]
  · rw [Input.position_lt_iff hordered hc hd]
    exact (Input.position_lt_iff hordered' (hsize ▸ hc) (hsize ▸ hd)).symm

/-- The tokens of a source are those of its input. -/
theorem toList_of_tokenize {source : Text} {tokens : List Token} (h : tokenize source = .ok tokens) :
    (Input.ofTokens tokens).toList = tokens := by
  obtain ⟨inner, last, hinner, hlast, -⟩ := tokens_of_tokenize h
  exact Input.toList_ofTokens hinner (congrArg Lexeme.kind hlast)

/-- Two sources with the same lexemes, side by side. -/
theorem isFair_of_tokenize {source source' : Text} {tokens tokens' : List Token}
    (h : tokenize source = .ok tokens) (h' : tokenize source' = .ok tokens')
    (hl : tokens.map Token.toLexeme = tokens'.map Token.toLexeme) (placed : Prop)
    (hplaced : placed → tokens = tokens') :
    Mirror.IsFair ⟨{ input := .ofTokens tokens }, { input := .ofTokens tokens' },
      (Input.ofTokens tokens).before.size, placed⟩ := by
  refine isFair_of_lexemes (Input.kind_last_ofTokens tokens) ?_ ?_ ?_ placed fun hp => by rw [hplaced hp]
  · rw [toList_of_tokenize h, toList_of_tokenize h', hl]
  · exact (toList_of_tokenize h).symm ▸ ordered_of_tokenize h
  · exact (toList_of_tokenize h').symm ▸ ordered_of_tokenize h'

/-- The outcomes are trees that are alike, or errors for the same reason, each at the place of the token of one
index. -/
def SameAtTokens (tokens tokens' : List Token) (o o' : Except SyntaxError Node) : Prop :=
  (∃ n n', o = .ok n ∧ o' = .ok n' ∧ n.alike n') ∨
    ∃ e e', o = .error e ∧ o' = .error e' ∧ e.cause.reason = e'.cause.reason ∧
      ∃ (i : Nat) (token token' : Token), tokens[i]? = some token ∧ tokens'[i]? = some token' ∧
        e.place = token.place ∧ e'.place = token'.place

/-- Sources with the same lexemes come to the same with each entry. -/
theorem Entry.ofSource_sameAtTokens (entry : Entry) {source source' : Text} {tokens tokens' : List Token}
    (h : tokenize source = .ok tokens) (h' : tokenize source' = .ok tokens')
    (hl : tokens.map Token.toLexeme = tokens'.map Token.toLexeme) :
    SameAtTokens tokens tokens' (entry.ofSource source) (entry.ofSource source') := by
  have hm := isFair_of_tokenize h h' hl False (fun hf => hf.elim)
  rw [entry.ofSource_of_tokenize h, entry.ofSource_of_tokenize h']
  rcases entry.ofInput_mirrored hm with htrees | ⟨e, e', c, hc, he, he', hcause, hp, hp'⟩
  · exact .inl htrees
  · refine .inr ⟨e, e', he, he', congrArg Cause.reason hcause, c, _, _, ?_, ?_, hp, hp'⟩
    · rw [← Input.getElem?_toList hc, toList_of_tokenize h]
    · rw [← Input.getElem?_toList (Nat.le_trans hc hm.room'), toList_of_tokenize h']

end MagSyntax
