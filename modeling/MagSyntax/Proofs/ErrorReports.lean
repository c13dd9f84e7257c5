import MagSyntax.Command.Run
import MagSyntax.Proofs.Coordinates
import MagSyntax.Proofs.Messages
import MagSyntax.Proofs.OwnComplaints

/-! What the command reports of a source with a syntax error. The message is a line of printable text with a place
of the source at its end, but for one fault: an escape that is not hexadecimal is shown with its digits as they
stand in the source, and a line feed among these ends the line of the report. -/

namespace MagSyntax

open Text

theorem Keyword.allPrintable_name (w : Keyword) : w.name.AllPrintable := by
  cases w <;> decide

theorem Symbol.allPrintable (s : Symbol) : s.name.AllPrintable ∧ s.spelling.AllPrintable := by
  cases s <;> decide

theorem Node.allPrintable_typeName (n : Node) : n.typeName.AllPrintable := by
  cases n <;> (simp only [typeName]; decide)

theorem TokenKind.allPrintable_name {k : TokenKind} (h : k ∈ all) : k.name.AllPrintable := by
  revert k
  decide

/-- The complaints of the grammar are printable. -/
theorem Complaint.IsOwn.allPrintable {complaint : Complaint} (h : complaint.IsOwn) :
    complaint.message.AllPrintable := by
  cases complaint with
  | assignmentTarget type =>
    obtain ⟨n, rfl⟩ := h
    exact allPrintable_append.mpr ⟨by decide, n.allPrintable_typeName⟩
  | listEnd close =>
    exact allPrintable_append.mpr ⟨allPrintable_append.mpr ⟨by decide, close.allPrintable.2⟩, by decide⟩
  | oneOf kinds =>
    refine allPrintable_append.mpr ⟨by decide, allPrintable_intercalate (by decide) fun t ht => ?_⟩
    obtain ⟨kind, hkind, rfl⟩ := List.mem_map.mp ht
    exact TokenKind.allPrintable_name (h kind hkind)
  | stated => exact h.elim
  | _ => decide

/-- A source that an entry refuses has a fault that shows only what is printable, or an escape, or the grammar
complains of it. -/
theorem Entry.isTidyFault_or_isOwn (entry : Entry) {source : Text} {e : SyntaxError}
    (h : entry.ofSource source = .error e) : e.IsTidyFault ∨ e.IsOwn := by
  cases ht : tokenize source with
  | error e' =>
    rw [ofSource, ht] at h
    cases h
    exact .inl (TokenReader.isTidyFault_of_readAll ht)
  | ok tokens =>
    rw [ofSource, ht] at h
    exact .inr (entry.isOwn_of_ofInput h)

namespace SyntaxError

variable {e : SyntaxError}

theorem mem_message_iff {c : CodePoint} (hc : c.isPrintable = false) : c ∈ e.message ↔ c ∈ e.cause.reason := by
  have hline : (ofString " at line " ++ ofInt e.place.line ++ ofString ", col " ++ ofInt e.place.column).AllPrintable :=
    allPrintable_append.mpr ⟨allPrintable_append.mpr ⟨allPrintable_append.mpr ⟨by decide, allPrintable_ofInt _⟩,
      by decide⟩, allPrintable_ofInt _⟩
  have heq : e.message = e.cause.reason ++
      (ofString " at line " ++ ofInt e.place.line ++ ofString ", col " ++ ofInt e.place.column) := by
    rw [message, List.append_assoc, List.append_assoc, List.append_assoc, List.append_assoc, List.append_assoc]
  rw [heq, List.mem_append, or_iff_left fun hm => ?_]
  exact Bool.eq_false_iff.mp hc (hline c hm)

theorem IsOwn.allPrintable (h : e.IsOwn) : e.cause.reason.AllPrintable := by
  obtain ⟨complaint, found, hcause, hown⟩ := h
  rw [hcause]
  cases found with
  | none => exact allPrintable_append.mpr ⟨hown.allPrintable, by decide⟩
  | some found =>
    exact allPrintable_append.mpr ⟨allPrintable_append.mpr ⟨hown.allPrintable, by decide⟩, allPrintable_quoted found⟩

/-- What is not printable in a message stands among the digits of an escape. -/
theorem mem_message_iff_malformed (h : e.IsTidyFault ∨ e.IsOwn) {c : CodePoint} (hc : c.isPrintable = false) :
    c ∈ e.message ↔ ∃ digits, e.cause = .lexical (.malformedEscape digits) ∧ c ∈ digits := by
  have hclear {t : Text} (ht : t.AllPrintable) : c ∉ t := fun hm => Bool.eq_false_iff.mp hc (ht c hm)
  rw [mem_message_iff hc]
  constructor
  · intro hm
    rcases h with ⟨fault, hcause, htidy⟩ | hown
    · by_cases hd : ∃ digits, fault = .malformedEscape digits
      · obtain ⟨digits, rfl⟩ := hd
        refine ⟨digits, hcause, ?_⟩
        rw [hcause] at hm
        rcases List.mem_append.mp hm with hm | hm
        · exact (List.mem_append.mp hm).resolve_left (hclear (by decide))
        · exact absurd hm (hclear (by decide))
      · rw [hcause] at hm
        exact absurd hm (hclear (htidy.allPrintable fun digits hf => hd ⟨digits, hf⟩))
    · exact absurd hm (hclear hown.allPrintable)
  · rintro ⟨digits, hcause, hm⟩
    rw [hcause]
    exact List.mem_append_left _ (List.mem_append_right _ hm)

end SyntaxError

namespace Command

/-- A message without line feeds makes a report of one line. -/
theorem count_errorReport (e : SyntaxError) :
    (Outcome.failed (.rejected e)).errorReport.count (CodePoint.ofChar '\n') =
      e.message.count (CodePoint.ofChar '\n') + 1 := by
  have hfront : (Text.ofString "error: ").count (CodePoint.ofChar '\n') = 0 := by decide
  rw [Outcome.errorReport, List.count_append, List.count_append, hfront, Nat.zero_add]
  rfl

/-- Whatever the other options are, a source that is given in place and has a syntax error is refused before
anything is put out: the files stay as they are, nothing goes to the screen, and the report is the reason with a
place of the source, all of it printable but for the digits of an escape. So it has one line unless a line feed is
among these. Every source can be given so. -/
theorem syntaxError_reported (source : Text) :
    Options.ofArguments ["-s", "--", source] = .ok { Options.initial with source, inPlace := true } ∧
      ∀ (args : List Text) (w : Workspace) (o : Options) (e : SyntaxError), Options.ofArguments args = .ok o →
        o.source = source → o.inPlace = true → o.indent.isSome → o.entry.ofSource source = .error e →
          ∃ outcome, run args w = (outcome, w) ∧ outcome.exitCode? = some 1 ∧ outcome.screen = [] ∧
            outcome.errorReport = "error: " ++ (e.cause.reason ++ " at line " ++ Text.ofInt e.place.line ++
              ", col " ++ Text.ofInt e.place.column) ++ "\n" ∧
            e.place.IsIn source ∧
            (∀ c : CodePoint, c.isPrintable = false → (c ∈ e.message ↔
              ∃ digits, e.cause = .lexical (.malformedEscape digits) ∧ c ∈ digits)) ∧
            (outcome.errorReport.count (CodePoint.ofChar '\n') = 1 ↔
              ∀ digits, e.cause = .lexical (.malformedEscape digits) → CodePoint.ofChar '\n' ∉ digits) := by
  refine ⟨rfl, fun args w o e ho hsource hplace hindent he => ?_⟩
  subst hsource
  obtain ⟨indent, hindent⟩ := Option.isSome_iff_exists.mp hindent
  have hresult : o.result w.read = .error (.rejected e) := by
    unfold Options.result Options.jsonIndent Options.readSource
    rw [hindent, hplace]
    simp only [if_true]
    show o.outputOf _ o.source = _
    rw [Options.outputOf, he]
  have hshown {c : CodePoint} (hc : c.isPrintable = false) :=
    SyntaxError.mem_message_iff_malformed (o.entry.isTidyFault_or_isOwn he) hc
  refine ⟨.failed (.rejected e), ?_, rfl, rfl, rfl, o.entry.isIn_of_ofSource he, fun c => hshown, ?_⟩
  · rw [run, ho]
    simp only [hresult]
  · have hone : e.message.count (CodePoint.ofChar '\n') + 1 = 1 ↔ CodePoint.ofChar '\n' ∉ e.message := by
      rw [Nat.add_eq_right, List.count_eq_zero]
    rw [count_errorReport, hone, hshown (by decide)]
    refine ⟨fun h digits hcause hm => h ⟨digits, hcause, hm⟩, ?_⟩
    rintro h ⟨digits, hcause, hm⟩
    exact h digits hcause hm

/-- With a file for the output, a regular expression that does not end: the file is not written. -/
theorem syntaxError_reported_toFile :
    ∃ outcome, run ["-s", "-t", "mag", "--out", "a.json", "x + /b"] ⟨[]⟩ = (outcome, ⟨[]⟩) ∧
      outcome.exitCode? = some 1 ∧ outcome.errorReport.count (CodePoint.ofChar '\n') = 1 := by
  obtain ⟨-, h⟩ := syntaxError_reported "x + /b"
  obtain ⟨outcome, hrun, hcode, -, -, -, -, hline⟩ := h ["-s", "-t", "mag", "--out", "a.json", "x + /b"] ⟨[]⟩
    ⟨"x + /b", true, some .mag, .program, false, some 2, some "a.json"⟩ ⟨.lexical .openRegex, ⟨4, 1, 5⟩, none⟩
    (by decide +kernel) rfl rfl rfl (by cbv)
  refine ⟨outcome, hrun, hcode, hline.mpr ?_⟩
  rintro _ ⟨⟩

/-- A line feed behind the mark of an escape is shown as it stands, and the report has two lines. -/
theorem malformedEscape_breaks_line :
    (run ["-s", "\"\\x\n1\""] ⟨[]⟩).1.errorReport = "error: Malformed escape sequence '\n1' at line 1, col 1\n" := by
  decide +kernel

end Command

end MagSyntax
