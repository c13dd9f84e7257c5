import MagSyntax.Command.Run
import MagSyntax.Proofs.CarriageReturns

/-! Formatting through files. What is written to a file is read from it again with a line feed for each line end. That
changes a printed text only where a carriage return stands in it, and there is one just where a regular expression in
the source holds one. -/

namespace MagSyntax

open Text

namespace Text

theorem return_not_mem_unifyLineEnds (t : Text) : CodePoint.ofChar '\r' ∉ t.unifyLineEnds := by
  fun_induction unifyLineEnds t with
  | case1 => exact List.not_mem_nil
  | case2 rest _ ih => exact ih
  | case3 rest _ ih => exact List.not_mem_cons_of_ne_of_not_mem (by decide) ih
  | case4 c rest hc ih => exact List.not_mem_cons_of_ne_of_not_mem (Ne.symm hc) ih

/-- A text without carriage returns has its line ends already. -/
theorem unifyLineEnds_eq {t : Text} (h : CodePoint.ofChar '\r' ∉ t) : t.unifyLineEnds = t := by
  induction t with
  | nil => rfl
  | cons c rest ih =>
    obtain ⟨hc, hrest⟩ := not_or.mp (mt List.mem_cons.mpr h)
    rw [unifyLineEnds, if_neg (Ne.symm hc), ih hrest]

/-- Only line feeds are trimmed. -/
theorem mem_trimLineFeeds {t : Text} {c : CodePoint} (hc : c ≠ '\n') : c ∈ t.trimLineFeeds ↔ c ∈ t := by
  have hparts := List.takeWhile_append_dropWhile (p := fun (c : CodePoint) => decide (c = '\n')) (l := t.reverse)
  have hall : c ∈ t.reverse ↔ c ∈ t.reverse.dropWhile fun (c : CodePoint) => decide (c = '\n') := by
    conv_lhs => rw [← hparts, List.mem_append]
    exact or_iff_right fun hm => hc (by simpa using List.mem_takeWhile_imp hm)
  rw [trimLineFeeds, List.mem_reverse, ← hall, List.mem_reverse]

end Text

/-- The text is what the source is printed as. -/
def Entry.Formats (entry : Entry) (source text : Text) : Prop :=
  ∃ tree, entry.ofSource source = .ok tree ∧ entry.print tree = .ok text

namespace Command

namespace Workspace

variable {w later : Workspace} {name content place : Text} {steps folder : List Text}

/-- The workspace with a file in its place. -/
def withFile (w : Workspace) (place content : Text) : Workspace :=
  ⟨w.files.filter (fun (other, _) => other ≠ place) ++ [(place, content)]⟩

theorem write_iff : w.write name content = .ok later ↔
    ∃ place, w.resolve name = .ok place ∧ later = w.withFile place content := by
  simp only [write, Except.bind_ok_iff, Except.pure_ok_iff, withFile]

theorem find?_withFile (w : Workspace) (place content : Text) :
    (w.withFile place content).find? place = some content := by
  rw [find?, withFile, List.lookup_append, List.lookup_eq_none_iff.mpr fun file hm => ?_]
  · simp
  · exact bne_iff_ne.mpr (Ne.symm (of_decide_eq_true (List.mem_filter.mp hm).2))

/-- A file makes folders of all that its path leads through, and no folder gets lost. -/
theorem isFolder_withFile : (w.withFile place content).isFolder steps ↔
    w.isFolder steps ∨ path steps ++ ofString "/" <+: place := by
  simp only [isFolder, withFile, Bool.or_eq_true, List.any_eq_true, List.mem_append, List.mem_filter,
    List.mem_singleton, List.isPrefixOf_iff_prefix]
  constructor
  · rintro (hempty | ⟨file, ⟨hm, -⟩ | rfl, hfile⟩)
    · exact .inl (.inl hempty)
    · exact .inl (.inr ⟨file, hm, hfile⟩)
    · exact .inr hfile
  · rintro ((hempty | ⟨file, hm, hfile⟩) | hplace)
    · exact .inl hempty
    · by_cases hsame : file.1 = place
      · exact .inr ⟨(place, content), .inr rfl, hsame ▸ hfile⟩
      · exact .inr ⟨file, .inl ⟨hm, by simpa using hsame⟩, hfile⟩
    · exact .inr ⟨(place, content), .inr rfl, hplace⟩

/-- The file stays where its name leads to. -/
theorem locate_withFile (h : w.locate folder steps = .ok place) (content : Text) :
    (w.withFile place content).locate folder steps = .ok place := by
  induction steps generalizing folder with
  | nil => cases h
  | cons step rest ih =>
    simp only [locate] at h ⊢
    split at h
    next hstays =>
      rw [if_pos hstays]
      exact ih h
    next hstays =>
    rw [if_neg hstays]
    split at h
    next hleaves =>
      rw [if_pos hleaves]
      split at h
      next => cases h
      next hinside =>
        rw [if_neg hinside]
        exact ih h
    next hleaves =>
    rw [if_neg hleaves]
    split at h
    next hfolder =>
      rw [if_pos (isFolder_withFile.mpr (.inl hfolder))]
      exact ih h
    next hfolder =>
    split at h
    next hrest =>
      cases h
      -- no file is a folder of its own name
      have hlonger : ¬path (folder ++ [step]) ++ ofString "/" <+: path (folder ++ [step]) := fun hp => by
        have hle := hp.length_le
        rw [List.length_append] at hle
        exact Nat.not_succ_le_self _ hle
      rw [if_neg (mt isFolder_withFile.mp (not_or.mpr ⟨hfolder, hlonger⟩)), if_pos hrest]
    next =>
      split at h
      next => cases h
      next => split at h <;> cases h

theorem resolve_withFile (h : w.resolve name = .ok place) (content : Text) :
    (w.withFile place content).resolve name = .ok place := by
  unfold resolve at h ⊢
  split at h
  next => cases h
  next hzero =>
  split at h
  next => cases h
  next hroot =>
    rw [if_neg hzero, if_neg hroot]
    exact locate_withFile h content

/-- What is written to a file is read from it. -/
theorem read_of_write (h : w.write name content = .ok later) : later.read name = .ok content := by
  obtain ⟨place, hplace, rfl⟩ := write_iff.mp h
  rw [read, Except.bind_ok_iff]
  exact ⟨place, resolve_withFile hplace content, by rw [find?_withFile]; rfl⟩

end Workspace

namespace Word

theorem ofLetters_ne_operand (flags : List Switch) (letters t : Text) : ofLetters flags letters ≠ .operand t := by
  fun_induction ofLetters flags letters with
  | case4 flags letter rest switch _ _ ih => exact ih
  | _ => rintro ⟨⟩

theorem ofLong_ne_operand (switch : Switch) (value : Option Text) (t : Text) : ofLong switch value ≠ .operand t := by
  unfold ofLong
  split <;> [skip; split] <;> rintro ⟨⟩

theorem ofLetterWith_ne_operand (switch : Switch) (value t : Text) : ofLetterWith switch value ≠ .operand t := by
  unfold ofLetterWith
  split
  next => rintro ⟨⟩
  next =>
    split
    next => rintro ⟨⟩
    next => exact ofLetters_ne_operand _ _ t

theorem eq_of_unnamed {arg t : Text} (h : unnamed arg = .operand t) : t = arg := by
  unfold unnamed at h
  split at h <;> cases h
  rfl

/-- An operand is the argument itself. -/
theorem eq_of_operand {arg t : Text} (h : ofArgument arg = .operand t) : t = arg := by
  unfold ofArgument at h
  split at h
  next =>
    simp only [ofDashed] at h
    split at h
    next =>
      split at h
      next => exact absurd h (ofLong_ne_operand _ _ t)
      next => exact absurd h (ofLong_ne_operand _ _ t)
      next => exact eq_of_unnamed h
      next => cases h
    next =>
      split at h
      next => exact eq_of_unnamed h
      next =>
        split at h
        next =>
          split at h
          next => exact absurd h (ofLetterWith_ne_operand _ _ t)
          next => exact absurd h (ofLetters_ne_operand _ _ t)
        next => exact absurd h (ofLetters_ne_operand _ _ t)
  next =>
    cases h
    rfl

end Word

namespace Options

variable {source name : Text}

theorem words_source (hmark : source ≠ Word.markText) (rest : List Text) :
    Word.ofArguments ("-s" :: source :: "-t" :: "mag" :: rest) = .switches [.string] none :: Word.ofArgument source ::
      .switches [] (some (.target, none)) :: .operand "mag" :: Word.ofArguments rest := by
  simp only [Word.ofArguments, if_neg hmark]
  rfl

/-- Switches in the place of the source leave it missing. -/
theorem ofWords_switches (o : Options) (flags : List Switch) (last : Option (Switch × Option Text)) : ∃ refusal,
    o.ofWords false false [.switches flags last, .switches [] (some (.target, none)), .operand "mag"] =
      .error refusal := by
  rcases last with - | ⟨switch, - | value⟩
  · rw [ofWords]
    cases flags.foldlM setFlag o <;> exact ⟨_, rfl⟩
  · exact ⟨_, rfl⟩
  · rw [ofWords]
    cases o.setAll flags switch value <;> exact ⟨_, rfl⟩

/-- Where the options are taken, the source is an operand. -/
theorem operand_of_ofArguments {o : Options} (h : ofArguments ["-s", source, "-t", "mag"] = .ok o) :
    Word.ofArgument source = .operand source ∧ source ≠ Word.markText := by
  have hmark : source ≠ Word.markText := by
    rintro rfl
    cases h
  refine ⟨?_, hmark⟩
  rw [ofArguments, words_source hmark] at h
  cases hword : Word.ofArgument source with
  | operand t => rw [Word.eq_of_operand hword]
  | ambiguous | malformed | mark | unknown =>
    rw [hword] at h
    cases h
  | switches flags last =>
    rw [hword] at h
    obtain ⟨refusal, hrefused⟩ := ofWords_switches { initial with inPlace := true } flags last
    exact nomatch hrefused.symm.trans h

theorem ofArguments_source (h : Word.ofArgument source = .operand source) (hmark : source ≠ Word.markText) :
    ofArguments ["-s", source, "-t", "mag"] = .ok ⟨source, true, some .mag, .program, false, some 2, none⟩ := by
  rw [ofArguments, words_source hmark, h]
  rfl

theorem ofWords_value {o set : Options} {flags : List Switch} {switch : Switch} {value : Text}
    (h : o.setAll flags switch value = .ok set) (hasSource misplaced : Bool) (rest : List Word) :
    o.ofWords hasSource misplaced (.switches flags (some (switch, none)) :: .operand value :: rest) =
      set.ofWords hasSource misplaced rest := by
  rw [ofWords, h]

theorem ofArguments_toFile (h : Word.ofArgument source = .operand source) (hmark : source ≠ Word.markText)
    (hname : Word.ofArgument name = .operand name) (hmark' : name ≠ Word.markText) :
    ofArguments ["-s", source, "-t", "mag", "-o", name] =
      .ok ⟨source, true, some .mag, .program, false, some 2, some name⟩ := by
  have hout : Word.ofArguments ["-o", name] = [.switches [] (some (.out, none)), .operand name] := by
    simp only [Word.ofArguments, if_neg hmark', hname]
    rfl
  have hset (o : Options) : o.setAll [] .out name = .ok { o with out := some name } := by
    show o.setValue .out name = _
    rw [setValue, if_neg hmark']
  rw [ofArguments, words_source hmark, h, hout]
  exact ofWords_value (hset _) true false []

theorem ofArguments_file (hname : Word.ofArgument name = .operand name) (hmark : name ≠ Word.markText) :
    ofArguments [name, "-t", "mag"] = .ok ⟨name, false, some .mag, .program, false, some 2, none⟩ := by
  simp only [ofArguments, Word.ofArguments, if_neg hmark, hname]
  rfl

end Options

section

variable {o : Options} {source text : Text} {w : Workspace}

/-- The source output of a program is its printed text. -/
theorem outputOf_iff (hentry : o.entry = .program) (htarget : o.target = some .mag) {indent : Option Int} :
    o.outputOf indent source = .ok text ↔ Entry.program.Formats source text := by
  unfold Options.outputOf Entry.Formats Entry.print
  rw [hentry, htarget]
  cases Entry.program.ofSource source with
  | error e => simp
  | ok tree =>
    simp only [Output.ofTarget, Output.write, Node.source, Except.ok.injEq, exists_eq_left']
    rcases Sheet.empty.addTree tree with ⟨e | u, later⟩ <;> simp [Sheet.text]

theorem result_iff (hentry : o.entry = .program) (htarget : o.target = some .mag) {indent : Int}
    (hindent : o.indent = some indent) {readFile : Text → Except FileFault Text} :
    o.result readFile = .ok text ↔
      ∃ source, o.readSource readFile = .ok source ∧ Entry.program.Formats source text := by
  simp only [Options.result, Options.jsonIndent, hindent, Except.bind_ok_iff, outputOf_iff hentry htarget,
    Except.ok.injEq, exists_eq_left']

/-- Without a file for the output, what the options ask for is printed, and the files stay as they are. -/
theorem run_printed_iff {args : List Text} (ho : Options.ofArguments args = .ok o) (hout : o.outFile? = none) :
    (run args w).2 = w ∧ ∀ text, (run args w).1 = .printed text ↔ o.result w.read = .ok text := by
  rw [run, ho]
  simp only [hout]
  cases o.result w.read <;> simp

/-- A source that is printed is an operand, and it is printed as in memory. -/
theorem formats_of_run (h : (run ["-s", source, "-t", "mag"] w).1 = .printed text) :
    Word.ofArgument source = .operand source ∧ source ≠ Word.markText ∧ Entry.program.Formats source text := by
  cases ho : Options.ofArguments ["-s", source, "-t", "mag"] with
  | error refusal =>
    rw [run, ho] at h
    cases h
  | ok o =>
    obtain ⟨hword, hmark⟩ := Options.operand_of_ofArguments ho
    have hresult := ((run_printed_iff (Options.ofArguments_source hword hmark) rfl).2 text).mp h
    obtain ⟨source', hsource, hformats⟩ := (result_iff rfl rfl rfl).mp hresult
    cases hsource
    exact ⟨hword, hmark, hformats⟩

theorem Outcome.printed_of_screen {outcome : Outcome} {t : Text} (h : outcome.screen = t ++ "\n") :
    ∃ text, outcome = .printed text := by
  cases outcome with
  | printed text => exact ⟨text, rfl⟩
  | wrote | failed => exact absurd h.symm (List.append_ne_nil_of_right_ne_nil t (by decide))

variable {name content : Text} {later : Workspace}

theorem ne_mark_of_mag (h : ofString ".mag" <:+ name) : name ≠ Word.markText := by
  rintro rfl
  exact absurd h (by decide)

theorem ne_nil_of_mag (h : ofString ".mag" <:+ name) : name ≠ [] := by
  rintro rfl
  exact absurd h (by decide)

/-- A text without surrogates is written to its file. -/
theorem run_toFile (hword : Word.ofArgument source = .operand source) (hmark : source ≠ Word.markText)
    (hname : Word.ofArgument name = .operand name) (hmag : ofString ".mag" <:+ name)
    (hformats : Entry.program.Formats source text) (hplain : ∀ c ∈ text, c.isSurrogate = false)
    (hwrite : w.write name text = .ok later) : run ["-s", source, "-t", "mag", "-o", name] w = (.wrote, later) := by
  have hresult : Options.result ⟨source, true, some .mag, .program, false, some 2, some name⟩ w.read = .ok text :=
    (result_iff rfl rfl rfl).mpr ⟨source, rfl, hformats⟩
  have hout : Options.outFile? ⟨source, true, some .mag, .program, false, some 2, some name⟩ = some name := by
    simp [Options.outFile?, ne_nil_of_mag hmag]
  have hencodable : text.any CodePoint.isSurrogate = false := by simpa using hplain
  rw [run, Options.ofArguments_toFile hword hmark hname (ne_mark_of_mag hmag)]
  simp only [hresult, hout, writeOut, hencodable, Bool.not_false, if_true, hwrite]

/-- What a file holds is printed as in memory, with line feeds for its line ends. -/
theorem run_file (hname : Word.ofArgument name = .operand name) (hmag : ofString ".mag" <:+ name)
    (hread : w.read name = .ok content) : ∃ outcome, run [name, "-t", "mag"] w = (outcome, w) ∧
      ∀ text, outcome = .printed text ↔ Entry.program.Formats content.unifyLineEnds text := by
  have ho := Options.ofArguments_file hname (ne_mark_of_mag hmag)
  have hsource : Options.readSource ⟨name, false, some .mag, .program, false, some 2, none⟩ w.read =
      .ok content.unifyLineEnds := by
    simp [Options.readSource, hmag, hread]
  refine ⟨_, Prod.ext rfl (run_printed_iff ho rfl).1, fun text => ?_⟩
  rw [(run_printed_iff ho rfl).2 text, result_iff rfl rfl rfl, hsource]
  simp

end

/-- Formatting through files. A source that is given in place is printed to a file and printed again from there. If
formatting in memory gives the text again, so does the second run, exactly if no regular expression in the source holds
a carriage return: that one is printed as it is and read from the file as a line feed. -/
theorem formatting_through_file {source text name place : Text} {w : Workspace}
    (hs : run ["-s", source, "-t", "mag"] w = (.printed text, w)) (hagain : Entry.program.Formats text text)
    (hplain : ∀ c ∈ text, c.isSurrogate = false) (hname : Word.ofArgument name = .operand name)
    (hmag : ofString ".mag" <:+ name) (hplace : w.resolve name = .ok place) :
    ∃ first second later, run ["-s", source, "-t", "mag", "-o", name] w = (first, later) ∧
      run [name, "-t", "mag"] later = (second, later) ∧ first.exitCode? = some 0 ∧ first.screen = [] ∧
        later.read name = .ok text ∧
          (second.exitCode? = some 0 ∧ second.screen = text.trimLineFeeds ++ "\n" ↔ ¬source.HoldsReturn) := by
  obtain ⟨hword, hmark, hformats⟩ := formats_of_run (congrArg Prod.fst hs)
  have hwrite : w.write name text = .ok (w.withFile place text) := Workspace.write_iff.mpr ⟨place, hplace, rfl⟩
  have hfirst := run_toFile hword hmark hname hmag hformats hplain hwrite
  have hread := Workspace.read_of_write hwrite
  obtain ⟨second, hrun, hsecond⟩ := run_file hname hmag hread
  refine ⟨.wrote, second, _, hfirst, hrun, rfl, rfl, hread, ?_⟩
  obtain ⟨tree, htree, hprint⟩ := hformats
  rw [← Entry.return_mem_print .program htree hprint]
  constructor
  · rintro ⟨-, hscreen⟩ hreturn
    obtain ⟨text', rfl⟩ := Outcome.printed_of_screen hscreen
    obtain ⟨tree', htree', hprint'⟩ := (hsecond text').mp rfl
    have htrim : text'.trimLineFeeds = text.trimLineFeeds := List.append_cancel_right hscreen
    have hreturn' : CodePoint.ofChar '\r' ∈ text' := by
      rw [← mem_trimLineFeeds (by decide), htrim]
      exact (mem_trimLineFeeds (by decide)).mpr hreturn
    -- what is read from a file has no carriage return, so nothing is printed for it with one
    exact return_not_mem_unifyLineEnds text ((Entry.return_mem_print .program htree' hprint').mp hreturn').mem
  · intro hreturn
    rw [(hsecond text).mpr (by rwa [unifyLineEnds_eq hreturn])]
    exact ⟨rfl, rfl⟩

/-- Carriage returns in a string, between tokens, at the end of a line and, escaped, in a regular expression. -/
theorem formatting_through_file_escaped :
    ∃ first second later,
      run ["-s", "let s = 'a\\r' +\rb;\r\nlet r = /c\\r/g;", "-t", "mag", "-o", "F.mag"] ⟨[]⟩ = (first, later) ∧
      run ["F.mag", "-t", "mag"] later = (second, later) ∧ first.exitCode? = some 0 ∧ second.exitCode? = some 0 ∧
        second.screen = "let s = \"a\\r\" + b;\nlet r = /c\\r/g;\n" := by
  have hplace : Workspace.resolve ⟨[]⟩ "F.mag" = .ok "F.mag" := by decide
  have hprints : run ["-s", "let s = 'a\\r' +\rb;\r\nlet r = /c\\r/g;", "-t", "mag"] ⟨[]⟩ =
      (.printed "let s = \"a\\r\" + b;\nlet r = /c\\r/g;\n", ⟨[]⟩) := by
    decide +kernel
  have hagain : run ["-s", "let s = \"a\\r\" + b;\nlet r = /c\\r/g;\n", "-t", "mag"] ⟨[]⟩ =
      (.printed "let s = \"a\\r\" + b;\nlet r = /c\\r/g;\n", ⟨[]⟩) := by
    decide +kernel
  obtain ⟨first, second, later, hfirst, hsecond, hwrote, -, -, hprinted⟩ :=
    formatting_through_file hprints (formats_of_run (congrArg Prod.fst hagain)).2.2 (by decide) (by decide +kernel)
      (by decide) hplace
  obtain ⟨hcode, hscreen⟩ := hprinted.mpr (by decide +kernel)
  exact ⟨first, second, later, hfirst, hsecond, hwrote, hcode, hscreen.trans (by decide +kernel)⟩

/-- A regular expression with a carriage return is formatted in memory, and it has no end when it is read from the
file. -/
theorem returnInRegex_not_reread :
    let first := run ["-s", "/a\rb/;", "-t", "mag", "-o", "F.mag"] ⟨[]⟩
    let second := run ["F.mag", "-t", "mag"] first.2
    run ["-s", "/a\rb/;", "-t", "mag"] ⟨[]⟩ = (.printed "/a\rb/;\n", ⟨[]⟩) ∧
      run ["-s", "/a\rb/;\n", "-t", "mag"] ⟨[]⟩ = (.printed "/a\rb/;\n", ⟨[]⟩) ∧ first.1.exitCode? = some 0 ∧
        second.1.exitCode? = some 1 ∧
          second.1.errorReport = "error: Unterminated regular expression at line 1, col 1\n" := by
  decide +kernel

end Command

end MagSyntax
