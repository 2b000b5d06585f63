import BraceLang.Proofs.Cli.Precedence
import BraceLang.Proofs.Cli.Prompt

/-! # Warnings — what the flag for them adds to a run

    A run with the flag for warnings does what the run without it does
    (`Command.louder`), and in the end says more on the second stream only: the
    warnings about what was misread, of a script or of every line of a session.
    Where nothing is parsed, nothing is added (`onlyWarns_of_insert`). -/

namespace BraceLang

namespace Cli

/-! ## Reports about one source -/

/-- The report of what keeps a source from being cut into tokens. -/
def lexicalReports (source filename : String) : List Report :=
  match tokenize source (some filename) with
  | .error fault => [⟨fault, .error, some source⟩]
  | .ok _ => []

/-- The warnings about a source, in the order in which a new parser records what
    it misread. -/
def misreadReports (source filename : String) : List Report :=
  match Parser.ofSource source (some filename) with
  | .error _ => []
  | .ok p => p.parseProgram.2.diagnostics.map fun fault => ⟨fault, .warning, some source⟩

/-- The reports about a typed line by itself. -/
def onLine (reports : String → String → List Report) (line : List UInt8) : List Report :=
  match typed? line with
  | none => []
  | some text => reports text "<repl>"

/-- The texts of what is reported about some lines, one behind the other. -/
def said (paint : Paint) (reports : List UInt8 → List Report) (lines : List (List UInt8)) :
    String :=
  String.join (lines.map fun line =>
    String.join ((reports line).map fun report => report.render paint))

/-- What the second stream of a session holds without the flag for warnings and with
    it: the reports about the lines that it answers, and what is said at the end. -/
structure SaysWarnings (paint : Paint) (lines : List (List UInt8)) (last : String)
    (verbose : Prop) (quiet loud : String) : Prop where
  quiet : ¬ verbose → quiet = said paint (onLine lexicalReports) lines ++ last
  loud : loud
    = said paint (fun line => onLine lexicalReports line ++ onLine misreadReports line) lines ++ last

/-- How a run with the flag for warnings differs from one without it. -/
structure OnlyWarns (world : World) (args loud : List String) : Prop where
  code : (run world loud).code = (run world args).code
  stdout : (run world loud).output.stdout = (run world args).output.stdout
  /-- Whatever makes a run fail is said in the same words. -/
  failed : (run world args).code = 1 → run world loud = run world args
  /-- Help, a listing of tokens, and the flag given before. -/
  ignored : (∃ arg ∈ args, arg ∈ helpFlags ++ tokensFlags ++ verboseFlags) →
    run world loud = run world args
  script : Plain args → (∀ arg ∈ args, arg ∉ tokensFlags) →
    ∀ filename source tokens, scriptOf? args = some filename →
    world.readFile filename = .ok (Text.encode source) →
    tokenize source (some filename) = .ok tokens →
    ((∀ arg ∈ args, arg ∉ verboseFlags) → (run world args).output.stderr = "")
    ∧ (run world loud).output.stderr
      = String.join ((misreadReports source filename).map fun report => report.render world.paint)
  /-- A session that counts its lines up to where it stops. -/
  session : Plain args → (∀ arg ∈ args, arg ∉ tokensFlags) → scriptOf? args = none →
    ∀ front stop, StopsAt (Text.byteLines world.input) front stop →
    world.overflow.Allows (1 + front.countP isCounted) →
    SaysWarnings world.paint front (parting stop) (∃ arg ∈ args, arg ∈ verboseFlags)
      (run world args).output.stderr (run world loud).output.stderr
  /-- A session that is stopped by one line too many. -/
  stopped : Plain args → (∀ arg ∈ args, arg ∉ tokensFlags) → scriptOf? args = none →
    ∀ served line behind stop, StopsAt (Text.byteLines world.input) (served ++ line :: behind) stop →
    ∀ report, world.overflow = .stops report →
    isCounted line → 1 + served.countP isCounted = 2147483647 →
    SaysWarnings world.paint (served ++ [line]) report (∃ arg ∈ args, arg ∈ verboseFlags)
      (run world args).output.stderr (run world loud).output.stderr

/-! ## The same command with warnings -/

/-- The same options, with warnings. -/
def Options.louder (options : Options) : Options :=
  { options with verbose := true }

/-- The same command, with warnings. -/
def Command.louder : Command → Command
  | unknownFlag flag => unknownFlag flag
  | help => help
  | script options filename => script options.louder filename
  | prompt options => prompt options.louder

section Insert

variable {front back : List String} {flag : String}

theorem optionsOf_insert (h : flag ∈ verboseFlags) :
    optionsOf (front ++ flag :: back) = (optionsOf (front ++ back)).louder := by
  have hother : ∀ flag ∈ verboseFlags, flag ∉ tokensFlags := by decide
  simp [optionsOf, Options.louder, hother flag h, h]

theorem any_helpFlags_insert (h : flag ∈ verboseFlags) :
    (front ++ flag :: back).any (· ∈ helpFlags) = (front ++ back).any (· ∈ helpFlags) := by
  have hother : ∀ flag ∈ verboseFlags, flag ∉ helpFlags := by decide
  simp [hother flag h]

theorem scriptOf?_insert (h : isFlag flag) :
    scriptOf? (front ++ flag :: back) = scriptOf? (front ++ back) := by
  simp [scriptOf?, h]

theorem find?_isUnknown_insert (h : flag ∈ knownFlags) :
    (front ++ flag :: back).find? (IsUnknown ·) = (front ++ back).find? (IsUnknown ·) := by
  simp [List.find?_append, not_isUnknown_of_mem h]

theorem ofArgs_insert (h : flag ∈ verboseFlags) :
    Command.ofArgs (front ++ flag :: back) = (Command.ofArgs (front ++ back)).louder := by
  have hknown : flag ∈ knownFlags := by
    simp [knownFlags, h]
  rw [ofArgs_eq, ofArgs_eq, find?_isUnknown_insert hknown, optionsOf_insert h,
    any_helpFlags_insert h, scriptOf?_insert (isFlag_of_known hknown)]
  cases (front ++ back).find? (IsUnknown ·) with
  | some unknown => rfl
  | none =>
      rw [Request.command, Request.command]
      cases (front ++ back).any (· ∈ helpFlags) with
      | true => rfl
      | false => cases scriptOf? (front ++ back) <;> rfl

end Insert

/-! ## One source -/

variable {options : Options} {source filename : String} (paint : Paint)

theorem showSource_louder_of_showTokens (h : options.showTokens) :
    showSource options.louder paint source filename = showSource options paint source filename := by
  rw [showSource, showSource]
  cases tokenize source (some filename) with
  | error fault => rfl
  | ok tokens =>
      show (if options.showTokens then _ else _) = _
      rw [if_pos h]
      exact (if_pos h).symm

/-- The nodes of a source are shown whether or not warnings are asked for, and
    the warnings are all that is said beside them. -/
theorem exists_showSource {tokens : List Token} (h : tokenize source (some filename) = .ok tokens) :
    ∃ shown, ∀ options : Options, ¬ options.showTokens →
      showSource options paint source filename
        = .ok ⟨shown, String.join ((if options.verbose then
          misreadReports source filename else []).map fun report => report.render paint)⟩ := by
  obtain ⟨p, hp, -⟩ := Parser.ofSource_of_tokenize h
  refine ⟨String.join (p.parseProgram.1.map fun node => node.describe ++ "\n"),
    fun options hshow => ?_⟩
  obtain ⟨q, hq, hshown⟩ := showSource_of_not_showTokens paint h hshow
  obtain rfl : p = q := Except.ok.inj (hp.symm.trans hq)
  rw [hshown, misreadReports, hp]
  rfl

/-! ## Scripts -/

/-- An outcome with more said on the second stream, unless it is a failure. -/
structure SaysMore (quiet loud : Outcome) : Prop where
  code : loud.code = quiet.code
  stdout : loud.output.stdout = quiet.output.stdout
  failed : quiet.code = 1 → loud = quiet

theorem SaysMore.refl (outcome : Outcome) : SaysMore outcome outcome :=
  ⟨rfl, rfl, fun _ => rfl⟩

theorem saysMore_runScript (world : World) (options : Options) (filename : String) :
    SaysMore (runScript world options filename) (runScript world options.louder filename) := by
  rw [runScript, runScript]
  cases textOf (world.readFile filename) with
  | error fault => exact .refl _
  | ok source =>
      cases htokens : tokenize source (some filename) with
      | error fault =>
          simp only [showSource_of_error world.paint htokens]
          exact .refl _
      | ok tokens =>
          by_cases hshow : options.showTokens
          · simp only [showSource_louder_of_showTokens world.paint hshow]
            exact .refl _
          · obtain ⟨shown, hshown⟩ := exists_showSource world.paint htokens
            simp only [hshown options hshow, hshown options.louder hshow]
            exact ⟨rfl, rfl, fun hcode => absurd hcode Nat.zero_ne_one⟩

/-! ## Lines -/

theorem reportsOf_eq (h : ¬ options.showTokens) (text : String) :
    reportsOf options text
      = lexicalReports text "<repl>"
        ++ if options.verbose then misreadReports text "<repl>" else [] := by
  rw [reportsOf, lexicalReports, misreadReports]
  cases hp : Parser.ofSource text (some "<repl>") with
  | error fault =>
      rw [Parser.ofSource_eq_error_iff.mp hp]
      simp
  | ok p =>
      obtain ⟨tokens, htokens, -⟩ := Parser.exists_tokenize_of_ofSource hp
      rw [htokens]
      simp [h]

/-- There is nothing to say about the empty source. -/
theorem reports_empty : lexicalReports "" "<repl>" = [] ∧ misreadReports "" "<repl>" = [] := by
  decide +kernel

/-- What is said on the second stream about a line. -/
theorem stderr_answer (h : ¬ options.showTokens) (line : List UInt8) :
    (answer options paint line).stderr
      = String.join ((onLine lexicalReports line
          ++ if options.verbose then onLine misreadReports line else []).map
            fun report => report.render paint) := by
  rw [answer, onLine, onLine]
  cases typed? line with
  | none => simp
  | some text =>
      by_cases hblank : text = ""
      · subst hblank
        simp [reports_empty]
      · simp only [if_neg hblank, reportsOf_eq h]

theorem stdout_answer_louder (line : List UInt8) :
    (answer options.louder paint line).stdout = (answer options paint line).stdout := by
  rw [answer, answer]
  cases typed? line with
  | none => rfl
  | some text =>
      by_cases hblank : text = ""
      · simp only [if_pos hblank]
      · simp only [if_neg hblank]
        rfl

theorem answer_louder_of_showTokens (h : options.showTokens) (line : List UInt8) :
    answer options.louder paint line = answer options paint line := by
  have hshow : options.louder.showTokens := h
  have hreports : ∀ text, reportsOf options.louder text = reportsOf options text := by
    intro text
    rw [reportsOf, reportsOf]
    simp [h, hshow]
  rw [answer, answer]
  simp only [hreports]
  rfl

/-! ## Sessions -/

variable {overflow : Overflow}

theorem code_exchange_ne (options : Options) (number : Int32) (lines : List (List UInt8)) :
    (Session.exchange options paint overflow number lines).code ≠ 1 := by
  induction lines generalizing number with
  | nil => exact Nat.zero_ne_one
  | cons line lines ih =>
      rw [Session.exchange]
      cases (Entry.ofBytes line).next overflow number with
      | goOn following => exact ih following
      | close => exact Nat.zero_ne_one
      | stop report =>
          show 101 ≠ 1
          decide

/-- Line after line a session with warnings does what it does without them. -/
theorem exchange_louder (options : Options) (number : Int32) (lines : List (List UInt8)) :
    (Session.exchange options.louder paint overflow number lines).code
        = (Session.exchange options paint overflow number lines).code
      ∧ (Session.exchange options.louder paint overflow number lines).output.stdout
        = (Session.exchange options paint overflow number lines).output.stdout := by
  induction lines generalizing number with
  | nil => exact ⟨rfl, rfl⟩
  | cons line lines ih =>
      by_cases hline : Closes line
      · rw [exchange_of_closes options paint hline, exchange_of_closes options.louder paint hline]
        exact ⟨rfl, rfl⟩
      · have hanswer : (answer options.louder paint line).stdout
            = (answer options paint line).stdout := stdout_answer_louder paint line
        rw [Session.exchange, Session.exchange]
        simp only [output_of_not_closes _ paint hline]
        cases (Entry.ofBytes line).next overflow number with
        | goOn following =>
            simp [Outcome.behind, Output.andThen, ih following, hanswer]
        | close => simp [Output.andThen, hanswer]
        | stop report => simp [Output.andThen, hanswer]

theorem saysMore_transcript (options : Options) (input : List UInt8) :
    SaysMore (Session.transcript options paint overflow input)
      (Session.transcript options.louder paint overflow input) where
  code := (exchange_louder paint options 1 _).1
  stdout := by
    rw [Session.transcript, Session.transcript]
    simp only [Outcome.behind, Output.andThen, exchange_louder]
  failed := fun hcode => absurd hcode (code_exchange_ne paint options 1 _)

theorem exchange_louder_of_showTokens (h : options.showTokens) (number : Int32)
    (lines : List (List UInt8)) :
    Session.exchange options.louder paint overflow number lines
      = Session.exchange options paint overflow number lines := by
  induction lines generalizing number with
  | nil => rfl
  | cons line lines ih =>
      by_cases hline : Closes line
      · rw [exchange_of_closes options paint hline, exchange_of_closes options.louder paint hline]
      · rw [Session.exchange, Session.exchange]
        simp only [output_of_not_closes _ paint hline, answer_louder_of_showTokens paint h, ih]

/-! ## Commands -/

theorem saysMore_louder (world : World) (command : Command) :
    SaysMore (command.run world) (command.louder.run world) := by
  cases command with
  | unknownFlag flag => exact .refl _
  | help => exact .refl _
  | script options filename => exact saysMore_runScript world options filename
  | prompt options => exact saysMore_transcript world.paint options world.input

theorem run_louder_of_showTokens (h : options.showTokens) (world : World)
    (script : Option String) :
    (Request.command ⟨options, false, script⟩).louder.run world
      = (Request.command ⟨options, false, script⟩).run world := by
  cases script with
  | some filename =>
      show runScript world options.louder filename = runScript world options filename
      rw [runScript, runScript]
      simp only [showSource_louder_of_showTokens world.paint h]
  | none =>
      show Session.transcript options.louder world.paint world.overflow world.input
        = Session.transcript options world.paint world.overflow world.input
      rw [Session.transcript, Session.transcript, exchange_louder_of_showTokens world.paint h]

variable {args : List String}

theorem not_showTokens_optionsOf (h : ∀ arg ∈ args, arg ∉ tokensFlags) :
    ¬ (optionsOf args).showTokens := by
  rw [optionsOf, any_mem_eq_false.mpr h]
  exact Bool.false_ne_true

theorem verbose_optionsOf : (optionsOf args).verbose ↔ ∃ arg ∈ args, arg ∈ verboseFlags :=
  any_mem_iff

theorem run_louder_of_ignored (h : ∃ arg ∈ args, arg ∈ helpFlags ++ tokensFlags ++ verboseFlags)
    (world : World) :
    (Command.ofArgs args).louder.run world = (Command.ofArgs args).run world := by
  rw [ofArgs_eq]
  cases args.find? (IsUnknown ·) with
  | some flag => rfl
  | none =>
      cases hhelp : args.any (· ∈ helpFlags) with
      | true => rfl
      | false =>
          obtain ⟨arg, hmem, hflag⟩ := h
          rw [List.append_assoc, List.mem_append, List.mem_append] at hflag
          rcases hflag with hasks | htokens | hverbose
          · exact absurd hasks (any_mem_eq_false.mp hhelp arg hmem)
          · exact run_louder_of_showTokens (showTokens_optionsOf.mpr ⟨arg, hmem, htokens⟩) world _
          · -- a second flag for warnings leaves the options as they are
            have hsame : (optionsOf args).louder = optionsOf args := by
              have hloud : (optionsOf args).verbose = true :=
                verbose_optionsOf.mpr ⟨arg, hmem, hverbose⟩
              rw [Options.louder, ← hloud]
            dsimp only
            cases scriptOf? args with
            | some filename =>
                show runScript world (optionsOf args).louder filename = _
                rw [hsame]
                rfl
            | none =>
                show Command.run world (.prompt (optionsOf args).louder) = _
                rw [hsame]
                rfl

/-- What a script without a lexical fault says on the second stream. -/
theorem stderr_runScript {world : World} {tokens : List Token}
    (hfile : world.readFile filename = .ok (Text.encode source))
    (htokens : tokenize source (some filename) = .ok tokens) (hshow : ¬ options.showTokens) :
    (runScript world options filename).output.stderr
      = String.join ((if options.verbose then misreadReports source filename else []).map
        fun report => report.render world.paint) := by
  obtain ⟨shown, hshown⟩ := exists_showSource world.paint htokens
  rw [runScript, hfile, textOf_encode]
  simp only [hshown options hshow]

/-- A session without a listing of tokens says the reports about the lines that it
    answers. -/
theorem saysWarnings {lines : List (List UInt8)} {last : String} {quiet loud : String}
    (hshow : ¬ options.showTokens)
    (hquiet : quiet
      = String.join (lines.map fun line => (answer options paint line).stderr) ++ last)
    (hloud : loud
      = String.join (lines.map fun line => (answer options.louder paint line).stderr) ++ last) :
    SaysWarnings paint lines last options.verbose quiet loud where
  quiet := by
    intro hnot
    rw [hquiet, said]
    simp only [stderr_answer paint hshow, if_neg hnot, List.append_nil]
  loud := by
    have hlouder : ¬ options.louder.showTokens := hshow
    have hverbose : options.louder.verbose := rfl
    rw [hloud, said]
    simp only [stderr_answer paint hlouder, if_pos hverbose]

theorem saysWarnings_of_allows {input : List UInt8} {lines : List (List UInt8)}
    {stop : Option (List UInt8)} (hshow : ¬ options.showTokens)
    (h : StopsAt (Text.byteLines input) lines stop)
    (hallows : overflow.Allows (1 + lines.countP isCounted)) :
    SaysWarnings paint lines (parting stop) options.verbose
      (Session.transcript options paint overflow input).output.stderr
      (Session.transcript options.louder paint overflow input).output.stderr :=
  saysWarnings paint hshow (transcript_of_allows options paint h hallows).stderr
    (transcript_of_allows options.louder paint h hallows).stderr

theorem saysWarnings_of_stops {input line : List UInt8} {served behind : List (List UInt8)}
    {stop : Option (List UInt8)} (report : String) (hshow : ¬ options.showTokens)
    (h : StopsAt (Text.byteLines input) (served ++ line :: behind) stop) (hline : isCounted line)
    (hcount : 1 + served.countP isCounted = 2147483647) :
    SaysWarnings paint (served ++ [line]) report options.verbose
      (Session.transcript options paint (.stops report) input).output.stderr
      (Session.transcript options.louder paint (.stops report) input).output.stderr := by
  have hstderr : ∀ options : Options,
      (Session.transcript options paint (.stops report) input).output.stderr
        = String.join ((served ++ [line]).map fun line => (answer options paint line).stderr)
          ++ report := by
    intro options
    rw [transcript_of_stops options paint report h hline hcount]
  exact saysWarnings paint hshow (hstderr options) (hstderr options.louder)

/-- **Warnings.**  The flag for warnings, wherever it stands among the arguments,
    changes neither the exit code nor the first stream.  A script that has tokens
    is silent on the second stream without the flag, and says its warnings with
    it; a session says those about every line behind what it says anyway. -/
theorem onlyWarns_of_insert (world : World) (front back : List String) {flag : String}
    (h : flag ∈ verboseFlags) : OnlyWarns world (front ++ back) (front ++ flag :: back) := by
  have hloud : run world (front ++ flag :: back)
      = (Command.ofArgs (front ++ back)).louder.run world := by
    rw [run, ofArgs_insert h]
  have hmore := saysMore_louder world (Command.ofArgs (front ++ back))
  rw [← hloud] at hmore
  have hprompt : Plain (front ++ back) → scriptOf? (front ++ back) = none →
      run world (front ++ back)
        = Session.transcript (optionsOf (front ++ back)) world.paint world.overflow world.input
      ∧ run world (front ++ flag :: back)
        = Session.transcript (optionsOf (front ++ back)).louder world.paint world.overflow
          world.input := by
    intro hplain hscript
    rw [hloud, run, hplain.command, hscript]
    exact ⟨rfl, rfl⟩
  refine ⟨hmore.code, hmore.stdout, hmore.failed, ?ignored, ?script, ?session, ?stopped⟩
  case ignored =>
    intro hignored
    rw [hloud]
    exact run_louder_of_ignored hignored world
  case script =>
    intro hplain hlist filename source tokens hscript hfile htokens
    have hshow := not_showTokens_optionsOf hlist
    rw [hloud, run, hplain.command, hscript]
    refine ⟨fun hquiet => ?_, stderr_runScript hfile htokens hshow⟩
    have hnot : ¬ (optionsOf (front ++ back)).verbose := by
      rw [verbose_optionsOf]
      rintro ⟨arg, hmem, hflag⟩
      exact hquiet arg hmem hflag
    show (runScript world (optionsOf (front ++ back)) filename).output.stderr = ""
    rw [stderr_runScript hfile htokens hshow, if_neg hnot]
    rfl
  case session =>
    intro hplain hlist hscript lines stop hstops hallows
    obtain ⟨hquiet, hlouder⟩ := hprompt hplain hscript
    rw [hquiet, hlouder, ← verbose_optionsOf]
    exact saysWarnings_of_allows world.paint (not_showTokens_optionsOf hlist) hstops hallows
  case stopped =>
    intro hplain hlist hscript served line behind stop hstops report hoverflow hline hcount
    obtain ⟨hquiet, hlouder⟩ := hprompt hplain hscript
    rw [hquiet, hlouder, ← verbose_optionsOf, hoverflow]
    exact saysWarnings_of_stops world.paint report (not_showTokens_optionsOf hlist) hstops hline
      hcount

/-- A script of one misread sign, and the same sign typed at the prompt, each run
    without the flag and with it. -/
theorem onlyWarns_of_insert_misread :
    let world : World := ⟨fun _ => .ok (Text.encode ")"), Text.encode ")\nx", .bare, .wraps⟩
    "-v" ∈ verboseFlags
      ∧ OnlyWarns world ["a.nova"] ["-v", "a.nova"]
      ∧ (run world ["a.nova"]).output.stderr = ""
      ∧ (run world ["-v", "a.nova"]).output.stderr
        = "Parse Error: Unexpected token in expression: )\n  --> a.nova:1:1\n"
          ++ "  1 )\n    ^\n"
      ∧ OnlyWarns world [] ["-v"]
      ∧ (run world []).output.stderr = ""
      ∧ (run world ["-v"]).output.stderr
        = "Parse Error: Unexpected token in expression: )\n  --> <repl>:1:1\n"
          ++ "  1 )\n    ^\n" := by
  intro world
  have hflag : "-v" ∈ verboseFlags := by decide
  have hscript : OnlyWarns world ["a.nova"] ["-v", "a.nova"] :=
    onlyWarns_of_insert world [] ["a.nova"] hflag
  have hprompt : OnlyWarns world [] ["-v"] := onlyWarns_of_insert world [] [] hflag
  have htokens : tokenize ")" (some "a.nova")
      = .ok [⟨.rparen, ")", ⟨⟨1, 1⟩, some "a.nova"⟩⟩, .endMarker ⟨⟨1, 2⟩, some "a.nova"⟩] := by
    decide +kernel
  have hwarning : String.join ((misreadReports ")" "a.nova").map fun r => r.render world.paint)
      = "Parse Error: Unexpected token in expression: )\n  --> a.nova:1:1\n"
        ++ "  1 )\n    ^\n" := by
    decide +kernel
  have hlines : Text.byteLines world.input = [Text.encode ")", Text.encode "x"] := by decide
  have hstops : StopsAt (Text.byteLines world.input) [Text.encode ")", Text.encode "x"] none := by
    rw [hlines]
    exact .served (by decide) (.served (by decide) .ended)
  have hquiet : said world.paint (onLine lexicalReports) [Text.encode ")", Text.encode "x"]
      ++ parting none = "" := by
    decide +kernel
  have hloud : said world.paint
        (fun line => onLine lexicalReports line ++ onLine misreadReports line)
        [Text.encode ")", Text.encode "x"] ++ parting none
      = "Parse Error: Unexpected token in expression: )\n  --> <repl>:1:1\n"
        ++ "  1 )\n    ^\n" := by
    decide +kernel
  obtain ⟨hsilent, hsaid⟩ := hscript.script ⟨by decide, by decide⟩ (by decide) "a.nova" ")" _
    (by decide) rfl htokens
  obtain ⟨htyped, hwarned⟩ := hprompt.session ⟨by decide, by decide⟩ (by decide) (by decide) _ _
    hstops (.inl rfl)
  rw [hwarning] at hsaid
  rw [hloud] at hwarned
  exact ⟨hflag, hscript, hsilent (by decide), hsaid, hprompt, (htyped (by decide)).trans hquiet,
    hwarned⟩

end Cli

end BraceLang
