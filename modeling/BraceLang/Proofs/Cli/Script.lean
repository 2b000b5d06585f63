import BraceLang.Cli
import BraceLang.Terminal
import BraceLang.Proofs.Cli.Arguments
import BraceLang.Proofs.Source.Beginning
import Mathlib.Data.List.Basic

/-! # Scripts — a run of a script shows all of it or nothing

    A script that cannot be read as text, or that cannot be cut into tokens,
    ends the run with code one: nothing is on the first stream, and the reason
    is on the second.  Every other script ends it with code zero, and what the
    run shows are the nodes of the source, or its tokens if these were asked for
    (`run_of_selectsScript`).  So neither a misread construct nor a stream
    without tokens ends a run. -/

namespace BraceLang

namespace Cli

/-! ## Lines of text -/

theorem unlines_singleton (line : String) : unlines [line] = line ++ "\n" :=
  String.empty_append

theorem unlines_append (above below : List String) :
    unlines (above ++ below) = unlines above ++ unlines below := by
  rw [unlines, List.map_append, String.join_append, unlines, unlines]

theorem unlines_map {α : Type} (line : α → String) (items : List α) :
    unlines (items.map line) = String.join (items.map fun x => line x ++ "\n") := by
  rw [unlines, List.map_map]
  rfl

/-! ## What a source shows -/

/-- A listing of tokens: a heading, a line for each token between two rules, and
    how many there are. -/
def listing (tokens : List Token) : String :=
  "NovaSyntax Lexer Output\n"
    ++ "------------------------------------------------------------\n"
    ++ String.join (tokens.map fun t =>
      "Type: " ++ t.kind.name ++ ", Literal: " ++ t.text
        ++ ", Line: " ++ toString t.location.position.line
        ++ ", Column: " ++ toString t.location.position.column ++ "\n")
    ++ "------------------------------------------------------------\n"
    ++ "Total tokens: " ++ toString tokens.length
    ++ " (" ++ toString (tokens.countP fun t => t.kind.isKeyword) ++ " keywords)\n"

theorem tokenListing_eq (tokens : List Token) : tokenListing tokens = listing tokens := by
  have hopening : unlines ["NovaSyntax Lexer Output", rule]
      = "NovaSyntax Lexer Output\n"
        ++ "------------------------------------------------------------\n" := by
    decide
  have hrule : unlines [rule]
      = "------------------------------------------------------------\n" := by
    decide
  have hend : " keywords)" ++ "\n" = " keywords)\n" := by
    decide
  have hclosing : ∀ total, unlines [rule, total] = unlines [rule] ++ unlines [total] :=
    fun total => unlines_append [rule] [total]
  rw [tokenListing, unlines_append, unlines_append, unlines_map, hopening, hclosing, hrule,
    unlines_singleton]
  unfold listing Token.display Token.keywordCount
  simp only [String.append_assoc, hend]

variable {options : Options} {source filename : String} (paint : Paint)

theorem showSource_of_error {fault : Fault} (h : tokenize source (some filename) = .error fault) :
    showSource options paint source filename = .error fault := by
  rw [showSource, h]

theorem showSource_of_showTokens {tokens : List Token}
    (h : tokenize source (some filename) = .ok tokens) (hshow : options.showTokens) :
    showSource options paint source filename = .ok ⟨listing tokens, ""⟩ := by
  rw [showSource, h, ← tokenListing_eq]
  exact if_pos hshow

/-- A source with tokens shows the nodes of its program, and what was misread
    as warnings if these were asked for. -/
theorem showSource_of_not_showTokens {tokens : List Token}
    (h : tokenize source (some filename) = .ok tokens) (hshow : ¬ options.showTokens) :
    ∃ p, Parser.ofSource source (some filename) = .ok p
      ∧ showSource options paint source filename
        = .ok ⟨String.join (p.parseProgram.1.map fun node => node.describe ++ "\n"),
          String.join ((if options.verbose then
            Report.warnings source p.parseProgram.2.diagnostics else []).map (Report.render · paint))⟩ := by
  obtain ⟨p, hp, -⟩ := Parser.ofSource_of_tokenize h
  have hparser : Parser.ofTokens tokens = .ok p := by
    rw [Parser.ofSource, h] at hp
    exact hp
  refine ⟨p, hp, ?_⟩
  rw [showSource, h, ← unlines_map]
  simp only [if_neg hshow, hparser]
  rfl

/-! ## Reading a script -/

theorem textOf_encode (source : String) : textOf (.ok (Text.encode source)) = .ok source := by
  rw [textOf, Text.decode?_eq_some_iff.mpr rfl]

theorem textOf_of_not_text {bytes : List UInt8} (h : ∀ source, bytes ≠ Text.encode source) :
    textOf (.ok bytes) = .error .notText := by
  cases hd : Text.decode? bytes with
  | none => rw [textOf, hd]
  | some source => exact absurd (Text.decode?_eq_some_iff.mp hd) (h source)

/-! ## Running a script -/

/-- How a run of a script ends; `listTokens` says that the tokens were asked
    for. -/
structure ScriptRun (world : World) (listTokens : Prop) (filename : String) (outcome : Outcome) :
    Prop where
  /-- The file cannot be read. -/
  refused : ∀ fault, world.readFile filename = .error fault →
    outcome = ⟨1, ⟨"", "Failed to read file '" ++ filename ++ "': " ++ fault.message ++ "\n"⟩⟩
  /-- The file is not the encoding of any text. -/
  notText : ∀ bytes, world.readFile filename = .ok bytes → (∀ source, bytes ≠ Text.encode source) →
    outcome = ⟨1, ⟨"", "Failed to read file '" ++ filename ++ "': "
      ++ "stream did not contain valid UTF-8" ++ "\n"⟩⟩
  /-- The text cannot be cut into tokens. -/
  malformed : ∀ source fault, world.readFile filename = .ok (Text.encode source) →
    tokenize source (some filename) = .error fault →
    outcome = ⟨1, ⟨"", Report.render ⟨fault, .error, some source⟩ world.paint ++ "\n"⟩⟩
  /-- The tokens were asked for. -/
  listed : ∀ source tokens, world.readFile filename = .ok (Text.encode source) →
    tokenize source (some filename) = .ok tokens → listTokens →
    outcome = ⟨0, ⟨listing tokens, ""⟩⟩
  /-- The nodes are shown, whatever was misread. -/
  parsed : ∀ source tokens, world.readFile filename = .ok (Text.encode source) →
    tokenize source (some filename) = .ok tokens → ¬ listTokens →
    ∃ nodes, parseSource source (some filename) = .ok nodes ∧ outcome.code = 0
      ∧ outcome.output.stdout = String.join (nodes.map fun node => node.describe ++ "\n")

theorem scriptRun (world : World) (options : Options) (filename : String) :
    ScriptRun world options.showTokens filename (runScript world options filename) where
  refused := by
    intro fault hfile
    rw [runScript, hfile]
    simp only [textOf, unlines_singleton, Output.err]
  notText := by
    intro bytes hfile hnot
    rw [runScript, hfile, textOf_of_not_text hnot]
    simp only [unlines_singleton, ReadFault.message, Output.err]
  malformed := by
    intro source fault hfile htokens
    rw [runScript, hfile, textOf_encode]
    simp only [showSource_of_error world.paint htokens, unlines_singleton, failureText,
      Output.err]
  listed := by
    intro source tokens hfile htokens hshow
    rw [runScript, hfile, textOf_encode]
    simp only [showSource_of_showTokens world.paint htokens hshow]
  parsed := by
    intro source tokens hfile htokens hshow
    obtain ⟨p, hp, hshown⟩ := showSource_of_not_showTokens world.paint htokens hshow
    refine ⟨p.parseProgram.1, by rw [parseSource, hp], ?_⟩
    rw [runScript, hfile, textOf_encode]
    simp only [hshown, and_self]

/-- **Scripts.**  Arguments that select a script run the one that they name
    last.  The run shows nothing of it only where it cannot be read as text or
    has a lexical fault; in the library, too, no other fault keeps a source from
    being parsed. -/
theorem run_of_selectsScript (world : World) {args : List String} (h : SelectsScript args) :
    (∃ filename, scriptOf? args = some filename
      ∧ ScriptRun world (∃ arg ∈ args, arg ∈ tokensFlags) filename (run world args))
    ∧ ∀ source name fault, parseSource source name = .error fault →
      tokenize source name = .error fault ∧ ∃ cause location, fault = .lexical cause location := by
  constructor
  · obtain ⟨filename, hscript, hcommand⟩ := h.command
    refine ⟨filename, hscript, ?_⟩
    rw [run, hcommand, ← showTokens_optionsOf]
    exact scriptRun world (optionsOf args) filename
  · intro source name fault hparse
    have htokens := parseSource_eq_error_iff.mp hparse
    obtain ⟨cause, position, hfault⟩ := lexical_of_tokenize htokens
    exact ⟨htokens, cause, _, hfault⟩

/-- Two scripts: a broken numeral, of which not even the tokens are listed, and a
    variable with a misread sign behind it, which is no failure. -/
theorem run_of_selectsScript_last_named :
    let text := fun filename => if filename = "b.nova" then "0x" else "let x = 1\n)"
    let world : World := ⟨fun filename => .ok (Text.encode (text filename)), [], .bare, .wraps⟩
    (SelectsScript ["a.nova", "--tokens", "b.nova", "-v"]
      ∧ run world ["a.nova", "--tokens", "b.nova", "-v"]
        = ⟨1, ⟨"", "Lexer Error: Invalid hexadecimal literal\n  --> b.nova:1:3\n"
          ++ "  1 0x\n      ^\n\n"⟩⟩)
    ∧ (SelectsScript ["b.nova", "-t", "a.nova"]
      ∧ run world ["b.nova", "-t", "a.nova"]
        = ⟨0, ⟨"NovaSyntax Lexer Output\n"
          ++ "------------------------------------------------------------\n"
          ++ "Type: Let, Literal: let, Line: 1, Column: 1\n"
          ++ "Type: Identifier, Literal: x, Line: 1, Column: 5\n"
          ++ "Type: Assign, Literal: =, Line: 1, Column: 7\n"
          ++ "Type: Number, Literal: 1, Line: 1, Column: 9\n"
          ++ "Type: RParen, Literal: ), Line: 2, Column: 1\n"
          ++ "Type: EndOfInput, Literal: <EOF>, Line: 2, Column: 2\n"
          ++ "------------------------------------------------------------\n"
          ++ "Total tokens: 6 (1 keywords)\n", ""⟩⟩)
    ∧ (SelectsScript ["b.nova", "a.nova"]
      ∧ (run world ["b.nova", "a.nova"]).code = 0
      ∧ (run world ["b.nova", "a.nova"]).output.stdout = "Variable: x\n") := by
  intro text world
  have hbroken : SelectsScript ["a.nova", "--tokens", "b.nova", "-v"] :=
    ⟨by decide, by decide, by decide⟩
  have hlisted : SelectsScript ["b.nova", "-t", "a.nova"] :=
    ⟨by decide, by decide, by decide⟩
  have hparsed : SelectsScript ["b.nova", "a.nova"] :=
    ⟨by decide, by decide, by decide⟩
  have hfault : tokenize "0x" (some "b.nova")
      = .error (.lexical .invalidHexLiteral ⟨⟨1, 3⟩, some "b.nova"⟩) := by
    decide +kernel
  have htokens : tokenize "let x = 1\n)" (some "a.nova")
      = .ok [⟨.letKeyword, "let", ⟨⟨1, 1⟩, some "a.nova"⟩⟩,
        ⟨.identifier, "x", ⟨⟨1, 5⟩, some "a.nova"⟩⟩, ⟨.equals, "=", ⟨⟨1, 7⟩, some "a.nova"⟩⟩,
        ⟨.number, "1", ⟨⟨1, 9⟩, some "a.nova"⟩⟩, ⟨.rparen, ")", ⟨⟨2, 1⟩, some "a.nova"⟩⟩,
        .endMarker ⟨⟨2, 2⟩, some "a.nova"⟩] := by
    decide +kernel
  have hnodes : parseSource "let x = 1\n)" (some "a.nova")
      = .ok [.variableDecl "x" (.expression ⟨.literal, "1"⟩)] := by
    decide +kernel
  refine ⟨⟨hbroken, ?_⟩, ⟨hlisted, ?_⟩, hparsed, ?_⟩
  · obtain ⟨filename, hscript, hrun⟩ := (run_of_selectsScript world hbroken).1
    obtain rfl : "b.nova" = filename := Option.some.inj hscript
    rw [hrun.malformed "0x" _ rfl hfault]
    decide
  · obtain ⟨filename, hscript, hrun⟩ := (run_of_selectsScript world hlisted).1
    obtain rfl : "a.nova" = filename := Option.some.inj hscript
    rw [hrun.listed _ _ rfl htokens (by decide)]
    decide +kernel
  · obtain ⟨filename, hscript, hrun⟩ := (run_of_selectsScript world hparsed).1
    obtain rfl : "a.nova" = filename := Option.some.inj hscript
    obtain ⟨nodes, hparse, hcode, hstdout⟩ :=
      hrun.parsed "let x = 1\n)" _ rfl htokens (by decide)
    rw [hnodes] at hparse
    obtain rfl := Except.ok.inj hparse
    exact ⟨hcode, hstdout⟩

end Cli

end BraceLang
