import BraceLang.Cli.Command
import BraceLang.Cli.Output
import BraceLang.Parser
import BraceLang.Report

/-! # Sources — what is shown of one source text

    A source that can be cut into tokens is shown as its constructs, one line
    each, or as a list of its tokens.  A construct that was left out is no
    failure: it is reported as a warning, and only on request.  A source that
    cannot be cut into tokens is a failure, and nothing of it is shown. -/

namespace BraceLang

namespace Cli

/-- A rule across the listing. -/
def rule : String :=
  String.ofList (List.replicate 60 '-')

/-- The tokens of a source, listed. -/
def tokenListing (tokens : List Token) : String :=
  unlines (["NovaSyntax Lexer Output", rule] ++ tokens.map Token.display
    ++ [rule, "Total tokens: " ++ toString tokens.length ++ " ("
        ++ toString (Token.keywordCount tokens) ++ " keywords)"])

/-- The constructs of a source, a line each. -/
def nodeListing (nodes : List Node) : String :=
  unlines (nodes.map Node.describe)

/-- Reports as they are written, one behind the other. -/
def reportText (paint : Paint) (reports : List Report) : String :=
  String.join (reports.map (Report.render · paint))

/-- What a source shows, or the fault that keeps it from being shown. -/
def showSource (options : Options) (paint : Paint) (source filename : String) :
    Except Fault Output :=
  match tokenize source (some filename) with
  | .error fault => .error fault
  | .ok tokens =>
      if options.showTokens then .ok (.out (tokenListing tokens))
      else
        match Parser.ofTokens tokens with
        | .error fault => .error fault
        | .ok parser =>
            let warnings :=
              if options.verbose then
                Report.warnings source parser.parseProgram.2.diagnostics
              else []
            .ok ⟨nodeListing parser.parseProgram.1, reportText paint warnings⟩

/-- The report of a fault that kept a source from being shown. -/
def failureText (paint : Paint) (source : String) (fault : Fault) : String :=
  Report.render ⟨fault, .error, some source⟩ paint

end Cli

end BraceLang
