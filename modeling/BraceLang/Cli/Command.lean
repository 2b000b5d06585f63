import BraceLang.Version

/-! # Commands — what the arguments ask for

    Flags may stand anywhere among the arguments and be repeated.  An unknown
    flag decides before everything else, then a request for help; of several
    scripts the last one counts, and without a script there is the prompt. -/

namespace BraceLang

namespace Cli

/-- How a source is to be shown. -/
structure Options where
  /-- List the tokens instead of the constructs. -/
  showTokens : Bool
  /-- Report the constructs that were left out. -/
  verbose : Bool
  deriving DecidableEq

/-- What the arguments ask for. -/
inductive Command where
  | unknownFlag (flag : String)
  | help
  | script (options : Options) (filename : String)
  | prompt (options : Options)
  deriving DecidableEq

/-- What one argument says. -/
inductive Argument where
  | tokensFlag
  | verboseFlag
  | helpFlag
  /-- An argument that begins as flags do and is none. -/
  | unknownFlag (flag : String)
  /-- The name of a script. -/
  | positional (filename : String)
  deriving DecidableEq

/-- What an argument says.  A flag begins with a hyphen, and flags cannot be
    joined. -/
def Argument.ofString (arg : String) : Argument :=
  if arg = "-t" || arg = "--tokens" then .tokensFlag
  else if arg = "-v" || arg = "--verbose" then .verboseFlag
  else if arg = "-h" || arg = "--help" then .helpFlag
  else if arg.toList.head? = some '-' then .unknownFlag arg
  else .positional arg

/-- What the arguments read so far add up to. -/
structure Request where
  options : Options
  help : Bool
  /-- The script named last. -/
  script : Option String
  deriving DecidableEq

namespace Request

/-- What no arguments add up to. -/
def initial : Request :=
  { options := { showTokens := false, verbose := false }, help := false, script := none }

/-- The request with one more argument; an unknown flag refuses it. -/
def add (r : Request) (arg : String) : Except String Request :=
  match Argument.ofString arg with
  | .tokensFlag => .ok { r with options := { r.options with showTokens := true } }
  | .verboseFlag => .ok { r with options := { r.options with verbose := true } }
  | .helpFlag => .ok { r with help := true }
  | .unknownFlag flag => .error flag
  | .positional filename => .ok { r with script := some filename }

/-- The command of a complete request. -/
def command (r : Request) : Command :=
  if r.help then .help
  else
    match r.script with
    | some filename => .script r.options filename
    | none => .prompt r.options

end Request

/-- What some arguments ask for. -/
def Command.ofArgs (args : List String) : Command :=
  match args.foldlM Request.add Request.initial with
  | .error flag => .unknownFlag flag
  | .ok request => request.command

/-- Lines of text, each with its line feed. -/
def unlines (lines : List String) : String :=
  String.join (lines.map (fun line => line ++ "\n"))

/-- What is said about an unknown flag. -/
def unknownFlagText (flag : String) : String :=
  unlines ["Unknown flag: " ++ flag, "Usage: nova [OPTIONS] [script]", "       nova --help"]

/-- What is said to who asks for help. -/
def helpText : String :=
  unlines [
    "NovaSyntax v" ++ version ++ " - lexer and parser",
    "",
    "USAGE:",
    "    nova [OPTIONS] [script]",
    "",
    "OPTIONS:",
    "    -t, --tokens    Show tokenization output (lexer only)",
    "    -v, --verbose   Report constructs the parser skipped",
    "    -h, --help      Show this help message",
    "",
    "EXAMPLES:",
    "    nova script.nova           Parse a script and list its declarations",
    "    nova --tokens script.nova  Show tokens from lexer",
    "    nova                       Start interactive REPL"]

end Cli

end BraceLang
