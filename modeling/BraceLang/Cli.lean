import BraceLang.Cli.Session

/-! # The command line — arguments to outcome

    A run takes its arguments and a world: the files it can read, its input, how
    styles are written, and how sums overflow.  Everything it does is in the
    outcome. -/

namespace BraceLang

namespace Cli

/-- What a run finds around it. -/
structure World where
  /-- The bytes of a file, by its name. -/
  readFile : String → Except ReadFault (List UInt8)
  /-- The bytes of the standard input. -/
  input : List UInt8
  /-- How a text in a style is written. -/
  paint : Paint
  /-- What becomes of a sum that does not fit. -/
  overflow : Overflow

/-- Runs a script: all of what it shows, or only why it shows nothing. -/
def runScript (world : World) (options : Options) (filename : String) : Outcome :=
  match textOf (world.readFile filename) with
  | .error fault =>
      ⟨1, .err (unlines ["Failed to read file '" ++ filename ++ "': " ++ fault.message])⟩
  | .ok source =>
      match showSource options world.paint source filename with
      | .error fault => ⟨1, .err (unlines [failureText world.paint source fault])⟩
      | .ok shown => ⟨0, shown⟩

/-- Runs a command. -/
def Command.run (world : World) : Command → Outcome
  | unknownFlag flag => ⟨1, .err (unknownFlagText flag)⟩
  | help => ⟨0, .out helpText⟩
  | script options filename => runScript world options filename
  | prompt options => Session.transcript options world.paint world.overflow world.input

/-- Runs what the arguments ask for. -/
def run (world : World) (args : List String) : Outcome :=
  (Command.ofArgs args).run world

end Cli

end BraceLang
