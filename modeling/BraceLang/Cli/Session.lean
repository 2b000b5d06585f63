import BraceLang.Cli.ReadFault
import BraceLang.Cli.Source
import BraceLang.Text.Blank
import BraceLang.Text.Lines

/-! # Sessions — sources typed at a prompt

    At the prompt every line is a source of its own.  The prompt counts the
    lines that were not blank; a word to leave, a line that is not UTF-8 or the
    end of the input closes the session.

    The count is kept in a word of 32 bits with a sign.  What becomes of a line
    too many was settled when the program was built: either the count wraps
    around, or the program stops. -/

namespace BraceLang

namespace Cli

/-- What the program was built to do where a sum does not fit into its word. -/
inductive Overflow where
  /-- The sum wraps around. -/
  | wraps
  /-- The program stops, and says so on the second stream. -/
  | stops (report : String)
  deriving DecidableEq

/-- What a session does behind a line. -/
inductive Following where
  /-- It shows the prompt of a number. -/
  | goOn (number : Int32)
  /-- It takes its leave. -/
  | close
  /-- It is stopped with a report. -/
  | stop (report : String)
  deriving DecidableEq

/-- What a session does behind a line that was counted with a number. -/
def Overflow.count (overflow : Overflow) (number : Int32) : Following :=
  match overflow with
  | wraps => .goOn (number + 1)
  | stops report => if number = Int32.maxValue then .stop report else .goOn (number + 1)

/-- What a line of input means to a session. -/
inductive Entry where
  /-- The line is not UTF-8. -/
  | unreadable
  /-- The line asks to leave. -/
  | leave
  | blank
  /-- The line is a source, without the blanks at its ends. -/
  | source (text : String)
  deriving DecidableEq

namespace Entry

/-- What the bytes of a line mean. -/
def ofBytes (bytes : List UInt8) : Entry :=
  match Text.decode? bytes with
  | none => .unreadable
  | some line =>
      let text := Text.trim line
      if text = "exit" || text = "quit" then .leave
      else if text = "" then .blank
      else .source text

/-- What a line makes the session write. -/
def output (options : Options) (paint : Paint) : Entry → Output
  | unreadable => .err (unlines ["Error reading input: " ++ ReadFault.notText.message])
  | leave => .empty
  | blank => .empty
  | source text =>
      match showSource options paint text "<repl>" with
      | .ok shown => shown
      | .error fault => .err (failureText paint text fault)

/-- What the session does behind a line at the prompt of a given number. -/
def next (overflow : Overflow) (number : Int32) : Entry → Following
  | unreadable => .close
  | leave => .close
  | blank => .goOn number
  | source _ => overflow.count number

end Entry

namespace Session

/-- What a session begins with. -/
def banner : String :=
  unlines ["NovaSyntax v" ++ version ++ " - Parser REPL", "Type 'exit' to quit", ""]

/-- The prompt of a given number. -/
def prompt (number : Int32) : String :=
  "nova:" ++ toString number ++ " > "

/-- What a session ends with. -/
def farewell : String :=
  unlines ["", "Goodbye!"]

/-- How a session over some lines goes on from the prompt of a given number. -/
def exchange (options : Options) (paint : Paint) (overflow : Overflow) (number : Int32) :
    List (List UInt8) → Outcome
  | [] => ⟨0, .out (prompt number ++ farewell)⟩
  | line :: rest =>
      let entry := Entry.ofBytes line
      let written := (Output.out (prompt number)).andThen (entry.output options paint)
      match entry.next overflow number with
      | .goOn following => (exchange options paint overflow following rest).behind written
      | .close => ⟨0, written.andThen (.out farewell)⟩
      | .stop report => ⟨101, written.andThen (.err report)⟩

/-- A whole session over some input. -/
def transcript (options : Options) (paint : Paint) (overflow : Overflow) (input : List UInt8) :
    Outcome :=
  (exchange options paint overflow 1 (Text.byteLines input)).behind (.out banner)

end Session

end Cli

end BraceLang
