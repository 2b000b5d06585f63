import BraceLang.Cli
import BraceLang.Terminal

/-! # The program — the command line on a real system

    Reads what a run needs and writes what it says.  The prompt is served line
    by line, so that an answer is seen before the next line is asked for. -/

namespace BraceLang

namespace Main

/-- The number of a refusal, which the system may give as a negative word. -/
def refusalCode (code : UInt32) : Nat :=
  if code ≥ 0x80000000 then (0 - code).toNat else code.toNat

/-- The system's refusal of a file. -/
def refusal : IO.Error → Cli.ReadFault
  | .noFileOrDirectory _ code reason => .ofCode (refusalCode code) reason
  | .permissionDenied _ code reason => .ofCode (refusalCode code) reason
  | .inappropriateType _ code reason => .ofCode (refusalCode code) reason
  | .invalidArgument _ code reason => .ofCode (refusalCode code) reason
  | .resourceExhausted _ code reason => .ofCode (refusalCode code) reason
  | .noSuchThing _ code reason => .ofCode (refusalCode code) reason
  | .otherError code reason => .ofCode (refusalCode code) reason
  | other => .refused (toString other) 5

/-- The bytes of a file, or the system's reason for refusing it. -/
def readFile (filename : String) : IO (Except Cli.ReadFault (List UInt8)) := do
  try
    return .ok (← IO.FS.readBinFile filename).data.toList
  catch e =>
    return .error (refusal e)

/-- The bytes of the next line, without its line feed; none at the end of the
    input. -/
partial def readLine (input : IO.FS.Stream) : IO (Option (List UInt8)) := do
  let rec collect (bytes : List UInt8) : IO (List UInt8 × Bool) := do
    let chunk ← input.read 1
    match chunk.data.toList with
    | [] => return (bytes.reverse, true)
    | b :: _ => if b = 10 then return (bytes.reverse, false) else collect (b :: bytes)
  let (bytes, ended) ← collect []
  if ended && bytes.isEmpty then return none
  return some bytes

/-- Writes to both streams. -/
def write (output : Cli.Output) : IO Unit := do
  let stdout ← IO.getStdout
  stdout.putStr output.stdout
  stdout.flush
  (← IO.getStderr).putStr output.stderr

/-- The sums of this program wrap around. -/
def overflow : Cli.Overflow :=
  .wraps

/-- Serves the prompt from a given number on, and gives the exit code. -/
partial def serve (options : Cli.Options) (paint : Paint) (number : Int32) : IO UInt32 := do
  write (.out (Cli.Session.prompt number))
  match ← readLine (← IO.getStdin) with
  | none =>
      write (.out Cli.Session.farewell)
      return 0
  | some line =>
      let entry := Cli.Entry.ofBytes line
      write (entry.output options paint)
      match entry.next overflow number with
      | .goOn following => serve options paint following
      | .close =>
          write (.out Cli.Session.farewell)
          return 0
      | .stop report =>
          write (.err report)
          return 101

/-- Whether reports are colored: forced, forbidden, or as the terminal is. -/
def wantsColor : IO Bool := do
  let switchedOn := fun (setting : Option String) => setting.isSome && setting != some "0"
  if switchedOn (← IO.getEnv "CLICOLOR_FORCE") then return true
  if (← IO.getEnv "NO_COLOR").isSome then return false
  if (← IO.getEnv "CLICOLOR") == some "0" then return false
  (← IO.getStdout).isTty

end Main

end BraceLang

open BraceLang in
/-- Runs the command line. -/
def main (args : List String) : IO UInt32 := do
  let paint := Paint.ofColor (← Main.wantsColor)
  match Cli.Command.ofArgs args with
  | .prompt options =>
      Main.write (.out Cli.Session.banner)
      Main.serve options paint 1
  | command =>
      let file ← match command with
        | .script _ filename => Main.readFile filename
        | _ => pure (.ok [])
      let outcome := command.run ⟨fun _ => file, [], paint, Main.overflow⟩
      Main.write outcome.output
      return outcome.code.toUInt32
