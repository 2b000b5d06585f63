/-! # Output — what a run writes

    A run writes to two streams that are read apart; only the order within
    each of them counts. -/

namespace BraceLang

namespace Cli

/-- What was written to the two streams. -/
structure Output where
  stdout : String
  stderr : String
  deriving DecidableEq

namespace Output

/-- Nothing written. -/
def empty : Output :=
  ⟨"", ""⟩

/-- A text on the first stream. -/
def out (text : String) : Output :=
  ⟨text, ""⟩

/-- A text on the second stream, that of errors. -/
def err (text : String) : Output :=
  ⟨"", text⟩

/-- What was written first, and behind it what was written then. -/
def andThen (a b : Output) : Output :=
  ⟨a.stdout ++ b.stdout, a.stderr ++ b.stderr⟩

end Output

/-- How a run ended: its exit code and all that it wrote. -/
structure Outcome where
  code : Nat
  output : Output
  deriving DecidableEq

/-- The outcome of a run that wrote something before. -/
def Outcome.behind (outcome : Outcome) (written : Output) : Outcome :=
  ⟨outcome.code, written.andThen outcome.output⟩

end Cli

end BraceLang
