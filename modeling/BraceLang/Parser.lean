import BraceLang.Grammar
import BraceLang.Lexer

/-! # The parser — reading a stream in steps

    A parser keeps a token stream and the faults of all constructs misread so
    far.  It is driven by three calls, in any order: read one construct, skip
    to where reading can resume, read everything up to the end. -/

namespace BraceLang

/-- A token stream and the faults recorded while reading it. -/
structure Parser where
  stream : TokenStream
  /-- The recorded faults, oldest first. -/
  diagnostics : List Fault
  deriving DecidableEq

namespace Parser

/-- A parser at the first of some tokens; it needs at least one. -/
def ofTokens (tokens : List Token) : Except Fault Parser :=
  match TokenStream.ofTokens? tokens with
  | none => .error .emptyStream
  | some stream => .ok ⟨stream, []⟩

/-- A parser at the first token of a source. -/
def ofSource (source : String) (filename : Option String) : Except Fault Parser :=
  match tokenize source filename with
  | .error fault => .error fault
  | .ok tokens => ofTokens tokens

/-- Reads one construct.  There is none at the end, and none if the tokens do
    not form one, which is recorded. -/
def parse (p : Parser) : Option Node × Parser :=
  if p.stream.atEnd then (none, p)
  else
    match Grammar.construct p.stream with
    | .ok node stream => (some node, { p with stream })
    | .error fault stream => (none, ⟨stream, p.diagnostics ++ [fault]⟩)

/-- Skips to where reading can resume. -/
def synchronize (p : Parser) : Parser :=
  { p with stream := p.stream.synchronize }

/-- Reads all constructs up to the end, and records the misread ones. -/
def parseProgram (p : Parser) : List Node × Parser :=
  let reading := Grammar.program p.stream
  (reading.nodes, ⟨reading.stream, p.diagnostics ++ reading.faults⟩)

/-- The calls that drive a parser. -/
inductive Call where
  | parse
  | synchronize
  | parseProgram
  deriving DecidableEq

/-- What a call returns. -/
inductive Answer where
  /-- One construct, or none. -/
  | one (node : Option Node)
  /-- Nothing, from a call that only skips. -/
  | nothing
  /-- All constructs up to the end. -/
  | all (nodes : List Node)
  deriving DecidableEq

/-- The answer to a call, and the parser after it. -/
def call (p : Parser) : Call → Answer × Parser
  | .parse => (.one p.parse.1, p.parse.2)
  | .synchronize => (.nothing, p.synchronize)
  | .parseProgram => (.all p.parseProgram.1, p.parseProgram.2)

/-- What one call of a row of calls answered and recorded. -/
structure Step where
  answer : Answer
  /-- The faults that this call recorded. -/
  recorded : List Fault
  /-- The number of faults recorded so far, by this call and those before. -/
  total : Nat
  deriving DecidableEq

/-- Makes a row of calls on one parser. -/
def steps (p : Parser) : List Call → List Step
  | [] => []
  | c :: rest =>
      let next := (p.call c).2
      { answer := (p.call c).1
        recorded := next.diagnostics.drop p.diagnostics.length
        total := next.diagnostics.length } :: next.steps rest

end Parser

/-- All constructs of a source, the misread ones left out; a source that
    cannot be cut into tokens has none, and a fault instead. -/
def parseSource (source : String) (filename : Option String) :
    Except Fault (List Node) :=
  match Parser.ofSource source filename with
  | .error fault => .error fault
  | .ok p => .ok p.parseProgram.1

end BraceLang
