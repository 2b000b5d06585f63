import BraceLang.Token

/-! # Faults — why a text was not understood

    A fault is a cause and, unless nothing was read yet, the location where it
    showed.  The wording is in one place for each sort of cause; everything
    else speaks of the cause. -/

namespace BraceLang

/-- Why a text cannot be cut into tokens. -/
inductive LexicalFault where
  /-- A hexadecimal prefix without a hexadecimal digit behind it. -/
  | invalidHexLiteral
  /-- A binary prefix without a binary digit behind it. -/
  | invalidBinaryLiteral
  /-- An exponent letter without a digit behind it and its sign. -/
  | invalidExponent
  /-- A quote that no later quote closes. -/
  | unterminatedString
  deriving DecidableEq

/-- The wording of a lexical cause. -/
def LexicalFault.message : LexicalFault → String
  | invalidHexLiteral => "Invalid hexadecimal literal"
  | invalidBinaryLiteral => "Invalid binary literal"
  | invalidExponent => "Invalid exponent in number literal"
  | unterminatedString => "Unterminated string"

/-- Why tokens do not form a construct. -/
inductive SyntaxFault where
  /-- A token of one kind was needed where another stands; `message` says
      what for. -/
  | tokenMismatch (expected found : TokenKind) (message : String)
  /-- The tokens end inside a construct. -/
  | unexpectedEndOfInput
  /-- No expression begins with a token of this kind. -/
  | unexpectedToken (found : TokenKind)
  deriving DecidableEq

/-- The wording of a syntactic cause. -/
def SyntaxFault.message : SyntaxFault → String
  | tokenMismatch expected found message =>
      message ++ " (expected " ++ expected.spelling ++ ", found " ++ found.spelling ++ ")"
  | unexpectedEndOfInput => "Unexpected end of input"
  | unexpectedToken found => "Unexpected token in expression: " ++ found.spelling

/-- Why a text was not understood, and where that showed. -/
inductive Fault where
  | lexical (cause : LexicalFault) (location : Location)
  | syntactic (cause : SyntaxFault) (location : Location)
  /-- A stage was set up in a way that cannot work. -/
  | configuration (message : String)
  deriving DecidableEq

namespace Fault

/-- The heading under which a fault is reported. -/
def heading : Fault → String
  | lexical _ _ => "Lexer Error"
  | syntactic _ _ => "Parse Error"
  | configuration _ => "Config Error"

/-- What is wrong, without the place. -/
def message : Fault → String
  | lexical cause _ => cause.message
  | syntactic cause _ => cause.message
  | configuration message => message

/-- Where the fault showed, if it belongs to a place. -/
def location? : Fault → Option Location
  | lexical _ location => some location
  | syntactic _ location => some location
  | configuration _ => none

/-- The fault in one line. -/
def display (f : Fault) : String :=
  match f.location? with
  | some location => f.heading ++ ": " ++ f.message ++ " at " ++ location.display
  | none => f.heading ++ ": " ++ f.message

/-- The one fault of an empty list of tokens. -/
def emptyStream : Fault :=
  configuration "Cannot parse empty token stream"

end Fault

end BraceLang
