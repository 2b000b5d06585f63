import BraceLang.Position
import BraceLang.Token.Kind

/-! # Tokens — what a source text is cut into

    A token carries its kind, its text and where it begins.  A string token
    carries the text between its quotes.  The end marker closes every list of
    tokens that comes from a source. -/

namespace BraceLang

/-- A token of a source text. -/
structure Token where
  /-- What the grammar takes the token for. -/
  kind : TokenKind
  /-- The text of the token, for a string without its quotes. -/
  text : String
  /-- Where the token begins. -/
  location : Location
  deriving DecidableEq

namespace Token

/-- The token that stands behind the last character of a source. -/
def endMarker (location : Location) : Token :=
  ⟨.endOfInput, "<EOF>", location⟩

/-- Whether the token is of the end marker's kind, whatever its text. -/
def isEnd (t : Token) : Bool :=
  t.kind = .endOfInput

/-- The token as a line of a token listing. -/
def display (t : Token) : String :=
  "Type: " ++ t.kind.name ++ ", Literal: " ++ t.text
    ++ ", Line: " ++ toString t.location.position.line
    ++ ", Column: " ++ toString t.location.position.column

/-- The number of keywords among some tokens. -/
def keywordCount (tokens : List Token) : Nat :=
  tokens.countP (fun t => t.kind.isKeyword)

end Token

end BraceLang
