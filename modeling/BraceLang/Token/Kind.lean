/-! # Token kinds — the alphabet of the grammar

    Identifiers, numbers and strings have many texts; every other kind stands
    for one keyword or one sign, and `endOfInput` for the place behind the
    last character.  `keyword?` and `sign?` say which texts have a kind of
    their own; a keyword is spelled as its kind is (`spelling_of_keyword?`). -/

namespace BraceLang

/-- The kinds of token. -/
inductive TokenKind where
  | identifier
  | number
  | string
  | funcKeyword
  | letKeyword
  | ifKeyword
  | elseKeyword
  | returnKeyword
  | plus
  | minus
  | star
  | slash
  | equals
  | lparen
  | rparen
  | lbrace
  | rbrace
  | comma
  | endOfInput
  deriving DecidableEq

namespace TokenKind

/-- The name by which a token listing shows the kind. -/
def name : TokenKind → String
  | identifier => "Identifier"
  | number => "Number"
  | string => "String"
  | funcKeyword => "Function"
  | letKeyword => "Let"
  | ifKeyword => "If"
  | elseKeyword => "Else"
  | returnKeyword => "Return"
  | plus => "Plus"
  | minus => "Minus"
  | star => "Multiply"
  | slash => "Divide"
  | equals => "Assign"
  | lparen => "LParen"
  | rparen => "RParen"
  | lbrace => "LBrace"
  | rbrace => "RBrace"
  | comma => "Comma"
  | endOfInput => "EndOfInput"

/-- The words by which a message speaks of the kind: the keyword or the sign
    itself where the kind has only one text. -/
def spelling : TokenKind → String
  | identifier => "identifier"
  | number => "number"
  | string => "string"
  | funcKeyword => "func"
  | letKeyword => "let"
  | ifKeyword => "if"
  | elseKeyword => "else"
  | returnKeyword => "return"
  | plus => "+"
  | minus => "-"
  | star => "*"
  | slash => "/"
  | equals => "="
  | lparen => "("
  | rparen => ")"
  | lbrace => "\x7b"
  | rbrace => "\x7d"
  | comma => ","
  | endOfInput => "end of input"

/-- The kind of a keyword, for exactly the five words that are keywords. -/
def keyword? (word : String) : Option TokenKind :=
  if word = "func" then some funcKeyword
  else if word = "let" then some letKeyword
  else if word = "if" then some ifKeyword
  else if word = "else" then some elseKeyword
  else if word = "return" then some returnKeyword
  else none

/-- The kind of a character that is a token by itself. -/
def sign? (c : Char) : Option TokenKind :=
  match c with
  | '(' => some lparen
  | ')' => some rparen
  | '{' => some lbrace
  | '}' => some rbrace
  | '+' => some plus
  | '-' => some minus
  | '*' => some star
  | '/' => some slash
  | '=' => some equals
  | ',' => some comma
  | _ => none

/-- The kinds of the five keywords. -/
def isKeyword : TokenKind → Bool
  | funcKeyword | letKeyword | ifKeyword | elseKeyword | returnKeyword => true
  | _ => false

/-- The kinds at which reading can resume after a misread construct: the two
    that open a declaration, and `return`. -/
def startsConstruct : TokenKind → Bool
  | funcKeyword | letKeyword | returnKeyword => true
  | _ => false

theorem spelling_of_keyword? {word : String} {k : TokenKind}
    (h : keyword? word = some k) : k.spelling = word := by
  rw [keyword?] at h
  split at h
  next e => cases h; exact e.symm
  split at h
  next e => cases h; exact e.symm
  split at h
  next e => cases h; exact e.symm
  split at h
  next e => cases h; exact e.symm
  split at h
  next e => cases h; exact e.symm
  cases h

theorem isKeyword_of_keyword? {word : String} {k : TokenKind}
    (h : keyword? word = some k) : k.isKeyword = true := by
  rw [keyword?] at h
  split at h
  next => cases h; rfl
  split at h
  next => cases h; rfl
  split at h
  next => cases h; rfl
  split at h
  next => cases h; rfl
  split at h
  next => cases h; rfl
  cases h

end TokenKind

end BraceLang
