/-! # Positions — places in a text by line and column

    Lines and columns are counted from one, in characters.  A line feed ends
    its line; every other character takes one column.  The place after a
    joined text is the place after its second part, read from the place after
    its first (`Position.after_append`). -/

namespace BraceLang

/-- A place in a text. -/
structure Position where
  /-- One more than the number of line feeds before the place. -/
  line : Nat
  /-- One more than the number of characters since the last line feed. -/
  column : Nat
  deriving DecidableEq

namespace Position

/-- The first place of a text. -/
def first : Position := ⟨1, 1⟩

/-- The place after one more character. -/
def next (p : Position) (c : Char) : Position :=
  if c = '\n' then ⟨p.line + 1, 1⟩ else ⟨p.line, p.column + 1⟩

/-- The place after a text that starts at `p`. -/
def after (p : Position) (text : List Char) : Position :=
  text.foldl next p

theorem after_nil (p : Position) : p.after [] = p := rfl

theorem after_cons (p : Position) (c : Char) (text : List Char) :
    p.after (c :: text) = (p.next c).after text := rfl

theorem after_append (p : Position) (a b : List Char) :
    p.after (a ++ b) = (p.after a).after b := by
  rw [after, after, after, List.foldl_append]

/-- The place as text: line and column, with a colon between them. -/
def display (p : Position) : String :=
  toString p.line ++ ":" ++ toString p.column

end Position

/-- A place in a source that may have a name. -/
structure Location where
  /-- The place inside the source. -/
  position : Position
  /-- The name of the source; an empty name is still a name. -/
  filename : Option String
  deriving DecidableEq

/-- The location as text, the name of the source first if it has one. -/
def Location.display (l : Location) : String :=
  match l.filename with
  | some name => name ++ ":" ++ l.position.display
  | none => l.position.display

end BraceLang
