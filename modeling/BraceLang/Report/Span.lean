/-! # Spans — text with a style

    A row of output is a list of spans, each in a style or plain.  How a text in
    a style is written is not decided here: everything that is rendered takes a
    paint, which says so, and asks nothing of it. -/

namespace BraceLang

/-- The styles of a report. -/
inductive Style where
  /-- The mark of an error: red and bold. -/
  | alert
  /-- The mark of a warning: yellow and bold. -/
  | caution
  /-- What points to the place: blue and bold. -/
  | pointer
  /-- What stands beside the place: blue. -/
  | aside
  deriving DecidableEq

/-- What is written for a text in a style, which depends on the terminal and on
    whether colors are wanted there. -/
abbrev Paint := Style → String → String

/-- A text in one style, or in none. -/
structure Span where
  style : Option Style
  text : String
  deriving DecidableEq

namespace Span

/-- A span without a style. -/
def plain (text : String) : Span :=
  ⟨none, text⟩

/-- A span in a style. -/
def styled (style : Style) (text : String) : Span :=
  ⟨some style, text⟩

/-- The span as it is written. -/
def render (paint : Paint) (s : Span) : String :=
  match s.style with
  | some style => paint style s.text
  | none => s.text

end Span

/-- The spans of one line of output. -/
abbrev Row := List Span

/-- The row as it is written, with its line feed. -/
def Row.render (paint : Paint) (row : Row) : String :=
  String.join (row.map (Span.render paint)) ++ "\n"

/-- Rows one below the other. -/
def renderRows (paint : Paint) (rows : List Row) : String :=
  String.join (rows.map (Row.render paint))

end BraceLang
