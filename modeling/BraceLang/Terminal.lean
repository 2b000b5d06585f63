import BraceLang.Report.Span

/-! # Terminals — the paints of a real run

    A terminal of the usual kind takes up a style at a code and drops it at
    another; where no colors are wanted the text stands alone.  A run is given one
    of these two paints.  What is proved of reports holds for every paint that has
    the properties its statement asks for. -/

namespace BraceLang

/-- The codes by which a terminal takes up the styles. -/
def terminalCodes : Style → String
  | .alert => "1;31"
  | .caution => "1;33"
  | .pointer => "1;34"
  | .aside => "34"

namespace Paint

/-- The paint of a terminal with colors. -/
def terminal : Paint :=
  fun style text => "\x1b[" ++ terminalCodes style ++ "m" ++ text ++ "\x1b[0m"

/-- The paint without colors. -/
def bare : Paint :=
  fun _ text => text

/-- The paint of a run. -/
def ofColor (color : Bool) : Paint :=
  if color then terminal else bare

end Paint

end BraceLang
