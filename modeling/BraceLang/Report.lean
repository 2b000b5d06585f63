import BraceLang.Fault
import BraceLang.Report.Excerpt

/-! # Reports — faults for a reader

    A report shows a fault in its severity: the heading and what is wrong,
    then the location, then the source around it, each as far as it is known. -/

namespace BraceLang

/-- How serious a fault is. -/
inductive Severity where
  /-- Nothing came of the source. -/
  | error
  /-- A construct was left out. -/
  | warning
  deriving DecidableEq

/-- The style in which a severity is marked. -/
def Severity.style : Severity → Style
  | error => .alert
  | warning => .caution

/-- A fault as it is shown. -/
structure Report where
  fault : Fault
  severity : Severity
  /-- The source to show, if it is at hand. -/
  source : Option String
  deriving DecidableEq

namespace Report

/-- The rows about the place of the fault. -/
def placeRows (r : Report) : List Row :=
  match r.fault.location? with
  | none => []
  | some location =>
      let excerpt := r.source.bind (Excerpt.ofPosition? · location.position)
      [.plain "  ", .styled .pointer "-->", .plain (" " ++ location.display)]
        :: (excerpt.map (Excerpt.rows · r.severity.style)).getD []

/-- The report as rows. -/
def rows (r : Report) : List Row :=
  [.styled r.severity.style r.fault.heading, .plain (": " ++ r.fault.message)] :: r.placeRows

/-- The report as it is written. -/
def render (r : Report) (paint : Paint) : String :=
  renderRows paint r.rows

/-- The warnings about the misread constructs of a source. -/
def warnings (source : String) (faults : List Fault) : List Report :=
  faults.map (fun fault => ⟨fault, .warning, some source⟩)

end Report

end BraceLang
