import BraceLang.Report
import BraceLang.Terminal
import BraceLang.Proofs.Source.FaultPlace
import BraceLang.Proofs.Text.Place

/-! # Carets — what a report points at

    A report of a fault shows the line of the source on which the fault shows,
    and a caret below it.  The line is the one that holds the place of the
    fault, the column of the place is inside the line or one past it, and the
    caret stands below the character at the place (`report_points_at_fault`).
    Only a fault at the end of a source whose lines are all ended is reported
    without an excerpt.

    All of this is about the text that is written, in any paint.  A paint decides
    what is written for the number of the line and for the caret, but not where
    they stand. -/

namespace BraceLang

/-- Lines of text, each with its line feed. -/
def Text.joinLines (lines : List (List Char)) : List Char :=
  lines.flatMap fun line => line ++ ['\n']

/-- The characters that are written for a row, without the line feed. -/
def Row.letters (paint : Paint) (row : Row) : List Char :=
  row.flatMap fun s => (s.render paint).toList

/-- A row is written as its characters and a line feed. -/
theorem Row.toList_render (paint : Paint) (row : Row) :
    (row.render paint).toList = row.letters paint ++ ['\n'] := by
  rw [render, String.toList_append, String.toList_join, List.flatMap_map]
  rfl

/-- Rows are written as lines of their characters. -/
theorem toList_renderRows (paint : Paint) (rows : List Row) :
    (renderRows paint rows).toList = Text.joinLines (rows.map (Row.letters paint)) := by
  rw [renderRows, String.toList_join, List.flatMap_map, Text.joinLines, List.flatMap_map,
    List.flatMap_def, List.flatMap_def]
  exact congrArg List.flatten (List.map_congr_left fun row _ => row.toList_render paint)

/-- The excerpt shows the line `left ++ right` behind its number, and a caret below
    the beginning of `right`, which is the place `p`. -/
structure Marks (paint : Paint) (style : Style) (p : Position) (left right : List Char)
    (excerpt : List (List Char)) : Prop where
  column : p.column = left.length + 1
  /-- The column did not have to be held inside the line. -/
  inside : p.column ≤ (left ++ right).length + 1
  /-- The caret is as far from the left end as `right` is in the line above, where
      the number takes its own length, whatever is written around it. -/
  below : ∃ (above beneath : List (List Char)) (number : String),
    (∃ indent, number.toList = List.replicate indent ' ' ++ (toString p.line).toList)
    ∧ excerpt = above
      ++ [("  " ++ paint .pointer number ++ " ").toList ++ left ++ right,
        List.replicate (("  " ++ number ++ " ").toList ++ left).length ' '
          ++ (paint style "^").toList]
      ++ beneath

/-- The lines of text are an excerpt that points at the place of the source between
    `front` and `back`. -/
structure PointsAt (paint : Paint) (style : Style) (source : String) (front back : List Char)
    (excerpt : List (List Char)) : Prop where
  /-- Behind the last line feed of the source there is no line to show. -/
  empty_iff : excerpt = [] ↔ back = [] ∧ front.getLast? = some '\n'
  /-- Otherwise the line of the place is shown, and the place marked on it. -/
  marked : excerpt ≠ [] → ∃ left right : List Char, Text.LineAt front back left right
    ∧ (Text.lines source.toList)[(Position.first.after front).line - 1]? = some (left ++ right)
    ∧ Marks paint style (Position.first.after front) left right excerpt

namespace Excerpt

variable (paint : Paint)

/-! ## Rows -/

theorem length_toString_mono {m n : Nat} (h : m ≤ n) :
    (toString m).length ≤ (toString n).length := by
  have hpos : 0 < (toString n).length := Nat.length_repr_pos
  have hlt : n < 10 ^ (toString n).length :=
    (Nat.length_repr_le_iff hpos).mp (Nat.le_refl _)
  exact (Nat.length_repr_le_iff hpos).mpr (Nat.lt_of_le_of_lt h hlt)

theorem toList_blanks (n : Nat) : (blanks n).toList = List.replicate n ' ' := by
  rw [blanks, String.toList_ofList]

theorem toList_gutter (e : Excerpt) (number : Nat) :
    (e.gutter number).toList
      = List.replicate (e.width - (toString number).length) ' ' ++ (toString number).toList := by
  rw [gutter, String.toList_append, toList_blanks]

/-- The number of the line fills the gutter. -/
theorem length_label (e : Excerpt) :
    ("  " ++ e.gutter e.number ++ " ").toList.length = e.width + 3 := by
  have hle : (toString e.number).length ≤ e.width := length_toString_mono (Nat.le_succ _)
  have hgutter : (e.gutter e.number).toList.length = e.width := by
    rw [toList_gutter, List.length_append, List.length_replicate, String.length_toList]
    exact Nat.sub_add_cancel hle
  have hindent : "  ".toList.length = 2 := by decide
  have hblank : " ".toList.length = 1 := by decide
  rw [String.toList_append, String.toList_append, List.length_append, List.length_append,
    hgutter, hindent, hblank]
  omega

theorem letters_sourceRow (e : Excerpt) (style : Style) (number : Nat) (line : List Char) :
    (e.sourceRow style number line).letters paint
      = ("  " ++ paint style (e.gutter number) ++ " ").toList ++ line := by
  simp [sourceRow, Row.letters, Span.render, Span.plain, Span.styled]

theorem letters_caretRow (e : Excerpt) (style : Style) :
    (e.caretRow style).letters paint
      = List.replicate (e.width + 2 + e.column) ' ' ++ (paint style "^").toList := by
  simp [caretRow, Row.letters, Span.render, toList_blanks, Span.plain, Span.styled]

/-! ## The excerpt of a place -/

theorem marks_of_column {e : Excerpt} {p : Position} {left right : List Char}
    (hnumber : e.number = p.line) (hline : e.line = left ++ right)
    (hp : p.column = left.length + 1)
    (hcolumn : e.column = min (max p.column 1) (e.line.length + 1)) (style : Style) :
    Marks paint style p left right ((e.rows style).map (Row.letters paint)) := by
  have hinside : p.column ≤ (left ++ right).length + 1 := by
    rw [hp, List.length_append]
    omega
  have hkept : e.column = p.column := by
    rw [hcolumn, hline]
    omega
  have hindent : e.width + 2 + e.column
      = (("  " ++ e.gutter e.number ++ " ").toList ++ left).length := by
    rw [List.length_append, length_label, hkept, hp]
    omega
  have hnumbered : (e.gutter e.number).toList
      = List.replicate (e.width - (toString p.line).length) ' ' ++ (toString p.line).toList := by
    rw [toList_gutter, hnumber]
  have hrows : (e.rows style).map (Row.letters paint)
      = (e.before.map (e.sourceRow .aside (e.number - 1))).toList.map (Row.letters paint)
        ++ [("  " ++ paint .pointer (e.gutter e.number) ++ " ").toList ++ left ++ right,
          List.replicate (("  " ++ e.gutter e.number ++ " ").toList ++ left).length ' '
            ++ (paint style "^").toList]
        ++ (e.behind.map (e.sourceRow .aside (e.number + 1))).toList.map (Row.letters paint) := by
    rw [rows, List.map_append, List.map_append, List.map_cons, List.map_singleton,
      letters_sourceRow, letters_caretRow, hindent, hline, List.append_assoc _ left right]
  exact ⟨hp, hinside, _, _, _, ⟨_, hnumbered⟩, hrows⟩

end Excerpt

/-- The excerpt of a place that does not cut a line end points at the place. -/
theorem pointsAt_of_not_cut {source : String} {front back : List Char}
    (hsource : source.toList = front ++ back) (hne : source.toList ≠ [])
    (hcut : ¬ (front.getLast? = some '\r' ∧ back.head? = some '\n')) (paint : Paint)
    (style : Style) :
    PointsAt paint style source front back
      ((((Excerpt.ofPosition? source (Position.first.after front)).map
        (Excerpt.rows · style)).getD []).map (Row.letters paint)) := by
  obtain ⟨left, right, hline⟩ := Text.exists_lineAt hcut
  have hget := hline.lines_getElem?
  rw [← hsource] at hget
  have hlast : Text.Ended front ∧ back = [] ↔ back = [] ∧ front.getLast? = some '\n' := by
    rw [and_comm]
    refine and_congr_right ?_
    rintro rfl
    rw [List.append_nil] at hsource
    rw [hsource] at hne
    rw [Text.Ended, List.getLast?_eq_some_getLast hne]
    simp
  split at hget
  next hend =>
      have hbelow := List.getElem?_eq_none_iff.mp hget
      rw [Excerpt.ofPosition?_eq_none (by omega)]
      exact ⟨iff_of_true rfl (hlast.mp hend), fun hnot => absurd rfl hnot⟩
  next hend =>
      have hpos := (Position.after_pos Position.first_pos front).1
      obtain ⟨hlt, -⟩ := List.getElem?_eq_some_iff.mp hget
      have hle : (Position.first.after front).line ≤ (Text.lines source.toList).length := by omega
      obtain ⟨e, he, hshows⟩ := Excerpt.ofPosition?_eq_some hpos hle
      have hshown : e.line = left ++ right := Option.some.inj (hshows.line.symm.trans hget)
      have hmarks := Excerpt.marks_of_column paint hshows.number hshown hline.column_after
        hshows.column style
      rw [he, Option.map_some, Option.getD_some]
      refine ⟨iff_of_false ?_ (mt hlast.mpr hend), fun _ => ⟨left, right, hline, hget, hmarks⟩⟩
      obtain ⟨above, beneath, number, -, hexcerpt⟩ := hmarks.below
      rw [hexcerpt, List.append_assoc]
      exact List.append_ne_nil_of_right_ne_nil above (List.cons_ne_nil _ _)

namespace Report

/-- The two lines with which the report of a located fault begins. -/
def title (r : Report) (paint : Paint) (location : Location) : List (List Char) :=
  [(paint r.severity.style r.fault.heading ++ ": " ++ r.fault.message).toList,
    ("  " ++ paint .pointer "-->" ++ " " ++ location.display).toList]

theorem toList_render_of_location {r : Report} {source : String} {location : Location}
    (paint : Paint) (hlocation : r.fault.location? = some location)
    (hsource : r.source = some source) :
    (r.render paint).toList = Text.joinLines (r.title paint location
      ++ (((Excerpt.ofPosition? source location.position).map
        (Excerpt.rows · r.severity.style)).getD []).map (Row.letters paint)) := by
  have htitle : ∀ excerpt : List Row,
      ([.styled r.severity.style r.fault.heading, .plain (": " ++ r.fault.message)]
        :: [.plain "  ", .styled .pointer "-->", .plain (" " ++ location.display)]
        :: excerpt).map (Row.letters paint)
        = r.title paint location ++ excerpt.map (Row.letters paint) := by
    intro excerpt
    simp [title, Row.letters, Span.render, Span.plain, Span.styled]
  rw [render, toList_renderRows, rows, placeRows, hlocation, hsource]
  exact congrArg Text.joinLines (htitle _)

end Report

/-- **Carets.**  The report of any fault of a source, in any severity and any
    paint, names the place where the fault shows, and points at it. -/
theorem report_points_at_fault {source : String} {filename : Option String} {fault : Fault}
    (h : FaultOf source filename fault) (severity : Severity) (paint : Paint) :
    ∃ front back excerpt, fault.Placed source filename front back
      ∧ (Report.render ⟨fault, severity, some source⟩ paint).toList
        = Text.joinLines ([(paint severity.style fault.heading ++ ": " ++ fault.message).toList,
            ("  " ++ paint .pointer "-->" ++ " "
              ++ (Location.mk (Position.first.after front) filename).display).toList]
          ++ excerpt)
      ∧ PointsAt paint severity.style source front back excerpt := by
  obtain ⟨front, back, hplaced⟩ := exists_place h
  have hpoints :=
    pointsAt_of_not_cut hplaced.split h.ne_nil hplaced.shows.not_cut paint severity.style
  exact ⟨front, back, _, hplaced,
    Report.toList_render_of_location paint hplaced.location rfl, hpoints⟩

/-- A numeral that breaks off in front of a line end of two characters. -/
theorem report_points_at_fault_line_end :
    let fault : Fault := .lexical .invalidHexLiteral ⟨⟨1, 3⟩, none⟩
    let text := Report.render ⟨fault, .error, some "0x\r\ny"⟩ .bare
    FaultOf "0x\r\ny" none fault
      ∧ (∃ front back excerpt, fault.Placed "0x\r\ny" none front back
        ∧ text.toList
          = Text.joinLines ([("Lexer Error" ++ ": " ++ "Invalid hexadecimal literal").toList,
              ("  " ++ "-->" ++ " "
                ++ (Location.mk (Position.first.after front) none).display).toList]
            ++ excerpt)
        ∧ PointsAt .bare .alert "0x\r\ny" front back excerpt)
      ∧ text = "Lexer Error: Invalid hexadecimal literal\n  --> 1:3\n"
        ++ "  1 0x\n      ^\n" ++ "  2 y\n" := by
  intro fault text
  have htext : "0x\r\ny".toList = ['0', 'x', '\r', '\n', 'y'] := by decide
  have hread : Segment.read '0' ['x', '\r', '\n', 'y']
      = .error ⟨.invalidHexLiteral, ['0', 'x']⟩ := rfl
  have hall : Segment.readAll "0x\r\ny".toList
      = ([], some ⟨.invalidHexLiteral, ['0', 'x']⟩) := by
    rw [htext, Segment.readAll_of_error hread]
  have hfault : FaultOf "0x\r\ny" none fault := .inl (tokenize_of_readAll_malformed none hall)
  exact ⟨hfault, report_points_at_fault hfault .error .bare, by decide⟩

end BraceLang
