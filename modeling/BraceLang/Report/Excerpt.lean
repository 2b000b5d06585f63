import BraceLang.Position
import BraceLang.Report.Span
import BraceLang.Text.Lines

/-! # Excerpts — the source around a place

    An excerpt is the line of a place, its neighbours as far as there are any,
    and the column of the place, held inside the line.  It is laid out with a
    gutter of line numbers, as wide as the number behind the line, and a caret
    below the column. -/

namespace BraceLang

/-- The source around a place. -/
structure Excerpt where
  /-- The number of the line, counted from one. -/
  number : Nat
  /-- The line before, if the line is not the first. -/
  before : Option (List Char)
  /-- The line itself. -/
  line : List Char
  /-- The line behind, if the line is not the last. -/
  behind : Option (List Char)
  /-- The column of the caret, from one to one past the line. -/
  column : Nat
  deriving DecidableEq

namespace Excerpt

/-- The excerpt at a place of a source; there is none if the source has no
    line of that number. -/
def ofPosition? (source : String) (p : Position) : Option Excerpt :=
  let lines := Text.lines source.toList
  match p.line with
  | 0 => none
  | index + 1 =>
      match lines[index]? with
      | none => none
      | some line =>
          some {
            number := index + 1
            before := if index = 0 then none else lines[index - 1]?
            line := line
            behind := lines[index + 1]?
            column := min (max p.column 1) (line.length + 1) }

/-- The excerpt shows the line of a place among some lines, and the lines next
    to it. -/
structure Shows (e : Excerpt) (lines : List (List Char)) (p : Position) : Prop where
  number : e.number = p.line
  line : lines[p.line - 1]? = some e.line
  before : e.before = if p.line = 1 then none else lines[p.line - 2]?
  behind : e.behind = lines[p.line]?
  column : e.column = min (max p.column 1) (e.line.length + 1)

theorem ofPosition?_eq_none {source : String} {p : Position}
    (h : p.line = 0 ∨ (Text.lines source.toList).length < p.line) :
    ofPosition? source p = none := by
  rw [ofPosition?]
  cases hp : p.line with
  | zero => rfl
  | succ index =>
      rw [hp] at h
      have hle : (Text.lines source.toList).length ≤ index :=
        Nat.le_of_lt_succ (h.resolve_left (Nat.succ_ne_zero index))
      simp only [List.getElem?_eq_none hle]

theorem ofPosition?_eq_some {source : String} {p : Position} (hp : p.line ≠ 0)
    (hle : p.line ≤ (Text.lines source.toList).length) :
    ∃ e, ofPosition? source p = some e ∧ e.Shows (Text.lines source.toList) p := by
  obtain ⟨index, hindex⟩ := Nat.exists_eq_succ_of_ne_zero hp
  rw [hindex] at hle
  have hline := List.getElem?_eq_getElem (Nat.lt_of_succ_le hle)
  rw [ofPosition?]
  simp only [hindex, hline]
  refine ⟨_, rfl, ?_⟩
  constructor
  · exact hindex.symm
  · rw [hindex]
    exact hline
  · rw [hindex]
    simp only [Nat.succ_eq_add_one, Nat.add_eq_right, Nat.reduceSubDiff]
  · rw [hindex]
  · rfl

theorem shows_of_ofPosition? {source : String} {p : Position} {e : Excerpt}
    (h : ofPosition? source p = some e) : e.Shows (Text.lines source.toList) p := by
  by_cases hout : p.line = 0 ∨ (Text.lines source.toList).length < p.line
  · rw [ofPosition?_eq_none hout] at h
    cases h
  · obtain ⟨hzero, hle⟩ := not_or.mp hout
    obtain ⟨shown, hshown, hshows⟩ := ofPosition?_eq_some hzero (Nat.le_of_not_lt hle)
    rw [h] at hshown
    cases hshown
    exact hshows

theorem Shows.exists_of_mem_before {e : Excerpt} {lines : List (List Char)} {p : Position}
    (h : e.Shows lines p) : ∀ line ∈ e.before, ∃ place : Nat, lines[place]? = some line := by
  rw [h.before]
  intro line hline
  split at hline
  next => cases hline
  next => exact ⟨p.line - 2, hline⟩

theorem Shows.exists_of_mem_behind {e : Excerpt} {lines : List (List Char)} {p : Position}
    (h : e.Shows lines p) : ∀ line ∈ e.behind, ∃ place : Nat, lines[place]? = some line := by
  rw [h.behind]
  exact fun _ hline => ⟨p.line, hline⟩

/-- A text of blanks. -/
def blanks (n : Nat) : String :=
  String.ofList (List.replicate n ' ')

/-- The width of the gutter. -/
def width (e : Excerpt) : Nat :=
  (toString (e.number + 1)).length

/-- A line number, at the right of the gutter. -/
def gutter (e : Excerpt) (number : Nat) : String :=
  blanks (e.width - (toString number).length) ++ toString number

/-- A line of the source behind its number. -/
def sourceRow (e : Excerpt) (style : Style) (number : Nat) (line : List Char) : Row :=
  [.plain "  ", .styled style (e.gutter number), .plain (" " ++ String.ofList line)]

/-- The caret below the column. -/
def caretRow (e : Excerpt) (style : Style) : Row :=
  [.plain (blanks (e.width + 2 + e.column)), .styled style "^"]

/-- The excerpt as rows, the caret in a given style. -/
def rows (e : Excerpt) (style : Style) : List Row :=
  (e.before.map (e.sourceRow .aside (e.number - 1))).toList
    ++ [e.sourceRow .pointer e.number e.line, e.caretRow style]
    ++ (e.behind.map (e.sourceRow .aside (e.number + 1))).toList

end Excerpt

end BraceLang
