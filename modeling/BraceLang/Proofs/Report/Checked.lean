import BraceLang.Report

/-! # Checked reports — a layout that nothing can stop

    The layout of an excerpt looks lines up by their index, holds a column in a
    range and adds numbers.  On a machine each of these can fail: the index may
    lie outside the lines, the range may be empty, and a sum may be too large
    for a word.  `Excerpt.checkedRows` does the layout by operations that give
    nothing in such a case; it never comes to one, and gives the rows of the
    excerpt (`Report.checkedRows_eq`).

    A word has to hold the number of characters of the source, and a few more.
    No other number of a layout is larger, whatever the place is, since places
    below the source are turned away first. -/

namespace BraceLang

/-! ## Operations that can fail -/

namespace Checked

/-- A sum, if it is below the limit of a word. -/
def sum (limit a b : Nat) : Option Nat :=
  if a + b < limit then some (a + b) else none

/-- A difference, if it is no negative number. -/
def difference (a b : Nat) : Option Nat :=
  if b ≤ a then some (a - b) else none

/-- The number of a range that is nearest to `n`, if the range has one. -/
def clamp (n low high : Nat) : Option Nat :=
  if low ≤ high then some (min (max n low) high) else none

theorem sum_of_lt {limit a b : Nat} (h : a + b < limit) : sum limit a b = some (a + b) :=
  if_pos h

theorem difference_of_le {a b : Nat} (h : b ≤ a) : difference a b = some (a - b) :=
  if_pos h

theorem clamp_of_le (n : Nat) {low high : Nat} (h : low ≤ high) :
    clamp n low high = some (min (max n low) high) :=
  if_pos h

end Checked

namespace Excerpt

open Checked

/-- A line behind its number, which stands at the right of a given width. -/
def numberedRow (width : Nat) (style : Style) (number : Nat) (line : List Char) : Row :=
  [.plain "  ", .styled style (blanks (width - (toString number).length) ++ toString number),
    .plain (" " ++ String.ofList line)]

/-- The row of the line before that of an index. -/
def checkedBefore (lines : List (List Char)) (width index : Nat) : Option (List Row) :=
  if 0 < index then do
    let place ← difference index 1
    let line ← lines[place]?
    return [numberedRow width .aside index line]
  else some []

/-- The row of the caret under a line. -/
def checkedCaret (limit width column : Nat) (style : Style) (line : List Char) : Option Row := do
  let last ← sum limit line.length 1
  let held ← clamp column 1 last
  let margin ← sum limit width 2
  let indent ← sum limit margin held
  return [.plain (blanks indent), .styled style "^"]

/-- The row of the line behind that of an index. -/
def checkedBehind (limit : Nat) (lines : List (List Char)) (width index : Nat) :
    Option (List Row) := do
  let place ← sum limit index 1
  if place < lines.length then
    let number ← sum limit index 2
    let line ← lines[place]?
    return [numberedRow width .aside number line]
  else some []

/-- The rows of the excerpt at a place of some lines, by operations that can
    fail. -/
def checkedRows (limit : Nat) (lines : List (List Char)) (p : Position) (style : Style) :
    Option (List Row) :=
  if p.line = 0 ∨ lines.length < p.line then some []
  else do
    let index ← difference p.line 1
    let next ← sum limit p.line 1
    let width := (toString next).length
    let before ← checkedBefore lines width index
    let line ← lines[index]?
    let caret ← checkedCaret limit width p.column style line
    let behind ← checkedBehind limit lines width index
    return before ++ [numberedRow width .pointer p.line line, caret] ++ behind

/-! ## No operation fails -/

theorem checkedBefore_eq {lines : List (List Char)} {index : Nat} (width : Nat)
    (h : index < lines.length) :
    checkedBefore lines width index
      = some ((if index = 0 then none else lines[index - 1]?).map
          (numberedRow width .aside index)).toList := by
  rw [checkedBefore]
  by_cases hindex : index = 0
  · rw [if_neg (by omega), if_pos hindex]
    rfl
  · have hprevious := List.getElem?_eq_getElem (l := lines) (i := index - 1) (by omega)
    rw [if_pos (by omega), if_neg hindex, difference_of_le (by omega), hprevious]
    show (lines[index - 1]?).bind _ = _
    rw [hprevious]
    rfl

theorem checkedCaret_eq {limit width : Nat} {line : List Char} (column : Nat) (style : Style)
    (h : width + 2 + (line.length + 1) < limit) :
    checkedCaret limit width column style line
      = some [.plain (blanks (width + 2 + min (max column 1) (line.length + 1))),
          .styled style "^"] := by
  have hheld : min (max column 1) (line.length + 1) ≤ line.length + 1 := Nat.min_le_right _ _
  have hlast : sum limit line.length 1 = some (line.length + 1) := sum_of_lt (by omega)
  have hclamp := clamp_of_le column (Nat.le_add_left 1 line.length)
  have hmargin : sum limit width 2 = some (width + 2) := sum_of_lt (by omega)
  have hindent : sum limit (width + 2) (min (max column 1) (line.length + 1))
      = some (width + 2 + min (max column 1) (line.length + 1)) := sum_of_lt (by omega)
  simp only [checkedCaret, hlast, hclamp, hmargin, hindent, Option.bind_eq_bind,
    Option.bind_some, Option.pure_def]

theorem checkedBehind_eq {limit index : Nat} (lines : List (List Char)) (width : Nat)
    (h : index + 2 < limit) :
    checkedBehind limit lines width index
      = some ((lines[index + 1]?).map (numberedRow width .aside (index + 2))).toList := by
  have hplace : sum limit index 1 = some (index + 1) := sum_of_lt (by omega)
  have hnumber : sum limit index 2 = some (index + 2) := sum_of_lt h
  simp only [checkedBehind, hplace, hnumber, Option.bind_eq_bind, Option.bind_some]
  by_cases hbehind : index + 1 < lines.length
  · rw [if_pos hbehind, List.getElem?_eq_getElem hbehind]
    rfl
  · rw [if_neg hbehind, List.getElem?_eq_none (Nat.le_of_not_lt hbehind)]
    rfl

/-- A number has no more digits than it counts. -/
theorem length_toString_le_self {n : Nat} (h : 0 < n) : (toString n).length ≤ n :=
  (Nat.length_repr_le_iff h).mpr (Nat.lt_pow_self (by decide))

/-- The rows of an excerpt, spelled out for the line of an index. -/
theorem Shows.rows_eq {e : Excerpt} {lines : List (List Char)} {p : Position} {index : Nat}
    (h : e.Shows lines p) (hindex : p.line = index + 1) (style : Style) :
    e.rows style
      = ((if index = 0 then none else lines[index - 1]?).map
          (numberedRow e.width .aside index)).toList
        ++ [numberedRow e.width .pointer p.line e.line,
          [.plain (blanks (e.width + 2 + min (max p.column 1) (e.line.length + 1))),
            .styled style "^"]]
        ++ ((lines[index + 1]?).map (numberedRow e.width .aside (index + 2))).toList := by
  have hbefore : e.before = if index = 0 then none else lines[index - 1]? := by
    rw [h.before, hindex]
    simp only [Nat.add_eq_right, Nat.reduceSubDiff]
  rw [rows, caretRow, hbefore, h.behind, h.column, h.number, hindex]
  rfl

theorem checkedRows_eq {source : String} {limit : Nat} (h : source.length + 5 < limit)
    (p : Position) (style : Style) :
    checkedRows limit (Text.lines source.toList) p style
      = some (((ofPosition? source p).map (Excerpt.rows · style)).getD []) := by
  rw [checkedRows]
  by_cases hout : p.line = 0 ∨ (Text.lines source.toList).length < p.line
  · rw [if_pos hout, ofPosition?_eq_none hout]
    rfl
  · rw [not_or, Nat.not_lt] at hout
    obtain ⟨hzero, hle⟩ := hout
    obtain ⟨e, he, hshows⟩ := ofPosition?_eq_some hzero hle
    obtain ⟨index, hindex⟩ := Nat.exists_eq_add_one_of_ne_zero hzero
    have hline := hshows.line
    rw [hindex, Nat.add_sub_cancel] at hline
    -- every number of the layout is bounded by the place of the line in the source
    have hroom := (Text.holds_of_getElem?_lines hline).room
    rw [String.length_toList] at hroom
    have hwidth : e.width ≤ index + 2 := by
      rw [width, hshows.number, hindex]
      exact length_toString_le_self (Nat.succ_pos _)
    have hfirst : difference (index + 1) 1 = some index :=
      difference_of_le (Nat.le_add_left 1 index)
    have hnext : sum limit (index + 1) 1 = some (index + 1 + 1) := sum_of_lt (by omega)
    have hbefore := checkedBefore_eq e.width (Nat.lt_of_succ_le (hindex ▸ hle))
    have hcaret := checkedCaret_eq p.column style
      (show e.width + 2 + (e.line.length + 1) < limit by omega)
    have hbehind := checkedBehind_eq (Text.lines source.toList) e.width
      (show index + 2 < limit by omega)
    have hnumber : (toString (index + 1 + 1)).length = e.width := by
      rw [width, hshows.number, hindex]
    rw [if_neg (by omega), he, Option.map_some, Option.getD_some, hshows.rows_eq hindex, hindex]
    simp only [hfirst, hnext, hnumber, hbefore, hline, hcaret, hbehind, Option.bind_eq_bind,
      Option.bind_some, Option.pure_def]

end Excerpt

namespace Report

/-- The rows of a report, by operations that can fail. -/
def checkedRows (limit : Nat) (r : Report) : Option (List Row) := do
  let heading : Row :=
    [.styled r.severity.style r.fault.heading, .plain (": " ++ r.fault.message)]
  match r.fault.location? with
  | none => return [heading]
  | some location =>
      let place : Row := [.plain "  ", .styled .pointer "-->", .plain (" " ++ location.display)]
      match r.source with
      | none => return [heading, place]
      | some source =>
          let excerpt ← Excerpt.checkedRows limit (Text.lines source.toList) location.position
            r.severity.style
          return heading :: place :: excerpt

/-- No operation fails, and the rows are those of the report. -/
theorem checkedRows_eq {r : Report} {limit : Nat}
    (h : ∀ source ∈ r.source, source.length + 5 < limit) :
    r.checkedRows limit = some r.rows := by
  rw [checkedRows, rows, placeRows]
  cases r.fault.location? with
  | none => rfl
  | some location =>
      cases hsource : r.source with
      | none => rfl
      | some source =>
          simp only [Excerpt.checkedRows_eq (h source hsource), Option.bind_eq_bind,
            Option.bind_some, Option.pure_def]

end Report

end BraceLang
