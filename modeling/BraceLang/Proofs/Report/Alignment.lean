import BraceLang.Proofs.Report.Caret
import BraceLang.Proofs.Report.Checked

/-! # Alignment — how the text of a report is laid out

    Without colors a report of a located fault is two lines of text, and below
    them the excerpt, if the source has a line of that number.  In the excerpt
    every line of the source stands behind a margin, in which its number is at
    the right; all margins are of one width, since that is enough for the
    largest of the three numbers.  The caret is on a line of its own, as far from
    its left end as the character at the column is in the line above
    (`Excerpt.aligned_of_shows`).  The text is the one that the checked layout
    gives, which does not fail (`laidOut_of_location`). -/

namespace BraceLang

/-- The paint of a run without colors: the text stands alone. -/
def Paint.Bare (paint : Paint) : Prop :=
  ∀ style text, paint style text = text

theorem Paint.bare_bare : bare.Bare :=
  fun _ _ => rfl

/-- A number is written in digits. -/
theorem Text.isDigit_of_mem_toString {n : Nat} {c : Char} (h : c ∈ (toString n).toList) :
    c.isDigit := by
  rw [Nat.toString_eq_repr, Nat.toList_repr] at h
  exact Nat.isDigit_of_mem_toDigits (by decide) (Nat.le_refl 10) h

namespace Excerpt

/-- What stands in front of a line in its row: the number at the right of a
    field of a given width. -/
def margin (width number : Nat) : List Char :=
  ' ' :: ' ' :: (List.leftpad width ' ' (toString number).toList ++ [' '])

/-- The lines of text about the place `p`: some above that of the place, which
    is `left ++ right`, the caret below it, and some below the caret. -/
structure Aligned (lines : List (List Char)) (p : Position) (width : Nat)
    (above : List (List Char)) (left right caret : List Char) (below : List (List Char)) :
    Prop where
  line : lines[p.line - 1]? = some (left ++ right)
  /-- The column is held inside the line, or one past it. -/
  column : left.length + 1 = min (max p.column 1) ((left ++ right).length + 1)
  /-- The caret is as far from the left end as what follows `left` in the row
      of the line. -/
  caret : caret = List.replicate (margin width p.line ++ left).length ' ' ++ ['^']
  atTop : p.line = 1 → above = []
  onePrevious : p.line ≠ 1 → ∃ previous, lines[p.line - 2]? = some previous
    ∧ above = [margin width (p.line - 1) ++ previous]
  atBottom : p.line = lines.length → below = []
  oneNext : p.line ≠ lines.length → ∃ next, lines[p.line]? = some next
    ∧ below = [margin width (p.line + 1) ++ next]
  /-- Every number that is shown fits into the common width. -/
  fits : ∀ number ≤ p.line + 1, (margin width number).length = width + 3
  /-- Each line of the source is one line of the text. -/
  unbroken : ∀ row ∈ above ++ (margin width p.line ++ left ++ right) :: below, '\n' ∉ row

/-! ## Margins -/

theorem length_margin {width number : Nat} (h : (toString number).length ≤ width) :
    (margin width number).length = width + 3 := by
  rw [margin, List.length_cons, List.length_cons, List.length_append, List.length_leftpad,
    String.length_toList, Nat.max_eq_left h]
  rfl

theorem feed_not_mem_margin (width number : Nat) : '\n' ∉ margin width number := by
  rw [margin, List.leftpad]
  simp only [List.mem_cons, List.mem_append, List.mem_replicate, List.not_mem_nil, not_or,
    not_and, or_false]
  refine ⟨by decide, by decide, ⟨fun _ => by decide, ?_⟩, by decide⟩
  intro hmem
  exact absurd (Text.isDigit_of_mem_toString hmem) (by decide)

/-! ## The rows of an excerpt -/

variable {e : Excerpt} {lines : List (List Char)} {p : Position} {source : String} {paint : Paint}

theorem letters_numbered (hpaint : paint.Bare) (e : Excerpt) (style : Style) (number : Nat)
    (line : List Char) :
    (e.sourceRow style number line).letters paint = margin e.width number ++ line := by
  rw [letters_sourceRow, hpaint, margin, List.leftpad, String.length_toList]
  simp [toList_gutter]

/-- The rows of an excerpt as lines of text. -/
theorem letters_rows (hpaint : paint.Bare) (e : Excerpt) (style : Style) :
    (e.rows style).map (Row.letters paint)
      = (e.before.map (margin e.width (e.number - 1) ++ ·)).toList
        ++ [margin e.width e.number ++ e.line,
          List.replicate (e.width + 2 + e.column) ' ' ++ ['^']]
        ++ (e.behind.map (margin e.width (e.number + 1) ++ ·)).toList := by
  have hneighbour : ∀ (number : Nat) (line? : Option (List Char)),
      ((line?.map (e.sourceRow .aside number)).toList).map (Row.letters paint)
        = (line?.map (margin e.width number ++ ·)).toList := by
    intro number line?
    cases line? with
    | none => rfl
    | some line => exact congrArg (fun row => [row]) (letters_numbered hpaint e _ _ _)
  rw [rows, List.map_append, List.map_append, hneighbour, hneighbour, List.map_cons,
    List.map_singleton, letters_numbered hpaint, letters_caretRow, hpaint]
  rfl

/-- The rows of a neighbour: one if there is a line of that index, and else
    none. -/
theorem exists_neighbour {place : Nat} (width number : Nat) (h : place < lines.length) :
    ∃ line, lines[place]? = some line
      ∧ ((lines[place]?).map (margin width number ++ ·)).toList = [margin width number ++ line] := by
  refine ⟨lines[place], List.getElem?_eq_getElem h, ?_⟩
  rw [List.getElem?_eq_getElem h]
  rfl

/-- A line of the source behind its number is one line of text. -/
theorem feed_not_mem_margin_append {place : Nat} {line : List Char} (width number : Nat)
    (h : (Text.lines source.toList)[place]? = some line) :
    '\n' ∉ margin width number ++ line := by
  rw [List.mem_append, not_or]
  refine ⟨feed_not_mem_margin width number, ?_⟩
  intro hmem
  exact ((Text.holds_of_getElem?_lines h).chars '\n' hmem).2 rfl

theorem feed_not_mem_neighbour {line? : Option (List Char)} (width number : Nat)
    (h : ∀ line ∈ line?, ∃ place : Nat, (Text.lines source.toList)[place]? = some line) :
    ∀ row ∈ (line?.map (margin width number ++ ·)).toList, '\n' ∉ row := by
  intro row hrow
  obtain ⟨line, hline, rfl⟩ := Option.map_eq_some_iff.mp (Option.mem_toList.mp hrow)
  obtain ⟨place, hplace⟩ := h line hline
  exact feed_not_mem_margin_append width number hplace

/-- The line of the place is cut at the column, and the caret is below the cut. -/
theorem aligned_of_shows (hpaint : paint.Bare) (h : e.Shows (Text.lines source.toList) p)
    (style : Style) :
    ∃ above left right caret below,
      (e.rows style).map (Row.letters paint)
        = above ++ [margin e.width p.line ++ left ++ right, caret] ++ below
      ∧ Aligned (Text.lines source.toList) p e.width above left right caret below := by
  obtain ⟨hlt, -⟩ := List.getElem?_eq_some_iff.mp h.line
  have hcolumn := h.column
  have hcut : e.line.take (e.column - 1) ++ e.line.drop (e.column - 1) = e.line :=
    List.take_append_drop _ _
  have hleft : (e.line.take (e.column - 1)).length + 1 = e.column := by
    rw [List.length_take]
    omega
  have hfits : ∀ number ≤ p.line + 1, (margin e.width number).length = e.width + 3 := by
    intro number hle
    refine length_margin ?_
    rw [width, h.number]
    exact length_toString_mono hle
  have hletters := letters_rows hpaint e style
  rw [h.number, ← hcut, ← List.append_assoc (margin e.width p.line)] at hletters
  refine ⟨_, _, _, _, _, hletters, ?_⟩
  refine {
    line := ?line, column := ?column, caret := ?caret
    atTop := ?atTop, onePrevious := ?onePrevious
    atBottom := ?atBottom, oneNext := ?oneNext
    fits := hfits, unbroken := ?unbroken }
  case line =>
    rw [hcut]
    exact h.line
  case column =>
    rw [hcut, hleft]
    exact hcolumn
  case caret =>
    have hindent : e.width + 2 + e.column
        = (margin e.width p.line ++ e.line.take (e.column - 1)).length := by
      rw [List.length_append, hfits _ (Nat.le_succ _)]
      omega
    rw [hindent]
  case atTop =>
    intro htop
    rw [h.before, if_pos htop]
    rfl
  case onePrevious =>
    intro hnot
    rw [h.before, if_neg hnot]
    exact exists_neighbour e.width (p.line - 1) (by omega)
  case atBottom =>
    intro hbottom
    rw [h.behind, List.getElem?_eq_none (Nat.le_of_eq hbottom.symm)]
    rfl
  case oneNext =>
    intro hnot
    rw [h.behind]
    exact exists_neighbour e.width (p.line + 1) (by omega)
  case unbroken =>
    rw [List.append_assoc (margin e.width p.line), hcut]
    refine List.forall_mem_append.mpr ⟨?_, List.forall_mem_cons.mpr ⟨?_, ?_⟩⟩
    · exact feed_not_mem_neighbour e.width (p.line - 1) h.exists_of_mem_before
    · exact feed_not_mem_margin_append _ _ h.line
    · exact feed_not_mem_neighbour e.width (p.line + 1) h.exists_of_mem_behind

end Excerpt

namespace Report

/-- The report as it is written, by operations that can fail. -/
def checkedRender (limit : Nat) (r : Report) (paint : Paint) : Option String :=
  (r.checkedRows limit).map (renderRows paint)

/-- The two lines with which the report of a located fault begins. -/
def opening (r : Report) (location : Location) : List (List Char) :=
  [(r.fault.heading ++ ": " ++ r.fault.message).toList, ("  --> " ++ location.display).toList]

/-- How a report of a fault at a location lays out a source of some lines. -/
structure LaidOut (r : Report) (paint : Paint) (location : Location) (source : String)
    (lines : List (List Char)) : Prop where
  /-- No operation fails where a word can count the characters of the source and
      a few more; a text that is in memory leaves a word that room. -/
  total : ∀ limit, source.length + 5 < limit →
    r.checkedRender limit paint = some (r.render paint)
  outside : location.position.line = 0 ∨ lines.length < location.position.line →
    (r.render paint).toList = Text.joinLines (r.opening location)
  inside : location.position.line ≠ 0 → location.position.line ≤ lines.length →
    ∃ width above left right caret below,
      (r.render paint).toList = Text.joinLines (r.opening location
        ++ (above ++ [Excerpt.margin width location.position.line ++ left ++ right, caret] ++ below))
      ∧ Excerpt.Aligned lines location.position width above left right caret below

theorem title_of_bare {paint : Paint} (hpaint : paint.Bare) (r : Report) (location : Location) :
    r.title paint location = r.opening location := by
  rw [title, opening, hpaint, hpaint]
  simp

end Report

/-- **Alignment.**  A report of any located fault, over any source and in either
    severity, is laid out without a failure.  A place on no line of the source is
    shown by the two lines of the opening alone.  Otherwise the line of the place
    and its neighbours follow, behind margins of one width, and the caret is below
    the character at the column. -/
theorem laidOut_of_location {paint : Paint} (hpaint : paint.Bare) {fault : Fault}
    {location : Location} (hlocation : fault.location? = some location) (severity : Severity)
    (source : String) :
    (Report.mk fault severity (some source)).LaidOut paint location source
      (Text.lines source.toList) := by
  have htext := Report.toList_render_of_location (r := ⟨fault, severity, some source⟩) paint
    hlocation rfl
  rw [Report.title_of_bare hpaint] at htext
  refine { total := ?total, outside := ?outside, inside := ?inside }
  case total =>
    intro limit hlimit
    have hsource : ∀ text ∈ some source, text.length + 5 < limit := by
      rintro text ⟨⟩
      exact hlimit
    rw [Report.checkedRender, Report.checkedRows_eq hsource]
    rfl
  case outside =>
    intro hout
    rw [htext, Excerpt.ofPosition?_eq_none hout]
    rfl
  case inside =>
    intro hzero hle
    obtain ⟨e, he, hshows⟩ := Excerpt.ofPosition?_eq_some hzero hle
    obtain ⟨above, left, right, caret, below, hrows, haligned⟩ :=
      Excerpt.aligned_of_shows hpaint hshows severity.style
    refine ⟨e.width, above, left, right, caret, below, ?_, haligned⟩
    rw [htext, he, ← hrows]
    rfl

/-- A column far behind its line, on a line whose number is shorter than that of
    the next. -/
theorem laidOut_of_location_ninth_line :
    let location : Location := ⟨⟨9, 40⟩, some "a"⟩
    let fault : Fault := .lexical .invalidExponent location
    let source := "\n\n\n\n\n\n\n\n1e\nz"
    Paint.bare.Bare
      ∧ fault.location? = some location
      ∧ (Report.mk fault .warning (some source)).LaidOut .bare location source
        (Text.lines source.toList) := by
  intro location fault source
  exact ⟨Paint.bare_bare, rfl, laidOut_of_location Paint.bare_bare rfl .warning source⟩

example :
    (Report.mk (.lexical .invalidExponent ⟨⟨9, 40⟩, some "a"⟩) .warning
      (some "\n\n\n\n\n\n\n\n1e\nz")).render .bare
    = "Lexer Error: Invalid exponent in number literal\n  --> a:9:40\n"
      ++ "   8 \n   9 1e\n       ^\n  10 z\n" := by cbv

end BraceLang
