import BraceLang.Position
import BraceLang.Text.Lines
import Mathlib.Data.List.Induction

/-! # Places on lines — line and column numbers against the lines of a text

    A place of a text is given by what stands in front of it and what stands
    behind it.  `LineAt` says which line the place lies on, and how much of the
    line is in front of the place.  The position that is counted in front of the
    place agrees with that: its line number finds the line among the lines of
    the text (`LineAt.lines_getElem?`), and its column is one more than what is
    in front (`LineAt.column_after`). -/

namespace BraceLang

namespace Text

/-- Nothing, or lines that are all ended. -/
def Ended (text : List Char) : Prop :=
  ∀ c ∈ text.getLast?, c = '\n'

instance : DecidablePred Ended :=
  fun text => Option.decidableForallMem text.getLast?

/-- What can follow a line: nothing, or a line feed, of which a carriage return
    in front is a part. -/
inductive LineEnd (line : List Char) : List Char → Prop where
  | none : LineEnd line []
  | feed {more : List Char} (h : line.getLast? ≠ some '\r') : LineEnd line ('\n' :: more)
  | returnFeed {more : List Char} : LineEnd line ('\r' :: '\n' :: more)

/-- A place is on the line `left ++ right`, behind `left`. -/
structure LineAt (front back left right : List Char) : Prop where
  begins : ∃ above, front = above ++ left ∧ Ended above
  ends : ∃ below, back = right ++ below ∧ LineEnd (left ++ right) below
  unbroken : '\n' ∉ left ++ right

variable {front back left right : List Char}

theorem ended_nil : Ended [] :=
  fun _ h => nomatch h

theorem Ended.eq_nil_or_append {text : List Char} (h : Ended text) :
    text = [] ∨ ∃ init, text = init ++ ['\n'] := by
  rcases List.eq_nil_or_concat text with hnil | ⟨init, c, htext⟩
  · exact .inl hnil
  · rw [List.concat_eq_append] at htext
    rw [htext, Ended, List.getLast?_concat] at h
    exact .inr ⟨init, by rw [htext, h c rfl]⟩

/-! ## Every place is on a line -/

theorem exists_lineBegin (front : List Char) :
    ∃ above left, front = above ++ left ∧ Ended above ∧ '\n' ∉ left := by
  induction front using List.reverseRecOn with
  | nil => exact ⟨[], [], rfl, ended_nil, List.not_mem_nil⟩
  | append_singleton front c ih =>
      by_cases hc : c = '\n'
      · refine ⟨front ++ [c], [], (List.append_nil _).symm, ?_, List.not_mem_nil⟩
        rw [Ended, List.getLast?_concat]
        rintro d ⟨⟩
        exact hc
      · obtain ⟨above, left, rfl, habove, hleft⟩ := ih
        refine ⟨above, left ++ [c], List.append_assoc above left [c], habove, ?_⟩
        simp [hleft, Ne.symm hc]

/-- Behind the beginning of a line there is an end of it, unless the place cuts
    a carriage return from its line feed. -/
theorem exists_lineEnd (left back : List Char)
    (h : ¬ (left.getLast? = some '\r' ∧ back.head? = some '\n')) :
    ∃ right below, back = right ++ below ∧ '\n' ∉ right ∧ LineEnd (left ++ right) below := by
  induction back generalizing left with
  | nil => exact ⟨[], [], rfl, List.not_mem_nil, .none⟩
  | cons c back ih =>
      by_cases hfeed : c = '\n'
      · subst hfeed
        refine ⟨[], '\n' :: back, rfl, List.not_mem_nil, .feed ?_⟩
        rw [List.append_nil]
        exact fun hlast => h ⟨hlast, rfl⟩
      by_cases hreturn : c = '\r' ∧ back.head? = some '\n'
      · obtain ⟨rfl, hhead⟩ := hreturn
        obtain ⟨more, rfl⟩ := List.head?_eq_some_iff.mp hhead
        exact ⟨[], _, rfl, List.not_mem_nil, .returnFeed⟩
      · -- the character belongs to the line, which goes on behind it
        have hnext : ¬ ((left ++ [c]).getLast? = some '\r' ∧ back.head? = some '\n') := by
          rw [List.getLast?_concat, Option.some_inj]
          exact hreturn
        obtain ⟨right, below, rfl, hright, hend⟩ := ih (left ++ [c]) hnext
        refine ⟨c :: right, below, rfl, ?_, ?_⟩
        · simp [hright, Ne.symm hfeed]
        · rw [List.append_assoc] at hend
          exact hend

theorem exists_lineAt (h : ¬ (front.getLast? = some '\r' ∧ back.head? = some '\n')) :
    ∃ left right, LineAt front back left right := by
  obtain ⟨above, left, rfl, habove, hleft⟩ := exists_lineBegin front
  have hcut : ¬ (left.getLast? = some '\r' ∧ back.head? = some '\n') := by
    rintro ⟨hlast, hhead⟩
    refine h ⟨?_, hhead⟩
    rw [List.getLast?_append, hlast, Option.some_or]
  obtain ⟨right, below, rfl, hright, hend⟩ := exists_lineEnd left back hcut
  exact ⟨left, right, ⟨above, rfl, habove⟩, ⟨below, rfl, hend⟩, by simp [hleft, hright]⟩

/-- Nothing of the line is in front of a place exactly if all lines in front of
    it are ended. -/
theorem LineAt.left_eq_nil_iff (h : LineAt front back left right) : left = [] ↔ Ended front := by
  obtain ⟨above, rfl, habove⟩ := h.begins
  constructor
  · rintro rfl
    rw [List.append_nil]
    exact habove
  · intro hended
    rcases List.eq_nil_or_concat left with hnil | ⟨init, c, hleft⟩
    · exact hnil
    · rw [List.concat_eq_append] at hleft
      rw [hleft, Ended, ← List.append_assoc, List.getLast?_concat] at hended
      have hbroken : '\n' ∈ left := by simp [hleft, hended c rfl]
      exact absurd (List.mem_append_left right hbroken) h.unbroken

/-! ## Columns -/

theorem after_of_unbroken (p : Position) {text : List Char} (h : '\n' ∉ text) :
    p.after text = ⟨p.line, p.column + text.length⟩ := by
  induction text generalizing p with
  | nil => rfl
  | cons c text ih =>
      rw [List.mem_cons, not_or] at h
      obtain ⟨hc, htext⟩ := h
      rw [Position.after_cons, Position.next, if_neg (Ne.symm hc), ih _ htext, List.length_cons]
      simp only [Position.mk.injEq, true_and]
      omega

theorem column_after_of_ended {text : List Char} (h : Ended text) :
    (Position.first.after text).column = 1 := by
  rcases h.eq_nil_or_append with rfl | ⟨init, rfl⟩
  · rfl
  · rw [Position.after_append]
    rfl

/-- The column of a place counts the characters of its line in front of it. -/
theorem LineAt.column_after (h : LineAt front back left right) :
    (Position.first.after front).column = left.length + 1 := by
  obtain ⟨above, rfl, habove⟩ := h.begins
  have hleft : '\n' ∉ left := fun hmem => h.unbroken (List.mem_append_left right hmem)
  rw [Position.after_append, after_of_unbroken _ hleft, column_after_of_ended habove]
  exact Nat.add_comm 1 left.length

/-! ## Lines -/

theorem line_after (p : Position) (text : List Char) :
    (p.after text).line = p.line + text.count '\n' := by
  induction text generalizing p with
  | nil => rfl
  | cons c text ih =>
      rw [Position.after_cons, ih, Position.next]
      by_cases hc : c = '\n'
      · rw [if_pos hc, hc, List.count_cons_self]
        show p.line + 1 + _ = _
        omega
      · rw [if_neg hc, List.count_cons_of_ne hc]

theorem consLine_append {ls : List (List Char)} (h : ls ≠ []) (c : Char)
    (more : List (List Char)) : consLine c (ls ++ more) = consLine c ls ++ more := by
  cases ls with
  | nil => exact absurd rfl h
  | cons line ls => rfl

theorem length_consLine {ls : List (List Char)} (h : ls ≠ []) (c : Char) :
    (consLine c ls).length = ls.length := by
  cases ls with
  | nil => exact absurd rfl h
  | cons line ls => rfl

theorem lines_cons {c : Char} {text : List Char} (hfeed : c ≠ '\n')
    (hreturn : ¬ (c = '\r' ∧ text.head? = some '\n')) :
    lines (c :: text) = consLine c (lines text) := by
  rw [lines]
  · exact hfeed
  · rintro more rfl rfl
    exact hreturn ⟨rfl, rfl⟩

/-- Behind a line feed the lines are those of the rest. -/
theorem lines_append_feed (init text : List Char) :
    lines (init ++ '\n' :: text) = lines (init ++ ['\n']) ++ lines text
      ∧ (lines (init ++ ['\n'])).length = init.count '\n' + 1 := by
  fun_induction lines init with
  | case1 => exact ⟨rfl, rfl⟩
  | case2 init ih =>
      refine ⟨?_, ?_⟩
      · exact congrArg (List.cons []) ih.1
      · rw [List.count_cons_self]
        exact congrArg (· + 1) ih.2
  | case3 init ih =>
      refine ⟨?_, ?_⟩
      · exact congrArg (List.cons []) ih.1
      · rw [List.count_cons_of_ne (by decide), List.count_cons_self]
        exact congrArg (· + 1) ih.2
  | case4 c init hfeed hreturn ih =>
      obtain ⟨happ, hlength⟩ := ih
      rw [List.count_cons_of_ne hfeed]
      by_cases hcut : c = '\r' ∧ init = []
      · obtain ⟨rfl, rfl⟩ := hcut
        exact ⟨rfl, rfl⟩
      · have hnot : ∀ more, ¬ (c = '\r' ∧ (init ++ '\n' :: more).head? = some '\n') := by
          rintro more ⟨hc, hhead⟩
          cases init with
          | nil => exact hcut ⟨hc, rfl⟩
          | cons d init =>
              have hd : d = '\n' := Option.some.inj hhead
              exact hreturn init hc (by rw [hd])
        have hne : lines (init ++ ['\n']) ≠ [] := by
          rw [Ne, lines_eq_nil_iff]
          exact List.append_ne_nil_of_right_ne_nil init (List.cons_ne_nil '\n' [])
        rw [List.cons_append, List.cons_append, lines_cons hfeed (hnot text),
          lines_cons hfeed (hnot []), happ, consLine_append hne, length_consLine hne]
        exact ⟨rfl, hlength⟩

/-- The lines of ended lines and a text behind them are those of both. -/
theorem lines_append_of_ended {above : List Char} (h : Ended above) (text : List Char) :
    lines (above ++ text) = lines above ++ lines text
      ∧ (lines above).length = above.count '\n' := by
  rcases h.eq_nil_or_append with rfl | ⟨init, rfl⟩
  · exact ⟨rfl, rfl⟩
  · obtain ⟨happ, hlength⟩ := lines_append_feed init text
    rw [List.append_assoc, List.singleton_append, List.count_append]
    exact ⟨happ, hlength⟩

/-- A line with its end, or at the end of the text, is the first line there. -/
theorem lines_of_lineEnd {line below : List Char} (hline : '\n' ∉ line)
    (hend : LineEnd line below) (hne : line ++ below ≠ []) :
    ∃ rest, lines (line ++ below) = line :: rest := by
  induction line with
  | nil =>
      cases hend with
      | none => exact absurd rfl hne
      | @feed more h => exact ⟨lines more, rfl⟩
      | @returnFeed more => exact ⟨lines more, rfl⟩
  | cons c line ih =>
      rw [List.mem_cons, not_or] at hline
      obtain ⟨hc, hline⟩ := hline
      have hreturn : ¬ (c = '\r' ∧ (line ++ below).head? = some '\n') := by
        rintro ⟨rfl, hhead⟩
        cases line with
        | nil =>
            -- the carriage return would end the line together with the line feed
            cases hend with
            | none => cases hhead
            | feed h => exact h rfl
            | returnFeed => cases hhead
        | cons d line =>
            have hd : d = '\n' := Option.some.inj hhead
            rw [hd] at hline
            exact hline List.mem_cons_self
      rw [List.cons_append, lines_cons (Ne.symm hc) hreturn]
      by_cases hrest : line ++ below = []
      · obtain ⟨rfl, rfl⟩ := List.append_eq_nil_iff.mp hrest
        exact ⟨[], rfl⟩
      · have hend' : LineEnd line below := by
          cases hend with
          | none => exact .none
          | returnFeed => exact .returnFeed
          | feed h =>
              refine .feed ?_
              intro hlast
              rw [List.getLast?_cons, hlast] at h
              exact h rfl
        obtain ⟨rest, hlines⟩ := ih hline hend' hrest
        exact ⟨rest, by rw [hlines]; rfl⟩

/-- The number of line feeds in front of a place finds the line it lies on; only
    at the end of a text of ended lines there is none. -/
theorem LineAt.lines_getElem? (h : LineAt front back left right) :
    (lines (front ++ back))[(Position.first.after front).line - 1]?
      = if Ended front ∧ back = [] then none else some (left ++ right) := by
  have hleft : '\n' ∉ left := fun hmem => h.unbroken (List.mem_append_left right hmem)
  have hiff := h.left_eq_nil_iff
  obtain ⟨above, rfl, habove⟩ := h.begins
  obtain ⟨below, rfl, hend⟩ := h.ends
  obtain ⟨happ, hlength⟩ := lines_append_of_ended habove (left ++ (right ++ below))
  have hindex : (Position.first.after (above ++ left)).line - 1 = (lines above).length := by
    rw [line_after, List.count_append, List.count_eq_zero_of_not_mem hleft, hlength]
    exact Nat.add_sub_cancel_left 1 (above.count '\n')
  rw [hindex, List.append_assoc, happ, List.getElem?_append_right (Nat.le_refl _), Nat.sub_self]
  split
  next hlast =>
      rw [hiff.mpr hlast.1, hlast.2]
      rfl
  next hnot =>
      have hne : left ++ right ++ below ≠ [] := by
        rw [List.append_assoc]
        intro hnil
        obtain ⟨hl, hr⟩ := List.append_eq_nil_iff.mp hnil
        exact hnot ⟨hiff.mp hl, hr⟩
      obtain ⟨rest, hlines⟩ := lines_of_lineEnd h.unbroken hend hne
      rw [← List.append_assoc, hlines]
      rfl

end Text

end BraceLang
