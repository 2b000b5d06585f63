/-! # Lines — how a text falls into lines

    A line ends at a line feed, or at a carriage return and the line feed
    right behind it.  A text that ends with a line end has no empty line
    behind it; a carriage return anywhere else belongs to its line. -/

namespace BraceLang

namespace Text

variable {α : Type}

/-- The lines with one more item in front of the first. -/
def consLine (a : α) : List (List α) → List (List α)
  | [] => [[a]]
  | line :: rest => (a :: line) :: rest

/-- The lines of a text, without their ends. -/
def lines : List Char → List (List Char)
  | [] => []
  | '\n' :: text => [] :: lines text
  | '\r' :: '\n' :: text => [] :: lines text
  | c :: text => consLine c (lines text)

theorem consLine_ne_nil (a : α) (ls : List (List α)) : consLine a ls ≠ [] := by
  cases ls with
  | nil => exact List.cons_ne_nil [a] []
  | cons line rest => exact List.cons_ne_nil (a :: line) rest

/-- A text has a line unless it is empty. -/
theorem lines_eq_nil_iff {text : List Char} : lines text = [] ↔ text = [] := by
  fun_cases lines text with
  | case1 => exact iff_of_true rfl rfl
  | case2 text => exact iff_of_false (List.cons_ne_nil _ _) (List.cons_ne_nil _ _)
  | case3 text => exact iff_of_false (List.cons_ne_nil _ _) (List.cons_ne_nil _ _)
  | case4 c text => exact iff_of_false (consLine_ne_nil c (lines text)) (List.cons_ne_nil _ _)

/-- The first line with one more item is a line of before with the item in
    front, or the item alone. -/
theorem getElem?_consLine {a : α} {ls : List (List α)} {i : Nat} {line : List α}
    (h : (consLine a ls)[i]? = some line) :
    (i = 0 ∧ (line = [a] ∨ ∃ old, ls[0]? = some old ∧ line = a :: old))
      ∨ ls[i]? = some line := by
  cases ls with
  | nil =>
      cases i with
      | zero => exact .inl ⟨rfl, .inl (Option.some.inj h).symm⟩
      | succ i => exact nomatch h
  | cons first ls =>
      cases i with
      | zero => exact .inl ⟨rfl, .inr ⟨first, rfl, (Option.some.inj h).symm⟩⟩
      | succ i => exact .inr h

/-- A text has room for a line behind `i` of its characters, and the characters
    of the line are characters of the text, and no line feeds. -/
structure Holds (text line : List Char) (i : Nat) : Prop where
  room : i + line.length ≤ text.length
  chars : ∀ c ∈ line, c ∈ text ∧ c ≠ '\n'

theorem Holds.nil (text : List Char) : Holds text [] 0 :=
  ⟨Nat.zero_le _, List.forall_mem_nil _⟩

theorem Holds.behind {text line : List Char} {i : Nat} (h : Holds text line i) (c : Char) :
    Holds (c :: text) line (i + 1) where
  room := by
    have hroom := h.room
    rw [List.length_cons]
    omega
  chars := fun d hd => ⟨List.mem_cons_of_mem c (h.chars d hd).1, (h.chars d hd).2⟩

theorem Holds.of_succ {text line : List Char} {i : Nat} (h : Holds text line (i + 1)) :
    Holds text line i :=
  ⟨Nat.le_trans (Nat.add_le_add_right (Nat.le_succ i) _) h.room, h.chars⟩

theorem Holds.cons {text line : List Char} (h : Holds text line 0) {c : Char} (hc : c ≠ '\n') :
    Holds (c :: text) (c :: line) 0 where
  room := by
    have hroom := h.room
    rw [List.length_cons, List.length_cons]
    omega
  chars := List.forall_mem_cons.mpr ⟨⟨List.mem_cons_self, hc⟩, (h.behind c).chars⟩

/-- A line has room behind as many characters as there are lines in front. -/
theorem holds_of_getElem?_lines {text : List Char} {i : Nat} {line : List Char}
    (h : (lines text)[i]? = some line) : Holds text line i := by
  fun_induction lines text generalizing i line with
  | case1 => exact nomatch h
  | case2 text ih =>
      cases i with
      | zero =>
          cases h
          exact .nil _
      | succ i => exact (ih h).behind '\n'
  | case3 text ih =>
      cases i with
      | zero =>
          cases h
          exact .nil _
      | succ i => exact ((ih h).behind '\n').of_succ.behind '\r'
  | case4 c text hfeed _ ih =>
      rcases getElem?_consLine h with ⟨rfl, rfl | ⟨old, hold, rfl⟩⟩ | hbehind
      · exact (Holds.nil text).cons hfeed
      · exact (ih hold).cons hfeed
      · exact ((ih hbehind).behind c).of_succ

/-- The lines of a row of bytes that each line feed ends, without the line
    feeds. -/
def byteLines : List UInt8 → List (List UInt8)
  | [] => []
  | b :: bytes => if b = 10 then [] :: byteLines bytes else consLine b (byteLines bytes)

end Text

end BraceLang
