import BraceLang.Fault

/-! # Numerals — the number literals of a source text

    A numeral is hexadecimal (`0x` and digits), binary (`0b` and digits) or
    decimal: digits, then an optional fraction, then an optional exponent.
    Each reader takes the longest text that can belong to its part and returns
    it with what is left.  Where a digit is missing the reader fails, and says
    how much it had read by then.

    Main statement: a numeral takes its first digit and loses nothing of the
    text behind it, whether it is read or breaks off (`read_extends`). -/

namespace BraceLang

/-- A text that is no segment: the cause, and the characters read before it
    showed. -/
structure Malformed where
  cause : LexicalFault
  read : List Char
  deriving DecidableEq

namespace Numeral

/-- The digits of a binary literal. -/
def isBinaryDigit (c : Char) : Bool :=
  c = '0' || c = '1'

/-- The digits of a hexadecimal literal, in either case. -/
def isHexDigit (c : Char) : Bool :=
  c.isDigit || ('a' ≤ c && c ≤ 'f') || ('A' ≤ c && c ≤ 'F')

/-- One or more digits behind what was read already. -/
def digits (isDigit : Char → Bool) (cause : LexicalFault) (lead text : List Char) :
    Except Malformed (List Char × List Char) :=
  if text.takeWhile isDigit = [] then .error ⟨cause, lead⟩
  else .ok (lead ++ text.takeWhile isDigit, text.dropWhile isDigit)

/-- The fraction of a decimal, empty unless the text begins with a point.
    No digit is needed behind the point. -/
def fraction : List Char → List Char × List Char
  | '.' :: text => ('.' :: text.takeWhile Char.isDigit, text.dropWhile Char.isDigit)
  | text => ([], text)

/-- The sign of an exponent, empty unless the text begins with one. -/
def sign : List Char → List Char × List Char
  | '+' :: text => (['+'], text)
  | '-' :: text => (['-'], text)
  | text => ([], text)

/-- The exponent of a decimal behind what was read already. -/
def exponent (lead : List Char) : List Char → Except Malformed (List Char × List Char)
  | [] => .ok (lead, [])
  | c :: text =>
      if c = 'e' ∨ c = 'E' then
        digits Char.isDigit .invalidExponent (lead ++ c :: (sign text).1) (sign text).2
      else .ok (lead, c :: text)

/-- A decimal. -/
def decimal (text : List Char) : Except Malformed (List Char × List Char) :=
  let whole := text.takeWhile Char.isDigit
  let part := fraction (text.dropWhile Char.isDigit)
  exponent (whole ++ part.1) part.2

/-- A numeral of any form; a zero and a radix letter decide for the radix. -/
def read : List Char → Except Malformed (List Char × List Char)
  | '0' :: 'x' :: text => digits isHexDigit .invalidHexLiteral ['0', 'x'] text
  | '0' :: 'X' :: text => digits isHexDigit .invalidHexLiteral ['0', 'X'] text
  | '0' :: 'b' :: text => digits isBinaryDigit .invalidBinaryLiteral ['0', 'b'] text
  | '0' :: 'B' :: text => digits isBinaryDigit .invalidBinaryLiteral ['0', 'B'] text
  | text => decimal text

-- ── Nothing is lost ──────────────────────────────────────────────────────

/-- A reader that started behind `lead` went on inside `text`: what it took, or
    what it had read when it failed, is `lead` and a beginning of `text`, and
    what it left is the remainder of `text`. -/
def Extends (lead text : List Char) : Except Malformed (List Char × List Char) → Prop
  | .ok (taken, rest) => ∃ more, taken = lead ++ more ∧ more ++ rest = text
  | .error m => ∃ more rest, m.read = lead ++ more ∧ more ++ rest = text

/-- A part that was read on the way counts as read from the text. -/
theorem Extends.weaken {lead part text : List Char}
    {answer : Except Malformed (List Char × List Char)}
    (h : Extends (lead ++ part) text answer) : Extends lead (part ++ text) answer := by
  match answer, h with
  | .ok (taken, rest), ⟨more, htaken, htext⟩ =>
      refine ⟨part ++ more, ?_, ?_⟩
      · rw [htaken, List.append_assoc]
      · rw [← htext, List.append_assoc]
  | .error m, ⟨more, rest, hread, htext⟩ =>
      refine ⟨part ++ more, rest, ?_, ?_⟩
      · rw [hread, List.append_assoc]
      · rw [← htext, List.append_assoc]

theorem digits_extends (isDigit : Char → Bool) (cause : LexicalFault)
    (lead text : List Char) :
    Extends lead text (digits isDigit cause lead text) := by
  rw [digits]
  split
  next => exact ⟨[], text, (List.append_nil lead).symm, rfl⟩
  next => exact ⟨text.takeWhile isDigit, rfl, List.takeWhile_append_dropWhile⟩

theorem fraction_append (text : List Char) :
    (fraction text).1 ++ (fraction text).2 = text := by
  rw [fraction.eq_def]
  split
  next text =>
      show '.' :: (text.takeWhile Char.isDigit ++ text.dropWhile Char.isDigit) = '.' :: text
      rw [List.takeWhile_append_dropWhile]
  next => rfl

theorem sign_append (text : List Char) : (sign text).1 ++ (sign text).2 = text := by
  rw [sign.eq_def]
  split <;> rfl

theorem exponent_extends (lead text : List Char) :
    Extends lead text (exponent lead text) := by
  cases text with
  | nil => exact ⟨[], (List.append_nil lead).symm, rfl⟩
  | cons c text =>
      rw [exponent]
      split
      next =>
          have h := (digits_extends Char.isDigit .invalidExponent
            (lead ++ c :: (sign text).1) (sign text).2).weaken
          rw [List.cons_append, sign_append] at h
          exact h
      next => exact ⟨[], (List.append_nil lead).symm, rfl⟩

theorem decimal_extends {c : Char} (hc : c.isDigit) (text : List Char) :
    Extends [c] text (decimal (c :: text)) := by
  have h := exponent_extends
    ([c] ++ (text.takeWhile Char.isDigit ++ (fraction (text.dropWhile Char.isDigit)).1))
    (fraction (text.dropWhile Char.isDigit)).2
  have hw := h.weaken
  rw [List.append_assoc, fraction_append, List.takeWhile_append_dropWhile] at hw
  rw [decimal, List.takeWhile_cons_of_pos hc, List.dropWhile_cons_of_pos hc]
  exact hw

/-- A numeral takes its first digit and goes on inside the text behind it. -/
theorem read_extends {c : Char} (hc : c.isDigit) (text : List Char) :
    Extends [c] text (read (c :: text)) := by
  rw [read.eq_def]
  split
  next heq => cases heq; exact (digits_extends _ _ (['0'] ++ ['x']) _).weaken
  next heq => cases heq; exact (digits_extends _ _ (['0'] ++ ['X']) _).weaken
  next heq => cases heq; exact (digits_extends _ _ (['0'] ++ ['b']) _).weaken
  next heq => cases heq; exact (digits_extends _ _ (['0'] ++ ['B']) _).weaken
  next => exact decimal_extends hc text

end Numeral

end BraceLang
