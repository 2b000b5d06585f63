import BraceLang.Numeral

/-! # Segments — the pieces a source text is cut into

    Reading from left to right, each piece of a source is a word, a numeral, a
    quoted text, a one-character sign, or a character that is dropped: a blank,
    or one that belongs to no token.  `Segment.read` finds the first piece of a
    text that is not empty.

    Main statements: the pieces make up the text (`raw_append_of_read`), none
    is empty (`raw_ne_nil_of_read`), and a failure shows after at least one
    character (`read_append_of_malformed`). -/

namespace BraceLang

/-- A piece of a source text. -/
inductive Segment where
  /-- A character without a token. -/
  | dropped (c : Char)
  /-- A keyword or an identifier. -/
  | word (letters : List Char)
  /-- A number literal. -/
  | numeral (digits : List Char)
  /-- The text between two quotes. -/
  | quoted (text : List Char)
  /-- A character that is a token by itself. -/
  | sign (kind : TokenKind) (c : Char)
  deriving DecidableEq

namespace Segment

/-- The characters that begin a word. -/
def isWordStart (c : Char) : Bool :=
  c.isAlpha || c = '_'

/-- The characters that continue a word. -/
def isWordPart (c : Char) : Bool :=
  c.isAlphanum || c = '_'

/-- The characters that a quoted text can hold: all but the quote. -/
def isQuotedPart (c : Char) : Bool :=
  c != '"'

/-- The characters of the source that the piece covers. -/
def raw : Segment → List Char
  | dropped c => [c]
  | word letters => letters
  | numeral digits => digits
  | quoted text => '"' :: (text ++ ['"'])
  | sign _ c => [c]

/-- The token of the piece, if it has one, for a piece that begins at a given
    location. -/
def token? (s : Segment) (location : Location) : Option Token :=
  match s with
  | dropped _ => none
  | word letters =>
      let text := String.ofList letters
      some ⟨(TokenKind.keyword? text).getD .identifier, text, location⟩
  | numeral digits => some ⟨.number, String.ofList digits, location⟩
  | quoted text => some ⟨.string, String.ofList text, location⟩
  | sign kind c => some ⟨kind, c.toString, location⟩

/-- The first piece of the text that begins with `c` and goes on with `text`,
    and what follows the piece.  A quoted text ends at the next quote, and
    has no escapes. -/
def read (c : Char) (text : List Char) : Except Malformed (Segment × List Char) :=
  if c = '"' then
    match text.dropWhile isQuotedPart with
    | [] => .error ⟨.unterminatedString, c :: text⟩
    | _ :: rest => .ok (quoted (text.takeWhile isQuotedPart), rest)
  else if c.isDigit then
    match Numeral.read (c :: text) with
    | .error m => .error m
    | .ok (digits, rest) => .ok (numeral digits, rest)
  else if isWordStart c then
    .ok (word (c :: text.takeWhile isWordPart), text.dropWhile isWordPart)
  else
    match TokenKind.sign? c with
    | some kind => .ok (sign kind c, text)
    | none => .ok (dropped c, text)

-- ── Every piece covers its part of the text ──────────────────────────────

/-- A text that has a quote goes on with it behind its quote-free beginning. -/
theorem quote_split {text rest : List Char} {d : Char}
    (h : text.dropWhile isQuotedPart = d :: rest) :
    text.takeWhile isQuotedPart ++ '"' :: rest = text := by
  induction text with
  | nil => cases h
  | cons c text ih =>
      by_cases hc : isQuotedPart c
      · rw [List.dropWhile_cons_of_pos hc] at h
        rw [List.takeWhile_cons_of_pos hc, List.cons_append, ih h]
      · rw [List.dropWhile_cons_of_neg hc] at h
        rw [List.takeWhile_cons_of_neg hc, List.nil_append]
        have hquote : c = '"' := by simpa [isQuotedPart] using hc
        rw [← (List.cons.inj h).2, hquote]

/-- A piece covers the first character of its text and goes on inside the rest
    of the text; so does what was read when no piece was found. -/
theorem read_extends (c : Char) (text : List Char) :
    match read c text with
    | .ok (s, rest) => ∃ more, s.raw = c :: more ∧ more ++ rest = text
    | .error m => ∃ more rest, m.read = c :: more ∧ more ++ rest = text := by
  rw [read]
  by_cases hquote : c = '"'
  · rw [if_pos hquote]
    cases hd : text.dropWhile isQuotedPart with
    | nil => exact ⟨text, [], rfl, List.append_nil text⟩
    | cons d rest =>
        refine ⟨text.takeWhile isQuotedPart ++ ['"'], ?_, ?_⟩
        · rw [hquote]; rfl
        · rw [List.append_assoc, List.singleton_append]
          exact quote_split hd
  · rw [if_neg hquote]
    by_cases hdigit : c.isDigit
    · rw [if_pos hdigit]
      have h := Numeral.read_extends hdigit text
      cases hn : Numeral.read (c :: text) with
      | error m => rw [hn] at h; exact h
      | ok answer => rw [hn] at h; exact h
    · rw [if_neg hdigit]
      by_cases hword : isWordStart c
      · rw [if_pos hword]
        exact ⟨text.takeWhile isWordPart, rfl, List.takeWhile_append_dropWhile⟩
      · rw [if_neg hword]
        cases hsign : TokenKind.sign? c with
        | some kind => exact ⟨[], rfl, rfl⟩
        | none => exact ⟨[], rfl, rfl⟩

/-- The piece and what follows it make up the text. -/
theorem raw_append_of_read {c : Char} {text rest : List Char} {s : Segment}
    (h : read c text = .ok (s, rest)) : s.raw ++ rest = c :: text := by
  have hx := read_extends c text
  rw [h] at hx
  obtain ⟨more, hraw, htext⟩ := hx
  rw [hraw, List.cons_append, htext]

/-- No piece is empty. -/
theorem raw_ne_nil_of_read {c : Char} {text rest : List Char} {s : Segment}
    (h : read c text = .ok (s, rest)) : s.raw ≠ [] := by
  have hx := read_extends c text
  rw [h] at hx
  obtain ⟨more, hraw, -⟩ := hx
  rw [hraw]
  exact List.cons_ne_nil c more

/-- What was read of a malformed text is a beginning of it that is not empty. -/
theorem read_append_of_malformed {c : Char} {text : List Char} {m : Malformed}
    (h : read c text = .error m) : m.read ≠ [] ∧ ∃ rest, m.read ++ rest = c :: text := by
  have hx := read_extends c text
  rw [h] at hx
  obtain ⟨more, rest, hread, htext⟩ := hx
  rw [hread]
  exact ⟨List.cons_ne_nil c more, rest, by rw [List.cons_append, htext]⟩

end Segment

end BraceLang
