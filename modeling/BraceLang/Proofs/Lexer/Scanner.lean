import BraceLang.Lexer
import BraceLang.Text.Blank

/-! # Scanners — a lexer that looks characters up by their index

    On a machine the source is a row of characters with a cursor in it.  To look
    a character up or to cut a piece out can fail there, and a loop can go on for
    ever.  A `Scanner` does by such steps what the lexer does on the text that is
    left: an index outside the source and a slice that is not in it stop it, and
    so does a loop that outlasts the turns granted to it.

    Each part of it is shown to move over the characters that the reader of the
    same name takes (`Scanner.past`), and over nothing else; none of them stops
    for one of these reasons. -/

namespace BraceLang

/-- The characters of a source with a cursor, and the tokens found in front of
    it. -/
structure Scanner where
  source : List Char
  filename : Option String
  tokens : Array Token
  /-- The index at which the segment begins that is being read. -/
  start : Nat
  /-- The index of the next character. -/
  current : Nat
  /-- The place of the next character. -/
  position : Position
  /-- The place at which the segment begins that is being read. -/
  startPosition : Position

namespace Scanner

/-- Why a scan stops. -/
inductive Stop where
  /-- The source is malformed. -/
  | fault (fault : Fault)
  /-- An index that is not in the source, or a slice that is not. -/
  | outOfRange
  /-- A loop has used up its turns. -/
  | outOfTurns

/-- A part of a scan. -/
abbrev Scan := EStateM Stop Scanner

variable {s m : Scanner} {c : Char} {text rest raw lead : List Char}

/-! ## What a scan can do -/

/-- Whether the cursor is behind the last character. -/
def atEnd (s : Scanner) : Bool :=
  s.source.length ≤ s.current

/-- The character at the cursor. -/
def character : Scan Char := fun s =>
  match s.source[s.current]? with
  | some c => .ok c s
  | none => .error .outOfRange s

/-- The characters from an index up to another. -/
def slice (first last : Nat) : Scan (List Char) := fun s =>
  if first ≤ last ∧ last ≤ s.source.length then
    .ok ((s.source.drop first).take (last - first)) s
  else .error .outOfRange s

/-- The cursor one index and one column further. -/
def forward (s : Scanner) : Scanner :=
  { s with current := s.current + 1, position := ⟨s.position.line, s.position.column + 1⟩ }

/-- The next character, with the cursor moved behind it. -/
def advance : Scan Char := do
  let c ← character
  modify forward
  return c

/-- The cursor at the beginning of the next line. -/
def breakLine (s : Scanner) : Scanner :=
  { s with position := ⟨s.position.line + 1, 1⟩ }

/-- The next character, if there is one, and else a character that no token
    needs. -/
def peek : Scan Char := do
  if (← get).atEnd then return '\x00' else character

/-- Moves over one character if it is the expected one. -/
def matchChar (expected : Char) : Scan Bool := do
  if (← get).atEnd then
    return false
  else if (← character) ≠ expected then
    return false
  else
    let _ ← advance
    return true

/-- Moves over one character if it is one of two. -/
def matchEither (one other : Char) : Scan Bool := do
  if ← matchChar one then return true else matchChar other

/-- Repeats an action while a test holds, for a number of turns at most. -/
def repeatWhile (test : Scan Bool) (action : Scan Unit) : Nat → Scan Unit
  | 0 => do
      if ← test then throw .outOfTurns
  | turns + 1 => do
      if ← test then
        action
        repeatWhile test action turns

/-- Moves over the characters of a kind. -/
def skipWhile (belongs : Char → Bool) : Scan Unit := do
  let test : Scan Bool := do
    if (← get).atEnd then return false else return belongs (← peek)
  let action : Scan Unit := do
    let _ ← advance
  repeatWhile test action (← get).source.length

/-- Keeps a token that begins where the segment does. -/
def keep (kind : TokenKind) (letters : List Char) : Scan Unit :=
  modify fun s =>
    { s with
      tokens := s.tokens.push ⟨kind, String.ofList letters, ⟨s.startPosition, s.filename⟩⟩ }

/-- Keeps a token whose text is the segment. -/
def addToken (kind : TokenKind) : Scan Unit := do
  let s ← get
  keep kind (← slice s.start s.current)

/-- Stops at the cursor. -/
def refuse (cause : LexicalFault) : Scan Unit := do
  let s ← get
  throw (.fault (.lexical cause ⟨s.position, s.filename⟩))

/-! ## The segments -/

/-- Moves over the characters in front of a quote. -/
def skipQuoted : Scan Unit := do
  let test : Scan Bool := do
    return (← peek) ≠ '"' && !(← get).atEnd
  let action : Scan Unit := do
    if (← advance) = '\n' then modify breakLine
  repeatWhile test action (← get).source.length

/-- Reads a quoted text behind its first quote. -/
def scanQuoted : Scan Unit := do
  skipQuoted
  let s ← get
  if s.atEnd then
    throw (.fault (.lexical .unterminatedString ⟨s.startPosition, s.filename⟩))
  else
    let _ ← advance
    let s ← get
    keep .string (← slice (s.start + 1) (s.current - 1))

/-- Reads digits, at least one, and the numeral is complete. -/
def scanDigits (isDigit : Char → Bool) (cause : LexicalFault) : Scan Unit := do
  if !isDigit (← peek) then
    refuse cause
  else
    skipWhile isDigit
    addToken .number

/-- Reads the digits behind a radix letter. -/
def scanRadix (isDigit : Char → Bool) (cause : LexicalFault) : Scan Unit := do
  if (← get).atEnd then refuse cause else scanDigits isDigit cause

/-- Moves over a fraction. -/
def skipFraction : Scan Unit := do
  if ← matchChar '.' then skipWhile Char.isDigit

/-- Moves over a sign. -/
def skipSign : Scan Unit := do
  if !(← matchChar '+') then
    let _ ← matchChar '-'

/-- Reads an exponent, if there is one, and the numeral is complete. -/
def scanExponent : Scan Unit := do
  if ← matchEither 'e' 'E' then
    skipSign
    scanDigits Char.isDigit .invalidExponent
  else addToken .number

/-- Reads a decimal behind its first digit. -/
def scanDecimal : Scan Unit := do
  skipWhile Char.isDigit
  skipFraction
  scanExponent

/-- Reads a numeral behind its first digit. -/
def scanNumeral (first : Char) : Scan Unit := do
  if first = '0' then
    if ← matchEither 'x' 'X' then
      scanRadix Numeral.isHexDigit .invalidHexLiteral
    else if ← matchEither 'b' 'B' then
      scanRadix Numeral.isBinaryDigit .invalidBinaryLiteral
    else scanDecimal
  else scanDecimal

/-- Reads a word behind its first letter. -/
def scanWord : Scan Unit := do
  skipWhile Segment.isWordPart
  let s ← get
  let letters ← slice s.start s.current
  keep ((TokenKind.keyword? (String.ofList letters)).getD .identifier) letters

/-- Reads one segment. -/
def scanSegment : Scan Unit := do
  let c ← advance
  if c = '\n' then modify breakLine
  else if Text.isBlank c then return
  else if c = '"' then scanQuoted
  else if c.isDigit then scanNumeral c
  else if Segment.isWordStart c then scanWord
  else
    match TokenKind.sign? c with
    | some kind => addToken kind
    | none => return

/-! ## The source -/

/-- Begins a segment at the cursor. -/
def mark (s : Scanner) : Scanner :=
  { s with start := s.current, startPosition := s.position }

/-- One turn of a scan. -/
def turn : Scan Unit := do
  modify mark
  scanSegment

/-- Whether there is a character left. -/
def goesOn : Scan Bool := do
  return !(← get).atEnd

/-- Scans for a number of turns at most, as long as there are characters. -/
def scan (turns : Nat) : Scan Unit :=
  repeatWhile goesOn turn turns

/-- A scanner at the first character of a source. -/
def ofSource (source : String) (filename : Option String) : Scanner :=
  { source := source.toList, filename, tokens := #[], start := 0, current := 0,
    position := .first, startPosition := .first }

/-- The tokens of a source, closed by the end marker, in a number of turns at
    most. -/
def tokenize (turns : Nat) (source : String) (filename : Option String) :
    Except Stop (List Token) :=
  match (scan turns).run (ofSource source filename) with
  | .ok _ last => .ok (last.tokens.push (.endMarker ⟨last.position, last.filename⟩)).toList
  | .error stop _ => .error stop

/-! ## What is ahead of the cursor -/

/-- The characters from the cursor on. -/
def ahead (s : Scanner) : List Char :=
  s.source.drop s.current

/-- The scanner with some more characters behind its cursor. -/
def past (s : Scanner) (raw : List Char) : Scanner :=
  { s with current := s.current + raw.length, position := s.position.after raw }

theorem past_past (s : Scanner) (a b : List Char) : (s.past a).past b = s.past (a ++ b) := by
  simp only [past, Position.after_append, List.length_append, Nat.add_assoc]

theorem ahead_past (h : s.ahead = raw ++ rest) : (s.past raw).ahead = rest := by
  show s.source.drop (s.current + raw.length) = rest
  rw [← List.drop_drop]
  show s.ahead.drop raw.length = rest
  rw [h, List.drop_left]

theorem atEnd_iff : s.atEnd ↔ s.ahead = [] := by
  rw [atEnd, ahead, decide_eq_true_eq, List.drop_eq_nil_iff]

theorem not_atEnd (h : s.ahead = c :: rest) : s.atEnd = false := by
  rw [Bool.eq_false_iff, Ne, atEnd_iff, h]
  exact List.cons_ne_nil c rest

theorem length_ahead_le (s : Scanner) : s.ahead.length ≤ s.source.length := by
  rw [ahead, List.length_drop]
  exact Nat.sub_le _ _

theorem character_eq (h : s.ahead = c :: rest) : character.run s = .ok c s := by
  have hc : s.source[s.current]? = some c := by
    rw [← List.head?_drop, ← ahead, h, List.head?_cons]
  rw [EStateM.run, character, hc]

theorem past_char (s : Scanner) (hc : c ≠ '\n') : s.past [c] = s.forward := by
  rw [past, Position.after_cons, Position.after_nil, Position.next, if_neg hc]
  rfl

theorem past_feed (s : Scanner) : s.past ['\n'] = s.forward.breakLine := by
  rw [past, Position.after_cons, Position.after_nil, Position.next, if_pos rfl]
  rfl

theorem advance_eq (h : s.ahead = c :: rest) : advance.run s = .ok c s.forward := by
  rw [advance, EStateM.run_bind, character_eq h]
  rfl

/-- A character that may end a line is passed as such. -/
theorem advance_breakLine (h : s.ahead = c :: rest) :
    (do if (← advance) = '\n' then modify breakLine : Scan Unit).run s = .ok () (s.past [c]) := by
  rw [EStateM.run_bind, advance_eq h]
  by_cases hc : c = '\n'
  · subst hc
    rw [past_feed]
    rfl
  · rw [past_char s hc]
    simp only [if_neg hc]
    rfl

theorem peek_eq (s : Scanner) : peek.run s = .ok (s.ahead.headD '\x00') s := by
  rw [peek, EStateM.run_bind, EStateM.run_get]
  cases h : s.ahead with
  | nil =>
      simp only [atEnd_iff.mpr h, if_true]
      rfl
  | cons c rest =>
      simp only [not_atEnd h, Bool.false_eq_true, if_false]
      exact character_eq h

theorem matchChar_eq (s : Scanner) {expected : Char} (he : expected ≠ '\n') :
    (matchChar expected).run s
      = if s.ahead.head? = some expected then .ok true (s.past [expected]) else .ok false s := by
  rw [matchChar, EStateM.run_bind, EStateM.run_get]
  cases h : s.ahead with
  | nil =>
      simp only [atEnd_iff.mpr h, if_true]
      rfl
  | cons c rest =>
      simp only [not_atEnd h, Bool.false_eq_true, if_false, EStateM.run_bind, character_eq h,
        List.head?_cons, Option.some.injEq, ite_not]
      by_cases hc : c = expected
      · subst hc
        simp only [if_true, EStateM.run_bind, advance_eq h, past_char s he]
        rfl
      · simp only [if_neg hc]
        rfl

theorem matchEither_of_mem {one other : Char} (h : s.ahead = c :: rest)
    (hc : c = one ∨ c = other) (hfeed : '\n' ∉ [one, other]) :
    (matchEither one other).run s = .ok true (s.past [c]) := by
  simp only [List.mem_cons, List.not_mem_nil, or_false, not_or] at hfeed
  rw [matchEither, EStateM.run_bind, matchChar_eq s (Ne.symm hfeed.1), h, List.head?_cons]
  by_cases hone : c = one
  · subst hone
    rw [if_pos rfl]
    rfl
  · obtain rfl : c = other := hc.resolve_left hone
    rw [if_neg fun heq => hone (Option.some.inj heq)]
    show (matchChar c).run s = _
    rw [matchChar_eq s (Ne.symm hfeed.2), h, List.head?_cons, if_pos rfl]

theorem matchEither_of_not_mem {one other : Char} (htext : s.ahead = text)
    (h : ∀ c ∈ text.head?, ¬ (c = one ∨ c = other)) (hfeed : '\n' ∉ [one, other]) :
    (matchEither one other).run s = .ok false s := by
  simp only [List.mem_cons, List.not_mem_nil, or_false, not_or] at hfeed
  have hone : text.head? ≠ some one := fun heq => h one heq (.inl rfl)
  have hother : text.head? ≠ some other := fun heq => h other heq (.inr rfl)
  rw [matchEither, EStateM.run_bind, matchChar_eq s (Ne.symm hfeed.1), htext, if_neg hone]
  show (matchChar other).run s = _
  rw [matchChar_eq s (Ne.symm hfeed.2), htext, if_neg hother]

/-! ## Loops -/

/-- A loop that passes the characters of a kind one by one needs a turn for each
    character ahead at most. -/
theorem repeatWhile_eq {test : Scan Bool} {action : Scan Unit} {belongs : Char → Bool}
    (htest : ∀ s : Scanner, test.run s = .ok (s.ahead.head?.any belongs) s)
    (haction : ∀ (s : Scanner) (c : Char) (rest : List Char), s.ahead = c :: rest → belongs c →
      action.run s = .ok () (s.past [c]))
    {turns : Nat} (s : Scanner) (h : s.ahead.length ≤ turns) :
    (repeatWhile test action turns).run s = .ok () (s.past (s.ahead.takeWhile belongs)) := by
  induction turns generalizing s with
  | zero =>
      have hnil : s.ahead = [] := List.length_eq_zero_iff.mp (Nat.le_zero.mp h)
      rw [repeatWhile, EStateM.run_bind, htest, hnil]
      rfl
  | succ turns ih =>
      rw [repeatWhile, EStateM.run_bind, htest]
      cases hahead : s.ahead with
      | nil => rfl
      | cons c rest =>
          by_cases hc : belongs c
          · have hrest : (s.past [c]).ahead = rest := ahead_past hahead
            have hlength : (s.past [c]).ahead.length ≤ turns := by
              rw [hahead, List.length_cons] at h
              rw [hrest]
              omega
            simp only [List.head?_cons, Option.any_some, hc, if_true, EStateM.run_bind,
              haction s c rest hahead hc, ih (s.past [c]) hlength, hrest, past_past,
              List.takeWhile_cons_of_pos, List.singleton_append]
          · rw [List.takeWhile_cons_of_neg hc]
            simp only [List.head?_cons, Option.any_some, hc]
            rfl

theorem skipWhile_eq {belongs : Char → Bool} (hfeed : belongs '\n' = false) (s : Scanner) :
    (skipWhile belongs).run s = .ok () (s.past (s.ahead.takeWhile belongs)) := by
  rw [skipWhile, EStateM.run_bind, EStateM.run_get]
  refine repeatWhile_eq ?test ?action s s.length_ahead_le
  case test =>
    intro s
    rw [EStateM.run_bind, EStateM.run_get]
    cases h : s.ahead with
    | nil =>
        simp only [atEnd_iff.mpr h, if_true]
        rfl
    | cons c rest =>
        simp only [not_atEnd h, Bool.false_eq_true, if_false, EStateM.run_bind, peek_eq, h]
        rfl
  case action =>
    intro s c rest h hc
    have hne : c ≠ '\n' := by
      rintro rfl
      exact Bool.false_ne_true (hfeed.symm.trans hc)
    rw [EStateM.run_bind, advance_eq h, past_char s hne]
    rfl

end Scanner

end BraceLang
