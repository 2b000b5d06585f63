import BraceLang.Segment

/-! # The lexer — from a source text to its tokens

    A lexer holds a source and the state of a run over it: the tokens found,
    the characters not read yet, and two places, that of the next character
    and that of the segment read last.  One `step` reads one segment; a run
    repeats it until nothing is left.  `tokenize` starts a run from the top,
    whatever an earlier run left behind, and empties the tokens again.

    Main statements: a step reads at least one character and returns to none
    (`step_reads`), and a run that succeeds reads everything
    (`unread_of_run`). -/

namespace BraceLang

/-- A source and the state of a run over it. -/
structure Lexer where
  /-- The text to cut into tokens. -/
  source : String
  /-- The name that locations carry. -/
  filename : Option String
  /-- The tokens of the run, in order. -/
  tokens : Array Token
  /-- The characters that the run has not read. -/
  unread : List Char
  /-- The place of the next character. -/
  position : Position
  /-- The place where the segment read last begins. -/
  start : Position

namespace Lexer

/-- A lexer before its first run. -/
def ofSource (source : String) (filename : Option String) : Lexer :=
  { source, filename, tokens := #[], unread := source.toList,
    position := .first, start := .first }

/-- A place of this lexer's source. -/
def locate (l : Lexer) (position : Position) : Location :=
  ⟨position, l.filename⟩

/-- The lexer at the top of its source, with no tokens. -/
def rewind (l : Lexer) : Lexer :=
  { l with tokens := #[], unread := l.source.toList, position := .first }

/-- The lexer at the beginning of its next segment. -/
def mark (l : Lexer) : Lexer :=
  { l with start := l.position }

/-- Where a malformed text is reported: an unclosed quote at the quote, a
    broken numeral behind what was read of it. -/
def faultPosition (start : Position) (m : Malformed) : Position :=
  match m.cause with
  | .unterminatedString => start
  | _ => start.after m.read

/-- The lexer after the segment at its mark: its token kept, if it has one, and
    its characters counted. -/
def accept (l : Lexer) (segment : Segment) (rest : List Char) : Lexer :=
  { l with
    tokens := l.tokens ++ (segment.token? (l.locate l.start)).toList
    unread := rest
    position := l.position.after segment.raw }

/-- The lexer after a malformed text, behind what was read of it. -/
def halt (l : Lexer) (m : Malformed) : Lexer :=
  { l with
    unread := l.unread.drop m.read.length
    position := l.position.after m.read }

/-- The fault of the malformed text at the mark. -/
def fault (l : Lexer) (m : Malformed) : Fault :=
  .lexical m.cause (l.locate (faultPosition l.start m))

/-- Marks the beginning of a segment and reads it. -/
def step (l : Lexer) : EStateM.Result Fault Lexer Unit :=
  match l.unread with
  | [] => .ok () l
  | c :: text =>
      match Segment.read c text with
      | .ok (segment, rest) => .ok () (l.mark.accept segment rest)
      | .error m => .error (l.mark.fault m) (l.mark.halt m)

theorem step_of_read {l : Lexer} {c : Char} {text rest : List Char} {segment : Segment}
    (hu : l.unread = c :: text) (hr : Segment.read c text = .ok (segment, rest)) :
    l.step = .ok () (l.mark.accept segment rest) := by
  simp only [step, hu, hr]

theorem step_of_malformed {l : Lexer} {c : Char} {text : List Char} {m : Malformed}
    (hu : l.unread = c :: text) (hr : Segment.read c text = .error m) :
    l.step = .error (l.mark.fault m) (l.mark.halt m) := by
  simp only [step, hu, hr]

/-- The lexer that a step leaves, whether it found a segment or failed. -/
def stepped (l : Lexer) : Lexer :=
  match l.step with
  | .ok _ next => next
  | .error _ next => next

/-- A step moves some characters, at least one, from the unread ones into the
    past, and counts them. -/
theorem step_reads {l : Lexer} (h : l.unread ≠ []) :
    ∃ raw, raw ≠ [] ∧ raw ++ l.stepped.unread = l.unread
      ∧ l.stepped.position = l.position.after raw := by
  cases hu : l.unread with
  | nil => exact absurd hu h
  | cons c text =>
      rw [stepped]
      cases hr : Segment.read c text with
      | ok answer =>
          obtain ⟨segment, rest⟩ := answer
          rw [step_of_read hu hr]
          exact ⟨segment.raw, Segment.raw_ne_nil_of_read hr,
            Segment.raw_append_of_read hr, rfl⟩
      | error m =>
          rw [step_of_malformed hu hr]
          obtain ⟨hne, rest, happ⟩ := Segment.read_append_of_malformed hr
          refine ⟨m.read, hne, ?_, rfl⟩
          show m.read ++ l.unread.drop m.read.length = c :: text
          rw [hu, ← happ, List.drop_left]

/-- A step leaves fewer characters unread. -/
theorem length_unread_step {l next : Lexer} (h : l.unread ≠ [])
    (hs : l.step = .ok () next) : next.unread.length < l.unread.length := by
  obtain ⟨raw, hne, happ, -⟩ := step_reads h
  have hnext : l.stepped = next := by
    rw [stepped, hs]
  rw [hnext] at happ
  rw [← happ, List.length_append]
  have hpos := List.length_pos_iff.mpr hne
  omega

/-- Steps until nothing is unread or a segment is malformed. -/
def run (l : Lexer) : EStateM.Result Fault Lexer Unit :=
  if _h : l.unread = [] then .ok () l
  else
    match _hs : l.step with
    | .ok () next => run next
    | .error fault last => .error fault last
termination_by l.unread.length
decreasing_by exact length_unread_step _h _hs

theorem run_of_nil {l : Lexer} (h : l.unread = []) : l.run = .ok () l := by
  rw [run, dif_pos h]

theorem run_of_step_ok {l next : Lexer} (h : l.unread ≠ []) (hs : l.step = .ok () next) :
    l.run = next.run := by
  rw [run, dif_neg h]
  split
  next following hs' =>
      rw [hs] at hs'
      cases hs'
      rfl
  next fault last hs' =>
      rw [hs] at hs'
      cases hs'

theorem run_of_step_error {l last : Lexer} {fault : Fault} (h : l.unread ≠ [])
    (hs : l.step = .error fault last) : l.run = .error fault last := by
  rw [run, dif_neg h]
  split
  next following hs' =>
      rw [hs] at hs'
      cases hs'
  next fault' last' hs' =>
      rw [hs] at hs'
      cases hs'
      rfl

/-- A run that succeeds leaves nothing unread. -/
theorem unread_of_run {l last : Lexer} (h : l.run = .ok () last) : last.unread = [] := by
  fun_induction run l with
  | case1 l hl =>
      cases h
      exact hl
  | case2 l hl next hs ih => exact ih h
  | case3 l hl fault rest hs => cases h

/-- The tokens of the source, closed by the end marker, or the first fault; and
    the lexer afterwards, with its tokens handed out or dropped. -/
def tokenize (l : Lexer) : Except Fault (List Token) × Lexer :=
  match l.rewind.run with
  | .ok () last =>
      (.ok (last.tokens.push (.endMarker (last.locate last.position))).toList,
        { last with tokens := #[] })
  | .error fault last => (.error fault, { last with tokens := #[] })

/-- The answers of a number of runs, one after the other on the same lexer. -/
def tokenizeTimes (l : Lexer) : Nat → List (Except Fault (List Token))
  | 0 => []
  | n + 1 => l.tokenize.1 :: l.tokenize.2.tokenizeTimes n

end Lexer

/-- The tokens of a source, closed by the end marker, or its first fault. -/
def tokenize (source : String) (filename : Option String) : Except Fault (List Token) :=
  (Lexer.ofSource source filename).tokenize.1

end BraceLang
