import BraceLang.Proofs.Lexer.Boundary

/-! # Concatenation — the tokens of a text behind another text

    Where the boundary between two sources cuts no segment, the tokens of the
    two together are those of the first and then those of the second, each
    moved to where it now stands; so is the fault of the second.  A source that
    breaks off at a numeral breaks off there whatever follows it
    (`tokenize_append`).  A place moves by the place at which the first source
    ends (`Position.behind`). -/

namespace BraceLang

/-- Where a place of a text lies when the text does not begin at the first
    place but at `origin`: further down, and on the first line further to the
    right. -/
def Position.behind (origin p : Position) : Position :=
  if p.line = 1 then ⟨origin.line + p.line - 1, origin.column + p.column - 1⟩
  else ⟨origin.line + p.line - 1, p.column⟩

/-- The location of a place in a text that begins at `origin`. -/
def Location.behind (origin : Position) (l : Location) : Location :=
  { l with position := origin.behind l.position }

/-- The token of a text that begins at `origin`. -/
def Token.behind (origin : Position) (t : Token) : Token :=
  { t with location := t.location.behind origin }

/-- The fault of a text that begins at `origin`. -/
def Fault.behind (origin : Position) : Fault → Fault
  | .lexical cause location => .lexical cause (location.behind origin)
  | .syntactic cause location => .syntactic cause (location.behind origin)
  | .configuration message => .configuration message

/-- The answer for a text that begins at `origin`, behind tokens that were found
    before. -/
def continued (front : List Token) (origin : Position) :
    Except Fault (List Token) → Except Fault (List Token)
  | .ok tokens => .ok (front ++ tokens.map (Token.behind origin))
  | .error fault => .error (fault.behind origin)

/-! ## Places -/

namespace Position

theorem behind_first (origin : Position) : origin.behind first = origin := by
  simp [behind, first]

theorem first_pos : first.line ≠ 0 ∧ first.column ≠ 0 :=
  ⟨Nat.one_ne_zero, Nat.one_ne_zero⟩

theorem next_pos {p : Position} (hp : p.line ≠ 0 ∧ p.column ≠ 0) (c : Char) :
    (p.next c).line ≠ 0 ∧ (p.next c).column ≠ 0 := by
  rw [next]
  split
  next => exact ⟨Nat.succ_ne_zero _, Nat.one_ne_zero⟩
  next => exact ⟨hp.1, Nat.succ_ne_zero _⟩

theorem after_pos {p : Position} (hp : p.line ≠ 0 ∧ p.column ≠ 0) (text : List Char) :
    (p.after text).line ≠ 0 ∧ (p.after text).column ≠ 0 := by
  induction text generalizing p with
  | nil => exact hp
  | cons c text ih => exact ih (next_pos hp c)

theorem behind_next {p : Position} (hp : p.line ≠ 0 ∧ p.column ≠ 0) (origin : Position)
    (c : Char) : origin.behind (p.next c) = (origin.behind p).next c := by
  obtain ⟨hline, hcolumn⟩ := hp
  by_cases hc : c = '\n'
  · -- the next line is not the first one, so its columns do not move
    have hsecond : p.line + 1 ≠ 1 := by omega
    rw [next, if_pos hc, behind, if_neg hsecond, next, if_pos hc, behind]
    split
    next => simp only [mk.injEq, and_true]; omega
    next => simp only [mk.injEq, and_true]; omega
  · rw [next, if_neg hc, next, if_neg hc, behind, behind]
    split
    next => simp only [mk.injEq, true_and]; omega
    next => rfl

theorem behind_after {p : Position} (hp : p.line ≠ 0 ∧ p.column ≠ 0) (origin : Position)
    (text : List Char) : origin.behind (p.after text) = (origin.behind p).after text := by
  induction text generalizing p with
  | nil => rfl
  | cons c text ih => rw [after_cons, after_cons, ih (next_pos hp c), behind_next hp]

end Position

/-! ## Segments in place -/

namespace Segment

/-- The tokens of some segments that follow each other from a position on. -/
def tokensAt (filename : Option String) (p : Position) : List Segment → List Token
  | [] => []
  | s :: segments =>
      (s.token? ⟨p, filename⟩).toList ++ tokensAt filename (p.after s.raw) segments

theorem positionAfter_cons (p : Position) (s : Segment) (segments : List Segment) :
    positionAfter p (s :: segments) = positionAfter (p.after s.raw) segments := by
  rw [positionAfter, List.flatMap_cons, Position.after_append]
  rfl

theorem positionAfter_append (p : Position) (front back : List Segment) :
    positionAfter p (front ++ back) = positionAfter (positionAfter p front) back := by
  rw [positionAfter, List.flatMap_append, Position.after_append]
  rfl

theorem place_append (filename : Option String) (p : Position) (front back : List Segment) :
    place filename p (front ++ back)
      = tokensAt filename p front ++ place filename (positionAfter p front) back := by
  induction front generalizing p with
  | nil => rfl
  | cons s front ih =>
      rw [List.cons_append, place, ih, tokensAt, positionAfter_cons, List.append_assoc]

theorem positionAfter_behind (origin : Position) (segments : List Segment) :
    positionAfter origin segments = origin.behind (positionAfter .first segments) := by
  rw [positionAfter, positionAfter, Position.behind_after Position.first_pos,
    Position.behind_first]

theorem token?_behind (s : Segment) (origin : Position) (l : Location) :
    s.token? (l.behind origin) = (s.token? l).map (Token.behind origin) := by
  cases s <;> rfl

/-- Segments placed behind `origin` give the tokens that they give by
    themselves, moved behind `origin`. -/
theorem place_behind (filename : Option String) (origin : Position) {p : Position}
    (hp : p.line ≠ 0 ∧ p.column ≠ 0) (segments : List Segment) :
    place filename (origin.behind p) segments
      = (place filename p segments).map (Token.behind origin) := by
  induction segments generalizing p with
  | nil => rfl
  | cons s segments ih =>
      have hhead : s.token? ⟨origin.behind p, filename⟩
          = (s.token? ⟨p, filename⟩).map (Token.behind origin) :=
        s.token?_behind origin ⟨p, filename⟩
      rw [place, place, List.map_append, hhead, Option.toList_map, ← Position.behind_after hp,
        ih (Position.after_pos hp s.raw)]

end Segment

theorem Lexer.faultPosition_behind (origin : Position) {p : Position}
    (hp : p.line ≠ 0 ∧ p.column ≠ 0) (m : Malformed) :
    faultPosition (origin.behind p) m = origin.behind (faultPosition p m) := by
  have hafter := Position.behind_after hp origin m.read
  obtain ⟨cause, read⟩ := m
  cases cause with
  | unterminatedString => rfl
  | _ => exact hafter.symm

open Segment

/-- Behind the segments of a source and a boundary, another source is tokenized
    as it is by itself, with its places counted from the end of the first. -/
theorem tokenize_append_of_readAll {p q : String} {segments : List Segment}
    (filename : Option String) (h : readAll p.toList = (segments, none))
    (hseparate : Separate p.toList q.toList) :
    tokenize (p ++ q) filename
      = continued (tokensAt filename .first segments) (positionAfter .first segments)
        (tokenize q filename) := by
  have happend := readAll_append h hseparate
  rw [← String.toList_append] at happend
  cases hq : readAll q.toList with
  | mk more halted =>
  rw [hq] at happend
  cases halted with
  | none =>
      have hmoved := place_behind filename (positionAfter .first segments) Position.first_pos more
      rw [Position.behind_first] at hmoved
      rw [tokenize_of_readAll filename happend, tokenize_of_readAll filename hq, place_append,
        hmoved]
      rfl
  | some m =>
      have hmore : (positionAfter .first more).line ≠ 0 ∧ (positionAfter .first more).column ≠ 0 :=
        Position.after_pos Position.first_pos _
      rw [tokenize_of_readAll_malformed filename happend,
        tokenize_of_readAll_malformed filename hq, positionAfter_append, positionAfter_behind,
        Lexer.faultPosition_behind _ hmore]
      rfl

/-- **Concatenation.**  Behind a source that is tokenized, and a boundary that
    cuts no segment, another source is tokenized as it is by itself, with its
    places counted from the end of the first.  A source that breaks off at a
    numeral is not mended by what follows. -/
theorem tokenize_append (p q : String) (filename : Option String) :
    (∀ tokens, tokenize p filename = .ok tokens → Separate p.toList q.toList →
      ∃ front marker, tokens = front ++ [marker] ∧ marker.kind = .endOfInput
        ∧ tokenize (p ++ q) filename
          = continued front marker.location.position (tokenize q filename))
    ∧ ∀ fault, tokenize p filename = .error fault →
      (∀ location, fault ≠ .lexical .unterminatedString location) → Closing q.toList →
        tokenize (p ++ q) filename = .error fault := by
  constructor
  · intro tokens htokens hseparate
    obtain ⟨segments, hall, rfl⟩ := tokenize_eq_ok_iff.mp htokens
    have hmarker := place_append filename .first segments []
    rw [List.append_nil] at hmarker
    exact ⟨_, _, hmarker, rfl, tokenize_append_of_readAll filename hall hseparate⟩
  · intro fault hfault hcause hq
    cases hall : readAll p.toList with
    | mk segments halted =>
    cases halted with
    | none =>
        rw [tokenize_of_readAll filename hall] at hfault
        cases hfault
    | some m =>
        rw [tokenize_of_readAll_malformed filename hall] at hfault
        cases hfault
        have hm : m.cause ≠ .unterminatedString := fun heq => hcause _ (by rw [heq])
        have happend := readAll_append_of_malformed hall hm hq
        rw [← String.toList_append] at happend
        exact tokenize_of_readAll_malformed filename happend

/-- A word behind a string of two lines, and a sign behind a broken exponent. -/
theorem tokenize_append_two_lines :
    let tokens : List Token := [⟨.string, "\n", ⟨⟨1, 1⟩, none⟩⟩, .endMarker ⟨⟨2, 2⟩, none⟩]
    (tokenize "\"\n\"" none = .ok tokens ∧ Separate "\"\n\"".toList "x".toList
      ∧ ∃ front marker, tokens = front ++ [marker] ∧ marker.kind = .endOfInput
        ∧ tokenize ("\"\n\"" ++ "x") none
          = continued front marker.location.position (tokenize "x" none))
    ∧ tokenize "1e" none = .error (.lexical .invalidExponent ⟨⟨1, 3⟩, none⟩)
    ∧ Closing ")".toList
    ∧ tokenize ("1e" ++ ")") none = .error (.lexical .invalidExponent ⟨⟨1, 3⟩, none⟩) := by
  intro tokens
  have htokens : tokenize "\"\n\"" none = .ok tokens := by
    have hread : Segment.read '"' ['\n', '"'] = .ok (.quoted ['\n'], []) := rfl
    have hall : readAll "\"\n\"".toList = ([.quoted ['\n']], none) := by
      rw [show "\"\n\"".toList = ['"', '\n', '"'] by decide, readAll_of_ok hread, readAll_nil]
    exact tokenize_of_readAll none hall
  have hfault : tokenize "1e" none = .error (.lexical .invalidExponent ⟨⟨1, 3⟩, none⟩) := by
    have hread : Segment.read '1' ['e'] = .error ⟨.invalidExponent, ['1', 'e']⟩ := rfl
    have hall : readAll "1e".toList = ([], some ⟨.invalidExponent, ['1', 'e']⟩) := by
      rw [show "1e".toList = ['1', 'e'] by decide, readAll_of_error hread]
    exact tokenize_of_readAll_malformed none hall
  have hseparate : Separate "\"\n\"".toList "x".toList := by
    refine .inl ?_
    rintro c ⟨⟩
    decide
  have hclosing : Closing ")".toList := by
    rintro c ⟨⟩
    decide
  refine ⟨⟨htokens, hseparate, ?_⟩, hfault, hclosing, ?_⟩
  · exact (tokenize_append "\"\n\"" "x" none).1 tokens htokens hseparate
  · exact (tokenize_append "1e" ")" none).2 _ hfault (by rintro location ⟨⟩) hclosing

end BraceLang
