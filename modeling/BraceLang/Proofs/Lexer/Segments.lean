import BraceLang.Lexer

/-! # Segments of a source — a run of the lexer, without its state

    A run of the lexer reads the segments of a source one by one, up to the
    end or to the first malformed text.  `Segment.readAll` gives them all at
    once, and `place` turns them into tokens; `tokenize` is the two together
    (`tokenize_eq`), so its properties are properties of the segments. -/

namespace BraceLang

namespace Segment

theorem length_lt_of_read {c : Char} {text rest : List Char} {s : Segment}
    (h : read c text = .ok (s, rest)) : rest.length < (c :: text).length := by
  have hpos := List.length_pos_iff.mpr (raw_ne_nil_of_read h)
  rw [← raw_append_of_read h, List.length_append]
  omega

/-- The segments of a text up to its end or to the first malformed text. -/
def readAll : List Char → List Segment × Option Malformed
  | [] => ([], none)
  | c :: text =>
      match _h : read c text with
      | .error m => ([], some m)
      | .ok (s, rest) => (s :: (readAll rest).1, (readAll rest).2)
termination_by text => text.length
decreasing_by all_goals exact length_lt_of_read _h

theorem readAll_of_error {c : Char} {text : List Char} {m : Malformed}
    (h : read c text = .error m) : readAll (c :: text) = ([], some m) := by
  rw [readAll]
  split
  next m' h' =>
      rw [h] at h'
      cases h'
      rfl
  next s rest h' =>
      rw [h] at h'
      cases h'

theorem readAll_of_ok {c : Char} {text rest : List Char} {s : Segment}
    (h : read c text = .ok (s, rest)) :
    readAll (c :: text) = (s :: (readAll rest).1, (readAll rest).2) := by
  rw [readAll]
  split
  next m h' =>
      rw [h] at h'
      cases h'
  next s' rest' h' =>
      rw [h] at h'
      cases h'
      rfl

/-- The tokens of some segments that follow each other from a position on,
    closed by the end marker. -/
def place (filename : Option String) (p : Position) : List Segment → List Token
  | [] => [.endMarker ⟨p, filename⟩]
  | s :: segments =>
      (s.token? ⟨p, filename⟩).toList ++ place filename (p.after s.raw) segments

theorem location_of_token? {s : Segment} {location : Location} {t : Token}
    (h : s.token? location = some t) : t.location = location := by
  cases s <;> cases h <;> rfl

/-- The position behind some segments that follow each other. -/
def positionAfter (p : Position) (segments : List Segment) : Position :=
  p.after (segments.flatMap raw)

end Segment

namespace Lexer

open Segment

theorem run_of_read {l : Lexer} {c : Char} {text rest : List Char} {s : Segment}
    (hu : l.unread = c :: text) (h : read c text = .ok (s, rest)) :
    l.run = (l.mark.accept s rest).run :=
  run_of_step_ok (by rw [hu]; exact List.cons_ne_nil c text) (step_of_read hu h)

theorem run_of_malformed {l : Lexer} {c : Char} {text : List Char} {m : Malformed}
    (hu : l.unread = c :: text) (h : read c text = .error m) :
    l.run = .error (l.mark.fault m) (l.mark.halt m) :=
  run_of_step_error (by rw [hu]; exact List.cons_ne_nil c text) (step_of_malformed hu h)

/-- A run places the segments of the unread text behind the tokens that the
    lexer has. -/
theorem run_of_readAll {l : Lexer} {segments : List Segment}
    (h : readAll l.unread = (segments, none)) :
    ∃ last, l.run = .ok () last
      ∧ (last.tokens.push (.endMarker (last.locate last.position))).toList
        = l.tokens.toList ++ place l.filename l.position segments := by
  generalize hu : l.unread = text at h
  fun_induction readAll text generalizing l segments with
  | case1 =>
      cases h
      refine ⟨l, ?_, ?_⟩
      · exact run_of_nil hu
      · rw [Array.toList_push]
        rfl
  | case2 c text m hread => cases h
  | case3 c text s rest hread ih =>
      obtain ⟨rfl, hnone⟩ := Prod.mk.inj h
      obtain ⟨last, hrun, htokens⟩ := ih (l := l.mark.accept s rest) rfl (Prod.ext rfl hnone)
      refine ⟨last, (run_of_read hu hread).trans hrun, ?_⟩
      rw [htokens]
      show (l.tokens ++ (s.token? (l.locate l.position)).toList).toList
        ++ place l.filename (l.position.after s.raw) (readAll rest).1 = _
      rw [Array.toList_appendList, List.append_assoc]
      rfl

/-- A run stops at the first malformed text. -/
theorem run_of_readAll_malformed {l : Lexer} {segments : List Segment} {m : Malformed}
    (h : readAll l.unread = (segments, some m)) :
    ∃ last, l.run = .error (.lexical m.cause
      (l.locate (faultPosition (positionAfter l.position segments) m))) last := by
  generalize hu : l.unread = text at h
  fun_induction readAll text generalizing l segments with
  | case1 => cases h
  | case2 c text m' hread =>
      cases h
      exact ⟨l.mark.halt m, run_of_malformed hu hread⟩
  | case3 c text s rest hread ih =>
      obtain ⟨rfl, hsome⟩ := Prod.mk.inj h
      obtain ⟨last, hrun⟩ := ih (l := l.mark.accept s rest) rfl (Prod.ext rfl hsome)
      refine ⟨last, ?_⟩
      have hposition : positionAfter l.position (s :: (readAll rest).1)
          = positionAfter (l.mark.accept s rest).position (readAll rest).1 := by
        rw [positionAfter, List.flatMap_cons, Position.after_append]
        rfl
      rw [hposition, run_of_read hu hread, hrun]
      rfl

end Lexer

open Segment

/-- The tokens of a source are its segments in place. -/
theorem tokenize_of_readAll {source : String} {segments : List Segment}
    (filename : Option String) (h : readAll source.toList = (segments, none)) :
    tokenize source filename = .ok (place filename .first segments) := by
  obtain ⟨last, hrun, htokens⟩ :=
    Lexer.run_of_readAll (l := (Lexer.ofSource source filename).rewind) h
  rw [tokenize, Lexer.tokenize, hrun]
  exact congrArg Except.ok htokens

/-- The fault of a source is that of its first malformed text. -/
theorem tokenize_of_readAll_malformed {source : String} {segments : List Segment}
    {m : Malformed} (filename : Option String)
    (h : readAll source.toList = (segments, some m)) :
    tokenize source filename = .error (.lexical m.cause
      ⟨Lexer.faultPosition (positionAfter .first segments) m, filename⟩) := by
  obtain ⟨last, hrun⟩ :=
    Lexer.run_of_readAll_malformed (l := (Lexer.ofSource source filename).rewind) h
  rw [tokenize, Lexer.tokenize, hrun]
  rfl

/-- A source has tokens exactly if it is segments up to its end. -/
theorem tokenize_eq_ok_iff {source : String} {filename : Option String} {tokens : List Token} :
    tokenize source filename = .ok tokens
      ↔ ∃ segments, readAll source.toList = (segments, none)
        ∧ tokens = place filename .first segments := by
  cases hall : readAll source.toList with
  | mk segments halted =>
  cases halted with
  | none =>
      rw [tokenize_of_readAll filename hall]
      constructor
      · rintro ⟨⟩
        exact ⟨segments, rfl, rfl⟩
      · rintro ⟨_, ⟨⟩, rfl⟩
        rfl
  | some m =>
      rw [tokenize_of_readAll_malformed filename hall]
      constructor
      · rintro ⟨⟩
      · rintro ⟨_, ⟨⟩, -⟩

/-- A source has a fault exactly if its segments end before it does. -/
theorem tokenize_eq_error_iff {source : String} {filename : Option String} {fault : Fault} :
    tokenize source filename = .error fault
      ↔ ∃ segments m, readAll source.toList = (segments, some m)
        ∧ fault = .lexical m.cause
          ⟨Lexer.faultPosition (positionAfter .first segments) m, filename⟩ := by
  cases hall : readAll source.toList with
  | mk segments halted =>
  cases halted with
  | none =>
      rw [tokenize_of_readAll filename hall]
      constructor
      · rintro ⟨⟩
      · rintro ⟨_, _, ⟨⟩, -⟩
  | some m =>
      rw [tokenize_of_readAll_malformed filename hall]
      constructor
      · rintro ⟨⟩
        exact ⟨segments, m, rfl, rfl⟩
      · rintro ⟨_, _, ⟨⟩, rfl⟩
        rfl

end BraceLang
