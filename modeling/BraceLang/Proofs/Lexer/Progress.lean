import BraceLang.Proofs.Lexer.FirstBreak
import BraceLang.Proofs.Lexer.Offsets
import BraceLang.Proofs.Lexer.ScanParts

/-! # Progress — every turn of a scan reads on, inside the source

    A turn of a scan is a step of the lexer (`asStep_turn`), so it never looks
    outside the source, and none of its loops goes on for ever.  It moves the
    cursor, by at least one character and not beyond the source, and keeps one
    token at most (`Scanner.Progresses`).  So a scan has no more turns than the
    source has characters (`scan_progresses`). -/

namespace BraceLang

/-! ## Tokens of a run -/

namespace Lexer

/-- A token costs its step at least one character. -/
theorem size_tokens_step {l next : Lexer} (h : l.unread ≠ []) (hs : l.step = .ok () next) :
    next.tokens.size + next.unread.length ≤ l.tokens.size + l.unread.length := by
  have hlt := length_unread_step h hs
  obtain ⟨c, text, hu⟩ := List.exists_cons_of_ne_nil h
  cases hr : Segment.read c text with
  | error m =>
      rw [step_of_malformed hu hr] at hs
      cases hs
  | ok answer =>
      obtain ⟨segment, rest⟩ := answer
      rw [step_of_read hu hr] at hs
      cases hs
      have hone : (l.mark.accept segment rest).tokens.size ≤ l.tokens.size + 1 := by
        rw [accept]
        cases segment.token? (l.mark.locate l.mark.start) with
        | none => simp [mark]
        | some t => simp [mark]
      omega

theorem size_tokens_run {l last : Lexer} (h : l.run = .ok () last) :
    last.tokens.size ≤ l.tokens.size + l.unread.length := by
  fun_induction run l with
  | case1 l hl =>
      cases h
      exact Nat.le_add_right _ _
  | case2 l hl next hs ih => exact (ih h).trans (size_tokens_step hl hs)
  | case3 l hl fault rest hs => cases h

theorem rewind_ofSource (source : String) (filename : Option String) :
    (ofSource source filename).rewind = ofSource source filename := rfl

theorem length_tokenize_le {source : String} {filename : Option String} {tokens : List Token}
    (h : BraceLang.tokenize source filename = .ok tokens) : tokens.length ≤ source.length + 1 := by
  rw [BraceLang.tokenize, tokenize, rewind_ofSource] at h
  cases hrun : (ofSource source filename).run with
  | ok _ last =>
      rw [hrun] at h
      obtain rfl := Except.ok.inj h
      have hsize : last.tokens.size ≤ 0 + source.toList.length := size_tokens_run hrun
      rw [String.length_toList] at hsize
      rw [Array.length_toList, Array.size_push]
      omega
  | error fault last =>
      rw [hrun] at h
      cases h

end Lexer

namespace Scanner

/-! ## A scanner as a lexer -/

/-- The lexer at the same place, with the same tokens. -/
def lexer (s : Scanner) : Lexer where
  source := String.ofList s.source
  filename := s.filename
  tokens := s.tokens
  unread := s.ahead
  position := s.position
  start := s.startPosition

/-- The step of a lexer that some turns of a scan amount to.  There is none for
    an index or a slice outside the source, and none for a loop without end. -/
def asStep : EStateM.Result Stop Scanner Unit → Option (EStateM.Result Fault Lexer Unit)
  | .ok _ s => some (.ok () s.lexer)
  | .error (.fault fault) s => some (.error fault s.lexer)
  | .error .outOfRange _ => none
  | .error .outOfTurns _ => none

/-- The scanner that a turn leaves, whether it found a segment or failed. -/
def turned (s : Scanner) : Scanner :=
  match turn.run s with
  | .ok _ next => next
  | .error _ last => last

/-- What a turn at a scanner comes to. -/
structure Progresses (s : Scanner) : Prop where
  /-- It comes to a step of the lexer, so nothing outside the source was asked
      for. -/
  step : asStep (turn.run s) = some s.lexer.step
  source : s.turned.source = s.source
  forward : s.current < s.turned.current
  inside : s.turned.current ≤ s.source.length
  /-- At most one token is kept, and a string takes two quotes. -/
  keeps : ∃ found : Option Token, s.turned.tokens = s.tokens ++ found.toList
    ∧ ∀ t ∈ found, t.kind = .string → s.current + 2 ≤ s.turned.current

variable {s m : Scanner} {c : Char} {text rest : List Char}

/-! ## Turns -/

theorem marked_mark (h : s.ahead = c :: text) : s.mark.Marked where
  start := rfl
  position := rfl
  inside := by
    have hlength : s.source.length - s.current = (c :: text).length := by
      rw [← h, ahead, List.length_drop]
    show s.current ≤ s.source.length
    rw [List.length_cons] at hlength
    omega

theorem droppable_feed : Droppable '\n' :=
  .inl (by decide)

/-- A segment is scanned as it is read. -/
theorem scanSegment_eq (hm : m.Marked) (h : m.ahead = c :: text) :
    scanSegment.run m = m.outcome (Segment.read c text) := by
  rw [scanSegment, EStateM.run_bind, advance_eq h]
  by_cases hfeed : c = '\n'
  · subst hfeed
    rw [Segment.read_of_droppable droppable_feed, outcome, accept, Segment.raw, past_feed]
    rfl
  · rw [← past_char m hfeed]
    by_cases hblank : Text.isBlank c
    · rw [Segment.read_of_droppable (.inl hblank)]
      simp only [if_neg hfeed, if_pos hblank]
      rfl
    · simp only [if_neg hfeed, if_neg hblank]
      rw [Segment.read]
      by_cases hquote : c = '"'
      · subst hquote
        rw [if_pos rfl, if_pos rfl]
        exact scanQuoted_eq hm h
      · rw [if_neg hquote, if_neg hquote]
        by_cases hdigit : c.isDigit
        · rw [if_pos hdigit, if_pos hdigit, scanNumeral_eq hm hdigit h]
          cases Numeral.read (c :: text) <;> rfl
        · rw [if_neg hdigit, if_neg hdigit]
          by_cases hword : Segment.isWordStart c
          · rw [if_pos hword, if_pos hword]
            exact scanWord_eq hm h
          · rw [if_neg hword, if_neg hword]
            cases TokenKind.sign? c with
            | none => rfl
            | some kind =>
                have hsign : m.ahead = [c] ++ text := h
                exact addToken_eq hm hsign kind

theorem turn_eq (h : s.ahead = c :: text) :
    turn.run s = s.mark.outcome (Segment.read c text) :=
  scanSegment_eq (marked_mark h) h

theorem lexer_accept {segment : Segment} (h : s.ahead = segment.raw ++ rest) :
    (s.mark.accept segment).lexer = s.lexer.mark.accept segment rest := by
  have hmark : s.mark.ahead = segment.raw ++ rest := h
  have hrest : (s.mark.accept segment).ahead = rest := ahead_past hmark
  rw [lexer, hrest]
  rfl

theorem lexer_past (s : Scanner) (e : Malformed) :
    (s.mark.past e.read).lexer = s.lexer.mark.halt e := by
  have hrest : (s.mark.past e.read).ahead = s.ahead.drop e.read.length := by
    rw [ahead, ahead, List.drop_drop]
    rfl
  rw [lexer, hrest]
  rfl

theorem asStep_turn (h : s.ahead = c :: text) : asStep (turn.run s) = some s.lexer.step := by
  have hunread : s.lexer.unread = c :: text := h
  rw [turn_eq h]
  cases hr : Segment.read c text with
  | ok answer =>
      obtain ⟨segment, rest⟩ := answer
      have hahead : s.ahead = segment.raw ++ rest := h.trans (Segment.raw_append_of_read hr).symm
      rw [Lexer.step_of_read hunread hr, ← lexer_accept hahead]
      rfl
  | error e =>
      rw [Lexer.step_of_malformed hunread hr, ← lexer_past]
      rfl

/-- What is ahead of the cursor is in the source. -/
theorem current_add_le {raw : List Char} (hne : raw ≠ []) (h : s.ahead = raw ++ rest) :
    s.current < s.current + raw.length ∧ s.current + raw.length ≤ s.source.length := by
  have hpos := List.length_pos_iff.mpr hne
  have hlength : s.source.length - s.current = (raw ++ rest).length := by
    rw [← h, ahead, List.length_drop]
  rw [List.length_append] at hlength
  omega

theorem progresses (h : s.current < s.source.length) : s.Progresses := by
  obtain ⟨c, text, hahead⟩ : ∃ c text, s.ahead = c :: text := by
    refine List.exists_cons_of_ne_nil fun hnil => ?_
    rw [ahead, List.drop_eq_nil_iff] at hnil
    exact absurd h (Nat.not_lt.mpr hnil)
  have hstep := asStep_turn hahead
  cases hr : Segment.read c text with
  | ok answer =>
      obtain ⟨segment, rest⟩ := answer
      have hturned : s.turned = s.mark.accept segment := by
        rw [turned, turn_eq hahead, hr]
        rfl
      have hraw : s.ahead = segment.raw ++ rest :=
        hahead.trans (Segment.raw_append_of_read hr).symm
      obtain ⟨hlt, hle⟩ := current_add_le (Segment.raw_ne_nil_of_read hr) hraw
      refine ⟨hstep, ?_, ?_, ?_, segment.token? ⟨s.position, s.filename⟩, ?_, ?_⟩
      · rw [hturned]
        rfl
      · rw [hturned]
        exact hlt
      · rw [hturned]
        exact hle
      · rw [hturned]
        rfl
      · intro t ht hkind
        have hquotes : t.raw = segment.raw := (Segment.lexeme_of_read hr ht).raw_eq
        have htwo : 2 ≤ segment.raw.length := by
          rw [← hquotes, Token.raw, hkind]
          simp
        rw [hturned]
        exact Nat.add_le_add_left htwo s.current
  | error e =>
      have hturned : s.turned = s.mark.past e.read := by
        rw [turned, turn_eq hahead, hr]
        rfl
      obtain ⟨hne, rest, hread⟩ := Segment.read_append_of_malformed hr
      obtain ⟨hlt, hle⟩ := current_add_le hne (hahead.trans hread.symm)
      refine ⟨hstep, ?_, ?_, ?_, none, ?_, ?_⟩
      · rw [hturned]
        rfl
      · rw [hturned]
        exact hlt
      · rw [hturned]
        exact hle
      · rw [hturned]
        simp [mark, past]
      · intro t ht
        cases ht

/-! ## Scans -/

theorem goesOn_eq (s : Scanner) : goesOn.run s = .ok (!s.atEnd) s := rfl

/-- A scan is a run of the lexer, if it is granted a turn for each character. -/
theorem asStep_scan {turns : Nat} (s : Scanner) (h : s.ahead.length ≤ turns) :
    asStep ((scan turns).run s) = some s.lexer.run := by
  induction turns generalizing s with
  | zero =>
      have hnil : s.ahead = [] := List.length_eq_zero_iff.mp (Nat.le_zero.mp h)
      rw [scan, repeatWhile, EStateM.run_bind, goesOn_eq, Lexer.run_of_nil hnil]
      simp only [atEnd_iff.mpr hnil, Bool.not_true, Bool.false_eq_true, if_false]
      rfl
  | succ turns ih =>
      rw [scan, repeatWhile, EStateM.run_bind, goesOn_eq]
      cases hahead : s.ahead with
      | nil =>
          rw [Lexer.run_of_nil hahead]
          simp only [atEnd_iff.mpr hahead, Bool.not_true, Bool.false_eq_true, if_false]
          rfl
      | cons c text =>
          have hstep := asStep_turn hahead
          have hunread : s.lexer.unread ≠ [] := by
            show s.ahead ≠ []
            rw [hahead]
            exact List.cons_ne_nil c text
          simp only [not_atEnd hahead, Bool.not_false, if_true, EStateM.run_bind]
          cases hturn : turn.run s with
          | ok _ next =>
              rw [hturn] at hstep
              have hnext : s.lexer.step = .ok () next.lexer := (Option.some.inj hstep).symm
              have hlength : next.ahead.length ≤ turns := by
                have hlt : next.ahead.length < s.ahead.length :=
                  Lexer.length_unread_step hunread hnext
                omega
              rw [Lexer.run_of_step_ok hunread hnext]
              exact ih next hlength
          | error stop last =>
              rw [hturn] at hstep
              cases stop with
              | fault fault =>
                  have hlast : s.lexer.step = .error fault last.lexer :=
                    (Option.some.inj hstep).symm
                  rw [Lexer.run_of_step_error hunread hlast]
                  rfl
              | outOfRange => cases hstep
              | outOfTurns => cases hstep

theorem lexer_ofSource (source : String) (filename : Option String) :
    (ofSource source filename).lexer = Lexer.ofSource source filename := by
  rw [lexer, Lexer.ofSource]
  show Lexer.mk (String.ofList source.toList) _ _ _ _ _ = _
  rw [String.ofList_toList]
  rfl

/-- As many turns as there are characters are enough for the tokens of a source,
    or its fault. -/
theorem tokenize_eq (source : String) (filename : Option String) :
    tokenize source.length source filename
      = (BraceLang.tokenize source filename).mapError .fault := by
  have hlength : (ofSource source filename).ahead.length ≤ source.length :=
    Nat.le_of_eq String.length_toList
  have hscan := asStep_scan (ofSource source filename) hlength
  rw [lexer_ofSource] at hscan
  rw [tokenize, BraceLang.tokenize, Lexer.tokenize, Lexer.rewind_ofSource]
  cases hrun : (scan source.length).run (ofSource source filename) with
  | ok _ last =>
      rw [hrun] at hscan
      rw [← Option.some.inj hscan]
      rfl
  | error stop last =>
      rw [hrun] at hscan
      cases stop with
      | fault fault =>
          rw [← Option.some.inj hscan]
          rfl
      | outOfRange => cases hscan
      | outOfTurns => cases hscan

/-- **Progress.**  A turn that begins inside a source moves the cursor, by at
    least one character and not beyond the source; it looks at no character and
    takes no slice outside the source, and keeps one token at most.  So a scan
    ends within as many turns as the source has characters, with at most one
    token more than that. -/
theorem scan_progresses (source : String) (filename : Option String) :
    (∀ s : Scanner, s.current < s.source.length → s.Progresses)
    ∧ tokenize source.length source filename
      = (BraceLang.tokenize source filename).mapError .fault
    ∧ ∀ tokens, BraceLang.tokenize source filename = .ok tokens →
      tokens.length ≤ source.length + 1 := by
  refine ⟨fun s => progresses, tokenize_eq source filename, ?_⟩
  intro tokens htokens
  exact Lexer.length_tokenize_le htokens

end Scanner

end BraceLang
