import BraceLang.Lexer

/-! # Reruns — a lexer that was used before

    A lexer keeps what an earlier run left in it: tokens of a run that failed,
    a text that is read to its end, places far down.  A run starts from the top
    and resets all of that but the mark of the segment, which every step sets
    before it reads it.  So lexers that differ in the mark alone step alike
    (`step_eq_of_mark_eq`), and run alike unless there is nothing to read
    (`run_eq_of_mark_eq`); what an earlier run left behind is not seen in the
    answer (`tokenize_of_used`). -/

namespace BraceLang

namespace Lexer

variable {l m : Lexer}

/-! ## The mark is set before it is read -/

theorem mark_mark (l : Lexer) : l.mark.mark = l.mark := rfl

theorem unread_eq_of_mark_eq (h : l.mark = m.mark) : l.unread = m.unread := by
  show l.mark.unread = m.mark.unread
  rw [h]

/-- A step that has something to read sees the lexer only behind its mark. -/
theorem step_mark (h : l.unread ≠ []) : l.mark.step = l.step := by
  obtain ⟨c, text, hu⟩ := List.exists_cons_of_ne_nil h
  have hmark : l.mark.unread = c :: text := hu
  cases hr : Segment.read c text with
  | ok answer =>
      obtain ⟨segment, rest⟩ := answer
      rw [step_of_read hu hr, step_of_read hmark hr, mark_mark]
  | error m => rw [step_of_malformed hu hr, step_of_malformed hmark hr, mark_mark]

theorem step_eq_of_mark_eq (h : l.mark = m.mark) (hl : l.unread ≠ []) : l.step = m.step := by
  have hm : m.unread ≠ [] := by
    rwa [← unread_eq_of_mark_eq h]
  rw [← step_mark hl, ← step_mark hm, h]

/-- Behind the first step there is no trace of the old mark. -/
theorem run_eq_of_mark_eq (h : l.mark = m.mark) (hl : l.unread ≠ []) : l.run = m.run := by
  have hm : m.unread ≠ [] := by
    rwa [← unread_eq_of_mark_eq h]
  have hstep := step_eq_of_mark_eq h hl
  cases hs : m.step with
  | ok _ next =>
      rw [hs] at hstep
      rw [run_of_step_ok hl hstep, run_of_step_ok hm hs]
  | error fault last =>
      rw [hs] at hstep
      rw [run_of_step_error hl hstep, run_of_step_error hm hs]

/-! ## Source and filename stay -/

/-- The lexer that a run leaves, whether it succeeds or fails. -/
def ran (l : Lexer) : Lexer :=
  match l.run with
  | .ok _ last => last
  | .error _ last => last

/-- Two lexers of one source. -/
structure SameSource (l m : Lexer) : Prop where
  source : m.source = l.source
  filename : m.filename = l.filename

theorem SameSource.trans {n : Lexer} (hlm : l.SameSource m) (hmn : m.SameSource n) :
    l.SameSource n :=
  ⟨hmn.source.trans hlm.source, hmn.filename.trans hlm.filename⟩

theorem sameSource_stepped (l : Lexer) : l.SameSource l.stepped := by
  rw [stepped]
  cases hu : l.unread with
  | nil =>
      have hstep : l.step = .ok () l := by
        simp only [step, hu]
      rw [hstep]
      exact ⟨rfl, rfl⟩
  | cons c text =>
      cases hr : Segment.read c text with
      | ok answer =>
          obtain ⟨segment, rest⟩ := answer
          rw [step_of_read hu hr]
          exact ⟨rfl, rfl⟩
      | error m =>
          rw [step_of_malformed hu hr]
          exact ⟨rfl, rfl⟩

theorem sameSource_ran (l : Lexer) : l.SameSource l.ran := by
  rw [ran]
  fun_induction run l with
  | case1 l hl => exact ⟨rfl, rfl⟩
  | case2 l hl next hs ih =>
      have hstepped := l.sameSource_stepped
      rw [stepped, hs] at hstepped
      exact hstepped.trans ih
  | case3 l hl fault last hs =>
      have hstepped := l.sameSource_stepped
      rw [stepped, hs] at hstepped
      exact hstepped

/-! ## Runs from the top -/

/-- Whether the run succeeds or fails, its tokens are not kept. -/
theorem tokenize_snd (l : Lexer) : l.tokenize.2 = { l.rewind.ran with tokens := #[] } := by
  rw [tokenize, ran]
  cases l.rewind.run with
  | ok _ last => rfl
  | error fault last => rfl

theorem tokenize_fst_eq_of_mark_eq (h : l.rewind.mark = m.rewind.mark) :
    l.tokenize.1 = m.tokenize.1 := by
  by_cases hl : l.rewind.unread = []
  · have hm : m.rewind.unread = [] := by
      rwa [← unread_eq_of_mark_eq h]
    -- nothing is read, and the end marker has the place of the next character
    have hlast : l.rewind.locate l.rewind.position = m.rewind.locate m.rewind.position := by
      show l.rewind.mark.locate l.rewind.mark.position = m.rewind.mark.locate m.rewind.mark.position
      rw [h]
    rw [tokenize, tokenize, run_of_nil hl, run_of_nil hm]
    show Except.ok [Token.endMarker (l.rewind.locate l.rewind.position)] = _
    rw [hlast]
    rfl
  · have hrun := run_eq_of_mark_eq h hl
    rw [tokenize, tokenize, hrun]

/-- At the top and marked, a lexer is as it was before its first run. -/
theorem mark_rewind (l : Lexer) : l.rewind.mark = ofSource l.source l.filename := rfl

theorem tokenize_fst (l : Lexer) : l.tokenize.1 = BraceLang.tokenize l.source l.filename :=
  tokenize_fst_eq_of_mark_eq l.mark_rewind

theorem sameSource_tokenize (l : Lexer) : l.SameSource l.tokenize.2 := by
  rw [tokenize_snd]
  exact ⟨l.rewind.sameSource_ran.source, l.rewind.sameSource_ran.filename⟩

theorem tokenizeTimes_eq (l : Lexer) (times : Nat) :
    l.tokenizeTimes times = List.replicate times (BraceLang.tokenize l.source l.filename) := by
  induction times generalizing l with
  | zero => rfl
  | succ times ih =>
      have hsame := l.sameSource_tokenize
      rw [tokenizeTimes, ih, tokenize_fst, hsame.source, hsame.filename, List.replicate_succ]

/-- **Reruns.**  Whatever its tokens, the text it has left and its places are, a
    lexer answers as a new one for the same source does, now and every further
    time; and afterwards it holds no tokens, and the same source and filename. -/
theorem tokenize_of_used (l : Lexer) :
    l.tokenize.1 = (ofSource l.source l.filename).tokenize.1
      ∧ l.tokenize.2.tokens = #[]
      ∧ l.tokenize.2.source = l.source
      ∧ l.tokenize.2.filename = l.filename
      ∧ ∀ times, l.tokenizeTimes times
        = List.replicate times (ofSource l.source l.filename).tokenize.1 := by
  refine ⟨l.tokenize_fst, ?_, l.sameSource_tokenize.source, l.sameSource_tokenize.filename,
    l.tokenizeTimes_eq⟩
  rw [tokenize_snd]

end Lexer

end BraceLang
