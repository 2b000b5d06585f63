import BraceLang.Terminal
import BraceLang.Proofs.Cli.Answer

/-! # Prompts — a session is the row of the answers to its lines

    A session serves the lines of its input one after the other, up to the
    first that closes it (`StopsAt`).  The answer to a line is that to the line
    alone; only the number of the prompt in front of it counts the lines before
    (`run_of_forall_mem_flags`).  Every report is about a source of one line, so
    it shows all of that source with a caret below (`Report.PointsInto`).

    The number is a word, so it is the count of the lines only as far as a word
    can count (`SessionRun.plain`).  What becomes of one line more depends on how
    the program was built: the number wraps around (`exchange_of_allows`), or the
    session is stopped behind the line (`exchange_of_stops`). -/

namespace BraceLang

namespace Cli

/-- A session over some lines serves those in front, none of which closes it, and
    stops at the next line, which does, or at the end of its input. -/
inductive StopsAt : List (List UInt8) → List (List UInt8) → Option (List UInt8) → Prop where
  | ended : StopsAt [] [] none
  | closed {line : List UInt8} {behind : List (List UInt8)} (h : Closes line) :
      StopsAt (line :: behind) [] (some line)
  | served {line : List UInt8} {lines front : List (List UInt8)} {stop : Option (List UInt8)}
      (hline : ¬ Closes line) (h : StopsAt lines front stop) :
      StopsAt (line :: lines) (line :: front) stop

/-- The answers to some lines, each behind a prompt with the number for as many
    lines as are counted in front of it. -/
def dialogue (options : Options) (paint : Paint) (number : Nat → String)
    (front : List (List UInt8)) : String :=
  String.join (front.mapIdx fun i line =>
    "nova:" ++ number ((front.take i).countP isCounted) ++ " > "
      ++ (answer options paint line).stdout)

/-- How a session goes that serves some lines up to where it stops; `number` is
    what the prompt behind some counted lines shows. -/
structure SessionRun (options : Options) (paint : Paint) (number : Nat → String)
    (front : List (List UInt8)) (stop : Option (List UInt8)) (outcome : Outcome) : Prop where
  code : outcome.code = 0
  stdout : outcome.output.stdout
    = "NovaSyntax v0.1.0 - Parser REPL\nType 'exit' to quit\n\n"
      ++ dialogue options paint number front
      ++ ("nova:" ++ number (front.countP isCounted) ++ " > ")
      ++ "\nGoodbye!\n"
  stderr : outcome.output.stderr
    = String.join (front.map fun line => (answer options paint line).stderr) ++ parting stop

open Session

/-! ## Where a session stops -/

variable {line : List UInt8} (options : Options) (paint : Paint)

/-- What a line that is answered adds to the count. -/
def step (line : List UInt8) : Nat :=
  if isCounted line then 1 else 0

theorem countP_cons_step (line : List UInt8) (lines : List (List UInt8)) :
    (line :: lines).countP isCounted = step line + lines.countP isCounted := by
  rw [List.countP_cons, Nat.add_comm, step]

/-- A count can get as far as `n`. -/
def Overflow.Allows (overflow : Overflow) (n : Nat) : Prop :=
  overflow = .wraps ∨ n < 2147483648

theorem Overflow.Allows.of_le {overflow : Overflow} {n k : Nat} (h : overflow.Allows n)
    (hle : k ≤ n) : overflow.Allows k :=
  h.imp_right (Nat.lt_of_le_of_lt hle)

theorem ofNat_ne_maxValue {n : Nat} (h : n + 1 < 2147483648) : Int32.ofNat n ≠ Int32.maxValue := by
  intro heq
  have hlast : Int32.maxValue.toInt = 2147483647 := by decide
  have hn : (Int32.ofNat n).toInt = n := Int32.toInt_ofNat_of_lt (by omega)
  rw [heq, hlast] at hn
  omega

/-- As far as it can count, a word shows the number itself. -/
theorem toString_ofNat {n : Nat} (h : n < 2147483648) : toString (Int32.ofNat n) = toString n := by
  show toString (Int32.ofNat n).toInt = toString n
  rw [Int32.toInt_ofNat_of_lt h]
  rfl

-- one number further the word wraps around
example : toString (Int32.ofNat 2147483648) = "-2147483648" := by decide

theorem Overflow.count_of_allows {overflow : Overflow} {n : Nat} (h : overflow.Allows (n + 1)) :
    overflow.count (Int32.ofNat n) = .goOn (Int32.ofNat (n + 1)) := by
  rw [Int32.ofNat_add]
  rcases h with rfl | hlt
  · rfl
  · cases overflow with
    | wraps => rfl
    | stops report => exact if_neg (ofNat_ne_maxValue hlt)

theorem next_of_allows (h : ¬ Closes line) {overflow : Overflow} {n : Nat}
    (hn : overflow.Allows (n + step line)) :
    (Entry.ofBytes line).next overflow (Int32.ofNat n) = .goOn (Int32.ofNat (n + step line)) := by
  rw [next_of_not_closes h, step] at *
  by_cases hc : isCounted line
  · rw [if_pos hc] at hn
    rw [if_pos hc, if_pos hc, Overflow.count_of_allows hn]
  · rw [if_neg hc, if_neg hc, Nat.add_zero]

/-! ## A row of lines -/

theorem dialogue_cons (number : Nat → String) (line : List UInt8) (front : List (List UInt8)) :
    dialogue options paint number (line :: front)
      = "nova:" ++ number 0 ++ " > " ++ (answer options paint line).stdout
        ++ dialogue options paint (fun n => number (step line + n)) front := by
  rw [dialogue, List.mapIdx_cons, String.join_cons, dialogue]
  simp only [List.take_succ_cons, countP_cons_step]
  rfl

theorem dialogue_congr {number other : Nat → String} {front : List (List UInt8)}
    (h : ∀ n ≤ front.countP isCounted, number n = other n) :
    dialogue options paint number front = dialogue options paint other front := by
  induction front generalizing number other with
  | nil => rfl
  | cons line front ih =>
      rw [countP_cons_step] at h
      rw [dialogue_cons, dialogue_cons, h 0 (Nat.zero_le _),
        ih fun n hn => h (step line + n) (Nat.add_le_add_left hn _)]

theorem dialogue_concat (number : Nat → String) (front : List (List UInt8)) (line : List UInt8) :
    dialogue options paint number (front ++ [line])
      = dialogue options paint number front
        ++ ("nova:" ++ number (front.countP isCounted) ++ " > "
          ++ (answer options paint line).stdout) := by
  induction front generalizing number with
  | nil => simp [dialogue]
  | cons first front ih =>
      rw [List.cons_append, dialogue_cons, dialogue_cons, ih, countP_cons_step]
      simp only [String.append_assoc]

variable {lines front : List (List UInt8)} {stop : Option (List UInt8)} {overflow : Overflow}

theorem exchange_of_closes (h : Closes line) (number : Int32) (behind : List (List UInt8)) :
    exchange options paint overflow number (line :: behind)
      = ⟨0, ⟨prompt number ++ farewell, parting (some line)⟩⟩ := by
  obtain ⟨houtput, hnext⟩ := entry_of_closes options paint h overflow number
  rw [exchange]
  simp only [houtput, hnext]
  simp [Output.andThen, Output.out]

/-- The answer to a line stands behind its prompt, and in front of the rest. -/
theorem exchange_of_goOn {number following : Int32} (h : ¬ Closes line)
    (hnext : (Entry.ofBytes line).next overflow number = .goOn following) :
    exchange options paint overflow number (line :: lines)
      = (exchange options paint overflow following lines).behind
        ⟨prompt number ++ (answer options paint line).stdout, (answer options paint line).stderr⟩ := by
  rw [exchange]
  simp only [output_of_not_closes options paint h, hnext]
  simp [Output.andThen, Output.out]

/-- As far as the count is allowed to get, all lines in front of the stop are
    answered, each behind its prompt. -/
theorem exchange_of_allows (h : StopsAt lines front stop) {n : Nat}
    (hn : overflow.Allows (n + front.countP isCounted)) :
    exchange options paint overflow (Int32.ofNat n) lines
      = ⟨0, ⟨dialogue options paint (fun k => toString (Int32.ofNat (n + k))) front
          ++ prompt (Int32.ofNat (n + front.countP isCounted)) ++ farewell,
        String.join (front.map fun line => (answer options paint line).stderr) ++ parting stop⟩⟩ := by
  induction h generalizing n with
  | ended => simp [exchange, Output.out, parting, dialogue]
  | closed h =>
      rw [exchange_of_closes options paint h]
      simp [dialogue]
  | @served line lines front stop hline h ih =>
      rw [countP_cons_step, ← Nat.add_assoc] at hn ⊢
      have hnext := next_of_allows hline (hn.of_le (Nat.le_add_right _ _))
      rw [exchange_of_goOn options paint hline hnext, ih hn, dialogue_cons]
      simp [Outcome.behind, Output.andThen, prompt, String.append_assoc, Nat.add_assoc]

/-- A session is stopped behind the line that would be counted with a number too
    large. -/
theorem exchange_of_stops {served behind : List (List UInt8)} (report : String)
    (h : StopsAt lines (served ++ line :: behind) stop) (hline : isCounted line) {n : Nat}
    (hn : n + served.countP isCounted = 2147483647) :
    exchange options paint (.stops report) (Int32.ofNat n) lines
      = ⟨101, ⟨dialogue options paint (fun k => toString (Int32.ofNat (n + k))) (served ++ [line]),
        String.join ((served ++ [line]).map fun line => (answer options paint line).stderr)
          ++ report⟩⟩ := by
  induction served generalizing n lines with
  | nil =>
      cases h with
      | served hopen _ =>
          rw [List.countP_nil, Nat.add_zero] at hn
          have hnext : (Entry.ofBytes line).next (.stops report) (Int32.ofNat n)
              = .stop report := by
            rw [next_of_not_closes hopen, if_pos hline, hn]
            rfl
          rw [exchange, List.nil_append, dialogue_cons]
          simp only [output_of_not_closes options paint hopen, hnext]
          simp [Output.andThen, Output.out, Output.err, prompt, dialogue]
  | cons first served ih =>
      rw [countP_cons_step, ← Nat.add_assoc] at hn
      cases h with
      | served hopen h =>
          have hnext : (Entry.ofBytes first).next (.stops report) (Int32.ofNat n)
              = .goOn (Int32.ofNat (n + step first)) := next_of_allows hopen (.inr (by omega))
          rw [exchange_of_goOn options paint hopen hnext, ih h hn, List.cons_append, dialogue_cons]
          simp [Outcome.behind, Output.andThen, prompt, String.append_assoc, Nat.add_assoc]

/-! ## Sessions -/

theorem transcript_eq (overflow : Overflow) (input : List UInt8) :
    transcript options paint overflow input
      = (exchange options paint overflow (Int32.ofNat 1) (Text.byteLines input)).behind
        ⟨"NovaSyntax v0.1.0 - Parser REPL\nType 'exit' to quit\n\n", ""⟩ := by
  have hbanner : banner = "NovaSyntax v0.1.0 - Parser REPL\nType 'exit' to quit\n\n" := by decide
  rw [transcript, hbanner]
  rfl

variable {served behind front : List (List UInt8)} {stop : Option (List UInt8)}
  {overflow : Overflow} {input : List UInt8}

theorem transcript_of_allows (h : StopsAt (Text.byteLines input) front stop)
    (hn : overflow.Allows (1 + front.countP isCounted)) :
    SessionRun options paint (fun n => toString (Int32.ofNat (1 + n))) front stop
      (transcript options paint overflow input) := by
  have hfarewell : farewell = "\nGoodbye!\n" := by decide
  rw [transcript_eq, exchange_of_allows options paint h hn, hfarewell]
  refine ⟨rfl, ?_, ?_⟩
  · simp [Outcome.behind, Output.andThen, prompt, String.append_assoc]
  · simp [Outcome.behind, Output.andThen]

theorem transcript_of_stops (report : String)
    (h : StopsAt (Text.byteLines input) (served ++ line :: behind) stop) (hline : isCounted line)
    (hcount : 1 + served.countP isCounted = 2147483647) :
    transcript options paint (.stops report) input
      = ⟨101, ⟨"NovaSyntax v0.1.0 - Parser REPL\nType 'exit' to quit\n\n"
          ++ dialogue options paint (fun n => toString (1 + n)) (served ++ [line]),
        String.join ((served ++ [line]).map fun line => (answer options paint line).stderr)
          ++ report⟩⟩ := by
  have hsame : ∀ n ≤ served.countP isCounted, toString (Int32.ofNat (1 + n)) = toString (1 + n) :=
    fun n hn => toString_ofNat (by omega)
  have hdialogue : dialogue options paint (fun n => toString (Int32.ofNat (1 + n))) (served ++ [line])
      = dialogue options paint (fun n => toString (1 + n)) (served ++ [line]) := by
    rw [dialogue_concat, dialogue_concat, dialogue_congr options paint hsame,
      hsame _ (Nat.le_refl _)]
  rw [transcript_eq, exchange_of_stops options paint report h hline hcount, hdialogue]
  simp [Outcome.behind, Output.andThen]

/-- As far as a word can count, the numbers are shown as they are. -/
theorem SessionRun.plain {outcome : Outcome}
    (h : SessionRun options paint (fun n => toString (Int32.ofNat (1 + n))) front stop outcome)
    (hfits : 1 + front.countP isCounted < 2147483648) :
    SessionRun options paint (fun n => toString (1 + n)) front stop outcome where
  code := h.code
  stdout := by
    have hsame : ∀ n ≤ front.countP isCounted,
        toString (Int32.ofNat (1 + n)) = toString (1 + n) :=
      fun n hn => toString_ofNat (by omega)
    rw [h.stdout, dialogue_congr options paint hsame, hsame _ (Nat.le_refl _)]
  stderr := h.stderr

end Cli

end BraceLang
