import BraceLang.Proofs.Grammar.Attempt
import BraceLang.Proofs.Parser.Discipline

/-! # Turns — reading a program by the calls for its parts

    A program is read in turns.  A turn reads one construct, and if that was
    misread and no other construct starts where it stopped, it skips ahead.
    So the call that reads everything is a row of the two smaller calls, and
    `turn` is one round of it (`parseProgram_eq_turn`).

    Each turn leaves at least one token behind and has one outcome, a node or a
    fault.  So there are no more turns than tokens to pass, and there are as
    many nodes and faults together as there are turns (`accounted_of_driven`). -/

namespace BraceLang

namespace Parser

open Grammar

/-- One round of reading a program: a construct, or what was misread, left
    behind up to where reading can go on. -/
def turn (q : Parser) : Option Node × Parser :=
  match q.parse with
  | (some node, r) => (some node, r)
  | (none, r) =>
      if r.stream.index ≠ q.stream.index ∧ r.stream.current.kind.startsConstruct then (none, r)
      else (none, r.synchronize)

/-- Turns up to the end of the tokens, with what each of them read. -/
inductive Turns : Parser → List (Option Node) → Parser → Prop where
  | atEnd {q : Parser} (hend : q.stream.atEnd) : Turns q [] q
  | turn {q r : Parser} {answers : List (Option Node)} (hend : ¬ q.stream.atEnd)
      (rest : Turns q.turn.2 answers r) : Turns q (q.turn.1 :: answers) r

/-- Either a node was read, or one fault was recorded. -/
def OneOutcome (q : Parser) (answer : Option Node) (r : Parser) : Prop :=
  (∃ node, answer = some node ∧ r.diagnostics = q.diagnostics)
    ∨ answer = none ∧ ∃ fault, r.diagnostics = q.diagnostics ++ [fault]

/-- How the call that reads everything makes its turns, and what they add up
    to. -/
structure Accounted (tokens : List Token) (q : Parser) : Prop where
  /-- A turn is a row of calls; it moves the cursor ahead and has one outcome. -/
  turn : ¬ q.stream.atEnd → q.Driven q.turn.2 ∧ q.stream.index < q.turn.2.stream.index
    ∧ q.OneOutcome q.turn.1 q.turn.2
  /-- Nodes and faults are those of turns, one each, of which there are no more
      than tokens in front of the last one. -/
  total : ∃ answers faults, q.Turns answers q.parseProgram.2
    ∧ q.parseProgram.1 = answers.filterMap id
    ∧ q.parseProgram.2.diagnostics = q.diagnostics ++ faults
    ∧ q.parseProgram.1.length + faults.length = answers.length
    ∧ answers.length ≤ tokens.length - 1 - q.stream.index
  /-- Nothing is read and nothing recorded only at the end. -/
  idle : q.parseProgram.1 = [] → q.parseProgram.2.diagnostics = q.diagnostics →
    q.stream.atEnd

-- ── One turn ─────────────────────────────────────────────────────────────

/-- A turn is an attempt: it has the node or the fault, and goes on where the
    next attempt begins. -/
theorem turn_eq {q : Parser} (hend : ¬ q.stream.atEnd) :
    q.turn = (node? q.stream, ⟨following q.stream, q.diagnostics ++ (fault? q.stream).toList⟩) := by
  rw [Parser.turn, following, node?, fault?]
  cases h : construct q.stream with
  | ok node t =>
      rw [parse_of_ok hend h]
      simp only [Option.toList_none, List.append_nil]
  | error fault t =>
      rw [parse_of_error hend h]
      simp only [resume, synchronize]
      split
      next => rfl
      next => rfl

theorem driven_turn (q : Parser) : q.Driven q.turn.2 := by
  have hparse : q.Driven q.parse.2 := .call .parse .refl
  rw [Parser.turn]
  generalize q.parse = answer at hparse ⊢
  obtain ⟨node, r⟩ := answer
  cases node with
  | some node => exact hparse
  | none =>
      show q.Driven (if _ then (none, r) else (none, r.synchronize)).2
      split
      next => exact hparse
      next => exact .call .synchronize hparse

theorem length_upcoming_turn {q : Parser} (hend : ¬ q.stream.atEnd) :
    q.turn.2.stream.upcoming.length < q.stream.upcoming.length := by
  rw [turn_eq hend]
  exact length_upcoming_following hend

theorem oneOutcome_turn {q : Parser} (hend : ¬ q.stream.atEnd) :
    q.OneOutcome q.turn.1 q.turn.2 := by
  rw [turn_eq hend, node?, fault?]
  cases construct q.stream with
  | ok node t => exact .inl ⟨node, rfl, List.append_nil _⟩
  | error fault t => exact .inr ⟨rfl, fault, rfl⟩

/-- Reading everything is a turn and then reading everything behind it. -/
theorem parseProgram_eq_turn {q : Parser} (hend : ¬ q.stream.atEnd) :
    q.parseProgram = (q.turn.1.toList ++ q.turn.2.parseProgram.1, q.turn.2.parseProgram.2) := by
  obtain ⟨hnodes, hfaults⟩ := program_of_not_atEnd hend
  rw [turn_eq hend, parseProgram, parseProgram]
  simp only [hnodes, hfaults, stream_program_of_not_atEnd hend, List.append_assoc]

-- ── All turns ────────────────────────────────────────────────────────────

theorem turns_parseProgram (q : Parser) :
    ∃ answers, q.Turns answers q.parseProgram.2 ∧ q.parseProgram.1 = answers.filterMap id := by
  induction hn : q.stream.upcoming.length using Nat.strongRecOn generalizing q with
  | ind n ih =>
  by_cases hend : q.stream.atEnd
  · have hstay : q.parseProgram = ([], q) := by
      rw [parseProgram, program_of_atEnd hend]
      simp only [List.append_nil]
    rw [hstay]
    exact ⟨[], .atEnd hend, rfl⟩
  · have hlt := length_upcoming_turn hend
    rw [hn] at hlt
    obtain ⟨answers, hturns, hnodes⟩ := ih _ hlt q.turn.2 rfl
    rw [parseProgram_eq_turn hend, hnodes]
    exact ⟨q.turn.1 :: answers, .turn hend hturns, (filterMap_cons_toList id _ _).symm⟩

/-- Every turn leaves a token behind. -/
theorem Turns.length_le {q r : Parser} {answers : List (Option Node)} (h : q.Turns answers r) :
    answers.length ≤ q.stream.upcoming.length := by
  induction h with
  | atEnd hend => exact Nat.zero_le _
  | turn hend rest ih =>
      have hlt := length_upcoming_turn hend
      rw [List.length_cons]
      omega

/-- The turns that read no node recorded a fault each. -/
theorem Turns.exists_faults {q r : Parser} {answers : List (Option Node)}
    (h : q.Turns answers r) : ∃ faults, r.diagnostics = q.diagnostics ++ faults
      ∧ (answers.filterMap id).length + faults.length = answers.length := by
  induction h with
  | atEnd hend => exact ⟨[], (List.append_nil _).symm, rfl⟩
  | @turn q r answers hend rest ih =>
      obtain ⟨faults, hfaults, hlength⟩ := ih
      rw [filterMap_cons_toList, List.length_append, List.length_cons]
      rcases oneOutcome_turn hend with ⟨node, hnode, hsame⟩ | ⟨hnone, fault, hrecorded⟩
      · refine ⟨faults, ?_, ?_⟩
        · rw [hfaults, hsame]
        · rw [hnode]
          show 1 + _ + _ = _
          omega
      · refine ⟨fault :: faults, ?_, ?_⟩
        · rw [hfaults, hrecorded, List.append_assoc]
          rfl
        · rw [hnone, List.length_cons]
          show 0 + _ + _ = _
          omega

/-- Without any outcome there was no turn. -/
theorem Turns.atEnd_of_nil {q r : Parser} (h : q.Turns [] r) : q.stream.atEnd := by
  cases h with
  | atEnd hend => exact hend

theorem accounted_of_onTokens {tokens : List Token} {q : Parser} (hq : q.OnTokens tokens) :
    Accounted tokens q where
  turn := by
    intro hend
    have hdriven := q.driven_turn
    exact ⟨hdriven, hdriven.reaches.index_lt (length_upcoming_turn hend), oneOutcome_turn hend⟩
  total := by
    obtain ⟨answers, hturns, hnodes⟩ := q.turns_parseProgram
    obtain ⟨faults, hfaults, hlength⟩ := hturns.exists_faults
    refine ⟨answers, faults, hturns, hnodes, hfaults, ?_, ?_⟩
    · rw [hnodes, hlength]
    · have hle := hturns.length_le
      have htokens := q.stream.length_tokens
      rw [hq.tokens_eq] at htokens
      omega
  idle := by
    intro hnil hsame
    obtain ⟨answers, hturns, hnodes⟩ := q.turns_parseProgram
    obtain ⟨faults, hfaults, hlength⟩ := hturns.exists_faults
    rw [hsame] at hfaults
    rw [← hnodes, hnil, List.self_eq_append_right.mp hfaults] at hlength
    rw [List.eq_nil_of_length_eq_zero hlength.symm] at hturns
    exact hturns.atEnd_of_nil

/-- **Turns.**  On any tokens, and after any row of calls, reading everything is
    a row of turns: each moves the cursor ahead and reads one node or records
    one fault.  So nodes and faults together are no more than the tokens in
    front of the last one that are left, and none only at the end. -/
theorem accounted_of_driven {tokens : List Token} (h : tokens ≠ []) :
    ∃ p, ofTokens tokens = .ok p ∧ ∀ q, p.Driven q → q.Accounted tokens := by
  obtain ⟨first, rest, rfl⟩ := List.exists_cons_of_ne_nil h
  exact ⟨⟨⟨[], first, rest⟩, []⟩, rfl, fun q hq => accounted_of_onTokens (hq.onTokens rfl)⟩

/-- A function that breaks off at a variable, which breaks off with the tokens.
    The first turn stops at the variable and skips nothing; what it does not
    read, the second one reads to the end, and each records a fault. -/
theorem accounted_of_driven_cut_off :
    let tokens := [sample .funcKeyword "func", sample .letKeyword "let", sample .identifier "x"]
    tokens ≠ [] ∧ ∃ p, ofTokens tokens = .ok p ∧ p.turn = (none, p.parse.2)
      ∧ p.parse.2.stream.index = 1 ∧ p.parse.2.diagnostics.length = 1
      ∧ p.parse.2.parse.2.stream.atEnd ∧ p.parse.2.parse.2.diagnostics.length = 2
      ∧ p.Accounted tokens ∧ p.parse.2.Accounted tokens := by
  intro tokens
  have hne : tokens ≠ [] := List.cons_ne_nil _ _
  obtain ⟨p, hp, haccounted⟩ := accounted_of_driven hne
  have hparse : p.Driven p.parse.2 := .call .parse .refl
  have hfirst := haccounted p .refl
  have hsecond := haccounted p.parse.2 hparse
  cases hp
  exact ⟨hne, _, rfl, rfl, rfl, rfl, rfl, rfl, hfirst, hsecond⟩

end Parser

end BraceLang
