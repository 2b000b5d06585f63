import BraceLang.Proofs.Parser.Calls

/-! # Discipline — what calls can do to a parser, on any tokens

    Whether the tokens have an end marker at the end, somewhere in the middle
    or not at all, calls only move the cursor ahead and only add faults to the
    record.  `OnTokens` is what holds in every state: the cursor stands on one
    of the tokens, and no marker lies behind it.  `Disciplined` is what the
    next call does to such a state; a call at the end does nothing.  Both hold
    after every row of calls (`disciplined_of_driven`). -/

namespace BraceLang

namespace TokenStream

variable {s t : TokenStream}

theorem take_index (s : TokenStream) : s.tokens.take s.index = s.passed.reverse :=
  List.take_left' List.length_reverse

/-- Reading is over on the last token, and on every end marker. -/
theorem atEnd_iff_index (s : TokenStream) :
    s.atEnd ↔ s.index = s.tokens.length - 1 ∨ s.current.isEnd := by
  have hlength := s.length_tokens
  have hlast : s.upcoming.isEmpty ↔ s.index = s.tokens.length - 1 := by
    rw [List.isEmpty_iff_length_eq_zero]
    omega
  rw [atEnd, Bool.or_eq_true, hlast]

/-- The cursor does not get behind an end marker. -/
theorem Reaches.not_isEnd_passed (h : s.Reaches t) (hs : ∀ x ∈ s.passed, ¬ x.isEnd) :
    ∀ x ∈ t.passed, ¬ x.isEnd := by
  induction h with
  | refl s => exact hs
  | @advance s t _ ih =>
      by_cases hend : s.atEnd
      · rw [advance_of_atEnd hend] at ih
        exact ih hs
      · -- the token that is left behind now is no marker, or the stream would be at its end
        have hcurrent : ¬ s.current.isEnd := fun h => hend (s.atEnd_iff_index.mpr (.inr h))
        refine ih ?_
        rw [(passes_advance hend).passed]
        exact List.forall_mem_cons.mpr ⟨hcurrent, hs⟩

end TokenStream

/-- Reading a program comes to the end of the tokens. -/
theorem Grammar.atEnd_program (s : TokenStream) : (Grammar.program s).stream.atEnd := by
  fun_induction Grammar.program s with
  | case1 s hend => exact hend
  | case2 s hend node t hok ih => exact ih
  | case3 s hend fault t herror ih => exact ih

namespace Parser

/-- What a call answers where nothing is left to read. -/
def Call.idleAnswer : Call → Answer
  | parse => .one none
  | synchronize => .nothing
  | parseProgram => .all []

/-- The cursor of a parser of some tokens stands on one of them, and behind no
    end marker. -/
structure OnTokens (q : Parser) (tokens : List Token) : Prop where
  tokens_eq : q.stream.tokens = tokens
  inside : q.stream.index ≤ tokens.length - 1
  current : tokens[q.stream.index]? = some q.stream.current
  unpassed : ∀ t ∈ tokens.take q.stream.index, ¬ t.isEnd
  /-- Reading is over on the last token, and on every end marker. -/
  atEnd_iff : q.stream.atEnd ↔ q.stream.index = tokens.length - 1 ∨ q.stream.current.isEnd

/-- What the next call does to a parser. -/
structure Disciplined (q : Parser) : Prop where
  forward : ∀ c, q.stream.index ≤ (q.call c).2.stream.index
  appends : ∀ c, ∃ recorded, (q.call c).2.diagnostics = q.diagnostics ++ recorded
  /-- Tokens that are left and form no construct are one fault. -/
  misread : q.parse.1 = none → ¬ q.stream.atEnd →
    ∃ fault, q.parse.2.diagnostics = q.diagnostics ++ [fault]
  /-- Neither a construct nor the end is a fault. -/
  read : q.parse.1 ≠ none ∨ q.stream.atEnd → q.parse.2.diagnostics = q.diagnostics
  /-- A construct takes at least one token. -/
  taken : q.parse.1 ≠ none → q.stream.index < q.parse.2.stream.index
  skipped : q.synchronize.diagnostics = q.diagnostics
  finished : q.parseProgram.2.stream.atEnd
  /-- Behind the end no row of calls gets an answer or changes anything. -/
  settled : q.stream.atEnd → ∀ r, q.Driven r → r = q ∧ ∀ c, r.call c = (c.idleAnswer, r)

/-- Every call adds some faults, maybe none, to the record. -/
theorem exists_recorded (q : Parser) (c : Call) :
    ∃ recorded, (q.call c).2.diagnostics = q.diagnostics ++ recorded := by
  cases c with
  | parse =>
      have hparsed := q.parsed
      show ∃ recorded, q.parse.2.diagnostics = _
      generalize q.parse = answer at hparsed ⊢
      cases hparsed with
      | atEnd hend => exact ⟨[], (List.append_nil _).symm⟩
      | read hend h => exact ⟨[], (List.append_nil _).symm⟩
      | misread hend h => exact ⟨_, rfl⟩
  | synchronize => exact ⟨[], (List.append_nil _).symm⟩
  | parseProgram => exact ⟨_, rfl⟩

/-- At the end a call does nothing. -/
theorem call_of_atEnd {q : Parser} (h : q.stream.atEnd) (c : Call) :
    q.call c = (c.idleAnswer, q) := by
  cases c with
  | parse =>
      have hparse : q.parse = (none, q) := by rw [parse, if_pos h]
      rw [call, hparse]
      rfl
  | synchronize =>
      have hstay : q.synchronize = q := by
        rw [synchronize, TokenStream.synchronize_of_atEnd h]
      rw [call, hstay]
      rfl
  | parseProgram =>
      have hstay : q.parseProgram = ([], q) := by
        rw [parseProgram, Grammar.program_of_atEnd h]
        simp only [List.append_nil]
      rw [call, hstay]
      rfl

/-- From the end every row of calls stays there. -/
theorem Driven.eq_of_atEnd {q r : Parser} (h : q.Driven r) (hend : q.stream.atEnd) : r = q := by
  induction h with
  | refl => rfl
  | @call r c _ ih =>
      rw [ih, call_of_atEnd hend]

/-- What the call for one construct records, and how far it goes. -/
theorem Parsed.disciplined {q : Parser} {answer : Option Node × Parser} (h : q.Parsed answer) :
    (answer.1 = none → ¬ q.stream.atEnd →
        ∃ fault, answer.2.diagnostics = q.diagnostics ++ [fault])
      ∧ (answer.1 ≠ none ∨ q.stream.atEnd → answer.2.diagnostics = q.diagnostics)
      ∧ (answer.1 ≠ none → q.stream.index < answer.2.stream.index) := by
  have hreach := h.reaches
  cases h with
  | atEnd hend =>
      exact ⟨fun _ hnot => absurd hend hnot, fun _ => rfl, fun hsome => absurd rfl hsome⟩
  | @read node s hend h =>
      refine ⟨fun hnone => absurd hnone (Option.some_ne_none node), fun _ => rfl, fun _ => ?_⟩
      exact hreach.index_lt (Grammar.takes_construct q.stream s node hend h)
  | @misread fault s hend h =>
      refine ⟨fun _ _ => ⟨fault, rfl⟩, ?_, fun hsome => absurd rfl hsome⟩
      -- a misread construct is neither an answer nor the end
      exact fun hread => absurd hread (not_or.mpr ⟨fun hnot => hnot rfl, hend⟩)

theorem disciplined (q : Parser) : q.Disciplined where
  forward := fun c => (q.reaches_call c).index_le
  appends := q.exists_recorded
  misread := q.parsed.disciplined.1
  read := q.parsed.disciplined.2.1
  taken := q.parsed.disciplined.2.2
  skipped := rfl
  finished := Grammar.atEnd_program q.stream
  settled := by
    intro hend r hdriven
    rw [hdriven.eq_of_atEnd hend]
    exact ⟨rfl, call_of_atEnd hend⟩

/-- A parser that was driven from the first of some tokens is a parser of these
    tokens. -/
theorem Driven.onTokens {p q : Parser} (h : p.Driven q) (hp : p.stream.passed = []) :
    q.OnTokens p.stream.tokens := by
  have htokens := h.reaches.tokens_eq
  have hlength := q.stream.length_tokens
  have hpassed := h.reaches.not_isEnd_passed (by rw [hp]; exact List.forall_mem_nil _)
  rw [← htokens]
  refine ⟨rfl, by omega, q.stream.getElem?_index, ?_, q.stream.atEnd_iff_index⟩
  rw [q.stream.take_index]
  intro t ht
  exact hpassed t (List.mem_reverse.mp ht)

/-- **Discipline.**  On any tokens, and after any row of calls, the cursor is
    inside the tokens and behind no end marker, and the next call moves it only
    ahead, records a fault exactly for tokens that it misreads, and at the end
    does nothing. -/
theorem disciplined_of_driven {tokens : List Token} (h : tokens ≠ []) :
    ∃ p, ofTokens tokens = .ok p ∧ p.stream.index = 0 ∧ p.diagnostics = []
      ∧ ∀ q, p.Driven q → q.OnTokens tokens ∧ q.Disciplined := by
  obtain ⟨p, hp, hdiagnostics, hpassed, hremaining⟩ := ofTokens_of_ne_nil h
  have htokens : p.stream.tokens = tokens := by
    rw [TokenStream.tokens, hpassed]
    exact hremaining
  refine ⟨p, hp, ?_, hdiagnostics, ?_⟩
  · rw [TokenStream.index, hpassed, List.length_nil]
  · intro q hq
    rw [← htokens]
    exact ⟨hq.onTokens hpassed, q.disciplined⟩

/-- A variable that an end marker in the middle of the tokens cuts off: the
    fault leaves the cursor on the marker, and a program behind it is not
    reached. -/
theorem disciplined_of_driven_inner_marker :
    let tokens := [Grammar.sample .letKeyword "let", Grammar.sample .identifier "x",
      Grammar.sample .endOfInput "<EOF>", Grammar.sample .number "1",
      Grammar.sample .rbrace "\x7d"]
    tokens ≠ []
    ∧ ∃ p, ofTokens tokens = .ok p
      ∧ (p.call .parse).2.stream.index = 2 ∧ (p.call .parse).2.stream.atEnd
      ∧ (p.call .parse).2.diagnostics.length = 1
      ∧ ((p.call .parse).2.call .parseProgram).2.OnTokens tokens
      ∧ ((p.call .parse).2.call .parseProgram).2.Disciplined := by
  intro tokens
  have hne : tokens ≠ [] := List.cons_ne_nil _ _
  obtain ⟨p, hp, -, -, hdriven⟩ := disciplined_of_driven hne
  have hplace : (p.call .parse).2.stream.index = 2 ∧ (p.call .parse).2.stream.atEnd
      ∧ (p.call .parse).2.diagnostics.length = 1 := by
    cases hp
    decide
  obtain ⟨hon, hdisciplined⟩ := hdriven _ (.call .parseProgram (.call .parse .refl))
  exact ⟨hne, p, hp, hplace.1, hplace.2.1, hplace.2.2, hon, hdisciplined⟩

end Parser

end BraceLang
