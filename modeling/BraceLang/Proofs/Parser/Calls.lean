import BraceLang.Proofs.Grammar.Program

/-! # Calls — a parser that was driven by any row of calls

    `Driven p q` says that some row of calls takes the parser `p` to `q`.
    Calls only advance the cursor, so on tokens that are closed by their only
    end marker every such parser has marked tokens left (`Driven.marked`).

    From all these places the call for one construct does the same: it takes
    the construct that stands there, and otherwise the longest beginning of a
    construct, and blames the token behind it (`readsOne_of_driven`). -/

namespace BraceLang

namespace Parser

/-- Some row of calls takes the first parser to the second. -/
inductive Driven (p : Parser) : Parser → Prop where
  | refl : Driven p p
  | call {q : Parser} (c : Call) (h : Driven p q) : Driven p (q.call c).2

/-- All that the call for one construct can do. -/
inductive Parsed (p : Parser) : Option Node × Parser → Prop where
  /-- Nothing is left to read. -/
  | atEnd (hend : p.stream.atEnd) : Parsed p (none, p)
  | read {node : Node} {s : TokenStream} (hend : ¬ p.stream.atEnd)
      (h : Grammar.construct p.stream = .ok node s) : Parsed p (some node, ⟨s, p.diagnostics⟩)
  | misread {fault : Fault} {s : TokenStream} (hend : ¬ p.stream.atEnd)
      (h : Grammar.construct p.stream = .error fault s) :
      Parsed p (none, ⟨s, p.diagnostics ++ [fault]⟩)

theorem parse_of_ok {p : Parser} {s : TokenStream} {node : Node} (hend : ¬ p.stream.atEnd)
    (h : Grammar.construct p.stream = .ok node s) :
    p.parse = (some node, ⟨s, p.diagnostics⟩) := by
  rw [parse, if_neg hend, h]

theorem parse_of_error {p : Parser} {s : TokenStream} {fault : Fault} (hend : ¬ p.stream.atEnd)
    (h : Grammar.construct p.stream = .error fault s) :
    p.parse = (none, ⟨s, p.diagnostics ++ [fault]⟩) := by
  rw [parse, if_neg hend, h]

theorem parsed (p : Parser) : p.Parsed p.parse := by
  by_cases hend : p.stream.atEnd
  · rw [parse, if_pos hend]
    exact .atEnd hend
  · cases h : Grammar.construct p.stream with
    | ok node s =>
        rw [parse_of_ok hend h]
        exact .read hend h
    | error fault s =>
        rw [parse_of_error hend h]
        exact .misread hend h

theorem Parsed.reaches {p : Parser} {answer : Option Node × Parser} (h : p.Parsed answer) :
    p.stream.Reaches answer.2.stream := by
  cases h with
  | atEnd hend => exact .refl p.stream
  | read hend h => exact Grammar.reaches_of_construct_ok h
  | misread hend h => exact Grammar.reaches_of_construct_error h

/-- Every call only advances the cursor. -/
theorem reaches_call (p : Parser) (c : Call) : p.stream.Reaches (p.call c).2.stream := by
  cases c with
  | parse => exact p.parsed.reaches
  | synchronize => exact p.stream.reaches_synchronize
  | parseProgram => exact Grammar.reaches_program p.stream

theorem Driven.reaches {p q : Parser} (h : p.Driven q) : p.stream.Reaches q.stream := by
  induction h with
  | refl => exact .refl p.stream
  | @call q c _ ih => exact ih.trans (q.reaches_call c)

/-- The tokens left to a driven parser are closed by the same marker. -/
theorem Driven.marked {p q : Parser} (h : p.Driven q) (hp : Marked p.stream.remaining) :
    Marked q.stream.remaining := by
  obtain ⟨taken, hpasses⟩ := h.reaches.exists_passes
  exact hpasses.marked hp

end Parser

namespace Grammar

/-- The longest beginning of some tokens with which a list of the shape can
    begin. -/
structure Shape.LongestBeginning {α : Type} (L : Shape α) (taken tokens : List Token) : Prop where
  opens : ∃ more a, L (taken ++ more) a
  begins : taken <+: tokens
  longest : ∀ other more a, other <+: tokens → L (other ++ more) a → other <+: taken

/-- Where a shape is blocked, its longest beginning is over. -/
theorem Shape.Blocked.longestBeginning {α : Type} {L : Shape α} {taken rest : List Token}
    {x : Token} (h : L.Blocked taken x) : L.LongestBeginning taken (taken ++ x :: rest) where
  opens := by
    obtain ⟨more, a, -, hopen⟩ := h.viable
    exact ⟨more, a, hopen⟩
  begins := List.prefix_append taken (x :: rest)
  longest := by
    rintro other more a hother hopen
    rcases List.prefix_or_prefix_of_prefix hother (List.prefix_append taken (x :: rest)) with
      hle | ⟨further, rfl⟩
    · exact hle
    · cases further with
      | nil => exact ⟨[], by rw [List.append_nil, List.append_nil]⟩
      | cons y further =>
          -- a longer beginning would go on with the token that blocks the shape
          have hfurther := (List.prefix_append_right_inj taken).mp hother
          obtain ⟨rfl, -⟩ := List.cons_prefix_cons.mp hfurther
          rw [List.append_assoc] at hopen
          exact absurd hopen (h.stuck (further ++ more) a)

/-- What the call for one construct does at the cursor. -/
structure ReadsOne (p : Parser) : Prop where
  /-- A construct that stands there is returned, the cursor moves past its
      tokens, and nothing is recorded. -/
  accepts : ∀ piece rest node, p.stream.remaining = piece ++ rest → Construct piece node →
    ∃ s, p.parse = (some node, ⟨s, p.diagnostics⟩) ∧ p.stream.Passes piece s
  /-- Where none stands there is no answer, the cursor moves past the longest
      beginning of a construct, and one fault is recorded, which blames the
      token behind it. -/
  rejects : (∀ piece rest node, p.stream.remaining = piece ++ rest → ¬ Construct piece node) →
    ∃ s taken fault, p.parse = (none, ⟨s, p.diagnostics ++ [fault]⟩)
      ∧ p.stream.Passes taken s
      ∧ Shape.LongestBeginning Construct taken p.stream.remaining
      ∧ fault.Blames s.current

theorem readsOne_of_marked {p : Parser} (hp : Marked p.stream.remaining)
    (hend : ¬ p.stream.atEnd) : ReadsOne p where
  accepts := by
    intro piece rest node hsplit hconstruct
    obtain ⟨s, hok, hpasses⟩ := recognizes_construct.takes hp hsplit hconstruct
    exact ⟨s, Parser.parse_of_ok hend hok, hpasses⟩
  rejects := by
    intro hnone
    cases h : construct p.stream with
    | ok node s =>
        obtain ⟨taken, hpasses, hconstruct⟩ := recognizes_construct.of_ok hp h
        exact absurd hconstruct (hnone taken s.remaining node hpasses.remaining)
    | error fault s =>
        obtain ⟨taken, hpasses, hblocked, hblames⟩ := recognizes_construct.of_error hp h
        refine ⟨s, taken, fault, Parser.parse_of_error hend h, hpasses, ?_, hblames⟩
        rw [hpasses.remaining]
        exact hblocked.longestBeginning

/-- **One construct.**  On tokens closed by their only end marker, wherever the
    calls so far have left the parser, the call for one construct takes exactly
    a construct, or stops exactly at the first token that does not fit. -/
theorem readsOne_of_driven (body : List Token) (marker : Token)
    (hbody : ∀ t ∈ body, ¬ t.isEnd) (hmarker : marker.isEnd) :
    ∃ p, Parser.ofTokens (body ++ [marker]) = .ok p
      ∧ ∀ q, p.Driven q → ¬ q.stream.atEnd → ReadsOne q := by
  have hmarked : Marked (body ++ [marker]) := Marked.append hbody (.marker hmarker)
  obtain ⟨p, hp, -, -, hremaining⟩ := Parser.ofTokens_of_ne_nil hmarked.ne_nil
  rw [← hremaining] at hmarked
  exact ⟨p, hp, fun q hq hend => readsOne_of_marked (hq.marked hmarked) hend⟩

/-- A declaration that another one cuts off, and the parser that has just
    misread it: it stands on the second declaration, which is complete. -/
theorem readsOne_of_driven_cut_off :
    ∃ p, Parser.ofTokens [sample .letKeyword "let", sample .identifier "x",
        sample .letKeyword "let", sample .identifier "y", sample .equals "=",
        sample .number "1", sample .endOfInput "<EOF>"] = .ok p
      ∧ p.Driven (p.call .parse).2 ∧ (p.call .parse).2.stream.index = 2
      ∧ ¬ (p.call .parse).2.stream.atEnd ∧ ReadsOne (p.call .parse).2 := by
  obtain ⟨p, hp, hreads⟩ := readsOne_of_driven
    [sample .letKeyword "let", sample .identifier "x", sample .letKeyword "let",
      sample .identifier "y", sample .equals "=", sample .number "1"]
    (sample .endOfInput "<EOF>") (by decide) rfl
  have hdriven : p.Driven (p.call .parse).2 := .call .parse .refl
  have hplace : (p.call .parse).2.stream.index = 2 ∧ ¬ (p.call .parse).2.stream.atEnd := by
    cases hp
    decide
  exact ⟨p, hp, hdriven, hplace.1, hplace.2, hreads _ hdriven hplace.2⟩

end Grammar

end BraceLang
