import BraceLang.Proofs.Lexer.Segmentation
import BraceLang.Proofs.Parser.Blame

/-! # Beginnings — the parser of a source before its first call

    The tokens of a source are closed by their only end marker, so they are
    never none, and there is a parser for every source that has tokens
    (`Parser.ofSource_of_tokenize`).  What keeps a source from being parsed is
    its lexical fault, and nothing else (`parseSource_eq_error_iff`). -/

namespace BraceLang

variable {source : String} {filename : Option String}

theorem marked_of_tokenize {tokens : List Token} (h : tokenize source filename = .ok tokens) :
    Marked tokens := by
  obtain ⟨segments, hall, rfl⟩ := tokenize_eq_ok_iff.mp h
  obtain ⟨found, marker, hplace, hmarker, -, hfound⟩ :=
    Segment.segmented_of_readAll hall filename .first
  rw [hplace]
  exact Marked.append hfound.not_isEnd (.marker (decide_eq_true hmarker))

/-- A source that has no tokens has a lexical fault. -/
theorem lexical_of_tokenize {fault : Fault} (h : tokenize source filename = .error fault) :
    ∃ cause position, fault = .lexical cause ⟨position, filename⟩ := by
  obtain ⟨segments, m, -, rfl⟩ := tokenize_eq_error_iff.mp h
  exact ⟨m.cause, _, rfl⟩

namespace Parser

/-- The parser stands at the first of some marked tokens and has recorded
    nothing. -/
structure Begins (p : Parser) (tokens : List Token) : Prop where
  diagnostics : p.diagnostics = []
  passed : p.stream.passed = []
  remaining : p.stream.remaining = tokens
  marked : Marked tokens

theorem Begins.marked_remaining {p : Parser} {tokens : List Token} (h : p.Begins tokens) :
    Marked p.stream.remaining := by
  rw [h.remaining]
  exact h.marked

/-- Every fault of a driven parser blames one of the tokens that it began
    with. -/
theorem Begins.exists_blames {p q : Parser} {tokens : List Token} (h : p.Begins tokens)
    (hdriven : p.Driven q) {fault : Fault} (hfault : fault ∈ q.diagnostics) :
    ∃ t ∈ tokens, fault.Blames t := by
  rw [← h.remaining]
  exact hdriven.exists_blames h.marked_remaining h.diagnostics hfault

/-- A source that has tokens has a parser. -/
theorem ofSource_of_tokenize {tokens : List Token} (h : tokenize source filename = .ok tokens) :
    ∃ p, ofSource source filename = .ok p ∧ p.Begins tokens := by
  have hmarked := marked_of_tokenize h
  obtain ⟨p, hp, hdiagnostics, hpassed, hremaining⟩ := ofTokens_of_ne_nil hmarked.ne_nil
  refine ⟨p, ?_, hdiagnostics, hpassed, hremaining, hmarked⟩
  rw [ofSource, h]
  exact hp

theorem exists_tokenize_of_ofSource {p : Parser} (hp : ofSource source filename = .ok p) :
    ∃ tokens, tokenize source filename = .ok tokens ∧ p.Begins tokens := by
  cases h : tokenize source filename with
  | error fault =>
      rw [ofSource, h] at hp
      cases hp
  | ok tokens =>
      obtain ⟨q, hq, hbegins⟩ := ofSource_of_tokenize h
      rw [hp] at hq
      rw [Except.ok.inj hq]
      exact ⟨tokens, rfl, hbegins⟩

theorem ofSource_eq_error_iff {fault : Fault} :
    ofSource source filename = .error fault ↔ tokenize source filename = .error fault := by
  cases h : tokenize source filename with
  | error f => simp only [ofSource, h, Except.error.injEq]
  | ok tokens =>
      obtain ⟨p, hp, -⟩ := ofSource_of_tokenize h
      simp only [hp, reduceCtorEq]

end Parser

/-- What a source cannot be parsed for is what it cannot be tokenized for. -/
theorem parseSource_eq_error_iff {fault : Fault} :
    parseSource source filename = .error fault ↔ tokenize source filename = .error fault := by
  rw [← Parser.ofSource_eq_error_iff, parseSource]
  cases Parser.ofSource source filename with
  | error f => simp only [Except.error.injEq]
  | ok p => simp only [reduceCtorEq]

end BraceLang
