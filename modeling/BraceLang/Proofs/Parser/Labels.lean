import BraceLang.Parser
import BraceLang.Proofs.Grammar.Relabel

/-! # Labels — a parser looks at the kinds of its tokens only

    Two parsers whose tokens have the same kinds stay in step through every
    row of calls: what the second one answers and records is what the first one
    does, with the labels of the second one's tokens (`steps_of_relabeled`).
    So texts and locations are carried from the tokens to the nodes and faults,
    and decide nothing. -/

namespace BraceLang

namespace Relabeling

variable (ρ : Relabeling)

/-- The parser of the relabeled tokens. -/
def parser (p : Parser) : Parser :=
  ⟨ρ.stream p.stream, p.diagnostics.map ρ.fault⟩

/-- The answer with its nodes relabeled. -/
def answer : Parser.Answer → Parser.Answer
  | .one node => .one (node.map ρ.node)
  | .nothing => .nothing
  | .all nodes => .all (nodes.map ρ.node)

/-- What a call answered and recorded, relabeled. -/
def step (s : Parser.Step) : Parser.Step :=
  { answer := ρ.answer s.answer, recorded := s.recorded.map ρ.fault, total := s.total }

theorem parse_relabeled (p : Parser) :
    (ρ.parser p).parse = (p.parse.1.map ρ.node, ρ.parser p.parse.2) := by
  have hmaps : Grammar.construct (ρ.parser p).stream = _ := ρ.maps_construct p.stream
  rw [Parser.parse, Parser.parse, hmaps, show (ρ.parser p).stream.atEnd = _ from ρ.atEnd_stream _]
  split
  next => rfl
  next =>
      cases Grammar.construct p.stream with
      | ok node s => rfl
      | error fault s =>
          simp only [result, parser, Option.map_none, List.map_append, List.map_cons, List.map_nil]

theorem parseProgram_relabeled (p : Parser) :
    (ρ.parser p).parseProgram = (p.parseProgram.1.map ρ.node, ρ.parser p.parseProgram.2) := by
  have hprogram : Grammar.program (ρ.parser p).stream = _ := ρ.program_stream p.stream
  rw [Parser.parseProgram, Parser.parseProgram, hprogram]
  simp only [reading, parser, List.map_append]

/-- Each call keeps the parsers in step. -/
theorem call_relabeled (p : Parser) (c : Parser.Call) :
    (ρ.parser p).call c = (ρ.answer (p.call c).1, ρ.parser (p.call c).2) := by
  cases c with
  | parse =>
      rw [Parser.call, ρ.parse_relabeled p]
      rfl
  | synchronize =>
      rw [Parser.call, Parser.synchronize, show (ρ.parser p).stream.synchronize = _ from
        ρ.synchronize_stream p.stream]
      rfl
  | parseProgram =>
      rw [Parser.call, ρ.parseProgram_relabeled p]
      rfl

/-- So does every row of calls. -/
theorem steps_relabeled (p : Parser) (calls : List Parser.Call) :
    (ρ.parser p).steps calls = (p.steps calls).map ρ.step := by
  induction calls generalizing p with
  | nil => rfl
  | cons c rest ih =>
      have hdiagnostics : ∀ q : Parser, (ρ.parser q).diagnostics = q.diagnostics.map ρ.fault :=
        fun _ => rfl
      rw [Parser.steps, Parser.steps, List.map_cons, ρ.call_relabeled p c, ih, step]
      simp only [hdiagnostics, List.length_map, List.map_drop]

end Relabeling

namespace Parser

/-- **Labels.**  With other texts and locations at the same kinds, every row of
    calls gets the same answers with the other texts in their nodes, and
    records the same faults at the other locations. -/
theorem steps_of_relabeled (ρ : Relabeling) (first : Token) (rest : List Token)
    (calls : List Call) :
    ∃ p q, ofTokens (first :: rest) = .ok p ∧ ofTokens ((first :: rest).map ρ.token) = .ok q
      ∧ q.steps calls = (p.steps calls).map ρ.step :=
  ⟨⟨⟨[], first, rest⟩, []⟩, ρ.parser ⟨⟨[], first, rest⟩, []⟩, rfl, rfl,
    ρ.steps_relabeled _ calls⟩

end Parser

end BraceLang
