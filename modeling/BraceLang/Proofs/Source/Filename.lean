import BraceLang.Proofs.Parser.Labels
import BraceLang.Proofs.Source.Beginning

/-! # Filenames — a source under another name

    The name of a source is a label that the lexer puts on every location and
    that everything behind the lexer copies.  Under another name a source has
    the same tokens, nodes and faults at the same places, and all their
    locations carry the other name (`filename_labels`).  Having no name and
    having an empty one are two different labels. -/

namespace BraceLang

namespace Relabeling

/-- The given name in every location, and nothing else changed. -/
def naming (name : Option String) : Relabeling where
  text := id
  location := fun location => { location with filename := name }

variable (ρ : Relabeling)

/-- Where the texts stay, the nodes stay. -/
theorem node_of_text_id (h : ρ.text = id) (node : Node) : ρ.node node = node := by
  induction node with
  | functionDecl name parameters body ih =>
      rw [Relabeling.node, ih, h, List.map_id]
      rfl
  | variableDecl name initial ih =>
      rw [Relabeling.node, ih, h]
      rfl
  | expression e =>
      rw [Relabeling.node, expression, h]
      rfl

theorem nodes_of_text_id (h : ρ.text = id) (nodes : List Node) :
    nodes.map ρ.node = nodes := by
  have hid : ρ.node = id := funext (ρ.node_of_text_id h)
  rw [hid, List.map_id]

theorem answer_of_text_id (h : ρ.text = id) (answer : Parser.Answer) :
    ρ.answer answer = answer := by
  cases answer with
  | one node =>
      cases node with
      | none => rfl
      | some node => rw [Relabeling.answer, Option.map_some, ρ.node_of_text_id h]
  | nothing => rfl
  | all nodes => rw [Relabeling.answer, ρ.nodes_of_text_id h]

/-- An answer about a source, relabeled; `f` relabels its value. -/
def outcome {α β : Type} (f : α → β) : Except Fault α → Except Fault β
  | .ok a => .ok (f a)
  | .error fault => .error (ρ.fault fault)

theorem ofTokens_map (tokens : List Token) :
    Parser.ofTokens (tokens.map ρ.token) = ρ.outcome ρ.parser (Parser.ofTokens tokens) := by
  cases tokens with
  | nil => rfl
  | cons t rest => rfl

end Relabeling

open Relabeling

/-- The fault has a location, which carries the given name. -/
def Fault.Carries (name : Option String) (fault : Fault) : Prop :=
  ∃ location, fault.location? = some location ∧ location.filename = name

/-- Under the name `g` a source gives what it gives under the name `f`, with the
    name `g` in every location. -/
structure Renamed (source : String) (f g : Option String) : Prop where
  /-- The same tokens, or the same fault. -/
  tokens : tokenize source g
    = (naming g).outcome (List.map (naming g).token) (tokenize source f)
  /-- The same nodes. -/
  nodes : parseSource source g = (naming g).outcome id (parseSource source f)
  /-- The same answers to all calls, and the same faults recorded by them. -/
  calls : ∀ p, Parser.ofSource source f = .ok p →
    ∃ q, Parser.ofSource source g = .ok q ∧ ∀ calls, q.steps calls
      = (p.steps calls).map fun s => { s with recorded := s.recorded.map (naming g).fault }

/-- Every location that comes of a source carries the name of the source. -/
structure Labeled (source : String) (name : Option String) : Prop where
  tokens : ∀ tokens, tokenize source name = .ok tokens →
    ∀ t ∈ tokens, t.location.filename = name
  fault : ∀ fault, tokenize source name = .error fault → fault.Carries name
  diagnostics : ∀ p q, Parser.ofSource source name = .ok p → p.Driven q →
    ∀ fault ∈ q.diagnostics, fault.Carries name

/-! ## The lexer -/

namespace Segment

theorem token?_naming (s : Segment) (p : Position) (f g : Option String) :
    s.token? ⟨p, g⟩ = (s.token? ⟨p, f⟩).map (naming g).token := by
  cases s <;> rfl

theorem place_naming (f g : Option String) (p : Position) (segments : List Segment) :
    place g p segments = (place f p segments).map (naming g).token := by
  induction segments generalizing p with
  | nil => rfl
  | cons s segments ih =>
      rw [place, place, List.map_append, token?_naming s p f g, ih]
      cases s.token? ⟨p, f⟩ <;> rfl

end Segment

theorem tokenize_naming (source : String) (f g : Option String) :
    tokenize source g
      = (naming g).outcome (List.map (naming g).token) (tokenize source f) := by
  cases hall : Segment.readAll source.toList with
  | mk segments halted =>
  cases halted with
  | none =>
      rw [tokenize_of_readAll f hall, tokenize_of_readAll g hall, Segment.place_naming f g]
      rfl
  | some m =>
      rw [tokenize_of_readAll_malformed f hall, tokenize_of_readAll_malformed g hall]
      rfl

/-! ## The parser -/

theorem Parser.ofSource_naming (source : String) (f g : Option String) :
    Parser.ofSource source g
      = (naming g).outcome (naming g).parser (Parser.ofSource source f) := by
  rw [Parser.ofSource, Parser.ofSource, tokenize_naming source f g]
  cases tokenize source f with
  | error fault => rfl
  | ok tokens => exact (naming g).ofTokens_map tokens

theorem parseSource_naming (source : String) (f g : Option String) :
    parseSource source g = (naming g).outcome id (parseSource source f) := by
  rw [parseSource, parseSource, Parser.ofSource_naming source f g]
  cases Parser.ofSource source f with
  | error fault => rfl
  | ok p =>
      show Except.ok ((naming g).parser p).parseProgram.1 = Except.ok p.parseProgram.1
      rw [(naming g).parseProgram_relabeled, (naming g).nodes_of_text_id rfl]

theorem renamed (source : String) (f g : Option String) : Renamed source f g where
  tokens := tokenize_naming source f g
  nodes := parseSource_naming source f g
  calls := by
    intro p hp
    refine ⟨(naming g).parser p, ?_, ?_⟩
    · rw [Parser.ofSource_naming source f g, hp]
      rfl
    · intro calls
      have hstep : (naming g).step
          = fun s => { s with recorded := s.recorded.map (naming g).fault } := by
        funext s
        rw [step, (naming g).answer_of_text_id rfl]
      rw [(naming g).steps_relabeled p calls, hstep]

/-! ## The labels -/

/-- Every token of a source carries its name: naming the source as it is named
    already changes no token. -/
theorem filename_of_mem_tokenize {source : String} {name : Option String} {tokens : List Token}
    (h : tokenize source name = .ok tokens) {t : Token} (ht : t ∈ tokens) :
    t.location.filename = name := by
  have hsame := tokenize_naming source name name
  rw [h] at hsame
  rw [Except.ok.inj hsame] at ht
  obtain ⟨u, -, rfl⟩ := List.mem_map.mp ht
  rfl

theorem labeled (source : String) (name : Option String) : Labeled source name where
  tokens := fun _ h _ ht => filename_of_mem_tokenize h ht
  fault := by
    intro fault h
    obtain ⟨cause, position, rfl⟩ := lexical_of_tokenize h
    exact ⟨⟨position, name⟩, rfl, rfl⟩
  diagnostics := by
    intro p q hp hdriven fault hfault
    obtain ⟨tokens, htokens, hbegins⟩ := Parser.exists_tokenize_of_ofSource hp
    obtain ⟨t, ht, hblames⟩ := hbegins.exists_blames hdriven hfault
    exact ⟨t.location, hblames.location?, filename_of_mem_tokenize htokens ht⟩

/-- **Filenames.**  The name of a source changes nothing of what the source
    gives but the names in its locations, and there it is the name that was
    given. -/
theorem filename_labels (source : String) (f g : Option String) :
    Renamed source f g ∧ Labeled source f :=
  ⟨renamed source f g, labeled source f⟩

end BraceLang
