import BraceLang.Proofs.Grammar.LastToken
import BraceLang.Proofs.Parser.Calls
import Mathlib.Data.List.Forall2

/-! # The last token — calls on tokens that have no end marker

    With an end marker in place of the last token, every row of calls answers
    the same and records as many faults, exactly if the tokens do not end in a
    variable whose value is the last token (`steps_of_unmarked`).  The call
    that reads such a variable returns it, with the text of the sign `=` in
    place of the value, where it should record a fault; a number that stands at
    the end shows it (`steps_of_unmarked_number`).

    All other nodes have the texts of tokens that were taken, each of the kind
    that its place in the construct asks for. -/

namespace BraceLang

/-- Some tokens end in a variable whose value is the last token, and the node
    that is read there. -/
def Token.EndsInVariable (tokens : List Token) (node : Node) : Prop :=
  ∃ piece, piece <:+ tokens ∧ Grammar.LastVariable piece node

namespace Parser

/-- The calls answered the same and recorded as many faults. -/
def Step.Matches (a b : Step) : Prop :=
  a.answer = b.answer ∧ a.recorded.length = b.recorded.length

/-- The first call read one more node than the second, behind all others, and
    recorded one fault less. -/
inductive Step.HasExtra (node : Node) (a b : Step) : Prop where
  | parse (ha : a.answer = .one (some node)) (hb : b.answer = .one none)
      (hrecorded : b.recorded.length = a.recorded.length + 1)
  | parseProgram {nodes : List Node} (ha : a.answer = .all (nodes ++ [node]))
      (hb : b.answer = .all nodes) (hrecorded : b.recorded.length = a.recorded.length + 1)

/-- What a call answers and records. -/
def step (p : Parser) (c : Call) : Step :=
  { answer := (p.call c).1
    recorded := (p.call c).2.diagnostics.drop p.diagnostics.length
    total := (p.call c).2.diagnostics.length }

theorem steps_cons (p : Parser) (c : Call) (calls : List Call) :
    p.steps (c :: calls) = p.step c :: (p.call c).2.steps calls := rfl

/-- Every node has the texts of tokens that the call took, or is the variable at
    the end of the tokens. -/
structure NamesTokens (tokens : List Token) (p : Parser) : Prop where
  one : ∀ node, p.parse.1 = some node → Token.EndsInVariable tokens node
    ∨ ∃ piece, p.stream.Passes piece p.parse.2.stream ∧ Grammar.Construct piece node
  all : ∀ node ∈ p.parseProgram.1, Token.EndsInVariable tokens node
    ∨ ∃ front piece back, p.stream.Passes (front ++ piece ++ back) p.parseProgram.2.stream
      ∧ Grammar.Construct piece node

-- ── One call ─────────────────────────────────────────────────────────────

theorem step_of_ok {p : Parser} {s : TokenStream} {node : Node} (hend : ¬ p.stream.atEnd)
    (h : Grammar.construct p.stream = .ok node s) :
    (p.step .parse).answer = .one (some node) ∧ (p.step .parse).recorded = [] := by
  rw [step, call, parse_of_ok hend h]
  exact ⟨rfl, List.drop_length⟩

theorem step_of_error {p : Parser} {s : TokenStream} {fault : Fault} (hend : ¬ p.stream.atEnd)
    (h : Grammar.construct p.stream = .error fault s) :
    (p.step .parse).answer = .one none ∧ (p.step .parse).recorded = [fault] := by
  rw [step, call, parse_of_error hend h]
  exact ⟨rfl, List.drop_left⟩

theorem recorded_step_parseProgram (p : Parser) :
    (p.step .parseProgram).recorded = (Grammar.program p.stream).faults := by
  rw [step, call, parseProgram]
  exact List.drop_left

theorem recorded_step_synchronize (p : Parser) : (p.step .synchronize).recorded = [] := by
  rw [step, call, synchronize]
  exact List.drop_length

section

open Grammar

variable {last : Token} (hlast : last.isEnd) {p q : Parser}

include hlast

theorem step_parse_withLast (hstream : q.stream = p.stream.withLast last) :
    q.parse.2.stream = p.parse.2.stream.withLast last
      ∧ ((p.step .parse).Matches (q.step .parse)
        ∨ ∃ node, LastVariable p.stream.remaining node
          ∧ (p.step .parse).HasExtra node (q.step .parse)) := by
  by_cases hend : p.stream.atEnd
  · have hend' : q.stream.atEnd := by
      rw [hstream]
      exact (Ending.withLast last).atEnd hend
    have hp : p.parse = (none, p) := if_pos hend
    have hq : q.parse = (none, q) := if_pos hend'
    refine ⟨?_, .inl ?_⟩
    · rw [hp, hq]
      exact hstream
    · rw [Step.Matches, step, step, call, call, hp, hq, List.drop_length, List.drop_length]
      exact ⟨rfl, rfl⟩
  have hend' : ¬ q.stream.atEnd := by
    rw [hstream]
    exact (Ending.withLast last).not_atEnd hend
  rcases construct_withLast_cases hlast hend with
    ⟨-, hagree⟩ | ⟨node, t, fault, hnode, hs, -, hs'⟩
  · rw [← hstream] at hagree
    generalize hx : construct p.stream = x at hagree
    generalize hy : construct q.stream = y at hagree
    cases hagree with
    | ok node t =>
        obtain ⟨hanswer, hrecorded⟩ := step_of_ok hend hx
        obtain ⟨hanswer', hrecorded'⟩ := step_of_ok hend' hy
        rw [parse_of_ok hend hx, parse_of_ok hend' hy]
        refine ⟨rfl, .inl ?_⟩
        rw [Step.Matches, hanswer, hanswer', hrecorded, hrecorded']
        exact ⟨rfl, rfl⟩
    | @error f g t heq =>
        obtain ⟨hanswer, hrecorded⟩ := step_of_error hend hx
        obtain ⟨hanswer', hrecorded'⟩ := step_of_error hend' hy
        rw [parse_of_error hend hx, parse_of_error hend' hy]
        refine ⟨rfl, .inl ?_⟩
        rw [Step.Matches, hanswer, hanswer', hrecorded, hrecorded']
        exact ⟨rfl, rfl⟩
  · rw [← hstream] at hs'
    obtain ⟨hanswer, hrecorded⟩ := step_of_ok hend hs
    obtain ⟨hanswer', hrecorded'⟩ := step_of_error hend' hs'
    rw [parse_of_ok hend hs, parse_of_error hend' hs']
    refine ⟨rfl, .inr ⟨node, hnode, .parse hanswer hanswer' ?_⟩⟩
    rw [hrecorded, hrecorded']
    rfl

theorem step_parseProgram_withLast (hstream : q.stream = p.stream.withLast last) :
    (∀ u ∈ attempts p.stream, ∀ node, ¬ LastVariable u.remaining node)
        ∧ (p.step .parseProgram).Matches (q.step .parseProgram)
      ∨ ∃ u ∈ attempts p.stream, ∃ node, LastVariable u.remaining node
        ∧ (p.step .parseProgram).HasExtra node (q.step .parseProgram) := by
  have hp := p.recorded_step_parseProgram
  have hq := q.recorded_step_parseProgram
  have hanswer : (p.step .parseProgram).answer = .all (program p.stream).nodes := rfl
  have hanswer' : (q.step .parseProgram).answer = .all (program q.stream).nodes := rfl
  rw [hstream] at hq hanswer'
  rcases program_withLast hlast p.stream with
    ⟨hnever, hnodes, hfaults⟩ | ⟨u, hu, node, hnode, hnodes, hfaults⟩
  · refine .inl ⟨hnever, ?_⟩
    rw [Step.Matches, hanswer, hanswer', hp, hq, hnodes, hfaults]
    exact ⟨rfl, rfl⟩
  · refine .inr ⟨u, hu, node, hnode, .parseProgram ?_ hanswer' ?_⟩
    · rw [hanswer, hnodes]
    · rw [hp, hq, hfaults]

/-- Each call keeps the parsers at the same place, and gives the same unless it
    reads a variable whose value would be the last token. -/
theorem step_withLast (hstream : q.stream = p.stream.withLast last) (c : Call) :
    (q.call c).2.stream = (p.call c).2.stream.withLast last
      ∧ ((p.step c).Matches (q.step c)
        ∨ ∃ node, Token.EndsInVariable p.stream.remaining node
          ∧ (p.step c).HasExtra node (q.step c)) := by
  cases c with
  | parse =>
      obtain ⟨hnext, hcases⟩ := step_parse_withLast hlast hstream
      refine ⟨hnext, hcases.imp_right ?_⟩
      rintro ⟨node, hnode, hextra⟩
      exact ⟨node, ⟨_, List.suffix_rfl, hnode⟩, hextra⟩
  | synchronize =>
      refine ⟨?_, .inl ⟨rfl, ?_⟩⟩
      · show q.stream.synchronize = _
        rw [hstream]
        exact (Ending.withLast last).synchronize_eq p.stream
      · rw [recorded_step_synchronize, recorded_step_synchronize]
  | parseProgram =>
      refine ⟨?_, ?_⟩
      · show (program q.stream).stream = _
        rw [hstream]
        exact stream_program_withLast hlast p.stream
      · rcases step_parseProgram_withLast hlast hstream with
          ⟨-, hmatches⟩ | ⟨u, hu, node, hnode, hextra⟩
        · exact .inl hmatches
        · obtain ⟨taken, hpasses⟩ := (reaches_of_mem_attempts hu).2.1.exists_passes
          refine .inr ⟨node, ⟨u.remaining, ?_, hnode⟩, hextra⟩
          rw [hpasses.remaining]
          exact List.suffix_append taken u.remaining

end

-- ── Rows of calls ────────────────────────────────────────────────────────

theorem Step.HasExtra.not_matches {node : Node} {a b : Step} (h : a.HasExtra node b) :
    ¬ a.Matches b := by
  rintro ⟨-, hlength⟩
  cases h with
  | parse _ _ hrecorded => omega
  | parseProgram _ _ hrecorded => omega

end Parser

theorem Token.EndsInVariable.of_suffix {ts us : List Token} {node : Node}
    (h : EndsInVariable ts node) (hsuffix : ts <:+ us) : EndsInVariable us node := by
  obtain ⟨piece, hpiece, hnode⟩ := h
  exact ⟨piece, hpiece.trans hsuffix, hnode⟩

theorem TokenStream.Reaches.remaining_suffix {s t : TokenStream} (h : s.Reaches t) :
    t.remaining <:+ s.remaining := by
  obtain ⟨taken, hpasses⟩ := h.exists_passes
  rw [hpasses.remaining]
  exact List.suffix_append taken t.remaining

namespace Parser

section

open Grammar

variable {tokens : List Token} {last : Token} (hlast : last.isEnd) {p q : Parser}

include hlast

/-- By induction on the calls: what is left to read is always the end of the
    tokens. -/
theorem steps_withLast (hsuffix : p.stream.remaining <:+ tokens)
    (hstream : q.stream = p.stream.withLast last) (calls : List Call) :
    List.Forall₂ (fun a b => a.Matches b
        ∨ ∃ node, Token.EndsInVariable tokens node ∧ a.HasExtra node b)
      (p.steps calls) (q.steps calls) := by
  induction calls generalizing p q with
  | nil => exact .nil
  | cons c calls ih =>
      obtain ⟨hnext, hcases⟩ := step_withLast hlast hstream c
      rw [steps_cons, steps_cons]
      refine .cons (hcases.imp_right ?_) (ih ?_ hnext)
      · rintro ⟨node, hnode, hextra⟩
        exact ⟨node, hnode.of_suffix hsuffix, hextra⟩
      · exact (p.reaches_call c).remaining_suffix.trans hsuffix

theorem matches_iff (hp : p.stream.passed = []) (hmark : ∀ t ∈ p.stream.remaining, ¬ t.isEnd)
    (hstream : q.stream = p.stream.withLast last) :
    (∀ calls, List.Forall₂ Step.Matches (p.steps calls) (q.steps calls))
      ↔ ∀ node, ¬ Token.EndsInVariable p.stream.remaining node := by
  constructor
  · rintro hmatches node ⟨piece, hpiece, hnode⟩
    obtain ⟨u, hu, hremaining⟩ := exists_attempt_of_lastVariable hlast hp hmark hpiece hnode
    rw [← hremaining] at hnode
    cases hmatches [.parseProgram] with
    | cons hstep _ =>
        rcases step_parseProgram_withLast hlast hstream with
          ⟨hnever, -⟩ | ⟨_, _, _, _, hextra⟩
        · exact hnever u hu node hnode
        · exact hextra.not_matches hstep
  · intro hnone calls
    refine (steps_withLast hlast List.suffix_rfl hstream calls).imp ?_
    rintro a b (hmatches | ⟨node, hnode, -⟩)
    · exact hmatches
    · exact absurd hnode (hnone node)

theorem marked_of_reaches {s t : TokenStream} (h : s.Reaches t)
    (hmark : ∀ x ∈ s.remaining, ¬ x.isEnd) : Marked (t.withLast last).remaining := by
  refine marked_withLast hlast ?_
  intro x hx
  exact hmark x (h.remaining_suffix.subset hx)

theorem namesTokens {r : Parser} (hp : p.stream.Reaches r.stream)
    (hmark : ∀ t ∈ p.stream.remaining, ¬ t.isEnd) : r.NamesTokens p.stream.remaining where
  one := by
    intro node hanswer
    have hparsed := r.parsed
    generalize r.parse = answer at hanswer hparsed
    cases hparsed with
    | atEnd hend => cases hanswer
    | misread hend h => cases hanswer
    | @read node' t hend h =>
        cases hanswer
        exact (lastVariable_or_construct hlast (marked_of_reaches hlast hp hmark) hend h).imp_left
          fun hnode => ⟨_, hp.remaining_suffix, hnode⟩
  all := by
    intro node hmem
    have hnodes : r.parseProgram.1 = (attempts r.stream).filterMap node? :=
      nodes_eq_filterMap_attempts r.stream
    rw [hnodes] at hmem
    obtain ⟨u, hu, hnode⟩ := List.mem_filterMap.mp hmem
    obtain ⟨hend, hreach, hover⟩ := reaches_of_mem_attempts hu
    obtain ⟨t, ht⟩ := node?_eq_some_iff.mp hnode
    rw [following_of_ok ht] at hover
    have hup := hp.trans hreach
    rcases lastVariable_or_construct hlast (marked_of_reaches hlast hup hmark) hend ht with
      hvariable | ⟨piece, hpiece, hconstruct⟩
    · exact .inl ⟨_, hup.remaining_suffix, hvariable⟩
    · obtain ⟨front, hfront⟩ := hreach.exists_passes
      obtain ⟨back, hback⟩ := hover.exists_passes
      exact .inr ⟨front, piece, back, (hfront.trans hpiece).trans hback, hconstruct⟩

end

/-- **The last token.**  Some tokens without an end marker are read like the
    tokens with a marker in place of the last one, exactly if they do not end in
    a variable whose value is the last token.  That variable is the one answer
    that differs, and all other nodes have the texts of tokens that were taken. -/
theorem steps_of_unmarked {tokens : List Token} (hne : tokens ≠ [])
    (hmark : ∀ t ∈ tokens, ¬ t.isEnd) {last : Token} (hlast : last.isEnd) :
    ∃ p q, ofTokens tokens = .ok p ∧ ofTokens (tokens.dropLast ++ [last]) = .ok q
      ∧ ((∀ calls, List.Forall₂ Step.Matches (p.steps calls) (q.steps calls))
        ↔ ∀ node, ¬ Token.EndsInVariable tokens node)
      ∧ (∀ calls, List.Forall₂ (fun a b => a.Matches b
          ∨ ∃ node, Token.EndsInVariable tokens node ∧ a.HasExtra node b)
        (p.steps calls) (q.steps calls))
      ∧ ∀ r, p.Driven r → r.NamesTokens tokens := by
  obtain ⟨first, rest, rfl⟩ := List.exists_cons_of_ne_nil hne
  let s : TokenStream := ⟨[], first, rest⟩
  have hq : ofTokens ((first :: rest).dropLast ++ [last]) = .ok ⟨s.withLast last, []⟩ := by
    cases rest with
    | nil => rfl
    | cons t rest => rfl
  refine ⟨⟨s, []⟩, ⟨s.withLast last, []⟩, rfl, hq, ?_, ?_, ?_⟩
  · exact matches_iff hlast rfl hmark rfl
  · exact steps_withLast hlast List.suffix_rfl rfl
  · exact fun r hr => namesTokens hlast hr.reaches hmark

/-- A function whose closing brace is the last token: with the brace or with a
    marker there, every call gives the same. -/
theorem steps_of_unmarked_function :
    let tokens := [Grammar.sample .funcKeyword "func", Grammar.sample .identifier "f",
      Grammar.sample .lparen "(", Grammar.sample .rparen ")", Grammar.sample .lbrace "\x7b",
      Grammar.sample .number "1", Grammar.sample .rbrace "\x7d"]
    tokens ≠ [] ∧ (∀ t ∈ tokens, ¬ t.isEnd) ∧ (Grammar.sample .endOfInput "<EOF>").isEnd
      ∧ ∃ p q, ofTokens tokens = .ok p
        ∧ ofTokens (tokens.dropLast ++ [Grammar.sample .endOfInput "<EOF>"]) = .ok q
        ∧ ∀ calls, List.Forall₂ Step.Matches (p.steps calls) (q.steps calls) := by
  intro tokens
  have hne : tokens ≠ [] := List.cons_ne_nil _ _
  have hmark : ∀ t ∈ tokens, ¬ t.isEnd := by decide
  have hlast : (Grammar.sample .endOfInput "<EOF>").isEnd := rfl
  obtain ⟨p, q, hp, hq, hiff, -, -⟩ := steps_of_unmarked hne hmark hlast
  refine ⟨hne, hmark, hlast, p, q, hp, hq, hiff.mpr ?_⟩
  rintro node ⟨piece, hpiece, hnode⟩
  cases hnode with
  | intro hlet hname hequals hvalue =>
      -- four tokens from the end there is a parenthesis
      have hdrop := List.suffix_iff_eq_drop.mp hpiece
      rw [(List.cons.inj hdrop).1] at hlet
      cases hlet

/-- A number in the last place is read as the value of a variable, with the
    text of the sign in front of it, where an end marker is a fault. -/
theorem steps_of_unmarked_number :
    let front := [Grammar.sample .letKeyword "let", Grammar.sample .identifier "x",
      Grammar.sample .equals "="]
    ∃ p q, ofTokens (front ++ [Grammar.sample .number "5"]) = .ok p
      ∧ ofTokens (front ++ [Grammar.sample .endOfInput "<EOF>"]) = .ok q
      ∧ (p.step .parse).answer = .one (some (.variableDecl "x" (.expression ⟨.literal, "="⟩)))
      ∧ (q.step .parse).answer = .one none
      ∧ (p.step .parse).recorded.length = 0 ∧ (q.step .parse).recorded.length = 1
      ∧ ¬ (p.step .parse).Matches (q.step .parse) := by
  refine ⟨_, _, rfl, rfl, rfl, rfl, rfl, rfl, ?_⟩
  rintro ⟨-, hlength⟩
  cases hlength

end Parser

end BraceLang
