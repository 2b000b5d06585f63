import BraceLang.Parser
import BraceLang.Proofs.Grammar.Recognition

/-! # Programs — which token lists are read without a fault

    A program is read without a fault exactly if its tokens, the marker aside,
    are constructs one behind the other; its nodes are then those of the
    constructs.  In one direction the nodes of a fault-free reading cover all
    tokens (`constructs_of_faults_eq_nil`), in the other a row of constructs
    is read one by one (`program_of_constructs`). -/

namespace BraceLang

/-- A parser at the first of some tokens, if there is one. -/
theorem Parser.ofTokens_of_ne_nil {tokens : List Token} (h : tokens ≠ []) :
    ∃ p, Parser.ofTokens tokens = .ok p ∧ p.diagnostics = [] ∧ p.stream.passed = []
      ∧ p.stream.remaining = tokens := by
  cases tokens with
  | nil => exact absurd rfl h
  | cons t rest => exact ⟨⟨⟨[], t, rest⟩, []⟩, rfl, rfl, rfl, rfl⟩

namespace Grammar

theorem program_of_atEnd {s : TokenStream} (h : s.atEnd) : program s = ⟨[], [], s⟩ := by
  rw [program, dif_pos h]

theorem program_of_ok {s t : TokenStream} {node : Node} (hend : ¬ s.atEnd)
    (h : construct s = .ok node t) : program s = (program t).withNode node := by
  rw [program, dif_neg hend]
  split
  next node' t' hs =>
      rw [h] at hs
      cases hs
      rfl
  next fault t' hs =>
      rw [h] at hs
      cases hs

theorem program_of_error {s t : TokenStream} {fault : Fault} (hend : ¬ s.atEnd)
    (h : construct s = .error fault t) :
    program s = (program (resume s t)).withFault fault := by
  rw [program, dif_neg hend]
  split
  next node t' hs =>
      rw [h] at hs
      cases hs
  next fault' t' hs =>
      rw [h] at hs
      cases hs
      rfl

theorem reaches_of_construct_ok {s t : TokenStream} {node : Node}
    (h : construct s = .ok node t) : s.Reaches t := by
  have hreach := advances_construct s
  rw [h] at hreach
  exact hreach

theorem reaches_of_construct_error {s t : TokenStream} {fault : Fault}
    (h : construct s = .error fault t) : s.Reaches t := by
  have hreach := advances_construct s
  rw [h] at hreach
  exact hreach

/-- Reading a program only advances. -/
theorem reaches_program (s : TokenStream) : s.Reaches (program s).stream := by
  fun_induction program s with
  | case1 s hend => exact .refl s
  | case2 s hend node t hok ih => exact (reaches_of_construct_ok hok).trans ih
  | case3 s hend fault t herror ih =>
      exact ((reaches_of_construct_error herror).trans (reaches_resume s t)).trans ih

/-- Constructs one behind the other, with the node of each. -/
inductive Constructs : List Token → List Node → Prop where
  | nil : Constructs [] []
  | cons {piece rest : List Token} {node : Node} {nodes : List Node}
      (hpiece : Construct piece node) (hrest : Constructs rest nodes) :
      Constructs (piece ++ rest) (node :: nodes)

/-- A reading without a fault has used every token up to the marker. -/
theorem constructs_of_faults_eq_nil {s : TokenStream} (hs : Marked s.remaining)
    (h : (program s).faults = []) :
    ∃ body e, s.remaining = body ++ [e] ∧ Constructs body (program s).nodes := by
  fun_induction program s with
  | case1 s hend =>
      refine ⟨[], s.current, ?_, .nil⟩
      show s.current :: s.upcoming = [s.current]
      rw [TokenStream.upcoming_of_atEnd hs hend]
  | case2 s hend node t hok ih =>
      obtain ⟨piece, hpasses, hpiece⟩ := recognizes_construct.of_ok hs hok
      obtain ⟨body, e, hbody, hconstructs⟩ := ih (hpasses.marked hs) h
      refine ⟨piece ++ body, e, ?_, .cons hpiece hconstructs⟩
      rw [hpasses.remaining, hbody, List.append_assoc]
  | case3 s hend fault t herror ih => exact absurd h (List.cons_ne_nil _ _)

/-- A row of constructs up to the marker is read one by one. -/
theorem program_of_constructs {body : List Token} {nodes : List Node}
    (h : Constructs body nodes) {s : TokenStream} {e : Token} (hs : Marked s.remaining)
    (hsplit : s.remaining = body ++ [e]) :
    (program s).nodes = nodes ∧ (program s).faults = [] := by
  induction h generalizing s with
  | nil =>
      have hend : s.atEnd := by
        have hupcoming : s.upcoming = [] := (List.cons.inj hsplit).2
        simp [TokenStream.atEnd, hupcoming]
      rw [program_of_atEnd hend]
      exact ⟨rfl, rfl⟩
  | @cons piece rest node nodes hpiece hrest ih =>
      rw [List.append_assoc] at hsplit
      obtain ⟨t, hok, hpasses⟩ := recognizes_construct.takes hs hsplit hpiece
      have hrest' : t.remaining = rest ++ [e] :=
        List.append_cancel_left (hpasses.remaining.symm.trans hsplit)
      obtain ⟨hnodes, hfaults⟩ := ih (hpasses.marked hs) hrest'
      have hend : ¬ s.atEnd := by
        obtain ⟨t, front, rfl⟩ := hpiece.exists_cons
        exact hpasses.not_atEnd hs
      rw [program_of_ok hend hok]
      exact ⟨by rw [← hnodes]; rfl, hfaults⟩

/-- **Acceptance.**  A program is read without a fault exactly if its tokens up
    to the marker are constructs one behind the other.  Its nodes are then
    those of the constructs, one for each and in order. -/
theorem diagnostics_eq_nil_iff_constructs (body : List Token) (marker : Token)
    (hbody : ∀ t ∈ body, ¬ t.isEnd) (hmarker : marker.isEnd) :
    ∃ p, Parser.ofTokens (body ++ [marker]) = .ok p
      ∧ (p.parseProgram.2.diagnostics = [] ↔ ∃ nodes, Constructs body nodes)
      ∧ ∀ nodes, Constructs body nodes → p.parseProgram.1 = nodes := by
  have hmarked : Marked (body ++ [marker]) := Marked.append hbody (.marker hmarker)
  obtain ⟨p, hp, hdiagnostics, -, hremaining⟩ := Parser.ofTokens_of_ne_nil hmarked.ne_nil
  rw [← hremaining] at hmarked
  have hfaults : p.parseProgram.2.diagnostics = (program p.stream).faults := by
    show p.diagnostics ++ (program p.stream).faults = _
    rw [hdiagnostics, List.nil_append]
  refine ⟨p, hp, ?_, ?_⟩
  · rw [hfaults]
    constructor
    · intro h
      obtain ⟨body', e, hsplit, hconstructs⟩ := constructs_of_faults_eq_nil hmarked h
      -- both lists end with one marker, so what stands in front is the same
      have hbodies : body' = body :=
        (List.append_inj' (hsplit.symm.trans hremaining) rfl).1
      rw [hbodies] at hconstructs
      exact ⟨_, hconstructs⟩
    · rintro ⟨nodes, hconstructs⟩
      exact (program_of_constructs hconstructs hmarked hremaining).2
  · intro nodes hconstructs
    exact (program_of_constructs hconstructs hmarked hremaining).1

/-- A function with one parameter twice, and a variable, are read without a
    fault. -/
theorem diagnostics_eq_nil_of_function_variable :
    ∃ p, Parser.ofTokens [sample .funcKeyword "func", sample .identifier "f",
        sample .lparen "(", sample .identifier "a", sample .comma ",", sample .identifier "a",
        sample .rparen ")", sample .lbrace "\x7b", sample .number "1", sample .rbrace "\x7d",
        sample .letKeyword "let", sample .identifier "v", sample .equals "=",
        sample .string "s", sample .endOfInput "<EOF>"] = .ok p
      ∧ p.parseProgram.2.diagnostics = []
      ∧ p.parseProgram.1
        = [.functionDecl "f" ["a", "a"] (.expression ⟨.literal, "1"⟩),
          .variableDecl "v" (.expression ⟨.stringLiteral, "s"⟩)] := by
  have hrow : ClosedRow
      [sample .identifier "a", sample .comma ",", sample .identifier "a", sample .rparen ")"]
      ["a", "a"] := .nameComma rfl rfl (.name rfl (.close rfl))
  have hfunction : Construct
      [sample .funcKeyword "func", sample .identifier "f", sample .lparen "(",
        sample .identifier "a", sample .comma ",", sample .identifier "a", sample .rparen ")",
        sample .lbrace "\x7b", sample .number "1", sample .rbrace "\x7d"]
      (.functionDecl "f" ["a", "a"] (.expression ⟨.literal, "1"⟩)) :=
    .functionDecl rfl rfl rfl hrow rfl (.literal (.inl rfl)) rfl
  have hvariable : Construct
      [sample .letKeyword "let", sample .identifier "v", sample .equals "=", sample .string "s"]
      (.variableDecl "v" (.expression ⟨.stringLiteral, "s"⟩)) :=
    .variableDecl rfl rfl rfl (.string rfl)
  have hconstructs := Constructs.cons hfunction (.cons hvariable .nil)
  obtain ⟨p, hp, hiff, hnodes⟩ := diagnostics_eq_nil_iff_constructs
    [sample .funcKeyword "func", sample .identifier "f", sample .lparen "(",
      sample .identifier "a", sample .comma ",", sample .identifier "a", sample .rparen ")",
      sample .lbrace "\x7b", sample .number "1", sample .rbrace "\x7d",
      sample .letKeyword "let", sample .identifier "v", sample .equals "=", sample .string "s"]
    (sample .endOfInput "<EOF>") (by decide) rfl
  exact ⟨p, hp, hiff.mpr ⟨_, hconstructs⟩, hnodes _ hconstructs⟩

end Grammar

end BraceLang
