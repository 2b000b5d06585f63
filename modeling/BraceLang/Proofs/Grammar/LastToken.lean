import BraceLang.Proofs.Grammar.Attempt
import BraceLang.Proofs.Grammar.Ending

/-! # The last token — reading tokens that have no end marker

    Reading is over on the last token, whatever it is, so the last token could
    as well be an end marker (`Ending.withLast`).  Every attempt agrees with
    that but one: a variable whose value would be the last token
    (`LastVariable`) is read, with the sign `=` in place of the value, where an
    end marker is a fault (`construct_withLast_cases`).

    So a program without an end marker has the nodes and the number of faults
    that it has with one, or, if its tokens end in such a variable, a node more
    and a fault less (`program_withLast`). -/

namespace BraceLang

/-- The stream with another last token. -/
def TokenStream.withLast (s : TokenStream) (last : Token) : TokenStream :=
  match s.upcoming with
  | [] => { s with current := last }
  | _ :: _ => { s with upcoming := s.upcoming.dropLast ++ [last] }

namespace TokenStream

theorem atEnd_of_last {s : TokenStream} (h : s.upcoming = []) : s.atEnd := by
  rw [atEnd, h]
  rfl

variable (last : Token)

theorem passed_withLast (s : TokenStream) : (s.withLast last).passed = s.passed := by
  obtain ⟨passed, current, upcoming⟩ := s
  cases upcoming with
  | nil => rfl
  | cons t rest => rfl

theorem remaining_withLast (s : TokenStream) :
    (s.withLast last).remaining = s.remaining.dropLast ++ [last] := by
  obtain ⟨passed, current, upcoming⟩ := s
  cases upcoming with
  | nil => rfl
  | cons t rest => rfl

theorem current_withLast {s : TokenStream} (h : s.upcoming ≠ []) :
    (s.withLast last).current = s.current := by
  obtain ⟨passed, current, upcoming⟩ := s
  cases upcoming with
  | nil => exact absurd rfl h
  | cons t rest => rfl

theorem current_withLast_of_last {s : TokenStream} (h : s.upcoming = []) :
    (s.withLast last).current = last := by
  rw [withLast, h]

theorem atEnd_withLast (s : TokenStream) : (s.withLast last).atEnd = s.atEnd := by
  obtain ⟨passed, current, upcoming⟩ := s
  cases upcoming with
  | nil => rfl
  | cons t rest =>
      show (((t :: rest).dropLast ++ [last]).isEmpty || current.isEnd) = current.isEnd
      cases rest with
      | nil => rfl
      | cons u rest => rfl

theorem advance_withLast (s : TokenStream) :
    (s.withLast last).advance = s.advance.withLast last := by
  by_cases hend : s.atEnd
  · have hend' : (s.withLast last).atEnd := by
      rw [atEnd_withLast]
      exact hend
    rw [advance_of_atEnd hend, advance_of_atEnd hend']
  · have hend' : ¬ (s.withLast last).atEnd := by
      rw [atEnd_withLast]
      exact hend
    rw [advance, advance, if_neg hend, if_neg hend']
    obtain ⟨passed, current, upcoming⟩ := s
    cases upcoming with
    | nil => exact absurd rfl hend
    | cons t rest =>
        cases rest with
        | nil => rfl
        | cons u rest => rfl

/-- The same tokens are left behind, since the last one never is. -/
theorem Passes.withLast {s t : TokenStream} {taken : List Token} (h : s.Passes taken t) :
    (s.withLast last).Passes taken (t.withLast last) := by
  refine ⟨?_, ?_⟩
  · rw [passed_withLast, passed_withLast, h.passed]
  · rw [remaining_withLast, remaining_withLast, h.remaining,
      List.dropLast_append_of_ne_nil t.remaining_ne_nil, List.append_assoc]

end TokenStream

/-- The ending with another last token. -/
def Ending.withLast (last : Token) : Ending where
  stream := (TokenStream.withLast · last)
  passed_eq := TokenStream.passed_withLast last
  atEnd_eq := TokenStream.atEnd_withLast last
  advance_eq := TokenStream.advance_withLast last
  current_eq := by
    intro s hend
    refine TokenStream.current_withLast last ?_
    intro hnil
    exact hend (TokenStream.atEnd_of_last hnil)

namespace Grammar

/-- A variable whose value would be the last token, and the node that is read:
    the text of the sign stands in place of the value. -/
inductive LastVariable : Shape Node where
  | intro {letToken name equals value : Token} {e : Expression}
      (hlet : letToken.kind = .letKeyword) (hname : name.kind = .identifier)
      (hequals : equals.kind = .equals) (hvalue : Atom value e) :
      LastVariable [letToken, name, equals, value]
        (.variableDecl name.text (.expression { e with value := equals.text }))

-- ── One attempt ──────────────────────────────────────────────────────────

/-- Where reading is over, an expression has the text of the token in front. -/
theorem expression_of_atEnd {s : TokenStream} {e : Expression} (hend : s.atEnd)
    (h : Atom s.current e) : expression s = .ok { e with value := s.previous.text } s := by
  have hadvance := TokenStream.advance_of_atEnd hend
  cases h with
  | literal h =>
      rcases h with h | h
      · simp only [expression, h, hadvance]
      · simp only [expression, h, hadvance]
  | string h => simp only [expression, h, hadvance]

/-- The head of a variable takes its keyword, its name and the sign. -/
theorem passes_of_variableHead {s t : TokenStream} {text : String}
    (h : variableHead s = .ok text t) :
    ¬ s.atEnd ∧ ∃ letToken name equals, letToken.kind = .letKeyword
      ∧ name.kind = .identifier ∧ equals.kind = .equals ∧ text = name.text
      ∧ s.Passes [letToken, name, equals] t := by
  obtain ⟨letToken, u, hlet, h⟩ := exists_of_bind_ok h
  obtain ⟨name, v, hname, h⟩ := exists_of_bind_ok h
  obtain ⟨equals, w, hequals, h⟩ := exists_of_bind_ok h
  cases h
  obtain ⟨hend, hletKind, hletPasses⟩ := of_expect_eq_ok hlet
  obtain ⟨-, hnameKind, hnamePasses⟩ := of_expect_eq_ok hname
  obtain ⟨-, hequalsKind, hequalsPasses⟩ := of_expect_eq_ok hequals
  exact ⟨hend, letToken, name, equals, hletKind, hnameKind, hequalsKind, rfl,
    hletPasses.trans (hnamePasses.trans hequalsPasses)⟩

/-- A token of its kind is taken if another token follows. -/
theorem expect_of_cons {kind : TokenKind} (message : String) {passed rest : List Token}
    {token next : Token} (hkind : token.kind = kind) (hmark : kind ≠ .endOfInput) :
    expect kind message ⟨passed, token, next :: rest⟩
      = .ok token ⟨token :: passed, next, rest⟩ := by
  have hend : ¬ TokenStream.atEnd ⟨passed, token, next :: rest⟩ := by
    intro h
    refine hmark ?_
    rw [← hkind]
    exact kind_of_isEnd h
  obtain ⟨t, ts, hupcoming, hadvance⟩ := TokenStream.advance_of_not_atEnd hend
  obtain ⟨rfl, rfl⟩ := List.cons.inj hupcoming
  rw [expect_of_eq message hend hkind, hadvance]

/-- Where a variable begins whose value would be the last token, its head is
    taken, and its value is read where reading is over. -/
theorem variableHead_of_lastVariable {s : TokenStream} {node : Node}
    (h : LastVariable s.remaining node) :
    s.current.kind = .letKeyword ∧ ∃ text t e, variableHead s = .ok text t ∧ t.upcoming = []
      ∧ Atom t.current e
      ∧ node = .variableDecl text (.expression { e with value := t.previous.text }) := by
  obtain ⟨passed, current, upcoming⟩ := s
  generalize hremaining : TokenStream.remaining ⟨passed, current, upcoming⟩ = ts at h
  cases h with
  | @intro letToken name equals value e hlet hname hequals hvalue =>
      obtain ⟨rfl, rfl⟩ := List.cons.inj hremaining
      refine ⟨hlet, name.text, ⟨[equals, name, current] ++ passed, value, []⟩, e, ?_, rfl, hvalue,
        rfl⟩
      rw [variableHead, bind_of_ok (expect_of_cons _ hlet (by decide)),
        bind_of_ok (expect_of_cons _ hname (by decide)),
        bind_of_ok (expect_of_cons _ hequals (by decide))]
      rfl

theorem construct_of_let {s : TokenStream} (h : s.current.kind = .letKeyword) :
    construct s = variableDeclaration s := by
  simp only [construct, h]

theorem not_atom_of_isEnd {t : Token} (h : t.isEnd) (e : Expression) : ¬ Atom t e := by
  intro hatom
  have hcases := hatom.kind_cases
  simp [kind_of_isEnd h] at hcases

/-- A variable whose value is no expression is misread there. -/
theorem construct_of_valueless {s t : TokenStream} {text : String}
    (hlet : s.current.kind = .letKeyword) (hhead : variableHead s = .ok text t)
    (hvalue : ∀ e, ¬ Atom t.current e) : ∃ fault, construct s = .error fault t := by
  rw [construct_of_let hlet, variableDeclaration_eq, bind_of_ok hhead,
    bind_of_error (expression_of_not_atom hvalue)]
  exact ⟨_, rfl⟩

/-- Where a construct is the same, the attempt gives the same node, or a fault
    each. -/
theorem attempt_of_agree {last : Token} {s : TokenStream}
    (h : (Ending.withLast last).Agree (construct s) (construct (s.withLast last))) :
    node? (s.withLast last) = node? s
      ∧ (fault? (s.withLast last)).toList.length = (fault? s).toList.length := by
  rw [node?, node?, fault?, fault?]
  generalize construct s = x at h
  generalize construct (s.withLast last) = y at h
  cases h with
  | ok node t => exact ⟨rfl, rfl⟩
  | error heq => exact ⟨rfl, rfl⟩

section

variable {last : Token} (hlast : last.isEnd) {s : TokenStream}

include hlast

/-- Behind the head of a variable, an end marker in place of the last token is
    no value. -/
theorem construct_withLast_of_head {t : TokenStream} {text : String}
    (hlet : s.current.kind = .letKeyword) (hhead : variableHead s = .ok text t)
    (hupcoming : t.upcoming = []) :
    ∃ fault, construct (s.withLast last) = .error fault (t.withLast last) := by
  have hcurrent : (s.withLast last).current = s.current :=
    (Ending.withLast last).current_eq s (passes_of_variableHead hhead).1
  rw [← hcurrent] at hlet
  have hhead' : variableHead (s.withLast last) = .ok text (t.withLast last) := by
    have hagree := (Ending.withLast last).agrees_variableHead s
    rw [hhead] at hagree
    generalize hr : variableHead ((Ending.withLast last).stream s) = r at hagree
    cases hagree with
    | ok => exact hr
  refine construct_of_valueless hlet hhead' ?_
  rw [TokenStream.current_withLast_of_last last hupcoming]
  exact not_atom_of_isEnd hlast

/-- A construct is the same with an end marker in place of the last token,
    unless it is a variable whose value would be that token. -/
theorem construct_withLast_cases (hend : ¬ s.atEnd) :
    (∀ node, ¬ LastVariable s.remaining node)
        ∧ (Ending.withLast last).Agree (construct s) (construct (s.withLast last))
      ∨ ∃ node t fault, LastVariable s.remaining node ∧ construct s = .ok node t ∧ t.atEnd
        ∧ construct (s.withLast last) = .error fault (t.withLast last) := by
  by_cases hvariable : ∃ node, LastVariable s.remaining node
  · obtain ⟨node, hnode⟩ := hvariable
    obtain ⟨hlet, text, t, e, hhead, hupcoming, hvalue, rfl⟩ := variableHead_of_lastVariable hnode
    obtain ⟨fault, hfault⟩ := construct_withLast_of_head hlast hlet hhead hupcoming
    have htend := TokenStream.atEnd_of_last hupcoming
    refine .inr ⟨_, t, fault, hnode, ?_, htend, hfault⟩
    rw [construct_of_let hlet, variableDeclaration_eq, bind_of_ok hhead,
      bind_of_ok (expression_of_atEnd htend hvalue)]
    rfl
  · refine .inl ⟨fun node hnode => hvariable ⟨node, hnode⟩, ?_⟩
    rcases (Ending.withLast last).agree_construct_or hend with hagree | ⟨hlet, text, t, hhead, hne⟩
    · exact hagree
    · -- the value would be the last token, which is no expression, or the variable were one
      have hupcoming : t.upcoming = [] :=
        Decidable.byContradiction fun h => hne (TokenStream.current_withLast last h)
      obtain ⟨-, letToken, name, equals, hletKind, hname, hequals, rfl, hpasses⟩ :=
        passes_of_variableHead hhead
      have hvalue : ∀ e, ¬ Atom t.current e := by
        intro e hatom
        have hremaining : s.remaining = [letToken, name, equals, t.current] := by
          rw [hpasses.remaining, TokenStream.remaining, hupcoming]
          rfl
        have hnode := LastVariable.intro hletKind hname hequals hatom
        rw [← hremaining] at hnode
        exact hvariable ⟨_, hnode⟩
      obtain ⟨fault, hs⟩ := construct_of_valueless hlet hhead hvalue
      obtain ⟨fault', hs'⟩ := construct_withLast_of_head hlast hlet hhead hupcoming
      rw [hs, hs']
      exact .error fun heq => absurd heq hne

-- ── Programs ─────────────────────────────────────────────────────────────

theorem following_withLast (hend : ¬ s.atEnd) :
    following (s.withLast last) = (following s).withLast last := by
  rcases construct_withLast_cases hlast hend with ⟨-, hagree⟩ | ⟨node, t, fault, -, hs, htend, hs'⟩
  · rw [following, following]
    generalize construct s = x at hagree ⊢
    generalize construct (s.withLast last) = y at hagree ⊢
    cases hagree with
    | ok node t => rfl
    | error heq => exact (Ending.withLast last).resume_eq s _
  · rw [following, following, hs, hs']
    exact resume_of_atEnd ((Ending.withLast last).atEnd htend)

/-- The attempts are at the same places. -/
theorem attempts_withLast (s : TokenStream) :
    attempts (s.withLast last) = (attempts s).map (TokenStream.withLast · last) := by
  fun_induction attempts s with
  | case1 s hend =>
      have hend' : (s.withLast last).atEnd := (Ending.withLast last).atEnd hend
      rw [attempts, dif_pos hend']
      rfl
  | case2 s hend ih =>
      have hend' : ¬ (s.withLast last).atEnd := (Ending.withLast last).not_atEnd hend
      rw [attempts, dif_neg hend', following_withLast hlast hend, ih]
      rfl

theorem stream_program_withLast (s : TokenStream) :
    (program (s.withLast last)).stream = (program s).stream.withLast last := by
  fun_induction attempts s with
  | case1 s hend =>
      have hend' : (s.withLast last).atEnd := (Ending.withLast last).atEnd hend
      rw [program_of_atEnd hend, program_of_atEnd hend']
  | case2 s hend ih =>
      have hend' : ¬ (s.withLast last).atEnd := (Ending.withLast last).not_atEnd hend
      rw [stream_program_of_not_atEnd hend, stream_program_of_not_atEnd hend',
        following_withLast hlast hend, ih]

/-- A program is the same with an end marker in place of the last token, up to
    what its faults say, unless its last attempt is at a variable whose value
    would be that token. -/
theorem program_withLast (s : TokenStream) :
    (∀ u ∈ attempts s, ∀ node, ¬ LastVariable u.remaining node)
        ∧ (program (s.withLast last)).nodes = (program s).nodes
        ∧ (program (s.withLast last)).faults.length = (program s).faults.length
      ∨ ∃ u ∈ attempts s, ∃ node, LastVariable u.remaining node
        ∧ (program s).nodes = (program (s.withLast last)).nodes ++ [node]
        ∧ (program (s.withLast last)).faults.length = (program s).faults.length + 1 := by
  fun_induction attempts s with
  | case1 s hend =>
      have hend' : (s.withLast last).atEnd := (Ending.withLast last).atEnd hend
      rw [program_of_atEnd hend, program_of_atEnd hend']
      exact .inl ⟨List.forall_mem_nil _, rfl, rfl⟩
  | case2 s hend ih =>
      have hend' : ¬ (s.withLast last).atEnd := (Ending.withLast last).not_atEnd hend
      obtain ⟨hnodes, hfaults⟩ := program_of_not_atEnd hend
      obtain ⟨hnodes', hfaults'⟩ := program_of_not_atEnd hend'
      rw [following_withLast hlast hend] at hnodes' hfaults'
      rw [hnodes, hnodes', hfaults, hfaults', List.length_append, List.length_append]
      rcases construct_withLast_cases hlast hend with
        ⟨hnone, hagree⟩ | ⟨node, t, fault, hnode, hs, htend, hs'⟩
      · obtain ⟨hsame, hcount⟩ := attempt_of_agree hagree
        rw [hsame, hcount]
        rcases ih with ⟨hnever, heq, hlength⟩ | ⟨u, hu, node, hnode, heq, hlength⟩
        · rw [heq, hlength]
          exact .inl ⟨List.forall_mem_cons.mpr ⟨hnone, hnever⟩, rfl, rfl⟩
        · rw [heq, hlength]
          refine .inr ⟨u, List.mem_cons_of_mem s hu, node, hnode, ?_, ?_⟩
          · rw [List.append_assoc]
          · rw [Nat.add_assoc]
      · -- the variable is over where reading is, so nothing comes behind it
        have hover := program_of_atEnd htend
        have hover' : program (t.withLast last) = _ :=
          program_of_atEnd ((Ending.withLast last).atEnd htend)
        have hnext : following s = t := following_of_ok hs
        refine .inr ⟨s, List.mem_cons_self, node, hnode, ?_, ?_⟩
        · rw [hnext, hover, hover', node?, node?, hs, hs']
          rfl
        · rw [hnext, hover, hover', fault?, fault?, hs, hs']
          rfl

-- ── Tokens without any end marker ────────────────────────────────────────

theorem marked_withLast {s : TokenStream} (h : ∀ t ∈ s.remaining, ¬ t.isEnd) :
    Marked (s.withLast last).remaining := by
  rw [TokenStream.remaining_withLast]
  refine Marked.append ?_ (.marker hlast)
  intro t ht
  exact h t (List.dropLast_subset _ ht)

/-- A variable at the end of the tokens is tried, like every declaration. -/
theorem exists_attempt_of_lastVariable {s : TokenStream} {piece : List Token} {node : Node}
    (hs : s.passed = []) (hmark : ∀ t ∈ s.remaining, ¬ t.isEnd)
    (hpiece : piece <:+ s.remaining) (hnode : LastVariable piece node) :
    ∃ u ∈ attempts s, u.remaining = piece := by
  obtain ⟨front, hsplit⟩ := hpiece
  cases hnode with
  | @intro letToken name equals value e hlet hname hequals hvalue =>
      have hget : s.remaining[front.length]? = some letToken := by
        rw [← hsplit, List.getElem?_append_right (Nat.le_refl _), Nat.sub_self]
        rfl
      obtain ⟨taken, u, hpasses, hindex, hcurrent⟩ := TokenStream.exists_passes_index hs hget
      have hremaining : u.remaining = [letToken, name, equals, value] := by
        rw [← hpasses.drop_index hs, hindex, ← hsplit, List.drop_left]
      have hupcoming : u.upcoming ≠ [] := by
        rw [(List.cons.inj hremaining).2]
        exact List.cons_ne_nil _ _
      have hopens : (u.withLast last).current.opensDeclaration := by
        rw [TokenStream.current_withLast last hupcoming, hcurrent]
        simp [Token.opensDeclaration, hlet]
      have hmem := exists_attempt (marked_withLast hlast hmark) (hpasses.withLast last) hopens
      rw [attempts_withLast hlast] at hmem
      obtain ⟨v, hv, heq⟩ := List.mem_map.mp hmem
      -- the place of an attempt is given by the tokens in front of it
      have hpassed : v.passed = u.passed := by
        rw [← TokenStream.passed_withLast last v, ← TokenStream.passed_withLast last u, heq]
      obtain ⟨taken', hpasses'⟩ := (reaches_of_mem_attempts hv).2.1.exists_passes
      have hvu : v = u := by
        rw [hpasses.passed, hpasses'.passed] at hpassed
        rw [List.reverse_inj.mp (List.append_cancel_right hpassed)] at hpasses'
        exact hpasses'.eq hpasses
      rw [hvu] at hv
      exact ⟨u, hv, hremaining⟩

/-- A construct is made of the tokens that were taken for it, or is a variable
    whose value would be the last token. -/
theorem lastVariable_or_construct {s t : TokenStream} {node : Node}
    (hs : Marked (s.withLast last).remaining) (hend : ¬ s.atEnd)
    (h : construct s = .ok node t) :
    LastVariable s.remaining node ∨ ∃ piece, s.Passes piece t ∧ Construct piece node := by
  rcases construct_withLast_cases hlast hend with ⟨-, hagree⟩ | ⟨node', t', -, hnode, hs', -, -⟩
  · have hanswer := recognizes_construct.answers (s.withLast last) hs
    rw [h] at hagree
    generalize construct (s.withLast last) = y at hagree hanswer
    cases hagree with
    | ok =>
        obtain ⟨piece, hpiece, hconstruct⟩ := hanswer
        obtain ⟨taken, hpasses⟩ := (reaches_of_construct_ok h).exists_passes
        have hpassed := (hpasses.withLast last).passed.symm.trans hpiece.passed
        rw [List.reverse_inj.mp (List.append_cancel_right hpassed)] at hpasses
        exact .inr ⟨piece, hpasses, hconstruct⟩
  · rw [h] at hs'
    cases hs'
    exact .inl hnode

end

end Grammar

end BraceLang
