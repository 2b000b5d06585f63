import BraceLang.Proofs.Grammar.Ending

/-! # Behind the end marker — tokens that no call reads

    Reading is over at the first end marker, so the tokens behind it are never
    under the cursor.  A stream without them (`TokenStream.cutBehind`) is the
    same stream with another ending, of which no token under the cursor is
    touched; so constructs, programs and whole rows of calls give the same on
    both (`steps_of_behind_marker`). -/

namespace BraceLang

/-- The tokens up to the first end marker, or all of them if there is none. -/
def Token.upToEnd : List Token → List Token
  | [] => []
  | t :: rest => if t.isEnd then [t] else t :: upToEnd rest

theorem Token.upToEnd_cons (t : Token) (rest : List Token) :
    upToEnd (t :: rest) = t :: (upToEnd (t :: rest)).tail := by
  rw [upToEnd]
  split
  next => rfl
  next => rfl

theorem Token.upToEnd_of_split {body : List Token} {marker : Token} (behind : List Token)
    (hbody : ∀ t ∈ body, ¬ t.isEnd) (hmarker : marker.isEnd) :
    upToEnd (body ++ marker :: behind) = body ++ [marker] := by
  induction body with
  | nil => exact if_pos hmarker
  | cons t body ih =>
      obtain ⟨ht, hrest⟩ := List.forall_mem_cons.mp hbody
      rw [List.cons_append, upToEnd, if_neg ht, ih hrest]
      rfl

/-- The stream without the tokens behind the first end marker that is not yet
    passed. -/
def TokenStream.cutBehind (s : TokenStream) : TokenStream :=
  { s with upcoming := (Token.upToEnd s.remaining).tail }

namespace TokenStream

theorem upcoming_cutBehind_of_not_isEnd {s : TokenStream} (h : ¬ s.current.isEnd) :
    s.cutBehind.upcoming = Token.upToEnd s.upcoming := by
  show (Token.upToEnd (s.current :: s.upcoming)).tail = Token.upToEnd s.upcoming
  rw [Token.upToEnd, if_neg h]
  rfl

/-- Nothing is cut off that would not be the end anyway. -/
theorem atEnd_cutBehind (s : TokenStream) : s.cutBehind.atEnd = s.atEnd := by
  show (s.cutBehind.upcoming.isEmpty || s.current.isEnd) = (s.upcoming.isEmpty || s.current.isEnd)
  by_cases h : s.current.isEnd
  · rw [h, Bool.or_true, Bool.or_true]
  · rw [upcoming_cutBehind_of_not_isEnd h]
    cases s.upcoming with
    | nil => rfl
    | cons t rest =>
        rw [Token.upToEnd_cons]
        rfl

theorem advance_cutBehind (s : TokenStream) : s.cutBehind.advance = s.advance.cutBehind := by
  by_cases hend : s.atEnd
  · have hend' : s.cutBehind.atEnd := by
      rw [atEnd_cutBehind]
      exact hend
    rw [advance_of_atEnd hend, advance_of_atEnd hend']
  · have hmark : ¬ s.current.isEnd := by
      intro h
      refine hend ?_
      rw [atEnd, h, Bool.or_true]
    have hend' : ¬ s.cutBehind.atEnd := by
      rw [atEnd_cutBehind]
      exact hend
    obtain ⟨t, rest, hupcoming, hadvance⟩ := advance_of_not_atEnd hend
    obtain ⟨u, rest', hupcoming', hadvance'⟩ := advance_of_not_atEnd hend'
    rw [upcoming_cutBehind_of_not_isEnd hmark, hupcoming, Token.upToEnd_cons] at hupcoming'
    obtain ⟨rfl, rfl⟩ := List.cons.inj hupcoming'
    rw [hadvance, hadvance']
    rfl

end TokenStream

namespace Ending

open Grammar

/-- The ending without the tokens behind the first end marker. -/
def behind : Ending where
  stream := TokenStream.cutBehind
  passed_eq := fun _ => rfl
  atEnd_eq := TokenStream.atEnd_cutBehind
  advance_eq := TokenStream.advance_cutBehind
  current_eq := fun _ _ => rfl

/-- The parser with another ending of its tokens. -/
def parser (d : Ending) (p : Parser) : Parser :=
  { p with stream := d.stream p.stream }

-- ── Endings with the same token where reading is over ────────────────────

variable {d : Ending} (hd : ∀ s, (d.stream s).current = s.current)

include hd

/-- A construct is the same value or the same fault, at the same place. -/
theorem construct_eq {s : TokenStream} (hend : ¬ s.atEnd) :
    (∃ node t, construct s = .ok node t ∧ construct (d.stream s) = .ok node (d.stream t))
      ∨ ∃ fault t, construct s = .error fault t
        ∧ construct (d.stream s) = .error fault (d.stream t) := by
  rcases d.agree_construct_or hend with hagree | ⟨-, name, t, -, hne⟩
  · generalize construct s = x at hagree ⊢
    generalize construct (d.stream s) = y at hagree ⊢
    cases hagree with
    | ok node t => exact .inl ⟨node, t, rfl, rfl⟩
    | @error f g t heq =>
        rw [heq (hd t)]
        exact .inr ⟨f, t, rfl, rfl⟩
  · exact absurd (hd t) hne

theorem program_eq (s : TokenStream) :
    program (d.stream s) = { program s with stream := d.stream (program s).stream } := by
  fun_induction program s with
  | case1 s hend => rw [program_of_atEnd (d.atEnd hend)]
  | case2 s hend node t hok ih =>
      rcases construct_eq hd hend with ⟨node', t', hs, hs'⟩ | ⟨fault, t', hs, -⟩
      · rw [hok] at hs
        cases hs
        rw [program_of_ok (d.not_atEnd hend) hs', ih]
        rfl
      · rw [hok] at hs
        cases hs
  | case3 s hend fault t herror ih =>
      rcases construct_eq hd hend with ⟨node, t', hs, -⟩ | ⟨fault', t', hs, hs'⟩
      · rw [herror] at hs
        cases hs
      · rw [herror] at hs
        cases hs
        rw [program_of_error (d.not_atEnd hend) hs', d.resume_eq, ih]
        rfl

theorem parse_eq (p : Parser) : (d.parser p).parse = (p.parse.1, d.parser p.parse.2) := by
  have hatEnd : (d.parser p).stream.atEnd = p.stream.atEnd := d.atEnd_eq p.stream
  rw [Parser.parse, Parser.parse, hatEnd]
  by_cases hend : p.stream.atEnd
  · rw [if_pos hend, if_pos hend]
  · rw [if_neg hend, if_neg hend]
    rcases construct_eq hd hend with ⟨node, t, hs, hs'⟩ | ⟨fault, t, hs, hs'⟩
    · rw [show construct (d.parser p).stream = _ from hs', hs]
      rfl
    · rw [show construct (d.parser p).stream = _ from hs', hs]
      rfl

/-- Each call answers and records the same. -/
theorem call_eq (p : Parser) (c : Parser.Call) :
    (d.parser p).call c = ((p.call c).1, d.parser (p.call c).2) := by
  cases c with
  | parse =>
      rw [Parser.call, parse_eq hd]
      rfl
  | synchronize =>
      rw [Parser.call, Parser.synchronize, show (d.parser p).stream.synchronize = _ from
        d.synchronize_eq p.stream]
      rfl
  | parseProgram =>
      rw [Parser.call, Parser.parseProgram, show program (d.parser p).stream = _ from
        program_eq hd p.stream]
      rfl

/-- So does every row of calls. -/
theorem steps_eq (p : Parser) (calls : List Parser.Call) :
    (d.parser p).steps calls = p.steps calls := by
  induction calls generalizing p with
  | nil => rfl
  | cons c rest ih =>
      rw [Parser.steps, Parser.steps, call_eq hd, ih]
      rfl

end Ending

namespace Parser

/-- **Behind the marker.**  Whatever stands behind the first end marker of some
    tokens, every row of calls answers and records what it does on the tokens
    up to the marker. -/
theorem steps_of_behind_marker (body behind : List Token) (marker : Token)
    (hbody : ∀ t ∈ body, ¬ t.isEnd) (hmarker : marker.isEnd) :
    ∃ p q, ofTokens (body ++ marker :: behind) = .ok p ∧ ofTokens (body ++ [marker]) = .ok q
      ∧ ∀ calls, p.steps calls = q.steps calls := by
  have hcut := Token.upToEnd_of_split behind hbody hmarker
  obtain ⟨first, rest, hsplit⟩ : ∃ first rest, body ++ marker :: behind = first :: rest :=
    List.exists_cons_of_ne_nil
      (List.append_ne_nil_of_right_ne_nil body (List.cons_ne_nil marker behind))
  rw [hsplit] at hcut ⊢
  rw [← hcut, Token.upToEnd_cons]
  -- the second parser is the first one, cut behind the marker
  refine ⟨⟨⟨[], first, rest⟩, []⟩, Ending.behind.parser ⟨⟨[], first, rest⟩, []⟩, rfl, rfl, ?_⟩
  intro calls
  exact (Ending.steps_eq (fun _ => rfl) _ calls).symm

/-- A variable that the marker cuts off, and its missing value behind the
    marker: it is not read, and neither is what follows it. -/
theorem steps_of_behind_marker_value :
    let body := [Grammar.sample .letKeyword "let", Grammar.sample .identifier "x",
      Grammar.sample .equals "="]
    let marker := Grammar.sample .endOfInput "<EOF>"
    let behind := [Grammar.sample .number "1", Grammar.sample .endOfInput "<EOF>",
      Grammar.sample .rbrace "\x7d", Grammar.sample .string "s"]
    (∀ t ∈ body, ¬ t.isEnd) ∧ marker.isEnd
      ∧ ∃ p q, ofTokens (body ++ marker :: behind) = .ok p ∧ ofTokens (body ++ [marker]) = .ok q
        ∧ (p.call .parse).1 = .one none ∧ (p.call .parse).2.diagnostics.length = 1
        ∧ p.steps [.parse, .synchronize, .parseProgram, .parse]
          = q.steps [.parse, .synchronize, .parseProgram, .parse] := by
  intro body marker behind
  have hbody : ∀ t ∈ body, ¬ t.isEnd := by decide
  have hmarker : marker.isEnd := rfl
  obtain ⟨p, q, hp, hq, hsteps⟩ := steps_of_behind_marker body behind marker hbody hmarker
  have hparse : (p.call .parse).1 = .one none ∧ (p.call .parse).2.diagnostics.length = 1 := by
    cases hp
    decide
  exact ⟨hbody, hmarker, p, q, hp, hq, hparse.1, hparse.2, hsteps _⟩

end Parser

end BraceLang
