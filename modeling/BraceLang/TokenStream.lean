import BraceLang.Fault

/-! # Token streams — tokens with a cursor

    A stream holds at least one token and stands on one of them: the tokens
    before it, the current one, and the tokens to come.  Nothing lies behind
    an end marker, and the last token counts as the end even if it is no
    marker; at the end, advancing changes nothing.

    `Reaches` is "by advancing, some number of times".  A stream reached that
    way has the same tokens (`Reaches.tokens_eq`) and either is the stream
    itself or has fewer tokens to come (`Reaches.eq_or_lt`). -/

namespace BraceLang

/-- A list of tokens, at least one, and a cursor on one of them. -/
structure TokenStream where
  /-- The tokens before the current one, the nearest first. -/
  passed : List Token
  /-- The token under the cursor. -/
  current : Token
  /-- The tokens behind the current one. -/
  upcoming : List Token
  deriving DecidableEq

namespace TokenStream

/-- The stream at the first of some tokens; there is none without a token. -/
def ofTokens? : List Token → Option TokenStream
  | [] => none
  | t :: rest => some ⟨[], t, rest⟩

/-- All tokens of the stream, wherever the cursor stands. -/
def tokens (s : TokenStream) : List Token :=
  s.passed.reverse ++ s.current :: s.upcoming

/-- The number of tokens before the current one. -/
def index (s : TokenStream) : Nat :=
  s.passed.length

/-- The tokens from the cursor on. -/
def remaining (s : TokenStream) : List Token :=
  s.current :: s.upcoming

/-- Whether reading is over: at an end marker, or at the last token. -/
def atEnd (s : TokenStream) : Bool :=
  s.upcoming.isEmpty || s.current.isEnd

/-- The stream one token further, or the same stream at the end. -/
def advance (s : TokenStream) : TokenStream :=
  if s.atEnd then s
  else
    match s.upcoming with
    | [] => s
    | t :: rest => ⟨s.current :: s.passed, t, rest⟩

/-- The token before the cursor, or the first token if there is none. -/
def previous (s : TokenStream) : Token :=
  s.passed.headD s.current

/-- A syntactic fault at the current token. -/
def fault (s : TokenStream) (cause : SyntaxFault) : Fault :=
  .syntactic cause s.current.location

theorem advance_of_atEnd {s : TokenStream} (h : s.atEnd) : s.advance = s := by
  rw [advance, if_pos h]

/-- Away from the end there is a next token, and advancing goes to it. -/
theorem advance_of_not_atEnd {s : TokenStream} (h : ¬ s.atEnd) :
    ∃ t rest, s.upcoming = t :: rest ∧ s.advance = ⟨s.current :: s.passed, t, rest⟩ := by
  cases hu : s.upcoming with
  | nil =>
      refine absurd ?_ h
      rw [atEnd, hu]
      rfl
  | cons t rest =>
      refine ⟨t, rest, rfl, ?_⟩
      rw [advance, if_neg h, hu]

theorem length_upcoming_advance {s : TokenStream} (h : ¬ s.atEnd) :
    s.advance.upcoming.length < s.upcoming.length := by
  obtain ⟨t, rest, hu, ha⟩ := advance_of_not_atEnd h
  rw [ha, hu]
  exact Nat.lt_succ_self rest.length

/-- Advancing moves the cursor, not the tokens. -/
theorem tokens_advance (s : TokenStream) : s.advance.tokens = s.tokens := by
  by_cases h : s.atEnd
  · rw [advance_of_atEnd h]
  · obtain ⟨t, rest, hu, ha⟩ := advance_of_not_atEnd h
    rw [ha]
    rw [tokens, tokens, hu, List.reverse_cons, List.append_assoc, List.singleton_append]

/-- The token that advancing leaves behind is the one it stood on. -/
theorem previous_advance {s : TokenStream} (h : ¬ s.atEnd) :
    s.advance.previous = s.current := by
  obtain ⟨t, rest, -, ha⟩ := advance_of_not_atEnd h
  rw [ha]
  rfl

/-- Skips tokens until the end, just behind a closing brace, or at a token
    that starts a construct. -/
def skip (s : TokenStream) : TokenStream :=
  if _h : s.atEnd then s
  else if s.previous.kind = .rbrace then s
  else if s.current.kind.startsConstruct then s
  else skip s.advance
termination_by s.upcoming.length
decreasing_by exact length_upcoming_advance _h

/-- Leaves the current token behind and goes on to where reading can resume. -/
def synchronize (s : TokenStream) : TokenStream :=
  s.advance.skip

-- ── Streams reached by advancing ─────────────────────────────────────────

/-- The second stream is the first after some number of advances. -/
inductive Reaches : TokenStream → TokenStream → Prop where
  | refl (s : TokenStream) : Reaches s s
  | advance {s t : TokenStream} (h : Reaches s.advance t) : Reaches s t

theorem Reaches.trans {s t u : TokenStream} (hst : s.Reaches t) (htu : t.Reaches u) :
    s.Reaches u := by
  induction hst with
  | refl s => exact htu
  | advance _ ih => exact .advance (ih htu)

theorem reaches_advance (s : TokenStream) : s.Reaches s.advance :=
  .advance (.refl s.advance)

/-- The tokens stay the same. -/
theorem Reaches.tokens_eq {s t : TokenStream} (h : s.Reaches t) : t.tokens = s.tokens := by
  induction h with
  | refl s => rfl
  | advance _ ih => rw [ih, tokens_advance]

/-- A stream that was reached is where it was, or has less to come. -/
theorem Reaches.eq_or_lt {s t : TokenStream} (h : s.Reaches t) :
    t = s ∨ t.upcoming.length < s.upcoming.length := by
  induction h with
  | refl s => exact .inl rfl
  | @advance s t _ ih =>
      by_cases hend : s.atEnd
      · rw [advance_of_atEnd hend] at ih
        exact ih
      · have hlt := length_upcoming_advance hend
        rcases ih with heq | hless
        · rw [heq]
          exact .inr hlt
        · exact .inr (Nat.lt_trans hless hlt)

/-- A stream that was reached from the end is that end. -/
theorem Reaches.eq_of_atEnd {s t : TokenStream} (h : s.Reaches t) (hend : s.atEnd) :
    t = s := by
  induction h with
  | refl s => rfl
  | @advance s t _ ih =>
      rw [advance_of_atEnd hend] at ih
      exact ih hend

theorem reaches_skip (s : TokenStream) : s.Reaches s.skip := by
  fun_induction skip s with
  | case1 s _ => exact .refl s
  | case2 s _ _ => exact .refl s
  | case3 s _ _ _ => exact .refl s
  | case4 s _ _ _ ih => exact .advance ih

theorem reaches_synchronize (s : TokenStream) : s.Reaches s.synchronize :=
  (reaches_advance s).trans (reaches_skip s.advance)

/-- Away from the end, resuming leaves at least one token behind. -/
theorem length_upcoming_synchronize {s : TokenStream} (h : ¬ s.atEnd) :
    s.synchronize.upcoming.length < s.upcoming.length := by
  have hlt := length_upcoming_advance h
  rcases (reaches_skip s.advance).eq_or_lt with heq | hless
  · rw [synchronize, heq]
    exact hlt
  · exact Nat.lt_trans hless hlt

end TokenStream

end BraceLang
