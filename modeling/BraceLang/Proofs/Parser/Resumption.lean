import BraceLang.Proofs.Parser.Discipline
import Mathlib.Order.Bounds.Defs

/-! # Resumption — where skipping comes to rest

    The call that skips leaves the token under the cursor behind, whatever it
    is, and goes on to the first place where reading can resume: the end, behind
    a closing brace, or a token that starts a construct.  `ResumesAt` says so by
    the indices of the tokens, without a cursor.  The loop stands on such a place
    exactly if one of its three tests holds (`resumesAt_index_iff`), so it stops
    at the least of them (`isLeast_index_skip`), in every state that calls lead
    to (`resynchronizes_of_driven`). -/

namespace BraceLang

/-- The places where reading is over: the last token, and every end marker. -/
def OverAt (tokens : List Token) (i : Nat) : Prop :=
  i = tokens.length - 1 ∨ ∃ t, tokens[i]? = some t ∧ t.kind = .endOfInput

/-- The kinds at which skipping stops. -/
def TokenKind.starts : List TokenKind :=
  [.funcKeyword, .letKeyword, .returnKeyword]

/-- The places where reading can resume. -/
inductive ResumesAt (tokens : List Token) : Nat → Prop where
  | atEnd {i : Nat} (h : OverAt tokens i) : ResumesAt tokens i
  | behindBrace {i : Nat} {t : Token} (ht : tokens[i]? = some t) (h : t.kind = .rbrace) :
      ResumesAt tokens (i + 1)
  | onStart {i : Nat} {t : Token} (ht : tokens[i]? = some t) (h : t.kind ∈ TokenKind.starts) :
      ResumesAt tokens i

theorem TokenKind.startsConstruct_iff (k : TokenKind) : k.startsConstruct ↔ k ∈ starts := by
  cases k <;> decide

namespace TokenStream

variable {s : TokenStream}

/-! ## The tests of the loop -/

theorem overAt_index_iff (s : TokenStream) : OverAt s.tokens s.index ↔ s.atEnd := by
  have hmarker : (∃ t, some s.current = some t ∧ t.kind = .endOfInput) ↔ s.current.isEnd := by
    simp [Token.isEnd]
  rw [OverAt, s.getElem?_index, hmarker, s.atEnd_iff_index]

/-- Behind the first token, the token before the cursor is one of the tokens. -/
theorem getElem?_of_index_eq {i : Nat} (h : s.index = i + 1) :
    s.tokens[i]? = some s.previous := by
  rw [index] at h
  obtain ⟨t, passed, hpassed⟩ := List.exists_cons_of_length_eq_add_one h
  have hi : passed.reverse.length = i := by
    rw [hpassed, List.length_cons] at h
    rw [List.length_reverse]
    exact Nat.succ.inj h
  rw [tokens, previous, hpassed, List.reverse_cons, List.append_assoc,
    List.getElem?_append_right (Nat.le_of_eq hi), hi, Nat.sub_self]
  rfl

/-- Reading can resume at the cursor exactly if one of the tests says so. -/
theorem resumesAt_index_iff (h : 0 < s.index) :
    ResumesAt s.tokens s.index
      ↔ s.atEnd ∨ s.previous.kind = .rbrace ∨ s.current.kind.startsConstruct := by
  obtain ⟨before, hbefore⟩ := Nat.exists_eq_add_one.mpr h
  have hprevious := getElem?_of_index_eq hbefore
  have hcurrent := s.getElem?_index
  constructor
  · intro hresumes
    generalize hi : s.index = i at hresumes
    cases hresumes with
    | atEnd hover =>
        rw [← hi] at hover
        exact .inl (s.overAt_index_iff.mp hover)
    | @behindBrace j t ht hbrace =>
        rw [getElem?_of_index_eq hi] at ht
        cases ht
        exact .inr (.inl hbrace)
    | onStart ht hstart =>
        rw [← hi, hcurrent] at ht
        cases ht
        exact .inr (.inr (s.current.kind.startsConstruct_iff.mpr hstart))
  · rintro (hend | hbrace | hstart)
    · exact .atEnd (s.overAt_index_iff.mpr hend)
    · rw [hbefore]
      exact .behindBrace hprevious hbrace
    · exact .onStart hcurrent (s.current.kind.startsConstruct_iff.mp hstart)

/-! ## The loop -/

theorem index_advance (h : ¬ s.atEnd) : s.advance.index = s.index + 1 :=
  (passes_advance h).index_eq

/-- By induction on the loop: a place that is passed is none to resume at. -/
theorem isLeast_index_skip (h : 0 < s.index) :
    IsLeast {i | s.index ≤ i ∧ ResumesAt s.tokens i} s.skip.index := by
  have hstop : ∀ {s : TokenStream}, ResumesAt s.tokens s.index →
      IsLeast {i | s.index ≤ i ∧ ResumesAt s.tokens i} s.index :=
    fun hresumes => ⟨⟨Nat.le_refl _, hresumes⟩, fun _ hi => hi.1⟩
  fun_induction skip s with
  | case1 s hend => exact hstop ((resumesAt_index_iff h).mpr (.inl hend))
  | case2 s _ hbrace => exact hstop ((resumesAt_index_iff h).mpr (.inr (.inl hbrace)))
  | case3 s _ _ hstart => exact hstop ((resumesAt_index_iff h).mpr (.inr (.inr hstart)))
  | case4 s hend hbrace hstart ih =>
      have hnot : ¬ ResumesAt s.tokens s.index := by
        rw [resumesAt_index_iff h]
        exact not_or.mpr ⟨hend, not_or.mpr ⟨hbrace, hstart⟩⟩
      rw [index_advance hend, tokens_advance] at ih
      obtain ⟨⟨hle, hresumes⟩, hleast⟩ := ih (Nat.succ_pos _)
      refine ⟨⟨Nat.le_of_succ_le hle, hresumes⟩, ?_⟩
      rintro i ⟨hi, hiresumes⟩
      have hne : s.index ≠ i := by
        rintro rfl
        exact hnot hiresumes
      exact hleast ⟨Nat.lt_of_le_of_ne hi hne, hiresumes⟩

theorem isLeast_index_synchronize (h : ¬ s.atEnd) :
    IsLeast {i | s.index < i ∧ ResumesAt s.tokens i} s.synchronize.index := by
  have hadvance := index_advance h
  have hleast := isLeast_index_skip (s := s.advance) (by rw [hadvance]; exact Nat.succ_pos _)
  rw [hadvance, tokens_advance] at hleast
  exact hleast

end TokenStream

namespace Parser

/-- What the call that skips does to a parser of some tokens. -/
structure Resynchronizes (q : Parser) (tokens : List Token) : Prop where
  /-- The cursor goes to the first place behind it where reading can resume. -/
  least : ¬ OverAt tokens q.stream.index →
    IsLeast {i | q.stream.index < i ∧ ResumesAt tokens i} q.synchronize.stream.index
  /-- It stands there on one of the same tokens. -/
  tokens_eq : q.synchronize.stream.tokens = tokens
  current : tokens[q.synchronize.stream.index]? = some q.synchronize.stream.current
  /-- Nothing is answered, and nothing recorded. -/
  answer : q.call .synchronize = (.nothing, q.synchronize)
  diagnostics : q.synchronize.diagnostics = q.diagnostics
  idle : OverAt tokens q.stream.index → q.synchronize = q
  /-- No token that starts a construct is skipped, but for the one that the
      cursor stood on. -/
  startsKept : ∀ i t, q.stream.index < i → i < q.synchronize.stream.index →
    tokens[i]? = some t → t.kind ∉ TokenKind.starts
  /-- The first closing brace that is passed is the last token passed. -/
  braceLast : ∀ i t, q.stream.index ≤ i → i < q.synchronize.stream.index →
    tokens[i]? = some t → t.kind = .rbrace → q.synchronize.stream.index = i + 1

/-- Places between the cursor and where it comes to rest are passed. -/
theorem not_resumesAt_of_lt {q : Parser} {i : Nat} (hi : q.stream.index < i)
    (hlt : i < q.synchronize.stream.index) : ¬ ResumesAt q.stream.tokens i := by
  intro hresumes
  by_cases hend : q.stream.atEnd
  · have hstay : q.synchronize.stream = q.stream := q.stream.synchronize_of_atEnd hend
    rw [hstay] at hlt
    exact absurd hi (Nat.lt_asymm hlt)
  · have hle := (TokenStream.isLeast_index_synchronize hend).2 ⟨hi, hresumes⟩
    exact absurd hlt (Nat.not_lt.mpr hle)

theorem resynchronizes (q : Parser) : q.Resynchronizes q.stream.tokens where
  least := by
    rw [TokenStream.overAt_index_iff]
    exact TokenStream.isLeast_index_synchronize
  tokens_eq := q.stream.reaches_synchronize.tokens_eq
  current := by
    rw [← q.stream.reaches_synchronize.tokens_eq]
    exact q.synchronize.stream.getElem?_index
  answer := rfl
  diagnostics := rfl
  idle := by
    rw [TokenStream.overAt_index_iff]
    intro hend
    rw [synchronize, TokenStream.synchronize_of_atEnd hend]
  startsKept := by
    intro i t hi hlt ht hstart
    exact not_resumesAt_of_lt hi hlt (.onStart ht hstart)
  braceLast := by
    intro i t hi hlt ht hbrace
    refine Nat.le_antisymm (Nat.not_lt.mp ?_) hlt
    intro hbehind
    exact not_resumesAt_of_lt (Nat.lt_succ_of_le hi) hbehind (.behindBrace ht hbrace)

/-- **Resumption.**  On any tokens, wherever the calls so far have left the
    parser, the call that skips takes it to the first place behind the cursor
    where reading can resume, and changes nothing else; at the end it changes
    nothing at all. -/
theorem resynchronizes_of_driven {tokens : List Token} (h : tokens ≠ []) :
    ∃ p, ofTokens tokens = .ok p ∧ ∀ q, p.Driven q → q.Resynchronizes tokens := by
  obtain ⟨p, hp, -, hpassed, hremaining⟩ := ofTokens_of_ne_nil h
  have htokens : p.stream.tokens = tokens :=
    (TokenStream.tokens_eq_remaining hpassed).trans hremaining
  refine ⟨p, hp, ?_⟩
  intro q hq
  rw [← htokens, ← hq.reaches.tokens_eq]
  exact q.resynchronizes

/-- A function that is misread at its body: the cursor goes behind the brace that
    closes it, in front of a further brace that is not looked at. -/
theorem resynchronizes_of_driven_body :
    let tokens := [Grammar.sample .funcKeyword "func", Grammar.sample .identifier "f",
      Grammar.sample .lparen "(", Grammar.sample .rparen ")", Grammar.sample .lbrace "\x7b",
      Grammar.sample .plus "+", Grammar.sample .rbrace "\x7d", Grammar.sample .rbrace "\x7d",
      Grammar.sample .letKeyword "let", Grammar.sample .endOfInput "<EOF>"]
    tokens ≠ []
      ∧ ∃ p, ofTokens tokens = .ok p
        ∧ (p.call .parse).2.stream.index = 5
        ∧ (p.call .parse).2.synchronize.stream.index = 7
        ∧ (p.call .parse).2.Resynchronizes tokens := by
  intro tokens
  have hne : tokens ≠ [] := List.cons_ne_nil _ _
  obtain ⟨p, hp, hdriven⟩ := resynchronizes_of_driven hne
  have hplace : (p.call .parse).2.stream.index = 5
      ∧ (p.call .parse).2.synchronize.stream.index = 7 := by
    cases hp
    decide +kernel
  exact ⟨hne, p, hp, hplace.1, hplace.2, hdriven _ (.call .parse .refl)⟩

end Parser

end BraceLang
