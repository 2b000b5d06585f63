import BraceLang.Proofs.Grammar.Program

/-! # Endings — the same tokens up to where reading is over

    An ending gives every stream other tokens from the place on where reading
    is over: behind that place, or at it.  In front of it nothing changes, and
    the stream still ends where it did.

    A reader that does the same with both endings agrees with itself
    (`Agrees`): it has the same value, or a fault that may differ only where
    the tokens at the end do.  One reader does not.  An expression does not ask
    whether reading is over, so at the end it has a value if the last token
    looks like one.  A function asks for its brace behind that value and fails
    in any case (`agrees_body`); a variable asks for nothing more
    (`agree_construct_or`). -/

namespace BraceLang

namespace Grammar

/-- The name of a variable and the sign behind it. -/
def variableHead : Reader String := do
  let _ ← expect .letKeyword "Expect 'let' at the start of variable declaration"
  let name ← expect .identifier "Expect variable name"
  let _ ← expect .equals "Expect '=' after variable name"
  return name.text

theorem variableDeclaration_eq : variableDeclaration = (do
    let name ← variableHead
    let initial ← expression
    return .variableDecl name (.expression initial)) := by
  simp [variableDeclaration, variableHead]

/-- Nothing can be taken behind an expression where reading is over. -/
theorem exists_error_of_atEnd {α : Type} {s : TokenStream} (h : s.atEnd) (kind : TokenKind)
    (message : String) (f : Expression → Token → Reader α) :
    ∃ fault, (expression >>= fun e => expect kind message >>= f e) s = .error fault s := by
  have hexpect : expect kind message s = .error _ s := if_neg fun hfits => hfits.1 h
  have hstay : landing (expression s) = s := (advances_expression s).eq_of_atEnd h
  cases hs : expression s with
  | error fault t =>
      rw [hs] at hstay
      rw [bind_of_error hs, show t = s from hstay]
      exact ⟨fault, rfl⟩
  | ok e t =>
      rw [hs] at hstay
      rw [bind_of_ok hs, show t = s from hstay, bind_of_error hexpect]
      exact ⟨_, rfl⟩

/-- Where reading is over, nothing is skipped. -/
theorem resume_of_atEnd {s t : TokenStream} (h : t.atEnd) : resume s t = t := by
  rw [resume, TokenStream.synchronize_of_atEnd h, ite_self]

end Grammar

/-- Other tokens for a stream from the place on where reading is over. -/
structure Ending where
  /-- The stream with its other ending. -/
  stream : TokenStream → TokenStream
  passed_eq : ∀ s, (stream s).passed = s.passed
  atEnd_eq : ∀ s, (stream s).atEnd = s.atEnd
  advance_eq : ∀ s, (stream s).advance = stream s.advance
  /-- Only where reading is over another token may stand. -/
  current_eq : ∀ s, ¬ s.atEnd → (stream s).current = s.current

namespace Ending

open Grammar

variable (d : Ending)

-- ── The cursor ───────────────────────────────────────────────────────────

theorem index_eq (s : TokenStream) : (d.stream s).index = s.index := by
  rw [TokenStream.index, TokenStream.index, d.passed_eq]

theorem not_atEnd {s : TokenStream} (h : ¬ s.atEnd) : ¬ (d.stream s).atEnd := by
  rw [d.atEnd_eq]
  exact h

theorem atEnd {s : TokenStream} (h : s.atEnd) : (d.stream s).atEnd := by
  rw [d.atEnd_eq]
  exact h

/-- Where another token stands, reading is over. -/
theorem atEnd_of_ne {s : TokenStream} (h : (d.stream s).current ≠ s.current) : s.atEnd := by
  by_cases hend : s.atEnd
  · exact hend
  · exact absurd (d.current_eq s hend) h

theorem previous_eq {s : TokenStream} (h : (d.stream s).current = s.current) :
    (d.stream s).previous = s.previous := by
  rw [TokenStream.previous, TokenStream.previous, d.passed_eq, h]

/-- Skipping looks at no token where reading is over. -/
theorem skip_eq (s : TokenStream) : (d.stream s).skip = d.stream s.skip := by
  fun_induction TokenStream.skip s with
  | case1 s hend =>
      rw [TokenStream.skip.eq_def, dif_pos (d.atEnd hend)]
  | case2 s hend hbrace =>
      have hcurrent := d.current_eq s hend
      rw [TokenStream.skip.eq_def, dif_neg (d.not_atEnd hend), d.previous_eq hcurrent,
        if_pos hbrace]
  | case3 s hend hbrace hstart =>
      have hcurrent := d.current_eq s hend
      rw [TokenStream.skip.eq_def, dif_neg (d.not_atEnd hend), d.previous_eq hcurrent, hcurrent,
        if_neg hbrace, if_pos hstart]
  | case4 s hend hbrace hstart ih =>
      have hcurrent := d.current_eq s hend
      rw [TokenStream.skip.eq_def, dif_neg (d.not_atEnd hend), d.previous_eq hcurrent, hcurrent,
        if_neg hbrace, if_neg hstart, d.advance_eq, ih]

theorem synchronize_eq (s : TokenStream) :
    (d.stream s).synchronize = d.stream s.synchronize := by
  rw [TokenStream.synchronize, TokenStream.synchronize, d.advance_eq, d.skip_eq]

-- ── Readers ──────────────────────────────────────────────────────────────

variable {α β : Type}

/-- The results at a stream and at the one with the other ending: the same
    value, or two faults, which are the same if the same token stands there. -/
inductive Agree : EStateM.Result Fault TokenStream α →
    EStateM.Result Fault TokenStream α → Prop where
  | ok (a : α) (t : TokenStream) : Agree (.ok a t) (.ok a (d.stream t))
  | error {f g : Fault} {t : TokenStream} (h : (d.stream t).current = t.current → g = f) :
      Agree (.error f t) (.error g (d.stream t))

/-- The reader has the same result at both endings of every stream. -/
def Agrees (r : Reader α) : Prop :=
  ∀ s, d.Agree (r s) (r (d.stream s))

variable {d}

/-- The second reader has to agree only with what the first one gives. -/
theorem Agree.bind_of {r : Reader α} {f : α → Reader β} {s : TokenStream}
    (h : d.Agree (r s) (r (d.stream s)))
    (hf : ∀ a t, r s = .ok a t → d.Agree (f a t) (f a (d.stream t))) :
    d.Agree ((r >>= f) s) ((r >>= f) (d.stream s)) := by
  generalize hy : r (d.stream s) = y at h
  cases hx : r s with
  | ok a t =>
      rw [hx] at h
      cases h with
      | ok =>
          rw [bind_of_ok hx, bind_of_ok hy]
          exact hf a t hx
  | error fault t =>
      rw [hx] at h
      cases h with
      | error heq =>
          rw [bind_of_error hx, bind_of_error hy]
          exact .error heq

theorem Agree.bind {r : Reader α} {f : α → Reader β} {s : TokenStream}
    (h : d.Agree (r s) (r (d.stream s))) (hf : ∀ a, d.Agrees (f a)) :
    d.Agree ((r >>= f) s) ((r >>= f) (d.stream s)) :=
  h.bind_of fun a t _ => hf a t

theorem Agrees.bind {r : Reader α} {f : α → Reader β} (h : d.Agrees r)
    (hf : ∀ a, d.Agrees (f a)) : d.Agrees (r >>= f) :=
  fun s => (h s).bind hf

variable (d)

theorem agrees_pure (a : α) : d.Agrees (Pure.pure a : Reader α) :=
  fun s => .ok a s

/-- Two faults at the current token that are made in the same way. -/
theorem agree_fault (cause : TokenKind → SyntaxFault) (s : TokenStream) :
    d.Agree (α := α) (.error (s.fault (cause s.current.kind)) s)
      (.error ((d.stream s).fault (cause (d.stream s).current.kind)) (d.stream s)) := by
  refine .error ?_
  intro heq
  rw [TokenStream.fault, TokenStream.fault, heq]

theorem agrees_expect (kind : TokenKind) (message : String) : d.Agrees (expect kind message) := by
  intro s
  have hfault := d.agree_fault (α := Token) (.tokenMismatch kind · message) s
  by_cases hend : s.atEnd
  · rw [expect, expect, if_neg (fun hfits => hfits.1 hend),
      if_neg (fun hfits => hfits.1 (d.atEnd hend))]
    exact hfault
  · have hcurrent := d.current_eq s hend
    by_cases hkind : s.current.kind = kind
    · rw [expect_of_eq message hend hkind]
      rw [← hcurrent] at hkind ⊢
      rw [expect_of_eq message (d.not_atEnd hend) hkind, d.advance_eq]
      exact .ok _ _
    · rw [expect_of_ne message hkind]
      rw [← hcurrent] at hkind
      rw [expect_of_ne message hkind]
      exact hfault

/-- With the same token at both streams, so is the expression. -/
theorem agree_expression {s : TokenStream} (h : (d.stream s).current = s.current) :
    d.Agree (expression s) (expression (d.stream s)) := by
  have hprevious : (d.stream s.advance).previous = s.advance.previous := by
    by_cases hend : s.atEnd
    · rw [TokenStream.advance_of_atEnd hend]
      exact d.previous_eq h
    · rw [← d.advance_eq, TokenStream.previous_advance (d.not_atEnd hend),
        TokenStream.previous_advance hend, h]
  rw [expression, expression, d.advance_eq, hprevious, h]
  split
  next => exact .ok _ _
  next => exact .ok _ _
  next => exact .ok _ _
  next found _ _ _ =>
      refine .error ?_
      intro _
      rw [TokenStream.fault, TokenStream.fault, h]

/-- An expression and a token behind it: where reading is over there is no such
    token, whatever the expression was. -/
theorem agrees_body (kind : TokenKind) (message : String) {f : Expression → Token → Reader α}
    (hf : ∀ e t, d.Agrees (f e t)) :
    d.Agrees (expression >>= fun e => expect kind message >>= f e) := by
  intro s
  by_cases hcurrent : (d.stream s).current = s.current
  · exact (d.agree_expression hcurrent).bind fun e => (d.agrees_expect kind message).bind (hf e)
  · have hend := d.atEnd_of_ne hcurrent
    obtain ⟨fault, hs⟩ := exists_error_of_atEnd hend kind message f
    obtain ⟨fault', hs'⟩ := exists_error_of_atEnd (d.atEnd hend) kind message f
    rw [hs, hs']
    exact .error fun heq => absurd heq hcurrent

theorem passComma_eq (s : TokenStream) : passComma (d.stream s) = d.stream (passComma s) := by
  by_cases hend : s.atEnd
  · -- a comma where reading is over is not passed either
    rw [passComma, passComma, d.advance_eq, TokenStream.advance_of_atEnd hend, ite_self, ite_self]
  · rw [passComma, passComma, d.current_eq s hend, d.advance_eq]
    split
    next => rfl
    next => rfl

theorem Agree.withName {x y : EStateM.Result Fault TokenStream (List String)} {d : Ending}
    (h : d.Agree x y) (name : String) : d.Agree (withName name x) (withName name y) := by
  cases h with
  | ok names t => exact .ok _ t
  | error h => exact .error h

theorem agree_furtherParameters {u : TokenStream}
    (h : d.Agree (closedParameters u) (closedParameters (d.stream u))) :
    d.Agree (furtherParameters u) (furtherParameters (d.stream u)) := by
  rw [furtherParameters, furtherParameters, d.atEnd_eq]
  split
  next => exact d.agree_fault (fun _ => .unexpectedEndOfInput) u
  next => exact h

/-- The names agree one by one: by induction on the tokens to come, of which a
    name takes one. -/
theorem agrees_closedParameters : d.Agrees closedParameters := by
  intro s
  induction hn : s.upcoming.length using Nat.strongRecOn generalizing s with
  | ind n ih =>
  by_cases hend : s.atEnd
  · rw [closedParameters_of_atEnd hend, closedParameters_of_atEnd (d.atEnd hend)]
    exact d.agree_fault (.tokenMismatch .rparen · "Expect ')' after parameters") s
  have hend' := d.not_atEnd hend
  have hcurrent := d.current_eq s hend
  by_cases hclose : s.current.kind = .rparen
  · rw [closedParameters_of_rparen hend hclose]
    rw [← hcurrent] at hclose
    rw [closedParameters_of_rparen hend' hclose, d.advance_eq]
    exact .ok [] _
  by_cases hname : s.current.kind = .identifier
  · have hlt := TokenStream.length_upcoming_advance hend
    have hcomma := (reaches_passComma s.advance).eq_or_lt
    rw [closedParameters_of_name hend hname]
    rw [← hcurrent] at hname ⊢
    rw [closedParameters_of_name hend' hname, d.advance_eq, d.passComma_eq]
    generalize passComma s.advance = u at hcomma
    have hshorter : u.upcoming.length < n := by
      rcases hcomma with heq | hlt'
      · rw [heq]
        omega
      · omega
    exact (d.agree_furtherParameters (ih _ hshorter u rfl)).withName _
  · have hfault := d.agree_fault (α := List String)
      (.tokenMismatch .identifier · "Expect parameter name") s
    rw [closedParameters_of_other hend hclose hname]
    rw [← hcurrent] at hclose hname
    rw [closedParameters_of_other hend' hclose hname]
    exact hfault

theorem agrees_functionDeclaration : d.Agrees functionDeclaration := by
  rw [functionDeclaration_eq]
  exact (d.agrees_expect _ _).bind fun _ => (d.agrees_expect _ _).bind fun _ =>
    (d.agrees_expect _ _).bind fun _ => d.agrees_closedParameters.bind fun _ =>
      (d.agrees_expect _ _).bind fun _ =>
        d.agrees_body _ _ fun _ _ => d.agrees_pure _

theorem agrees_variableHead : d.Agrees variableHead :=
  (d.agrees_expect _ _).bind fun _ => (d.agrees_expect _ _).bind fun _ =>
    (d.agrees_expect _ _).bind fun _ => d.agrees_pure _

/-- A construct is the same at both endings, unless it is a variable whose value
    would be the token where reading is over. -/
theorem agree_construct_or {s : TokenStream} (hend : ¬ s.atEnd) :
    d.Agree (construct s) (construct (d.stream s))
      ∨ s.current.kind = .letKeyword ∧ ∃ name t, variableHead s = .ok name t
        ∧ (d.stream t).current ≠ t.current := by
  have hcurrent := d.current_eq s hend
  rw [construct_eq_readerFor, construct_eq_readerFor, hcurrent]
  by_cases hfunc : s.current.kind = .funcKeyword
  · rw [readerFor, if_pos hfunc]
    exact .inl (d.agrees_functionDeclaration s)
  by_cases hlet : s.current.kind = .letKeyword
  · rw [readerFor, if_neg hfunc, if_pos hlet, variableDeclaration_eq]
    by_cases hvalue : ∃ name t, variableHead s = .ok name t ∧ (d.stream t).current ≠ t.current
    · exact .inr ⟨hlet, hvalue⟩
    · refine .inl ((d.agrees_variableHead s).bind_of ?_)
      intro name t hhead
      have hsame : (d.stream t).current = t.current :=
        Decidable.byContradiction fun hne => hvalue ⟨name, t, hhead, hne⟩
      exact (d.agree_expression hsame).bind fun _ => d.agrees_pure _
  · rw [readerFor, if_neg hfunc, if_neg hlet]
    exact .inl ((d.agree_expression hcurrent).bind fun _ => d.agrees_pure _)

-- ── After a misread construct ────────────────────────────────────────────

theorem resume_eq (s t : TokenStream) :
    resume (d.stream s) (d.stream t) = d.stream (resume s t) := by
  by_cases hend : t.atEnd
  · rw [resume_of_atEnd hend, resume_of_atEnd (d.atEnd hend)]
  · rw [resume, resume, d.index_eq, d.index_eq, d.current_eq t hend, d.synchronize_eq]
    split
    next => rfl
    next => rfl

end Ending

end BraceLang
