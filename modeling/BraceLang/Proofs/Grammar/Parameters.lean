import BraceLang.Proofs.Grammar.Terminal

/-! # Parameters — the names of a function and the parenthesis behind them

    The reader of the names stops before their closing parenthesis or at the
    first token that does not fit, and cannot tell which.  Taken together with
    the parenthesis (`closedParameters`) it recognizes `ClosedRow`
    (`recognizes_closedRow`), and a function declaration can be read with it
    (`closedParameters_bind`). -/

namespace BraceLang

namespace Grammar

/-- The names of a function and the parenthesis that closes them. -/
def closedParameters : Reader (List String) := do
  let names ← parameters
  let _ ← expect .rparen "Expect ')' after parameters"
  return names

/-- The names behind a name and its comma.  Tokens that end there are a fault
    of their own. -/
def furtherParameters : Reader (List String) := fun s =>
  if s.atEnd then .error (s.fault .unexpectedEndOfInput) s else closedParameters s

/-- A name in front of the names that were read. -/
def withName (name : String) :
    EStateM.Result Fault TokenStream (List String) → EStateM.Result Fault TokenStream (List String)
  | .ok names t => .ok (name :: names) t
  | .error fault t => .error fault t

theorem closedParameters_of_error {s t : TokenStream} {fault : Fault}
    (h : parameters s = .error fault t) : closedParameters s = .error fault t :=
  bind_of_error h

theorem closedParameters_of_ok {s t : TokenStream} {names : List String}
    (h : parameters s = .ok names t) :
    closedParameters s = (do
      let _ ← expect .rparen "Expect ')' after parameters"
      return names : Reader (List String)) t :=
  bind_of_ok h

theorem closedParameters_bind {α : Type} (f : List String → Reader α) :
    closedParameters >>= f = (do
      let names ← parameters
      let _ ← expect .rparen "Expect ')' after parameters"
      f names) := by
  funext s
  cases h : parameters s with
  | error fault t => exact (bind_of_error (bind_of_error h)).trans (bind_of_error h).symm
  | ok names t =>
      refine Eq.trans ?_ (bind_of_ok h).symm
      have hclosed := closedParameters_of_ok h
      cases hclose : expect .rparen "Expect ')' after parameters" t with
      | error fault u =>
          rw [bind_of_error hclose] at hclosed
          rw [bind_of_error hclosed, bind_of_error hclose]
      | ok token u =>
          rw [bind_of_ok hclose] at hclosed
          rw [bind_of_ok hclosed, bind_of_ok hclose]

theorem parameters_of_done {s : TokenStream} (h : s.atEnd ∨ s.current.kind = .rparen) :
    parameters s = .ok [] s := by
  rw [parameters, if_pos (by simpa using h)]

theorem closedParameters_of_atEnd {s : TokenStream} (h : s.atEnd) :
    closedParameters s
      = .error (s.fault (.tokenMismatch .rparen s.current.kind "Expect ')' after parameters")) s := by
  rw [closedParameters_of_ok (parameters_of_done (.inl h))]
  exact bind_of_error (if_neg fun hfits => hfits.1 h)

theorem closedParameters_of_rparen {s : TokenStream} (hend : ¬ s.atEnd)
    (h : s.current.kind = .rparen) : closedParameters s = .ok [] s.advance := by
  rw [closedParameters_of_ok (parameters_of_done (.inr h))]
  exact bind_of_ok (expect_of_eq "Expect ')' after parameters" hend h)

theorem closedParameters_of_other {s : TokenStream} (hend : ¬ s.atEnd)
    (hclose : s.current.kind ≠ .rparen) (hname : s.current.kind ≠ .identifier) :
    closedParameters s
      = .error (s.fault (.tokenMismatch .identifier s.current.kind "Expect parameter name")) s := by
  have hexpect := expect_of_ne "Expect parameter name" hname
  refine closedParameters_of_error ?_
  rw [parameters, if_neg (by simp [hend, hclose])]
  split
  next fault t hs =>
      rw [hexpect] at hs
      cases hs
      rfl
  next name t hs =>
      rw [hexpect] at hs
      cases hs

theorem closedParameters_of_name {s : TokenStream} (hend : ¬ s.atEnd)
    (hname : s.current.kind = .identifier) :
    closedParameters s = withName s.current.text (furtherParameters (passComma s.advance)) := by
  have hexpect := expect_of_eq "Expect parameter name" hend hname
  have hstep : parameters s =
      if (passComma s.advance).atEnd then
        .error ((passComma s.advance).fault .unexpectedEndOfInput) (passComma s.advance)
      else withName s.current.text (parameters (passComma s.advance)) := by
    rw [parameters, if_neg (by simp [hend, hname])]
    split
    next fault t hs =>
        rw [hexpect] at hs
        cases hs
    next name t hs =>
        rw [hexpect] at hs
        cases hs
        split
        next => rfl
        next => cases parameters (passComma s.advance) <;> rfl
  -- behind the name, the end of the tokens is a fault that the loop itself reports
  generalize passComma s.advance = u at hstep ⊢
  by_cases hu : u.atEnd
  · rw [if_pos hu] at hstep
    rw [closedParameters_of_error hstep, show furtherParameters u = _ from if_pos hu]
    rfl
  · rw [if_neg hu] at hstep
    rw [show furtherParameters u = _ from if_neg hu]
    cases hp : parameters u with
    | error fault t =>
        rw [hp] at hstep
        rw [closedParameters_of_error hstep, closedParameters_of_error hp]
        rfl
    | ok names t =>
        rw [hp] at hstep
        rw [closedParameters_of_ok hstep, closedParameters_of_ok hp]
        cases hclose : expect .rparen "Expect ')' after parameters" t with
        | error fault v => rw [bind_of_error hclose, bind_of_error hclose]; rfl
        | ok token v => rw [bind_of_ok hclose, bind_of_ok hclose]; rfl

/-! ## Recognition -/

/-- An answer behind a name, with its comma or without, is one for the row
    that begins with the name. -/
theorem Answers.withName {s u : TokenStream} {front : List Token} {name : String}
    {result : EStateM.Result Fault TokenStream (List String)} (hpasses : s.Passes front u)
    (hrow : ∀ taken names, ClosedRow taken names → ClosedRow (front ++ taken) (name :: names))
    (hblocked : ∀ taken x rest, u.remaining = taken ++ x :: rest →
      ClosedRow.Blocked taken x → ClosedRow.Blocked (front ++ taken) x)
    (h : Answers ClosedRow u result) :
    Answers ClosedRow s (Grammar.withName name result) := by
  cases result with
  | ok names t =>
      obtain ⟨taken, hut, htaken⟩ := h
      exact ⟨front ++ taken, hpasses.trans hut, hrow taken names htaken⟩
  | error fault t =>
      obtain ⟨taken, hut, hstuck, hblames⟩ := h
      exact ⟨front ++ taken, hpasses.trans hut,
        hblocked taken t.current t.upcoming hut.remaining hstuck, hblames⟩

/-- Tokens that end behind a name are blocked there like any other token that
    does not fit. -/
theorem answers_furtherParameters {u : TokenStream} (hu : Marked u.remaining)
    (h : Answers ClosedRow u (closedParameters u)) :
    Answers ClosedRow u (furtherParameters u) := by
  by_cases hend : u.atEnd
  · have hk := kind_of_isEnd ((u.atEnd_iff_isEnd hu).mp hend)
    rw [show furtherParameters u = _ from if_pos hend]
    refine ⟨[], .refl u, blocked_of_other ?_ ?_, rfl⟩
    · simp [hk]
    · simp [hk]
  · rw [show furtherParameters u = _ from if_neg hend]
    exact h

/-- The names are answered one by one: a name and its comma are taken, and the
    names behind them are answered by induction on what is left. -/
theorem answers_closedParameters (s : TokenStream) (hs : Marked s.remaining) :
    Answers ClosedRow s (closedParameters s) := by
  induction hn : s.upcoming.length using Nat.strongRecOn generalizing s with
  | ind n ih =>
  by_cases hend : s.atEnd
  · have hk := kind_of_isEnd ((s.atEnd_iff_isEnd hs).mp hend)
    rw [closedParameters_of_atEnd hend]
    refine ⟨[], .refl s, blocked_of_other ?_ ?_, rfl, rfl⟩
    · simp [hk]
    · simp [hk]
  by_cases hclose : s.current.kind = .rparen
  · rw [closedParameters_of_rparen hend hclose]
    exact ⟨[s.current], s.passes_advance hend, .close hclose⟩
  by_cases hname : s.current.kind = .identifier
  · have hpasses := s.passes_advance hend
    have hlt := TokenStream.length_upcoming_advance hend
    rw [closedParameters_of_name hend hname]
    by_cases hcomma : s.advance.current.kind = .comma
    · have hend' : ¬ s.advance.atEnd := by
        refine not_atEnd_of_kind (hpasses.marked hs) ?_
        simp [hcomma]
      have hpasses' := hpasses.trans (s.advance.passes_advance hend')
      have hlt' := TokenStream.length_upcoming_advance hend'
      rw [show passComma s.advance = _ from if_pos hcomma]
      have hu := hpasses'.marked hs
      have hfurther := answers_furtherParameters hu (ih _ (by omega) _ hu rfl)
      exact hfurther.withName hpasses' (fun _ _ hrow => .nameComma hname hcomma hrow)
        (fun _ _ _ _ h => blocked_nameComma hname hcomma h)
    · rw [show passComma s.advance = _ from if_neg hcomma]
      have hu := hpasses.marked hs
      have hfurther := answers_furtherParameters hu (ih _ (by omega) _ hu rfl)
      refine hfurther.withName hpasses (fun _ _ hrow => .name hname hrow) ?_
      intro taken x rest hrest h
      refine blocked_name hname ?_ h
      intro c tail htail
      have hcurrent : s.advance.current = c := by
        have happ : s.advance.remaining = c :: (tail ++ rest) := by
          rw [hrest, ← List.cons_append, ← htail, List.append_assoc]
          rfl
        exact (List.cons.inj happ).1
      rw [← hcurrent]
      exact hcomma
  · rw [closedParameters_of_other hend hclose hname]
    exact ⟨[], .refl s, blocked_of_other hclose hname, rfl, rfl⟩

theorem recognizes_closedRow : Recognizes closedParameters ClosedRow where
  sharp := exact_closedRow
  inhabited := ⟨[sample .rparen ""], [], .close rfl⟩
  answers := answers_closedParameters

end Grammar

end BraceLang
