import BraceLang.Proofs.Grammar.Construct

/-! # Terminals — the readers of one token

    `expect` recognizes the tokens of a kind, `expression` the atoms.  Both
    fail without moving the cursor, with a fault that blames the token there. -/

namespace BraceLang

namespace Grammar

/-- On a marked stream, what is no end marker is not at the end. -/
theorem not_atEnd_of_kind {s : TokenStream} (hs : Marked s.remaining)
    (h : s.current.kind ≠ .endOfInput) : ¬ s.atEnd := by
  intro hend
  exact h (kind_of_isEnd ((s.atEnd_iff_isEnd hs).mp hend))

theorem expect_of_eq {kind : TokenKind} (message : String) {s : TokenStream} (hend : ¬ s.atEnd)
    (h : s.current.kind = kind) : expect kind message s = .ok s.current s.advance :=
  if_pos ⟨hend, h⟩

theorem expect_of_ne {kind : TokenKind} (message : String) {s : TokenStream}
    (h : s.current.kind ≠ kind) :
    expect kind message s = .error (s.fault (.tokenMismatch kind s.current.kind message)) s :=
  if_neg fun hfits => h hfits.2

/-- A token of a kind is taken only where it stands. -/
theorem of_expect_eq_ok {kind : TokenKind} {message : String} {s t : TokenStream} {token : Token}
    (h : expect kind message s = .ok token t) :
    ¬ s.atEnd ∧ token.kind = kind ∧ s.Passes [token] t := by
  rw [expect] at h
  split at h
  next hfits =>
      cases h
      exact ⟨hfits.1, hfits.2, s.passes_advance hfits.1⟩
  next => cases h

theorem recognizes_expect {kind : TokenKind} (message : String) (hkind : kind ≠ .endOfInput) :
    Recognizes (expect kind message) (ofKind kind) where
  sharp := Shape.exact_single (by rintro t a b ⟨rfl, -⟩ ⟨rfl, -⟩; rfl)
  inhabited := ⟨[sample kind ""], sample kind "", sample kind "", rfl, rfl, rfl⟩
  answers := by
    intro s hs
    by_cases h : s.current.kind = kind
    · have hend := not_atEnd_of_kind hs (by rw [h]; exact hkind)
      rw [expect_of_eq message hend h]
      exact ⟨[s.current], s.passes_advance hend, s.current, rfl, rfl, h⟩
    · rw [expect_of_ne message h]
      refine ⟨[], .refl s, Shape.blocked_single ⟨sample kind "", _, rfl, rfl⟩ ?_, rfl, rfl⟩
      rintro a ⟨-, hk⟩
      exact h hk

theorem expression_of_atom {s : TokenStream} {e : Expression} (hend : ¬ s.atEnd)
    (h : Atom s.current e) : expression s = .ok e s.advance := by
  have htext : s.advance.previous = s.current := TokenStream.previous_advance hend
  cases h with
  | literal h =>
      rcases h with h | h
      · simp only [expression, h, htext]
      · simp only [expression, h, htext]
  | string h => simp only [expression, h, htext]

theorem expression_of_not_atom {s : TokenStream} (h : ∀ e, ¬ Atom s.current e) :
    expression s = .error (s.fault (.unexpectedToken s.current.kind)) s := by
  have hnumber : s.current.kind ≠ .number := fun hk => h _ (.literal (.inl hk))
  have hname : s.current.kind ≠ .identifier := fun hk => h _ (.literal (.inr hk))
  have hstring : s.current.kind ≠ .string := fun hk => h _ (.string hk)
  cases hk : s.current.kind with
  | number => exact absurd hk hnumber
  | identifier => exact absurd hk hname
  | string => exact absurd hk hstring
  | _ => simp only [expression, hk]

theorem recognizes_expression : Recognizes expression (.single Atom) where
  sharp := Shape.exact_single fun _ _ _ => Atom.unique
  inhabited := ⟨[sample .number ""], _, sample .number "", rfl, .literal (.inl rfl)⟩
  answers := by
    intro s hs
    by_cases h : ∃ e, Atom s.current e
    · obtain ⟨e, he⟩ := h
      have hend : ¬ s.atEnd := by
        refine not_atEnd_of_kind hs ?_
        rcases he.kind_cases with hk | hk | hk <;> simp [hk]
      rw [expression_of_atom hend he]
      exact ⟨[s.current], s.passes_advance hend, s.current, rfl, he⟩
    · have hnot : ∀ e, ¬ Atom s.current e := fun e he => h ⟨e, he⟩
      rw [expression_of_not_atom hnot]
      exact ⟨[], .refl s, Shape.blocked_single ⟨sample .number "", _, .literal (.inl rfl)⟩ hnot,
        rfl, rfl⟩

end Grammar

end BraceLang
