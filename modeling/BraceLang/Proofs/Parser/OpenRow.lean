import BraceLang.Proofs.Grammar.LastToken
import BraceLang.Proofs.Parser.Calls

/-! # Open rows — a function whose parameters the end of the tokens cuts off

    The names of a function may be over before their closing parenthesis comes.
    Behind a name, with its comma or without, the reader of the names reports
    that the tokens end (`furtherParameters_of_openRow`).  It does not do so in
    front of the first name: right behind the opening parenthesis the end is
    left to the reader of the closing one, to which it is a token that does not
    fit (`unclosedCause`).  Either way the function is misread once, at the
    marker (`parse_of_openRow`). -/

namespace BraceLang

namespace Grammar

/-- Names, a comma allowed behind each, and nothing that closes them. -/
inductive OpenRow : List Token → Prop where
  | nil : OpenRow []
  | name {t : Token} {ts : List Token} (h : t.kind = .identifier) (rest : OpenRow ts) :
      OpenRow (t :: ts)
  | nameComma {t c : Token} {ts : List Token} (h : t.kind = .identifier) (hc : c.kind = .comma)
      (rest : OpenRow ts) : OpenRow (t :: c :: ts)

/-- Why a function is misread whose row of names the end of the tokens cuts
    off: the closing parenthesis is missed if there is no name, and the rest of
    the tokens otherwise. -/
def unclosedCause : List Token → SyntaxFault
  | [] => .tokenMismatch .rparen .endOfInput "Expect ')' after parameters"
  | _ :: _ => .unexpectedEndOfInput

theorem OpenRow.head {t : Token} {ts : List Token} (h : OpenRow (t :: ts)) :
    t.kind = .identifier := by
  cases h with
  | name h rest => exact h
  | nameComma h hc rest => exact h

theorem OpenRow.not_isEnd {row : List Token} (h : OpenRow row) : ∀ t ∈ row, ¬ t.isEnd := by
  induction h with
  | nil => exact List.forall_mem_nil _
  | name h rest ih => exact List.forall_mem_cons.mpr ⟨by simp [Token.isEnd, h], ih⟩
  | nameComma h hc rest ih =>
      exact List.forall_mem_cons.mpr ⟨by simp [Token.isEnd, h],
        List.forall_mem_cons.mpr ⟨by simp [Token.isEnd, hc], ih⟩⟩

/-- In front of a token that is no marker reading goes on, and advancing passes it. -/
theorem remaining_advance_of_cons {s : TokenStream} {t : Token} {ts : List Token}
    (ht : ¬ t.isEnd) (hmarked : Marked (t :: ts)) (hs : s.remaining = t :: ts) :
    ¬ s.atEnd ∧ s.current = t ∧ s.advance.remaining = ts := by
  have hcurrent : s.current = t := (List.cons.inj hs).1
  have hend : ¬ s.atEnd := by
    intro h
    rw [← hs] at hmarked
    rw [← hcurrent] at ht
    exact ht ((s.atEnd_iff_isEnd hmarked).mp h)
  have hpasses := (s.passes_advance hend).remaining
  rw [hs] at hpasses
  exact ⟨hend, hcurrent, (List.cons.inj hpasses).2.symm⟩

/-- Names are misread where those behind the first one are. -/
theorem furtherParameters_of_name {s t : TokenStream} {fault : Fault} (hend : ¬ s.atEnd)
    (hname : s.current.kind = .identifier)
    (h : furtherParameters (passComma s.advance) = .error fault t) :
    furtherParameters s = .error fault t := by
  rw [show furtherParameters s = closedParameters s from if_neg hend,
    closedParameters_of_name hend hname, h]
  rfl

section

variable {marker : Token} (hmarker : marker.isEnd) {row : List Token} {s : TokenStream}

include hmarker

theorem marked_of_openRow (hrow : OpenRow row) : Marked (row ++ [marker]) :=
  Marked.append hrow.not_isEnd (.marker hmarker)

/-- Where the row is over, reading is. -/
theorem atEnd_of_remaining (hs : s.remaining = [marker]) : s.atEnd ∧ s.current = marker := by
  have hcurrent : s.current = marker := (List.cons.inj hs).1
  refine ⟨?_, hcurrent⟩
  rw [TokenStream.atEnd, hcurrent, hmarker, Bool.or_true]

/-- A row of names behind a name is misread where the tokens end, by induction on
    the row: each name and its comma are passed. -/
theorem furtherParameters_of_openRow (hrow : OpenRow row) (hs : s.remaining = row ++ [marker]) :
    ∃ t, furtherParameters s = .error (t.fault .unexpectedEndOfInput) t
      ∧ t.remaining = [marker] := by
  induction hrow generalizing s with
  | nil =>
      obtain ⟨hend, -⟩ := atEnd_of_remaining hmarker hs
      exact ⟨s, if_pos hend, hs⟩
  | @name t ts h rest ih =>
      have hmarked := marked_of_openRow hmarker (.name h rest)
      obtain ⟨hend, hcurrent, hadvance⟩ :=
        remaining_advance_of_cons (by simp [Token.isEnd, h]) hmarked hs
      have hcomma : s.advance.current.kind ≠ .comma := by
        -- behind the name stands another name, or the marker
        cases ts with
        | nil =>
            have hk := kind_of_isEnd hmarker
            rw [(atEnd_of_remaining hmarker hadvance).2, hk]
            decide
        | cons u ts =>
            rw [(List.cons.inj hadvance).1, rest.head]
            decide
      obtain ⟨u, hu, hremaining⟩ := ih hadvance
      refine ⟨u, furtherParameters_of_name hend (by rw [hcurrent]; exact h) ?_, hremaining⟩
      rw [show passComma s.advance = s.advance from if_neg hcomma]
      exact hu
  | @nameComma t c ts h hc rest ih =>
      have hmarked := marked_of_openRow hmarker (.nameComma h hc rest)
      obtain ⟨hend, hcurrent, hadvance⟩ :=
        remaining_advance_of_cons (by simp [Token.isEnd, h]) hmarked hs
      have hsplit : Marked ([t] ++ c :: (ts ++ [marker])) := hmarked
      have hmarked' : Marked (c :: (ts ++ [marker])) := (hsplit.split (List.cons_ne_nil _ _)).2
      obtain ⟨-, hcomma, hadvance'⟩ :=
        remaining_advance_of_cons (by simp [Token.isEnd, hc]) hmarked' hadvance
      obtain ⟨u, hu, hremaining⟩ := ih hadvance'
      refine ⟨u, furtherParameters_of_name hend (by rw [hcurrent]; exact h) ?_, hremaining⟩
      rw [show passComma s.advance = s.advance.advance from if_pos (by rw [hcomma]; exact hc)]
      exact hu

/-- The names of a function and the parenthesis behind them are misread at the
    marker. -/
theorem closedParameters_of_openRow (hrow : OpenRow row) (hs : s.remaining = row ++ [marker]) :
    ∃ t, closedParameters s = .error (t.fault (unclosedCause row)) t ∧ t.current = marker := by
  cases row with
  | nil =>
      obtain ⟨hend, hcurrent⟩ := atEnd_of_remaining hmarker hs
      refine ⟨s, ?_, hcurrent⟩
      have hk : s.current.kind = .endOfInput := by
        rw [hcurrent]
        exact kind_of_isEnd hmarker
      rw [closedParameters_of_atEnd hend, hk]
      rfl
  | cons t ts =>
      have hmarked := marked_of_openRow hmarker hrow
      obtain ⟨hend, -, -⟩ :=
        remaining_advance_of_cons (by simp [Token.isEnd, hrow.head]) hmarked hs
      obtain ⟨u, hu, hremaining⟩ := furtherParameters_of_openRow hmarker hrow hs
      rw [show furtherParameters s = closedParameters s from if_neg hend] at hu
      exact ⟨u, hu, (atEnd_of_remaining hmarker hremaining).2⟩

end

/-- A function is misread where its parameters are. -/
theorem construct_of_parameters_error {passed rest : List Token}
    {func name lparen next : Token} (hfunc : func.kind = .funcKeyword)
    (hname : name.kind = .identifier) (hlparen : lparen.kind = .lparen) {fault : Fault}
    {t : TokenStream}
    (h : closedParameters ⟨lparen :: name :: func :: passed, next, rest⟩ = .error fault t) :
    construct ⟨passed, func, name :: lparen :: next :: rest⟩ = .error fault t := by
  rw [construct_eq_readerFor, show TokenStream.current ⟨passed, func, _⟩ = func from rfl, hfunc,
    readerFor, if_pos rfl, functionDeclaration_eq, bind_of_ok (expect_of_cons _ hfunc (by decide)),
    bind_of_ok (expect_of_cons _ hname (by decide)),
    bind_of_ok (expect_of_cons _ hlparen (by decide)), bind_of_error h]

end Grammar

namespace Parser

open Grammar

/-- **Open rows.**  A function whose tokens end behind its opening parenthesis
    and any row of names is misread, with one fault, at the end marker.  The
    fault says that the tokens end if there is a name, and if there is none that
    the closing parenthesis is missed. -/
theorem parse_of_openRow {func name lparen marker : Token} {row : List Token}
    (hfunc : func.kind = .funcKeyword) (hname : name.kind = .identifier)
    (hlparen : lparen.kind = .lparen) (hrow : OpenRow row) (hmarker : marker.kind = .endOfInput) :
    ∃ p, ofTokens (func :: name :: lparen :: (row ++ [marker])) = .ok p
      ∧ p.parse.1 = none
      ∧ p.parse.2.diagnostics = [.syntactic (unclosedCause row) marker.location]
      ∧ (row ≠ [] → unclosedCause row = .unexpectedEndOfInput) := by
  have hend : marker.isEnd := decide_eq_true hmarker
  obtain ⟨next, rest, hbehind⟩ : ∃ next rest, row ++ [marker] = next :: rest :=
    List.exists_cons_of_ne_nil (List.append_ne_nil_of_right_ne_nil row (List.cons_ne_nil _ _))
  obtain ⟨t, ht, hcurrent⟩ :=
    closedParameters_of_openRow hend (s := ⟨[lparen, name, func], next, rest⟩) hrow hbehind.symm
  have hconstruct := construct_of_parameters_error hfunc hname hlparen ht
  rw [hbehind]
  refine ⟨⟨⟨[], func, name :: lparen :: next :: rest⟩, []⟩, rfl, ?_⟩
  have hnot : ¬ TokenStream.atEnd ⟨[], func, name :: lparen :: next :: rest⟩ := by
    intro h
    exact absurd (hfunc.symm.trans (kind_of_isEnd h)) (by decide)
  rw [parse_of_error hnot hconstruct]
  refine ⟨rfl, ?_, ?_⟩
  · rw [← hcurrent]
    rfl
  · intro hne
    obtain ⟨u, us, rfl⟩ := List.exists_cons_of_ne_nil hne
    rfl

/-- The tokens of a function end behind a name and its comma. -/
theorem parse_of_openRow_comma :
    let marker : Token := ⟨.endOfInput, "<EOF>", ⟨⟨1, 10⟩, none⟩⟩
    let row := [sample .identifier "a", sample .comma ","]
    OpenRow row
      ∧ ∃ p, ofTokens (sample .funcKeyword "func" :: sample .identifier "f"
          :: sample .lparen "(" :: (row ++ [marker])) = .ok p
        ∧ p.parse.1 = none
        ∧ p.parse.2.diagnostics = [.syntactic .unexpectedEndOfInput ⟨⟨1, 10⟩, none⟩] := by
  intro marker row
  have hrow : OpenRow row := .nameComma rfl rfl .nil
  obtain ⟨p, hp, hnode, hdiagnostics, -⟩ :=
    @parse_of_openRow (sample .funcKeyword "func") (sample .identifier "f")
      (sample .lparen "(") marker row rfl rfl rfl hrow rfl
  exact ⟨hrow, p, hp, hnode, hdiagnostics⟩

/-- Where the tokens end right behind the opening parenthesis, the fault does not
    say so, but that the closing parenthesis is missed. -/
theorem parse_of_openRow_nil :
    let marker : Token := ⟨.endOfInput, "<EOF>", ⟨⟨1, 8⟩, none⟩⟩
    ∃ p, ofTokens [sample .funcKeyword "func", sample .identifier "f", sample .lparen "(",
        marker] = .ok p
      ∧ p.parse.2.diagnostics ≠ [.syntactic .unexpectedEndOfInput marker.location]
      ∧ p.parse.2.diagnostics = [.syntactic
        (.tokenMismatch .rparen .endOfInput "Expect ')' after parameters") marker.location] := by
  intro marker
  have hparse : ∃ p, ofTokens [sample .funcKeyword "func", sample .identifier "f",
      sample .lparen "(", marker] = .ok p
      ∧ p.parse.2.diagnostics = [.syntactic
        (.tokenMismatch .rparen .endOfInput "Expect ')' after parameters") marker.location] := by
    refine ⟨_, rfl, ?_⟩
    decide +kernel
  obtain ⟨p, hp, hdiagnostics⟩ := hparse
  refine ⟨p, hp, ?_, hdiagnostics⟩
  rw [hdiagnostics]
  decide

end Parser

end BraceLang
