import BraceLang.Proofs.Grammar.Recognition

/-! # Seams — two streams that differ from one token on

    At a seam one stream goes on, with a token at which a construct can start,
    where another one has its end marker.  Up to the seam the two streams hold
    the same tokens (`Inside`), and no reader takes the token behind the seam
    in the middle of a construct: the readers stay in step (`Parallel`), with
    the same values, and with the same faults unless one shows at the seam. -/

namespace BraceLang

namespace Grammar

/-- A place where one stream goes on with `next` and another ends with
    `marker`.  The first stream may have further tokens in front. -/
structure Seam where
  /-- The tokens that only the first stream has passed, the nearest first. -/
  before : List Token
  next : Token
  rest : List Token
  marker : Token
  ends : marker.isEnd
  opens : next.kind.startsConstruct ∨ next = marker

namespace Seam

variable {j : Seam} {s t : TokenStream}

/-- Both streams stand on the same token in front of the seam. -/
inductive Inside (j : Seam) : TokenStream → TokenStream → Prop where
  | intro {passed front : List Token} {t : Token} (ht : ¬ t.isEnd)
      (hfront : ∀ u ∈ front, ¬ u.isEnd) :
      Inside j ⟨passed ++ j.before, t, front ++ j.next :: j.rest⟩ ⟨passed, t, front ++ [j.marker]⟩

/-- Both streams stand at the seam. -/
inductive AtCut (j : Seam) : TokenStream → TokenStream → Prop where
  | intro (passed : List Token) :
      AtCut j ⟨passed ++ j.before, j.next, j.rest⟩ ⟨passed, j.marker, []⟩

/-- The streams stand at the same place, in front of the seam or at it. -/
inductive Twins (j : Seam) (s t : TokenStream) : Prop where
  | inside (h : j.Inside s t)
  | cut (h : j.AtCut s t)

/-- Streams with the same tokens in front of the seam stand at the same place. -/
theorem twins_of_front {passed front : List Token} (hfront : ∀ u ∈ front, ¬ u.isEnd)
    (hs : s.passed = passed ++ j.before) (hs' : s.remaining = front ++ j.next :: j.rest)
    (ht : t.passed = passed) (ht' : t.remaining = front ++ [j.marker]) : j.Twins s t := by
  obtain ⟨p, c, u⟩ := s
  obtain ⟨p', c', u'⟩ := t
  cases hs
  cases ht
  cases front with
  | nil =>
      cases hs'
      cases ht'
      exact .cut (.intro p')
  | cons x front =>
      obtain ⟨hx, hrest⟩ := List.forall_mem_cons.mp hfront
      cases hs'
      cases ht'
      exact .inside (.intro hx hrest)

/-! ## Moving in step -/

/-- Neither token of the seam continues a construct. -/
theorem kind_ne (j : Seam) (kind : TokenKind) (hstart : ¬ kind.startsConstruct)
    (hend : kind ≠ .endOfInput) : j.next.kind ≠ kind ∧ j.marker.kind ≠ kind := by
  have hmarker : j.marker.kind ≠ kind := by
    rw [kind_of_isEnd j.ends]
    exact hend.symm
  refine ⟨?_, hmarker⟩
  rcases j.opens with hopens | heq
  · rintro rfl
    exact hstart hopens
  · rw [heq]
    exact hmarker

theorem Inside.current_eq (h : j.Inside s t) : s.current = t.current := by
  cases h
  rfl

theorem Inside.not_atEnd (h : j.Inside s t) : ¬ s.atEnd ∧ ¬ t.atEnd := by
  cases h with
  | intro ht hfront => simp [TokenStream.atEnd, ht]

theorem Inside.advance (h : j.Inside s t) : j.Twins s.advance t.advance := by
  obtain ⟨hs, ht⟩ := h.not_atEnd
  have hpasses := TokenStream.passes_advance hs
  have hpasses' := TokenStream.passes_advance ht
  cases h with
  | intro _ hfront =>
      exact twins_of_front hfront hpasses.passed (List.cons.inj hpasses.remaining).2.symm
        hpasses'.passed (List.cons.inj hpasses'.remaining).2.symm

/-- Behind at least one token, the streams have just left the same token. -/
theorem Twins.previous_eq (h : j.Twins s t) (hpassed : t.passed ≠ []) :
    s.previous = t.previous := by
  have hparts : s.passed = t.passed ++ j.before := by
    rcases h with h | h <;> cases h <;> rfl
  obtain ⟨x, passed, hx⟩ := List.exists_cons_of_ne_nil hpassed
  simp [TokenStream.previous, hparts, hx]

theorem Twins.index_eq (h : j.Twins s t) : s.index = t.index + j.before.length := by
  rcases h with h | h <;> cases h <;> exact List.length_append

theorem AtCut.current_eq (h : j.AtCut s t) : s.current = j.next ∧ t.current = j.marker := by
  cases h
  exact ⟨rfl, rfl⟩

theorem AtCut.atEnd (h : j.AtCut s t) : t.atEnd := by
  cases h
  rfl

/-- Where the streams stand on the same token at the seam, both are at their
    end. -/
theorem AtCut.atEnd_of_eq (h : j.AtCut s t) (heq : j.next = j.marker) : s.atEnd := by
  cases h
  simp [TokenStream.atEnd, heq, j.ends]

theorem AtCut.skip_eq (h : j.AtCut s t) : s.skip = s ∧ t.skip = t := by
  refine ⟨?_, ?_⟩
  · by_cases hend : s.atEnd
    · rw [TokenStream.skip, dif_pos hend]
    rcases j.opens with hopens | heq
    · rw [TokenStream.skip.eq_def s, dif_neg hend, h.current_eq.1, if_pos hopens, ite_self]
    · exact absurd (h.atEnd_of_eq heq) hend
  · rw [TokenStream.skip, dif_pos h.atEnd]

/-- In front of the seam, both streams stay where they are or both go on. -/
theorem Inside.skip_eq (h : j.Inside s t) (hpassed : t.passed ≠ []) :
    s.skip = s ∧ t.skip = t ∨ s.skip = s.advance.skip ∧ t.skip = t.advance.skip := by
  obtain ⟨hs, ht⟩ := h.not_atEnd
  have hprevious := (Twins.inside h).previous_eq hpassed
  rw [TokenStream.skip.eq_def s, TokenStream.skip.eq_def t, dif_neg hs, dif_neg ht, hprevious, h.current_eq]
  by_cases hstop : t.previous.kind = .rbrace ∨ t.current.kind.startsConstruct
  · left
    rcases hstop with hbrace | hstart
    · simp [hbrace]
    · simp [hstart]
  · rw [not_or] at hstop
    simp [hstop]

/-- Skipping ahead stops at the seam in both streams, or before it in both. -/
theorem Twins.skip (h : j.Twins s t) (hpassed : t.passed ≠ []) : j.Twins s.skip t.skip := by
  induction hn : t.upcoming.length using Nat.strongRecOn generalizing s t with
  | ind n ih =>
  rcases h with hinside | hcut
  · rcases hinside.skip_eq hpassed with ⟨hs, ht⟩ | ⟨hs, ht⟩
    · rw [hs, ht]
      exact .inside hinside
    · have hend := hinside.not_atEnd.2
      have hlt := TokenStream.length_upcoming_advance hend
      have hnext : t.advance.passed ≠ [] := by
        rw [(TokenStream.passes_advance hend).passed]
        exact List.cons_ne_nil _ _
      rw [hs, ht]
      exact ih _ (by omega) hinside.advance hnext rfl
  · rw [hcut.skip_eq.1, hcut.skip_eq.2]
    exact .cut hcut

/-! ## Reading in step -/

/-- Two results in step: the same value, or faults of which each blames the
    token that its own stream stands on. -/
inductive InStep (j : Seam) {α : Type} : EStateM.Result Fault TokenStream α →
    EStateM.Result Fault TokenStream α → Prop where
  | ok {a : α} {s t : TokenStream} (h : j.Twins s t) : InStep j (.ok a s) (.ok a t)
  | error {f g : Fault} {s t : TokenStream} (h : j.Twins s t) (hf : f.Blames s.current)
      (hg : g.Blames t.current) (heq : s.current = t.current → f = g) :
      InStep j (.error f s) (.error g t)

/-- The reader stays in step from every place, the seam included. -/
def Parallel (j : Seam) {α : Type} (r : Reader α) : Prop :=
  ∀ s t, j.Twins s t → j.InStep (r s) (r t)

variable {α β : Type}

theorem Parallel.pure (j : Seam) (a : α) : j.Parallel (Pure.pure a : Reader α) :=
  fun _ _ h => .ok h

/-- Once the first reader is in step, the second may find itself at the seam. -/
theorem InStep.bind {r : Reader α} {f : α → Reader β} (h : j.InStep (r s) (r t))
    (hf : ∀ a, j.Parallel (f a)) : j.InStep ((r >>= f) s) ((r >>= f) t) := by
  generalize hs : r s = x at h
  generalize ht : r t = y at h
  cases h with
  | ok h =>
      rw [bind_of_ok hs, bind_of_ok ht]
      exact hf _ _ _ h
  | error h hblames hblames' heq =>
      rw [bind_of_error hs, bind_of_error ht]
      exact .error h hblames hblames' heq

theorem Parallel.bind {r : Reader α} {f : α → Reader β} (h : j.Parallel r)
    (hf : ∀ a, j.Parallel (f a)) : j.Parallel (r >>= f) :=
  fun s t hst => (h s t hst).bind hf

/-- Readers that fail where they are, with a fault that depends on the current
    token alone, are in step. -/
theorem Twins.inStep_fault (h : j.Twins s t) (cause : TokenKind → SyntaxFault)
    (hblames : ∀ u : TokenStream, (u.fault (cause u.current.kind)).Blames u.current) :
    j.InStep (α := α) (.error (s.fault (cause s.current.kind)) s)
      (.error (t.fault (cause t.current.kind)) t) := by
  refine .error h (hblames s) (hblames t) ?_
  intro heq
  rw [TokenStream.fault, TokenStream.fault, heq]

theorem Twins.inStep_mismatch (h : j.Twins s t) (kind : TokenKind) (message : String) :
    j.InStep (α := α) (.error (s.fault (.tokenMismatch kind s.current.kind message)) s)
      (.error (t.fault (.tokenMismatch kind t.current.kind message)) t) :=
  h.inStep_fault (.tokenMismatch kind · message) fun _ => ⟨rfl, rfl⟩

/-- A kind at which no construct starts is found in both streams, and then in
    front of the seam, or in none. -/
theorem Twins.kind_cases (h : j.Twins s t) (kind : TokenKind)
    (hstart : ¬ kind.startsConstruct) (hend : kind ≠ .endOfInput) :
    j.Inside s t ∧ s.current.kind = kind ∧ t.current.kind = kind
      ∨ s.current.kind ≠ kind ∧ t.current.kind ≠ kind := by
  rcases h with h | h
  · rw [h.current_eq]
    by_cases hkind : t.current.kind = kind
    · exact .inl ⟨h, hkind, hkind⟩
    · exact .inr ⟨hkind, hkind⟩
  · rw [h.current_eq.1, h.current_eq.2]
    exact .inr (j.kind_ne kind hstart hend)

theorem Inside.inStep_expect (h : j.Inside s t) (kind : TokenKind) (message : String) :
    j.InStep (expect kind message s) (expect kind message t) := by
  obtain ⟨hs, ht⟩ := h.not_atEnd
  have hcurrent := h.current_eq
  by_cases hkind : s.current.kind = kind
  · rw [expect_of_eq message hs hkind]
    rw [hcurrent] at hkind ⊢
    rw [expect_of_eq message ht hkind]
    exact .ok h.advance
  · rw [expect_of_ne message hkind]
    rw [hcurrent] at hkind
    rw [expect_of_ne message hkind]
    exact (Twins.inside h).inStep_mismatch kind message

/-- A token that starts no construct is not found at the seam. -/
theorem parallel_expect (j : Seam) (kind : TokenKind) (message : String)
    (hstart : ¬ kind.startsConstruct) (hend : kind ≠ .endOfInput) :
    j.Parallel (expect kind message) := by
  intro s t h
  rcases h.kind_cases kind hstart hend with ⟨hinside, -, -⟩ | ⟨hs, ht⟩
  · exact hinside.inStep_expect kind message
  · rw [expect_of_ne message hs, expect_of_ne message ht]
    exact h.inStep_mismatch kind message

/-- Neither token of the seam is an expression. -/
theorem not_atom (j : Seam) (e : Expression) : ¬ Atom j.next e ∧ ¬ Atom j.marker e := by
  have hnumber := j.kind_ne .number (by decide) (by decide)
  have hname := j.kind_ne .identifier (by decide) (by decide)
  have hstring := j.kind_ne .string (by decide) (by decide)
  refine ⟨?_, ?_⟩
  · intro h
    have hcases := h.kind_cases
    simp [hnumber.1, hname.1, hstring.1] at hcases
  · intro h
    have hcases := h.kind_cases
    simp [hnumber.2, hname.2, hstring.2] at hcases

/-- An expression is found in both streams, and then in front of the seam, or
    in none. -/
theorem Twins.atom_cases (h : j.Twins s t) :
    (∃ e, j.Inside s t ∧ Atom s.current e ∧ Atom t.current e)
      ∨ (∀ e, ¬ Atom s.current e) ∧ ∀ e, ¬ Atom t.current e := by
  rcases h with h | h
  · rw [h.current_eq]
    by_cases hatom : ∃ e, Atom t.current e
    · obtain ⟨e, he⟩ := hatom
      exact .inl ⟨e, h, he, he⟩
    · have hnot : ∀ e, ¬ Atom t.current e := fun e he => hatom ⟨e, he⟩
      exact .inr ⟨hnot, hnot⟩
  · rw [h.current_eq.1, h.current_eq.2]
    exact .inr ⟨fun e => (j.not_atom e).1, fun e => (j.not_atom e).2⟩

theorem parallel_expression (j : Seam) : j.Parallel expression := by
  intro s t h
  rcases h.atom_cases with ⟨e, hinside, hs, ht⟩ | ⟨hs, ht⟩
  · obtain ⟨hsend, htend⟩ := hinside.not_atEnd
    rw [expression_of_atom hsend hs, expression_of_atom htend ht]
    exact .ok hinside.advance
  · rw [expression_of_not_atom hs, expression_of_not_atom ht]
    exact h.inStep_fault .unexpectedToken fun _ => ⟨rfl, rfl⟩

theorem Twins.passComma (h : j.Twins s t) : j.Twins (passComma s) (passComma t) := by
  rw [Grammar.passComma, Grammar.passComma]
  rcases h.kind_cases .comma (by decide) (by decide) with ⟨hinside, hs, ht⟩ | ⟨hs, ht⟩
  · rw [if_pos hs, if_pos ht]
    exact hinside.advance
  · rw [if_neg hs, if_neg ht]
    exact h

theorem InStep.withName {x y : EStateM.Result Fault TokenStream (List String)}
    (h : j.InStep x y) (name : String) : j.InStep (withName name x) (withName name y) := by
  cases h with
  | ok h => exact .ok h
  | error h hblames hblames' heq => exact .error h hblames hblames' heq

/-- At the seam the names of a function are over, but not closed. -/
theorem AtCut.closedParameters_eq (h : j.AtCut s t) :
    ∃ f, closedParameters s = .error f s ∧ f.Blames s.current := by
  obtain ⟨hclose, -⟩ := j.kind_ne .rparen (by decide) (by decide)
  obtain ⟨hname, -⟩ := j.kind_ne .identifier (by decide) (by decide)
  rw [← h.current_eq.1] at hclose hname
  by_cases hend : s.atEnd
  · exact ⟨_, closedParameters_of_atEnd hend, rfl, rfl⟩
  · exact ⟨_, closedParameters_of_other hend hclose hname, rfl, rfl⟩

theorem AtCut.inStep_closedParameters (h : j.AtCut s t) :
    j.InStep (closedParameters s) (closedParameters t) := by
  by_cases hend : s.atEnd
  · rw [closedParameters_of_atEnd hend, closedParameters_of_atEnd h.atEnd]
    exact (Twins.cut h).inStep_mismatch .rparen _
  · -- the faults differ in their cause, so the tokens of the seam have to differ
    obtain ⟨f, hs, hf⟩ := h.closedParameters_eq
    rw [hs, closedParameters_of_atEnd h.atEnd]
    refine .error (.cut h) hf ⟨rfl, rfl⟩ ?_
    rw [h.current_eq.1, h.current_eq.2]
    exact fun heq => absurd (h.atEnd_of_eq heq) hend

theorem AtCut.inStep_furtherParameters (h : j.AtCut s t) :
    j.InStep (furtherParameters s) (furtherParameters t) := by
  rw [furtherParameters, furtherParameters, if_pos h.atEnd]
  by_cases hend : s.atEnd
  · rw [if_pos hend]
    exact (Twins.cut h).inStep_fault (fun _ => .unexpectedEndOfInput) fun _ => rfl
  · obtain ⟨f, hs, hf⟩ := h.closedParameters_eq
    rw [if_neg hend, hs]
    refine .error (.cut h) hf rfl ?_
    rw [h.current_eq.1, h.current_eq.2]
    exact fun heq => absurd (h.atEnd_of_eq heq) hend

/-- The names are read in step: by induction on the tokens that the second
    stream has left, of which a name takes one. -/
theorem parallel_closedParameters (j : Seam) : j.Parallel closedParameters := by
  intro s t h
  induction hn : t.upcoming.length using Nat.strongRecOn generalizing s t with
  | ind n ih =>
  rcases h with h | h
  · obtain ⟨hs, ht⟩ := h.not_atEnd
    have hcurrent := h.current_eq
    by_cases hclose : t.current.kind = .rparen
    · rw [closedParameters_of_rparen ht hclose]
      rw [← hcurrent] at hclose
      rw [closedParameters_of_rparen hs hclose]
      exact .ok h.advance
    by_cases hname : t.current.kind = .identifier
    · have hlt := TokenStream.length_upcoming_advance ht
      have hcomma := (reaches_passComma t.advance).eq_or_lt
      have hnext := h.advance.passComma
      rw [closedParameters_of_name ht hname]
      rw [← hcurrent] at hname ⊢
      rw [closedParameters_of_name hs hname]
      generalize passComma s.advance = u at hnext
      generalize passComma t.advance = v at hnext hcomma
      refine InStep.withName ?_ _
      -- behind the name both streams have tokens left, or both stand at the seam
      rcases hnext with hinside | hcut
      · obtain ⟨hu, hv⟩ := hinside.not_atEnd
        have hshorter : v.upcoming.length < n := by
          rcases hcomma with heq | hlt'
          · rw [heq]
            omega
          · omega
        rw [furtherParameters, furtherParameters, if_neg hu, if_neg hv]
        exact ih _ hshorter u v (.inside hinside) rfl
      · exact hcut.inStep_furtherParameters
    · rw [closedParameters_of_other ht hclose hname]
      rw [← hcurrent] at hclose hname
      rw [closedParameters_of_other hs hclose hname]
      exact (Twins.inside h).inStep_mismatch .identifier _
  · exact h.inStep_closedParameters

/-- In front of the seam, reading a construct is in step. -/
theorem Inside.inStep_construct (h : j.Inside s t) :
    j.InStep (construct s) (construct t) := by
  rw [construct_eq_readerFor, construct_eq_readerFor, h.current_eq]
  generalize t.current.kind = kind
  have hatom := j.parallel_expression
  have hexpect := j.parallel_expect
  by_cases hfunc : kind = .funcKeyword
  · rw [readerFor, if_pos hfunc, functionDeclaration_eq]
    exact (h.inStep_expect _ _).bind fun _ => (hexpect _ _ (by decide) (by decide)).bind fun _ =>
      (hexpect _ _ (by decide) (by decide)).bind fun _ => j.parallel_closedParameters.bind fun _ =>
        (hexpect _ _ (by decide) (by decide)).bind fun _ => hatom.bind fun _ =>
          (hexpect _ _ (by decide) (by decide)).bind fun _ => .pure j _
  by_cases hlet : kind = .letKeyword
  · rw [readerFor, if_neg hfunc, if_pos hlet]
    exact (h.inStep_expect _ _).bind fun _ => (hexpect _ _ (by decide) (by decide)).bind fun _ =>
      (hexpect _ _ (by decide) (by decide)).bind fun _ => hatom.bind fun _ => .pure j _
  · rw [readerFor, if_neg hfunc, if_neg hlet]
    exact (hatom s t (.inside h)).bind fun _ => .pure j _

end Seam

end Grammar

end BraceLang
