import BraceLang.TokenStream

/-! # Cursor moves — which tokens a move of the cursor leaves behind

    A stream whose tokens are closed by their only end marker is at its end
    exactly when it stands on the marker.  On such a stream every move of the
    cursor is described by the list of tokens that it passes: `Passes` says
    that the passed tokens, joined with what is left to read, are what was
    left before.  Skipping ahead passes no token that starts a construct
    (`passes_skip`). -/

namespace BraceLang

/-- Tokens closed by an end marker that is the only one among them. -/
inductive Marked : List Token → Prop where
  | marker {e : Token} (he : e.isEnd) : Marked [e]
  | token {t : Token} {ts : List Token} (ht : ¬ t.isEnd) (hts : Marked ts) :
      Marked (t :: ts)

namespace Marked

theorem append {body : List Token} {ts : List Token}
    (hbody : ∀ t ∈ body, ¬ t.isEnd) (hts : Marked ts) : Marked (body ++ ts) := by
  induction body with
  | nil => exact hts
  | cons t body ih =>
      refine .token (hbody t List.mem_cons_self) (ih ?_)
      intro u hu
      exact hbody u (List.mem_cons_of_mem t hu)

theorem ne_nil {ts : List Token} (h : Marked ts) : ts ≠ [] := by
  cases h with
  | marker he => exact List.cons_ne_nil _ _
  | token ht hts => exact List.cons_ne_nil _ _

/-- Nothing stands behind the marker. -/
theorem eq_nil_of_isEnd {t : Token} {ts : List Token} (h : Marked (t :: ts)) (ht : t.isEnd) :
    ts = [] := by
  cases h with
  | marker he => rfl
  | token hnot hts => exact absurd ht hnot

/-- A suffix that still has a token is closed by the same marker, and no
    token in front of it is a marker. -/
theorem split {front back : List Token} (h : Marked (front ++ back))
    (hback : back ≠ []) : (∀ t ∈ front, ¬ t.isEnd) ∧ Marked back := by
  induction front with
  | nil =>
      exact ⟨List.forall_mem_nil _, h⟩
  | cons t front ih =>
      generalize hw : (t :: front) ++ back = whole at h
      cases h with
      | @marker e he =>
          -- the marker alone leaves no token for the back
          have hnil : front ++ back = [] := (List.cons.inj hw).2
          exact absurd (List.append_eq_nil_iff.mp hnil).2 hback
      | @token u us hu hus =>
          obtain ⟨htu, hrest⟩ := List.cons.inj hw
          rw [← hrest] at hus
          obtain ⟨hfront, hmarked⟩ := ih hus
          refine ⟨?_, hmarked⟩
          intro v hv
          rcases List.mem_cons.mp hv with heq | hmem
          · rw [heq, htu]
            exact hu
          · exact hfront v hmem

end Marked

namespace TokenStream

theorem remaining_ne_nil (s : TokenStream) : s.remaining ≠ [] :=
  List.cons_ne_nil s.current s.upcoming

/-- A marked stream is at its end exactly on the marker. -/
theorem atEnd_iff_isEnd {s : TokenStream} (h : Marked s.remaining) :
    s.atEnd ↔ s.current.isEnd := by
  have hs : s.atEnd = (s.upcoming.isEmpty || s.current.isEnd) := rfl
  rw [hs, Bool.or_eq_true]
  constructor
  · rintro (hempty | hend)
    · have hnil : s.upcoming = [] := List.isEmpty_iff.mp hempty
      have hone : Marked [s.current] := by
        rw [← hnil]
        exact h
      cases hone with
      | marker he => exact he
      | token ht hts => exact absurd rfl hts.ne_nil
    · exact hend
  · exact Or.inr

theorem upcoming_of_atEnd {s : TokenStream} (h : Marked s.remaining) (hend : s.atEnd) :
    s.upcoming = [] :=
  h.eq_nil_of_isEnd ((atEnd_iff_isEnd h).mp hend)

/-- The cursor moves from the first stream to the second and leaves exactly
    the tokens `taken` behind. -/
structure Passes (s : TokenStream) (taken : List Token) (t : TokenStream) : Prop where
  passed : t.passed = taken.reverse ++ s.passed
  remaining : s.remaining = taken ++ t.remaining

namespace Passes

variable {s t u : TokenStream} {front back : List Token}

theorem refl (s : TokenStream) : s.Passes [] s :=
  ⟨rfl, rfl⟩

theorem trans (hst : s.Passes front t) (htu : t.Passes back u) :
    s.Passes (front ++ back) u := by
  refine ⟨?_, ?_⟩
  · rw [htu.passed, hst.passed, List.reverse_append, List.append_assoc]
  · rw [hst.remaining, htu.remaining, List.append_assoc]

/-- A longer move is the shorter one and a move behind it. -/
theorem of_append (hsu : s.Passes (front ++ back) u) (hst : s.Passes front t) :
    t.Passes back u := by
  refine ⟨?_, ?_⟩
  · rw [hsu.passed, hst.passed, List.reverse_append, List.append_assoc]
  · have h := hst.remaining.symm.trans hsu.remaining
    rw [List.append_assoc] at h
    exact List.append_cancel_left h

/-- The passed tokens determine where the cursor stands. -/
theorem eq (ht : s.Passes front t) (hu : s.Passes front u) : t = u := by
  have hpassed : t.passed = u.passed := by rw [ht.passed, hu.passed]
  have hremaining : t.current :: t.upcoming = u.current :: u.upcoming :=
    List.append_cancel_left (ht.remaining.symm.trans hu.remaining)
  obtain ⟨hcurrent, hupcoming⟩ := List.cons.inj hremaining
  cases t
  cases u
  cases hpassed
  cases hcurrent
  cases hupcoming
  rfl

theorem index_eq (h : s.Passes front t) : t.index = s.index + front.length := by
  show t.passed.length = s.passed.length + front.length
  rw [h.passed, List.length_append, List.length_reverse, Nat.add_comm]

theorem marked (h : s.Passes front t) (hs : Marked s.remaining) : Marked t.remaining := by
  rw [h.remaining] at hs
  exact (hs.split t.remaining_ne_nil).2

/-- The marker is never left behind. -/
theorem not_isEnd (h : s.Passes front t) (hs : Marked s.remaining) :
    ∀ x ∈ front, ¬ x.isEnd := by
  rw [h.remaining] at hs
  exact (hs.split t.remaining_ne_nil).1

/-- What comes first is the first token passed, or the token arrived at. -/
theorem current_eq {x : Token} (h : s.Passes (x :: front) t) : s.current = x :=
  (List.cons.inj h.remaining).1

theorem not_atEnd {x : Token} (h : s.Passes (x :: front) t) (hs : Marked s.remaining) :
    ¬ s.atEnd := by
  intro hend
  have hcurrent := (atEnd_iff_isEnd hs).mp hend
  rw [h.current_eq] at hcurrent
  exact h.not_isEnd hs x List.mem_cons_self hcurrent

end Passes

/-- Every token of a fresh stream is a place that the cursor can move to. -/
theorem exists_passes_index {s : TokenStream} (hs : s.passed = []) {i : Nat} {t : Token}
    (h : s.remaining[i]? = some t) :
    ∃ taken u, s.Passes taken u ∧ u.index = i ∧ u.current = t := by
  obtain ⟨hlt, hget⟩ := List.getElem?_eq_some_iff.mp h
  refine ⟨s.remaining.take i, ⟨(s.remaining.take i).reverse ++ s.passed, t,
    s.remaining.drop (i + 1)⟩, ⟨rfl, ?_⟩, ?_, rfl⟩
  · show s.remaining = s.remaining.take i ++ t :: s.remaining.drop (i + 1)
    rw [← hget, ← List.drop_eq_getElem_cons hlt, List.take_append_drop]
  · show ((s.remaining.take i).reverse ++ s.passed).length = i
    rw [hs, List.append_nil, List.length_reverse, List.length_take]
    omega

/-- From the first token on, the index says how many tokens were passed. -/
theorem Passes.drop_index {s t : TokenStream} {taken : List Token}
    (h : s.Passes taken t) (hs : s.passed = []) : s.remaining.drop t.index = t.remaining := by
  have hindex : t.index = taken.length := by
    rw [h.index_eq, index, hs, List.length_nil, Nat.zero_add]
  rw [hindex, h.remaining, List.drop_left]

theorem passes_advance {s : TokenStream} (h : ¬ s.atEnd) :
    s.Passes [s.current] s.advance := by
  obtain ⟨t, rest, hu, ha⟩ := advance_of_not_atEnd h
  rw [ha]
  refine ⟨rfl, ?_⟩
  show s.current :: s.upcoming = s.current :: (t :: rest)
  rw [hu]

/-- A move of the cursor leaves some tokens behind. -/
theorem Reaches.exists_passes {s t : TokenStream} (h : s.Reaches t) :
    ∃ taken, s.Passes taken t := by
  induction h with
  | refl s => exact ⟨[], .refl s⟩
  | @advance s t _ ih =>
      obtain ⟨taken, hpasses⟩ := ih
      by_cases hend : s.atEnd
      · rw [advance_of_atEnd hend] at hpasses
        exact ⟨taken, hpasses⟩
      · exact ⟨s.current :: taken, (passes_advance hend).trans hpasses⟩

theorem length_tokens (s : TokenStream) :
    s.tokens.length = s.index + s.upcoming.length + 1 := by
  rw [tokens, List.length_append, List.length_reverse, List.length_cons]
  rfl

theorem getElem?_index (s : TokenStream) : s.tokens[s.index]? = some s.current := by
  have hpassed : s.passed.reverse.length ≤ s.index := Nat.le_of_eq List.length_reverse
  rw [tokens, List.getElem?_append_right hpassed, index, List.length_reverse, Nat.sub_self]
  rfl

/-- At the first token all tokens are left to read. -/
theorem tokens_eq_remaining {s : TokenStream} (h : s.passed = []) : s.tokens = s.remaining := by
  rw [tokens, h]
  rfl

theorem Reaches.index_le {s t : TokenStream} (h : s.Reaches t) : s.index ≤ t.index := by
  obtain ⟨taken, hpasses⟩ := h.exists_passes
  rw [hpasses.index_eq]
  exact Nat.le_add_right _ _

/-- What has fewer tokens to come has passed more of them. -/
theorem Reaches.index_lt {s t : TokenStream} (h : s.Reaches t)
    (hlt : t.upcoming.length < s.upcoming.length) : s.index < t.index := by
  have hs := s.length_tokens
  have ht := t.length_tokens
  rw [h.tokens_eq] at ht
  omega

/-- Skipping ahead passes no token that starts a construct. -/
theorem passes_skip (s : TokenStream) :
    ∃ skipped, s.Passes skipped s.skip
      ∧ ∀ x ∈ skipped, ¬ x.kind.startsConstruct := by
  fun_induction skip s with
  | case1 s _ => exact ⟨[], .refl s, List.forall_mem_nil _⟩
  | case2 s _ _ => exact ⟨[], .refl s, List.forall_mem_nil _⟩
  | case3 s _ _ _ => exact ⟨[], .refl s, List.forall_mem_nil _⟩
  | case4 s hend _ hstart ih =>
      obtain ⟨skipped, hpasses, hskipped⟩ := ih
      refine ⟨s.current :: skipped, (passes_advance hend).trans hpasses, ?_⟩
      intro x hx
      rcases List.mem_cons.mp hx with heq | hmem
      · rw [heq]
        exact hstart
      · exact hskipped x hmem

/-- Resuming leaves one token behind, whatever it is, and then passes no token
    that starts a construct. -/
theorem passes_synchronize {s : TokenStream} (h : ¬ s.atEnd) :
    ∃ skipped, s.Passes (s.current :: skipped) s.synchronize
      ∧ ∀ x ∈ skipped, ¬ x.kind.startsConstruct := by
  obtain ⟨skipped, hpasses, hskipped⟩ := passes_skip s.advance
  exact ⟨skipped, (passes_advance h).trans hpasses, hskipped⟩

theorem synchronize_of_atEnd {s : TokenStream} (h : s.atEnd) : s.synchronize = s := by
  show s.advance.skip = s
  rw [advance_of_atEnd h, skip, dif_pos h]

end TokenStream

end BraceLang
