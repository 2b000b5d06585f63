import BraceLang.Grammar
import BraceLang.Proofs.Grammar.Cursor

/-! # Shapes — the token lists that a reader takes

    A shape is a set of token lists, each with the value it stands for.  A
    reader recognizes a shape if on every marked stream it takes a list of the
    shape and returns its value, or else stops at the first token with which
    no list of the shape can go on, and blames that token.

    Since no list of a recognized shape begins another one, a list of the
    shape at the front of the stream is always taken (`Recognizes.takes`), and
    recognition carries over to readers put one behind the other
    (`Recognizes.bind`). -/

namespace BraceLang

/-- The fault is syntactic and was found at the given token. -/
def Fault.Blames : Fault → Token → Prop
  | .syntactic (.tokenMismatch _ found _) location, t =>
      location = t.location ∧ found = t.kind
  | .syntactic (.unexpectedToken found) location, t =>
      location = t.location ∧ found = t.kind
  | .syntactic .unexpectedEndOfInput location, t => location = t.location
  | _, _ => False

namespace Grammar

/-- A shape of token lists, each list with the value it stands for. -/
abbrev Shape (α : Type) := List Token → α → Prop

variable {α β : Type}

theorem bind_of_ok {r : Reader α} {f : α → Reader β} {s t : TokenStream} {a : α}
    (h : r s = .ok a t) : (r >>= f) s = f a t := by
  show EStateM.bind r f s = f a t
  rw [EStateM.bind, h]

theorem bind_of_error {r : Reader α} {f : α → Reader β} {s t : TokenStream} {fault : Fault}
    (h : r s = .error fault t) : (r >>= f) s = .error fault t := by
  show EStateM.bind r f s = .error fault t
  rw [EStateM.bind, h]

/-- Two readers succeed together only if each of them does. -/
theorem exists_of_bind_ok {r : Reader α} {f : α → Reader β} {s u : TokenStream} {b : β}
    (h : (r >>= f) s = .ok b u) : ∃ a t, r s = .ok a t ∧ f a t = .ok b u := by
  cases hs : r s with
  | ok a t =>
      rw [bind_of_ok hs] at h
      exact ⟨a, t, rfl, h⟩
  | error fault t =>
      rw [bind_of_error hs] at h
      cases h

namespace Shape

/-- Only the empty list, with a given value. -/
def done (a : α) : Shape α := fun ts b => ts = [] ∧ b = a

/-- Lists of one token. -/
def single (P : Token → α → Prop) : Shape α := fun ts a => ∃ t, ts = [t] ∧ P t a

/-- A list of one shape and behind it a list of another, which may depend on
    the value of the first. -/
def andThen (L : Shape α) (M : α → Shape β) : Shape β := fun ts b =>
  ∃ a front back, ts = front ++ back ∧ L front a ∧ M a back b

/-- No list of the shape begins a longer one, and each has one value. -/
def Exact (L : Shape α) : Prop :=
  ∀ front more a b, L front a → L (front ++ more) b → more = [] ∧ b = a

/-- Some list of the shape goes on behind `taken`, but none goes on with `x`. -/
structure Blocked (L : Shape α) (taken : List Token) (x : Token) : Prop where
  viable : ∃ more a, more ≠ [] ∧ L (taken ++ more) a
  stuck : ∀ more a, ¬ L (taken ++ x :: more) a

theorem exact_done (a : α) : (done a).Exact := by
  rintro front more b c ⟨hfront, hb⟩ ⟨happ, hc⟩
  exact ⟨(List.append_eq_nil_iff.mp happ).2, by rw [hb, hc]⟩

theorem exact_single {P : Token → α → Prop} (hP : ∀ t a b, P t a → P t b → b = a) :
    (single P).Exact := by
  rintro front more a b ⟨t, hfront, ha⟩ ⟨u, happ, hb⟩
  rw [hfront] at happ
  obtain ⟨htu, hmore⟩ := List.cons.inj happ
  rw [htu] at ha
  exact ⟨hmore, hP u a b ha hb⟩

/-- Of two lists of an exact shape that begin the same tokens, neither is the
    longer one. -/
theorem Exact.eq_of_append {L : Shape α} (hL : L.Exact) {c d x y : List Token} {a b : α}
    (hc : L c a) (hd : L d b) (h : c ++ x = d ++ y) : d = c ∧ b = a := by
  rcases List.append_eq_append_iff.mp h with ⟨m, hd', hx⟩ | ⟨m, hc', hy⟩
  · rw [hd'] at hd
    obtain ⟨hm, hab⟩ := hL c m a b hc hd
    rw [hd', hm, List.append_nil]
    exact ⟨rfl, hab⟩
  · rw [hc'] at hc
    obtain ⟨hm, hab⟩ := hL d m b a hd hc
    rw [hc', hm, List.append_nil]
    exact ⟨rfl, hab.symm⟩

theorem Exact.andThen {L : Shape α} {M : α → Shape β} (hL : L.Exact)
    (hM : ∀ a, (M a).Exact) : (L.andThen M).Exact := by
  rintro ts more b c ⟨a, front, back, hts, hfront, hback⟩ ⟨a', front', back', hts', hfront', hback'⟩
  -- the two lists have the same front, so only their backs are left to compare
  rw [hts, List.append_assoc] at hts'
  obtain ⟨hff, haa⟩ := hL.eq_of_append hfront hfront' hts'
  rw [hff] at hts'
  have hrest : back ++ more = back' := List.append_cancel_left hts'
  rw [haa, ← hrest] at hback'
  exact hM a back more b c hback hback'

theorem blocked_single {P : Token → α → Prop} {x : Token} (hP : ∃ t a, P t a)
    (hx : ∀ a, ¬ P x a) : (single P).Blocked [] x where
  viable := by
    obtain ⟨t, a, h⟩ := hP
    exact ⟨[t], a, List.cons_ne_nil t [], t, rfl, h⟩
  stuck := by
    rintro more a ⟨t, ht, h⟩
    rw [← (List.cons.inj ht).1] at h
    exact hx a h

/-- A token that blocks the first shape blocks the two together. -/
theorem Blocked.andThen_left {L : Shape α} {M : α → Shape β} {taken : List Token}
    {x : Token} (h : L.Blocked taken x) (hL : L.Exact)
    (hM : ∀ a, ∃ ts b, M a ts b) : (L.andThen M).Blocked taken x := by
  obtain ⟨more, a, hmore, hopen⟩ := h.viable
  refine ⟨?_, ?_⟩
  · obtain ⟨ts, b, hts⟩ := hM a
    refine ⟨more ++ ts, b, ?_, a, taken ++ more, ts, ?_, hopen, hts⟩
    · exact List.append_ne_nil_of_left_ne_nil hmore ts
    · rw [List.append_assoc]
  · rintro rest b ⟨a', front, back, hsplit, hfront, -⟩
    rcases List.append_eq_append_iff.mp hsplit with ⟨m, hm, hrest⟩ | ⟨m, hm, hback⟩
    · cases m with
      | nil =>
          -- the first part ends before `x`, yet it had to go on
          rw [List.append_nil] at hm
          rw [hm] at hfront
          exact hmore (hL taken more a' a hfront hopen).1
      | cons y m =>
          obtain ⟨hxy, -⟩ := List.cons.inj hrest
          rw [hm, ← hxy] at hfront
          exact h.stuck m a' hfront
    · rw [hm, List.append_assoc] at hopen
      have hnil := (hL front (m ++ more) a' a hfront hopen).1
      exact hmore (List.append_eq_nil_iff.mp hnil).2

/-- Behind a list of the first shape, a token that blocks the second shape
    blocks the two together. -/
theorem Blocked.andThen_right {L : Shape α} {M : α → Shape β} {front taken : List Token}
    {x : Token} {a : α} (h : (M a).Blocked taken x) (hL : L.Exact) (hfront : L front a) :
    (L.andThen M).Blocked (front ++ taken) x := by
  obtain ⟨more, b, hmore, hopen⟩ := h.viable
  refine ⟨⟨more, b, hmore, a, front, taken ++ more, List.append_assoc .., hfront, hopen⟩, ?_⟩
  rintro rest c ⟨a', front', back, hsplit, hfront', hback⟩
  rw [List.append_assoc] at hsplit
  obtain ⟨hff, haa⟩ := hL.eq_of_append hfront hfront' hsplit
  rw [hff] at hsplit
  have hrest : taken ++ x :: rest = back := List.append_cancel_left hsplit
  rw [haa, ← hrest] at hback
  exact h.stuck rest c hback

end Shape

/-! ## Recognition -/

/-- What a result at `s` says about the tokens there: those passed have the
    shape, or they can go on but not with the token that is blamed. -/
def Answers (L : Shape α) (s : TokenStream) : EStateM.Result Fault TokenStream α → Prop
  | .ok a t => ∃ taken, s.Passes taken t ∧ L taken a
  | .error fault t =>
      ∃ taken, s.Passes taken t ∧ L.Blocked taken t.current ∧ fault.Blames t.current

/-- The reader takes the lists of the shape, and stops where there is none. -/
structure Recognizes (r : Reader α) (L : Shape α) : Prop where
  sharp : L.Exact
  inhabited : ∃ ts a, L ts a
  answers : ∀ s : TokenStream, Marked s.remaining → Answers L s (r s)

namespace Recognizes

/-- What the reader returns a value for has the shape. -/
theorem of_ok {r : Reader α} {L : Shape α} (h : Recognizes r L) {s t : TokenStream} {a : α}
    (hs : Marked s.remaining) (hok : r s = .ok a t) : ∃ taken, s.Passes taken t ∧ L taken a := by
  have hanswer := h.answers s hs
  rwa [hok] at hanswer

/-- The reader fails at a token that does not fit, and blames it. -/
theorem of_error {r : Reader α} {L : Shape α} (h : Recognizes r L) {s t : TokenStream}
    {fault : Fault} (hs : Marked s.remaining) (herror : r s = .error fault t) :
    ∃ taken, s.Passes taken t ∧ L.Blocked taken t.current ∧ fault.Blames t.current := by
  have hanswer := h.answers s hs
  rwa [herror] at hanswer

/-- A list of the shape at the front of the stream is what the reader takes. -/
theorem takes {r : Reader α} {L : Shape α} (h : Recognizes r L) {s : TokenStream}
    (hs : Marked s.remaining) {taken rest : List Token} {a : α}
    (hsplit : s.remaining = taken ++ rest) (hL : L taken a) :
    ∃ t, r s = .ok a t ∧ s.Passes taken t := by
  cases hr : r s with
  | ok b t =>
      obtain ⟨taken', hpasses, hL'⟩ := h.of_ok hs hr
      obtain ⟨htt, hba⟩ := h.sharp.eq_of_append hL hL' (hsplit.symm.trans hpasses.remaining)
      rw [htt] at hpasses
      rw [hba]
      exact ⟨t, rfl, hpasses⟩
  | error fault t =>
      obtain ⟨taken', hpasses, hblocked, -⟩ := h.of_error hs hr
      obtain ⟨more, b, hmore, hopen⟩ := hblocked.viable
      have heq : taken ++ rest = taken' ++ t.current :: t.upcoming :=
        hsplit.symm.trans hpasses.remaining
      rcases List.append_eq_append_iff.mp heq with ⟨m, hm, -⟩ | ⟨m, hm, hrest⟩
      · rw [hm, List.append_assoc] at hopen
        have hnil := (h.sharp taken (m ++ more) a b hL hopen).1
        exact absurd (List.append_eq_nil_iff.mp hnil).2 hmore
      · cases m with
        | nil =>
            rw [List.append_nil] at hm
            rw [← hm] at hopen
            exact absurd (h.sharp taken more a b hL hopen).1 hmore
        | cons y m =>
            rw [hm, ← (List.cons.inj hrest).1] at hL
            exact absurd hL (hblocked.stuck m a)

theorem pure (a : α) : Recognizes (Pure.pure a : Reader α) (.done a) where
  sharp := Shape.exact_done a
  inhabited := ⟨[], a, rfl, rfl⟩
  answers := fun s _ => ⟨[], .refl s, rfl, rfl⟩

theorem bind {r : Reader α} {f : α → Reader β} {L : Shape α} {M : α → Shape β}
    (hr : Recognizes r L) (hf : ∀ a, Recognizes (f a) (M a)) :
    Recognizes (r >>= f) (L.andThen M) where
  sharp := hr.sharp.andThen fun a => (hf a).sharp
  inhabited := by
    obtain ⟨front, a, hfront⟩ := hr.inhabited
    obtain ⟨back, b, hback⟩ := (hf a).inhabited
    exact ⟨front ++ back, b, a, front, back, rfl, hfront, hback⟩
  answers := by
    intro s hs
    have hfirst := hr.answers s hs
    cases hrs : r s with
    | error fault t =>
        rw [hrs] at hfirst
        obtain ⟨taken, hpasses, hblocked, hblames⟩ := hfirst
        rw [bind_of_error hrs]
        exact ⟨taken, hpasses, hblocked.andThen_left hr.sharp fun a => (hf a).inhabited, hblames⟩
    | ok a t =>
        rw [hrs] at hfirst
        obtain ⟨front, hpasses, hfront⟩ := hfirst
        rw [bind_of_ok hrs]
        have hsecond := (hf a).answers t (hpasses.marked hs)
        cases hfa : f a t with
        | ok b u =>
            rw [hfa] at hsecond
            obtain ⟨back, hpasses', hback⟩ := hsecond
            exact ⟨front ++ back, hpasses.trans hpasses', a, front, back, rfl, hfront, hback⟩
        | error fault u =>
            rw [hfa] at hsecond
            obtain ⟨taken, hpasses', hblocked, hblames⟩ := hsecond
            exact ⟨front ++ taken, hpasses.trans hpasses',
              hblocked.andThen_right hr.sharp hfront, hblames⟩

end Recognizes

end Grammar

end BraceLang
