import BraceLang.Proofs.Lexer.NumeralForm
import BraceLang.Proofs.Lexer.Segments

/-! # Boundaries — where a text can be cut without cutting a segment

    A segment can only be continued by a letter, a digit, an underscore or a
    point, and only words and numerals can be continued at all.  So where one
    of the two sides of a boundary has no such character, what was read in
    front of it is read in the same way when a text follows: `read_append` for
    a numeral, `readAll_append` for a whole text, and
    `readAll_append_of_malformed` for one that breaks off. -/

namespace BraceLang

/-- The characters with which a word or a numeral can go on. -/
def joins (c : Char) : Bool :=
  c.isAlphanum || c = '_' || c = '.'

/-- The boundary between two texts cuts no segment: not both of them have a
    character there that joins. -/
def Separate (text q : List Char) : Prop :=
  (∀ c ∈ text.getLast?, ¬ joins c) ∨ ∀ c ∈ q.head?, ¬ joins c

/-- A text that cannot go on with what begins `q`, be it the middle of an
    exponent. -/
def Closing (q : List Char) : Prop :=
  ∀ c ∈ q.head?, ¬ joins c ∧ c ≠ '+' ∧ c ≠ '-'

/-- Where `rest` is left of a text, `q` behind it cannot continue what was
    read. -/
def Apart (rest q : List Char) : Prop :=
  rest ≠ [] ∨ ∀ c ∈ q.head?, ¬ joins c

theorem Apart.of_append {front rest q : List Char} (h : Apart rest q) : Apart (front ++ rest) q :=
  h.imp_left fun hne => List.append_ne_nil_of_right_ne_nil front hne

theorem Closing.apart {q : List Char} (h : Closing q) (rest : List Char) : Apart rest q :=
  .inr fun c hc => (h c hc).1

theorem isLower_iff {c : Char} : c.isLower ↔ 'a' ≤ c ∧ c ≤ 'z' :=
  Bool.and_eq_true_iff.trans (and_congr decide_eq_true_iff decide_eq_true_iff)

theorem isUpper_iff {c : Char} : c.isUpper ↔ 'A' ≤ c ∧ c ≤ 'Z' :=
  decide_eq_true_iff

theorem isAlpha_iff {c : Char} : c.isAlpha ↔ c.isUpper ∨ c.isLower :=
  Bool.or_eq_true_iff

theorem joins_of_isAlpha {c : Char} (h : c.isAlpha) : joins c := by
  simp [joins, Char.isAlphanum, h]

theorem joins_of_isDigit {c : Char} (h : c.isDigit) : joins c := by
  simp [joins, Char.isAlphanum, h]

/-- A run that stopped in front of a boundary, or that does not go on behind
    it, is the same when a text follows. -/
theorem takeWhile_append_of_stop {p : Char → Bool} {text q : List Char}
    (h : text.dropWhile p ≠ [] ∨ ∀ c ∈ q.head?, ¬ p c) :
    (text ++ q).takeWhile p = text.takeWhile p
      ∧ (text ++ q).dropWhile p = text.dropWhile p ++ q := by
  induction text with
  | nil =>
      have hstop : ∀ c ∈ q.head?, ¬ p c := h.elim (fun hne => absurd rfl hne) id
      cases q with
      | nil => exact ⟨rfl, rfl⟩
      | cons c q =>
          have hc := hstop c rfl
          exact ⟨List.takeWhile_cons_of_neg hc, List.dropWhile_cons_of_neg hc⟩
  | cons c text ih =>
      by_cases hc : p c
      · rw [List.dropWhile_cons_of_pos hc] at h
        obtain ⟨htake, hdrop⟩ := ih h
        rw [List.cons_append, List.takeWhile_cons_of_pos hc, List.dropWhile_cons_of_pos hc,
          List.takeWhile_cons_of_pos hc, List.dropWhile_cons_of_pos hc, htake, hdrop]
        exact ⟨rfl, rfl⟩
      · rw [List.cons_append, List.takeWhile_cons_of_neg hc, List.dropWhile_cons_of_neg hc,
          List.takeWhile_cons_of_neg hc, List.dropWhile_cons_of_neg hc]
        exact ⟨rfl, rfl⟩

/-- A run of characters that join does not cross a boundary. -/
theorem takeWhile_append_of_apart {p : Char → Bool} (hp : ∀ c, p c → joins c) {text q : List Char}
    (h : Apart (text.dropWhile p) q) :
    (text ++ q).takeWhile p = text.takeWhile p
      ∧ (text ++ q).dropWhile p = text.dropWhile p ++ q :=
  takeWhile_append_of_stop (h.imp_right fun hq c hc hpc => hq c hc (hp c hpc))

theorem separate_of_append {front back q : List Char} (hback : back ≠ [])
    (h : Separate (front ++ back) q) : Separate back q := by
  rw [Separate, List.getLast?_append, List.getLast?_eq_some_getLast hback, Option.some_or,
    ← List.getLast?_eq_some_getLast hback] at h
  exact h

/-- The text ends with a run of characters that join. -/
def EndsJoining (raw : List Char) : Prop :=
  ∃ front back, raw = front ++ back ∧ back ≠ [] ∧ ∀ c ∈ back, joins c

/-- What ends with characters that join is not continued across a boundary. -/
theorem EndsJoining.apart {raw rest q : List Char} (hraw : EndsJoining raw)
    (h : rest ≠ [] ∨ Separate raw q) : Apart rest q := by
  obtain ⟨front, back, rfl, hback, hjoins⟩ := hraw
  refine h.imp_right fun hseparate => ?_
  rcases separate_of_append hback hseparate with hlast | hhead
  · have hnot := hlast _ (List.getLast?_eq_some_getLast hback)
    exact absurd (hjoins _ (List.getLast_mem hback)) hnot
  · exact hhead

/-! ## Numerals -/

namespace Numeral

/-- What a reader answers when a text follows that it does not reach. -/
def behind (q : List Char) :
    Except Malformed (List Char × List Char) → Except Malformed (List Char × List Char)
  | .ok (taken, rest) => .ok (taken, rest ++ q)
  | .error m => .error m

/-- What was read cannot be continued by `q`, nor can what is missing of a
    broken numeral be found there. -/
def Sealed (q : List Char) : Except Malformed (List Char × List Char) → Prop
  | .ok (_, rest) => Apart rest q
  | .error _ => Closing q

theorem Sealed.apart {lead text q : List Char}
    {answer : Except Malformed (List Char × List Char)} (h : Sealed q answer)
    (hextends : Extends lead text answer) : Apart text q := by
  match answer, h, hextends with
  | .ok (_, rest), h, ⟨more, _, htext⟩ =>
      rw [← htext]
      exact Apart.of_append h
  | .error _, h, _ => exact Closing.apart h text

theorem joins_of_isHexDigit {c : Char} (h : isHexDigit c) : joins c := by
  have hcases : c.isDigit ∨ 'a' ≤ c ∧ c ≤ 'f' ∨ 'A' ≤ c ∧ c ≤ 'F' := by
    simpa [isHexDigit, or_assoc] using h
  rcases hcases with hdigit | ⟨hlow, hhigh⟩ | ⟨hlow, hhigh⟩
  · exact joins_of_isDigit hdigit
  · have hz : c ≤ 'z' := Char.le_trans hhigh (by decide)
    exact joins_of_isAlpha (isAlpha_iff.mpr (.inr (isLower_iff.mpr ⟨hlow, hz⟩)))
  · have hZ : c ≤ 'Z' := Char.le_trans hhigh (by decide)
    exact joins_of_isAlpha (isAlpha_iff.mpr (.inl (isUpper_iff.mpr ⟨hlow, hZ⟩)))

theorem joins_of_isBinaryDigit {c : Char} (h : isBinaryDigit c) : joins c := by
  have hcases : c = '0' ∨ c = '1' := by simpa [isBinaryDigit] using h
  rcases hcases with rfl | rfl <;> rfl

theorem digits_append {isDigit : Char → Bool} (hjoins : ∀ c, isDigit c → joins c)
    {cause : LexicalFault} {lead text q : List Char}
    (h : Sealed q (digits isDigit cause lead text)) :
    digits isDigit cause lead (text ++ q) = behind q (digits isDigit cause lead text) := by
  have hapart : Apart (text.dropWhile isDigit) q := by
    rw [digits] at h
    split at h
    next => exact Closing.apart h _
    next => exact h
  obtain ⟨htake, hdrop⟩ := takeWhile_append_of_apart hjoins hapart
  rw [digits, digits, htake, hdrop]
  split <;> rfl

theorem fraction_append_of_apart {text q : List Char} (h : Apart (fraction text).2 q) :
    fraction (text ++ q) = ((fraction text).1, (fraction text).2 ++ q) := by
  cases text with
  | nil =>
      rcases h with hne | hq
      · exact absurd rfl hne
      · refine fraction_of_ne ?_
        rintro more rfl
        exact hq '.' rfl rfl
  | cons c text =>
      by_cases hc : c = '.'
      · subst hc
        obtain ⟨htake, hdrop⟩ := takeWhile_append_of_apart (fun c => joins_of_isDigit) h
        show ('.' :: (text ++ q).takeWhile Char.isDigit, (text ++ q).dropWhile Char.isDigit) = _
        rw [htake, hdrop]
        rfl
      · have hne : ∀ text more : List Char, c :: text ≠ '.' :: more :=
          fun _ _ heq => hc (List.cons.inj heq).1
        rw [List.cons_append, fraction_of_ne (hne _), fraction_of_ne (hne _)]
        rfl

theorem sign_append_of_cons (c : Char) (text q : List Char) :
    sign (c :: (text ++ q)) = ((sign (c :: text)).1, (sign (c :: text)).2 ++ q) := by
  by_cases hplus : c = '+'
  · subst hplus
    rfl
  by_cases hminus : c = '-'
  · subst hminus
    rfl
  · simp [sign, hplus, hminus]

theorem sign_of_closing {q : List Char} (h : Closing q) : sign q = ([], q) :=
  sign_of_head fun c hc => (h c hc).2

theorem exponent_append {lead text q : List Char} (h : Sealed q (exponent lead text)) :
    exponent lead (text ++ q) = behind q (exponent lead text) := by
  cases text with
  | nil =>
      have hq : ∀ c ∈ q.head?, ¬ joins c := h.elim (fun hne => absurd rfl hne) id
      cases q with
      | nil => rfl
      | cons c q =>
          have hletter : ¬ (c = 'e' ∨ c = 'E') := by
            rintro (rfl | rfl) <;> exact hq _ rfl rfl
          show exponent lead (c :: q) = .ok (lead, c :: q)
          rw [exponent, if_neg hletter]
  | cons c text =>
      rw [exponent] at h ⊢
      rw [List.cons_append, exponent]
      split
      next hletter =>
          rw [if_pos hletter] at h
          cases text with
          | nil =>
              -- the sign and the digits are missing, and `q` does not supply them
              have hq : Closing q := h
              rw [List.nil_append, sign_of_closing hq]
              exact digits_append (fun _ => joins_of_isDigit) h
          | cons d text =>
              rw [List.cons_append, sign_append_of_cons]
              exact digits_append (fun _ => joins_of_isDigit) h
      next => rfl

theorem decimal_append {text q : List Char} (h : Sealed q (decimal text)) :
    decimal (text ++ q) = behind q (decimal text) := by
  have hpart : Apart (fraction (text.dropWhile Char.isDigit)).2 q :=
    h.apart (exponent_extends _ _)
  have hwhole : Apart (text.dropWhile Char.isDigit) q := by
    rw [← fraction_append (text.dropWhile Char.isDigit)]
    exact hpart.of_append
  obtain ⟨htake, hdrop⟩ := takeWhile_append_of_apart (fun _ => joins_of_isDigit) hwhole
  rw [decimal, htake, hdrop, fraction_append_of_apart hpart]
  exact exponent_append h

/-- A radix letter that `q` does not supply is there without `q`, or not at
    all. -/
theorem radix_prefix_append_iff {letter c : Char} (hletter : joins letter) {text q : List Char}
    (h : Apart text q) :
    ['0', letter] <+: c :: (text ++ q) ↔ ['0', letter] <+: c :: text := by
  cases text with
  | nil =>
      have hq : ∀ c ∈ q.head?, ¬ joins c := h.elim (fun hne => absurd rfl hne) id
      constructor
      · intro hprefix
        obtain ⟨more, hmore⟩ := (List.cons_prefix_cons.mp hprefix).2
        rw [List.nil_append] at hmore
        exact absurd hletter (hq letter (by rw [← hmore]; rfl))
      · intro hprefix
        simp at hprefix
  | cons d text => simp [List.cons_prefix_cons]

/-- A numeral is read in the same way when a text follows that cannot continue
    it. -/
theorem read_append {c : Char} (hc : c.isDigit) {text q : List Char}
    (h : Sealed q (read (c :: text))) :
    read (c :: (text ++ q)) = behind q (read (c :: text)) := by
  have hapart : Apart text q := h.apart (read_extends hc text)
  have hradix : ∀ letter, joins letter →
      (['0', letter] <+: c :: (text ++ q) ↔ ['0', letter] <+: c :: text) :=
    fun _ hletter => radix_prefix_append_iff hletter hapart
  by_cases hx : ['0', 'x'] <+: c :: text ∨ ['0', 'X'] <+: c :: text
  · rcases hx with ⟨more, hmore⟩ | ⟨more, hmore⟩
    · cases hmore
      exact digits_append (fun _ => joins_of_isHexDigit) h
    · cases hmore
      exact digits_append (fun _ => joins_of_isHexDigit) h
  by_cases hb : ['0', 'b'] <+: c :: text ∨ ['0', 'B'] <+: c :: text
  · rcases hb with ⟨more, hmore⟩ | ⟨more, hmore⟩
    · cases hmore
      exact digits_append (fun _ => joins_of_isBinaryDigit) h
    · cases hmore
      exact digits_append (fun _ => joins_of_isBinaryDigit) h
  rw [read_of_decimal hx hb] at h ⊢
  rw [← hradix 'x' rfl, ← hradix 'X' rfl] at hx
  rw [← hradix 'b' rfl, ← hradix 'B' rfl] at hb
  rw [read_of_decimal hx hb]
  exact decimal_append h

/-! ## The last character of a numeral -/

theorem Radix.endsJoining {small capital : Char} {isDigit : Char → Bool} {raw : List Char}
    (hjoins : ∀ c, isDigit c → joins c) (h : Radix small capital isDigit raw) :
    EndsJoining raw := by
  obtain ⟨-, hne, hds⟩ := h
  exact ⟨['0', _], _, rfl, hne, fun c hc => hjoins c (hds c hc)⟩

theorem Decimal.endsJoining {raw : List Char} (h : Decimal raw) : EndsJoining raw := by
  obtain ⟨ds, -, rfl, hds, part, power, rfl, hpart, hpower⟩ := h
  cases hpower with
  | @power letter sgn ds' hletter hsgn hds' =>
      refine ⟨ds ++ (part ++ letter :: sgn), ds', by simp, hds'.1, ?_⟩
      exact fun c hc => joins_of_isDigit (hds'.2 c hc)
  | none =>
      cases hpart with
      | none => exact ⟨[], ds, by simp, hds.1, fun c hc => joins_of_isDigit (hds.2 c hc)⟩
      | @point ds' hds' =>
          refine ⟨ds, '.' :: ds', by simp, List.cons_ne_nil '.' ds', ?_⟩
          intro c hc
          rcases List.mem_cons.mp hc with rfl | hmem
          · rfl
          · exact joins_of_isDigit (hds' c hmem)

theorem endsJoining_of_read {c : Char} {text taken rest : List Char} (hc : c.isDigit)
    (h : read (c :: text) = .ok (taken, rest)) : EndsJoining taken := by
  have hlongest := longest_of_read hc h
  by_cases hx : ['0', 'x'] <+: c :: text ∨ ['0', 'X'] <+: c :: text
  · exact (hlongest.hexadecimal hx).fits.endsJoining fun _ => joins_of_isHexDigit
  by_cases hb : ['0', 'b'] <+: c :: text ∨ ['0', 'B'] <+: c :: text
  · exact (hlongest.binary hb).fits.endsJoining fun _ => joins_of_isBinaryDigit
  · exact (hlongest.decimal hx hb).fits.endsJoining

end Numeral

/-! ## Segments -/

namespace Segment

theorem joins_of_isWordPart {c : Char} (h : isWordPart c) : joins c := by
  rw [isWordPart] at h
  rw [joins, h, Bool.true_or]

theorem joins_of_isWordStart {c : Char} (h : isWordStart c) : joins c := by
  have hcases : c.isAlpha ∨ c = '_' := by simpa [isWordStart] using h
  rcases hcases with halpha | rfl
  · exact joins_of_isAlpha halpha
  · rfl

/-- A segment that the boundary does not cut is read in the same way when a
    text follows. -/
theorem read_append_of_ok {c : Char} {text rest q : List Char} {s : Segment}
    (h : read c text = .ok (s, rest)) (hq : rest ≠ [] ∨ Separate s.raw q) :
    read c (text ++ q) = .ok (s, rest ++ q) := by
  rw [read] at h ⊢
  split at h
  next hquote =>
      rw [if_pos hquote]
      split at h
      next => cases h
      next d more hdrop =>
          cases h
          have hstop : text.dropWhile isQuotedPart ≠ [] := by
            rw [hdrop]
            exact List.cons_ne_nil d rest
          obtain ⟨htake, hdrop'⟩ := takeWhile_append_of_stop (q := q) (.inl hstop)
          rw [htake, hdrop', hdrop]
          rfl
  next hquote =>
  rw [if_neg hquote]
  split at h
  next hdigit =>
      rw [if_pos hdigit]
      split at h
      next => cases h
      next digits more hread =>
          cases h
          have hsealed : Numeral.Sealed q (Numeral.read (c :: text)) := by
            rw [hread]
            exact (Numeral.endsJoining_of_read hdigit hread).apart hq
          have happend := Numeral.read_append hdigit hsealed
          rw [happend, hread]
          rfl
  next hdigit =>
  rw [if_neg hdigit]
  split at h
  next hword =>
      rw [if_pos hword]
      cases h
      have hends : EndsJoining (c :: text.takeWhile isWordPart) := by
        refine ⟨[], _, rfl, List.cons_ne_nil c _, ?_⟩
        intro d hd
        rcases List.mem_cons.mp hd with rfl | hmem
        · exact joins_of_isWordStart hword
        · exact joins_of_isWordPart (Numeral.forall_mem_takeWhile isWordPart text d hmem)
      obtain ⟨htake, hdrop⟩ :=
        takeWhile_append_of_apart (fun _ => joins_of_isWordPart) (hends.apart hq)
      rw [htake, hdrop]
  next hword =>
  rw [if_neg hword]
  split at h
  next => cases h; rfl
  next => cases h; rfl

/-- A broken numeral stays broken when a text follows that does not supply what
    is missing. -/
theorem read_append_of_error {c : Char} {text q : List Char} {m : Malformed}
    (h : read c text = .error m) (hm : m.cause ≠ .unterminatedString) (hq : Closing q) :
    read c (text ++ q) = .error m := by
  rw [read] at h ⊢
  split at h
  next hquote =>
      split at h
      next => cases h; exact absurd rfl hm
      next => cases h
  next hquote =>
  rw [if_neg hquote]
  split at h
  next hdigit =>
      rw [if_pos hdigit]
      split at h
      next m' hread =>
          cases h
          have hsealed : Numeral.Sealed q (Numeral.read (c :: text)) := by
            rw [hread]
            exact hq
          have happend := Numeral.read_append hdigit hsealed
          rw [happend, hread]
          rfl
      next => cases h
  next hdigit =>
  split at h
  next => cases h
  next =>
  split at h
  next => cases h
  next => cases h

theorem readAll_nil : readAll [] = ([], none) := by
  rw [readAll]

/-- A text that is segments up to its end is the same segments when another
    text follows behind a boundary, and then those of the other text. -/
theorem readAll_append {text q : List Char} {segments : List Segment}
    (h : readAll text = (segments, none)) (hq : Separate text q) :
    readAll (text ++ q) = (segments ++ (readAll q).1, (readAll q).2) := by
  fun_induction readAll text generalizing segments with
  | case1 =>
      cases h
      rfl
  | case2 c text m hread => cases h
  | case3 c text s rest hread ih =>
      obtain ⟨rfl, hnone⟩ := Prod.mk.inj h
      have happ := raw_append_of_read hread
      rw [← happ] at hq
      by_cases hrest : rest = []
      · subst hrest
        rw [List.append_nil] at hq
        rw [List.cons_append, readAll_of_ok (read_append_of_ok hread (.inr hq)), readAll_nil]
        rfl
      · rw [List.cons_append, readAll_of_ok (read_append_of_ok hread (.inl hrest)),
          ih (Prod.ext rfl hnone) (separate_of_append hrest hq)]
        rfl

/-- A text that breaks off at a numeral breaks off there when another text
    follows. -/
theorem readAll_append_of_malformed {text q : List Char} {segments : List Segment}
    {m : Malformed} (h : readAll text = (segments, some m))
    (hm : m.cause ≠ .unterminatedString) (hq : Closing q) :
    readAll (text ++ q) = (segments, some m) := by
  fun_induction readAll text generalizing segments with
  | case1 => cases h
  | case2 c text m' hread =>
      cases h
      exact readAll_of_error (read_append_of_error hread hm hq)
  | case3 c text s rest hread ih =>
      obtain ⟨rfl, hsome⟩ := Prod.mk.inj h
      have hrest : rest ≠ [] := by
        rintro rfl
        rw [readAll_nil] at hsome
        cases hsome
      rw [List.cons_append, readAll_of_ok (read_append_of_ok hread (.inl hrest)),
        ih (Prod.ext rfl hsome)]

end Segment

end BraceLang
