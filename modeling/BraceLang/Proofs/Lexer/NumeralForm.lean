import BraceLang.Numeral

/-! # Numeral forms — a numeral is the longest one that begins the text

    The forms of the three sorts of numeral, and what it means that a text
    begins with the longest list of a form.  Each part of a numeral is taken
    as far as it goes; that the whole is then the longest possible needs that
    a part cut shorter could not be followed by the next one
    (`LongestPrefix.append`). -/

namespace BraceLang

/-- The longest beginning of a text that has a given form. -/
structure LongestPrefix (form : List Char → Prop) (taken text : List Char) : Prop where
  fits : form taken
  begins : taken <+: text
  longest : ∀ other, form other → other <+: text → other <+: taken

/-- A list of one form and behind it a list of another. -/
def Joined (A B : List Char → Prop) : List Char → Prop :=
  fun ts => ∃ front back, ts = front ++ back ∧ A front ∧ B back

theorem LongestPrefix.unique {form : List Char → Prop} {taken other text : List Char}
    (h : LongestPrefix form taken text) (hother : LongestPrefix form other text) :
    taken = other :=
  (hother.longest taken h.fits h.begins).eq_of_length_le
    (h.longest other hother.fits hother.begins).length_le

/-- Longest lists join to a longest list, if no list of the second form that
    has a character stands behind a shorter list of the first. -/
theorem LongestPrefix.append {A B : List Char → Prop} {front back text rest : List Char}
    (hA : LongestPrefix A front text) (hsplit : front ++ rest = text)
    (hB : LongestPrefix B back rest)
    (hsharp : ∀ x c y more, A x → B (c :: y) → x ++ (c :: y ++ more) = text → x = front) :
    LongestPrefix (Joined A B) (front ++ back) text where
  fits := ⟨front, back, rfl, hA.fits, hB.fits⟩
  begins := by
    rw [← hsplit]
    exact (List.prefix_append_right_inj front).mpr hB.begins
  longest := by
    rintro other ⟨x, y, rfl, hx, hy⟩ ⟨more, hmore⟩
    rw [List.append_assoc] at hmore
    cases y with
    | nil =>
        rw [List.append_nil]
        exact (hA.longest x hx ⟨_, hmore⟩).trans (List.prefix_append front back)
    | cons c y =>
        -- something of the second form follows, so the front cannot be shorter
        have hfront := hsharp x c y more hx hy hmore
        rw [hfront, ← hsplit] at hmore
        have hrest : c :: y ++ more = rest := List.append_cancel_left hmore
        rw [hfront]
        exact (List.prefix_append_right_inj front).mpr (hB.longest (c :: y) hy ⟨more, hrest⟩)

namespace Numeral

/-- One or more digits. -/
def DigitRun (isDigit : Char → Bool) (ds : List Char) : Prop :=
  ds ≠ [] ∧ ∀ d ∈ ds, isDigit d

/-- A zero, a radix letter in either case, and digits of the radix. -/
inductive Radix (small capital : Char) (isDigit : Char → Bool) : List Char → Prop where
  | intro {letter : Char} {ds : List Char} (hletter : letter = small ∨ letter = capital)
      (hds : DigitRun isDigit ds) : Radix small capital isDigit ('0' :: letter :: ds)

/-- Nothing, or a point and digits, of which none is needed. -/
inductive Fraction : List Char → Prop where
  | none : Fraction []
  | point {ds : List Char} (hds : ∀ d ∈ ds, d.isDigit) : Fraction ('.' :: ds)

/-- Nothing, or the letter of an exponent, a sign if there is one, and digits. -/
inductive Exponent : List Char → Prop where
  | none : Exponent []
  | power {letter : Char} {sgn ds : List Char} (hletter : letter = 'e' ∨ letter = 'E')
      (hsgn : sgn = [] ∨ sgn = ['+'] ∨ sgn = ['-']) (hds : DigitRun Char.isDigit ds) :
      Exponent (letter :: (sgn ++ ds))

/-- Digits, then a fraction, then an exponent. -/
def Decimal : List Char → Prop :=
  Joined (DigitRun Char.isDigit) (Joined Fraction Exponent)

/-- The text begins with the longest numeral of the form that its first two
    characters decide on. -/
structure Longest (taken text : List Char) : Prop where
  hexadecimal : ['0', 'x'] <+: text ∨ ['0', 'X'] <+: text →
    LongestPrefix (Radix 'x' 'X' isHexDigit) taken text
  binary : ['0', 'b'] <+: text ∨ ['0', 'B'] <+: text →
    LongestPrefix (Radix 'b' 'B' isBinaryDigit) taken text
  decimal : ¬ (['0', 'x'] <+: text ∨ ['0', 'X'] <+: text) →
    ¬ (['0', 'b'] <+: text ∨ ['0', 'B'] <+: text) → LongestPrefix Decimal taken text

/-! ## Runs of digits -/

theorem forall_mem_takeWhile (p : Char → Bool) (text : List Char) :
    ∀ d ∈ text.takeWhile p, p d := by
  have hall := List.all_takeWhile (p := p) (l := text)
  exact List.all_eq_true.mp hall

/-- A run of digits that begins a text begins its longest run. -/
theorem prefix_takeWhile {p : Char → Bool} {ds text : List Char} (hds : ∀ d ∈ ds, p d)
    (h : ds <+: text) : ds <+: text.takeWhile p := by
  obtain ⟨more, rfl⟩ := h
  rw [List.takeWhile_append_of_pos hds]
  exact List.prefix_append ds _

/-- A run that the next character does not continue is the longest one. -/
theorem takeWhile_of_stop {p : Char → Bool} {ds more : List Char} {c : Char}
    (hds : ∀ d ∈ ds, p d) (hc : ¬ p c) : (ds ++ c :: more).takeWhile p = ds := by
  rw [List.takeWhile_append_of_pos hds, List.takeWhile_cons_of_neg hc, List.append_nil]

theorem longest_digitRun {p : Char → Bool} {text : List Char} (h : text.takeWhile p ≠ []) :
    LongestPrefix (DigitRun p) (text.takeWhile p) text where
  fits := ⟨h, forall_mem_takeWhile p text⟩
  begins := List.takeWhile_prefix p
  longest := fun _ hother => prefix_takeWhile hother.2

theorem digits_eq_ok {isDigit : Char → Bool} {cause : LexicalFault}
    {lead text taken rest : List Char} (h : digits isDigit cause lead text = .ok (taken, rest)) :
    taken = lead ++ text.takeWhile isDigit
      ∧ LongestPrefix (DigitRun isDigit) (text.takeWhile isDigit) text := by
  rw [digits] at h
  split at h
  next => cases h
  next hne =>
      cases h
      exact ⟨rfl, longest_digitRun hne⟩

/-! ## The parts of a numeral -/

theorem longest_radix {small capital letter : Char} {isDigit : Char → Bool}
    {cause : LexicalFault} {text taken rest : List Char}
    (hletter : letter = small ∨ letter = capital)
    (h : digits isDigit cause ['0', letter] text = .ok (taken, rest)) :
    LongestPrefix (Radix small capital isDigit) taken ('0' :: letter :: text) := by
  obtain ⟨rfl, hrun⟩ := digits_eq_ok h
  refine ⟨.intro hletter hrun.fits, ?_, ?_⟩
  · simpa using hrun.begins
  · rintro other ⟨-, hds⟩ ⟨more, hmore⟩
    obtain ⟨-, htail⟩ := List.cons.inj hmore
    obtain ⟨rfl, htext⟩ := List.cons.inj htail
    have hprefix := hrun.longest _ hds ⟨more, htext⟩
    simpa using hprefix

theorem fraction_of_ne {text : List Char} (h : ∀ more, text ≠ '.' :: more) :
    fraction text = ([], text) := by
  rw [fraction]
  intro more hmore
  exact h more hmore

theorem longest_fraction (text : List Char) :
    LongestPrefix Fraction (fraction text).1 text := by
  by_cases h : ∃ more, text = '.' :: more
  · obtain ⟨more, rfl⟩ := h
    refine ⟨.point (forall_mem_takeWhile Char.isDigit more), ?_, ?_⟩
    · have hprefix := List.takeWhile_prefix (l := more) Char.isDigit
      simpa [fraction] using hprefix
    · intro other hother hprefix
      cases hother with
      | none => exact List.nil_prefix
      | point hds =>
          have hrun := prefix_takeWhile hds (List.cons_prefix_cons.mp hprefix).2
          simpa [fraction] using hrun
  · have hnot : ∀ more, text ≠ '.' :: more := fun more hmore => h ⟨more, hmore⟩
    rw [fraction_of_ne hnot]
    refine ⟨.none, List.nil_prefix, ?_⟩
    rintro other hother ⟨more, hmore⟩
    cases hother with
    | none => exact List.nil_prefix
    | point hds => exact absurd hmore.symm (hnot _)

theorem Exponent.head {c : Char} {power : List Char} (h : Exponent (c :: power)) :
    c = 'e' ∨ c = 'E' := by
  cases h with
  | power hletter _ _ => exact hletter

/-- A fraction in front of an exponent letter is all that there is. -/
theorem fraction_of_letter {part more : List Char} {c : Char} (hpart : Fraction part)
    (hc : c = 'e' ∨ c = 'E') : fraction (part ++ c :: more) = (part, c :: more) := by
  have hfirst : (fraction (part ++ c :: more)).1 = part := by
    cases hpart with
    | none =>
        rw [List.nil_append, fraction_of_ne]
        rintro tail htail
        have hdot : c = '.' := (List.cons.inj htail).1
        simp [hdot] at hc
    | @point ds hds =>
        have hdigit : ¬ c.isDigit := by rcases hc with rfl | rfl <;> decide
        show '.' :: (ds ++ c :: more).takeWhile Char.isDigit = '.' :: ds
        rw [takeWhile_of_stop hds hdigit]
  have hsecond := fraction_append (part ++ c :: more)
  rw [hfirst] at hsecond
  exact Prod.ext hfirst (List.append_cancel_left hsecond)

/-- A text that begins with no sign has none. -/
theorem sign_of_head {text : List Char} (h : ∀ d ∈ text.head?, d ≠ '+' ∧ d ≠ '-') :
    sign text = ([], text) := by
  cases text with
  | nil => rfl
  | cons d text =>
      obtain ⟨hplus, hminus⟩ := h d rfl
      simp [sign, hplus, hminus]

/-- A sign, or none in front of other characters, is read as such. -/
theorem sign_append_of_head {sgn rest : List Char} (hsgn : sgn = [] ∨ sgn = ['+'] ∨ sgn = ['-'])
    (hrest : sgn = [] → ∀ d ∈ rest.head?, d ≠ '+' ∧ d ≠ '-') :
    sign (sgn ++ rest) = (sgn, rest) := by
  rcases hsgn with rfl | rfl | rfl
  · exact sign_of_head (hrest rfl)
  · rfl
  · rfl

theorem sign_of_digits {sgn ds : List Char} (more : List Char)
    (hsgn : sgn = [] ∨ sgn = ['+'] ∨ sgn = ['-']) (hds : DigitRun Char.isDigit ds) :
    sign (sgn ++ ds ++ more) = (sgn, ds ++ more) := by
  rw [List.append_assoc]
  refine sign_append_of_head hsgn fun _ => ?_
  obtain ⟨d, tail, rfl⟩ := List.exists_cons_of_ne_nil hds.1
  have hd : d.isDigit := hds.2 d List.mem_cons_self
  rintro _ ⟨⟩
  refine ⟨?_, ?_⟩ <;> rintro rfl <;> exact absurd hd (by decide)

theorem sign_cases (text : List Char) :
    (sign text).1 = [] ∨ (sign text).1 = ['+'] ∨ (sign text).1 = ['-'] := by
  rw [sign.eq_def]
  split
  · exact .inr (.inl rfl)
  · exact .inr (.inr rfl)
  · exact .inl rfl

/-- Without an exponent letter there is no exponent. -/
theorem longest_exponent_nil {text : List Char} (h : ∀ c more, text = c :: more →
    ¬ (c = 'e' ∨ c = 'E')) : LongestPrefix Exponent [] text where
  fits := .none
  begins := List.nil_prefix
  longest := by
    rintro other hother ⟨more, hmore⟩
    cases hother with
    | none => exact List.nil_prefix
    | power hletter _ _ => exact absurd hletter (h _ _ hmore.symm)

theorem longest_exponent {lead text taken rest : List Char}
    (h : exponent lead text = .ok (taken, rest)) :
    ∃ power, taken = lead ++ power ∧ LongestPrefix Exponent power text := by
  cases text with
  | nil =>
      cases h
      refine ⟨[], (List.append_nil lead).symm, longest_exponent_nil ?_⟩
      rintro c more ⟨⟩
  | cons c text =>
      rw [exponent] at h
      split at h
      next hletter =>
          obtain ⟨rfl, hrun⟩ := digits_eq_ok h
          refine ⟨c :: ((sign text).1 ++ (sign text).2.takeWhile Char.isDigit), ?_, ?_⟩
          · simp
          refine ⟨.power hletter (sign_cases text) hrun.fits, ?_, ?_⟩
          · have hprefix := (List.prefix_append_right_inj (sign text).1).mpr hrun.begins
            rw [sign_append] at hprefix
            exact List.cons_prefix_cons.mpr ⟨rfl, hprefix⟩
          · rintro other hother ⟨more, hmore⟩
            cases hother with
            | none => exact List.nil_prefix
            | @power _ sgn ds _ hsgn hds =>
                obtain ⟨rfl, htext⟩ := List.cons.inj hmore
                -- the same sign was read, so the digits of both can be compared
                have hsign : sign text = (sgn, ds ++ more) := by
                  rw [← htext]
                  exact sign_of_digits more hsgn hds
                rw [hsign] at hrun ⊢
                have hrest := hrun.longest _ hds (List.prefix_append _ _)
                exact List.cons_prefix_cons.mpr
                  ⟨rfl, (List.prefix_append_right_inj _).mpr hrest⟩
      next hletter =>
          cases h
          refine ⟨[], (List.append_nil lead).symm, longest_exponent_nil ?_⟩
          rintro d more ⟨⟩
          exact hletter

/-- What follows the first digits of a numeral begins with no digit. -/
theorem head_of_joined {c : Char} {more : List Char} (h : Joined Fraction Exponent (c :: more)) :
    ¬ c.isDigit := by
  obtain ⟨part, power, happ, hpart, hpower⟩ := h
  cases hpart with
  | none =>
      rw [List.nil_append] at happ
      rw [← happ] at hpower
      rcases hpower.head with rfl | rfl <;> decide
  | point hds =>
      obtain ⟨rfl, -⟩ := List.cons.inj happ
      decide

theorem longest_decimal {c : Char} {text taken rest : List Char} (hc : c.isDigit)
    (h : decimal (c :: text) = .ok (taken, rest)) : LongestPrefix Decimal taken (c :: text) := by
  have hne : (c :: text).takeWhile Char.isDigit ≠ [] := by
    rw [List.takeWhile_cons_of_pos hc]
    exact List.cons_ne_nil _ _
  generalize c :: text = whole at h hne
  obtain ⟨power, rfl, hpower⟩ := longest_exponent h
  rw [List.append_assoc]
  refine (longest_digitRun hne).append List.takeWhile_append_dropWhile
    ((longest_fraction _).append (fraction_append _) hpower ?_) ?_
  · intro part d y more hpart hy hsplit
    rw [← hsplit, List.cons_append, fraction_of_letter hpart hy.head]
  · intro ds d y more hds hy hsplit
    rw [← hsplit]
    exact (takeWhile_of_stop hds.2 (head_of_joined hy)).symm

theorem read_of_decimal {text : List Char}
    (hx : ¬ (['0', 'x'] <+: text ∨ ['0', 'X'] <+: text))
    (hb : ¬ (['0', 'b'] <+: text ∨ ['0', 'B'] <+: text)) : read text = decimal text := by
  rw [read.eq_def]
  split
  next more => exact absurd (.inl ⟨more, rfl⟩) hx
  next more => exact absurd (.inr ⟨more, rfl⟩) hx
  next more => exact absurd (.inl ⟨more, rfl⟩) hb
  next more => exact absurd (.inr ⟨more, rfl⟩) hb
  next => rfl

/-- Digits in front of a point, of the letter of an exponent or of nothing are
    not the beginning of a radix literal. -/
theorem read_of_digits {ds rest : List Char} (hds : DigitRun Char.isDigit ds)
    (hrest : ∀ c ∈ rest.head?, c = '.' ∨ c = 'e' ∨ c = 'E') :
    read (ds ++ rest) = decimal (ds ++ rest) := by
  have hnot : ∀ letter : Char, ¬ letter.isDigit → ¬ (letter = '.' ∨ letter = 'e' ∨ letter = 'E') →
      ¬ ['0', letter] <+: ds ++ rest := by
    rintro letter hdigit hother ⟨more, hmore⟩
    match ds, hds, hmore with
    | [], hds, _ => exact hds.1 rfl
    | [d], _, hmore =>
        have htail : letter :: more = rest := (List.cons.inj hmore).2
        exact hother (hrest letter (by rw [← htail]; rfl))
    | d :: d' :: ds, hds, hmore =>
        have htail : letter :: more = d' :: (ds ++ rest) := (List.cons.inj hmore).2
        rw [(List.cons.inj htail).1] at hdigit
        exact hdigit (hds.2 d' (by simp))
  refine read_of_decimal (not_or.mpr ⟨?_, ?_⟩) (not_or.mpr ⟨?_, ?_⟩)
  all_goals exact hnot _ (by decide) (by decide)

/-- **Longest numerals.**  A numeral that is read is the longest one of its
    form that begins the text. -/
theorem longest_of_read {c : Char} {text taken rest : List Char} (hc : c.isDigit)
    (h : read (c :: text) = .ok (taken, rest)) : Longest taken (c :: text) where
  hexadecimal := by
    rintro (⟨more, hmore⟩ | ⟨more, hmore⟩)
    · rw [← hmore] at h ⊢
      exact longest_radix (.inl rfl) h
    · rw [← hmore] at h ⊢
      exact longest_radix (.inr rfl) h
  binary := by
    rintro (⟨more, hmore⟩ | ⟨more, hmore⟩)
    · rw [← hmore] at h ⊢
      exact longest_radix (.inl rfl) h
    · rw [← hmore] at h ⊢
      exact longest_radix (.inr rfl) h
  decimal := by
    intro hx hb
    rw [read_of_decimal hx hb] at h
    exact longest_decimal hc h

/-- The longest numeral of a text begins it with a digit. -/
theorem Longest.head?_isDigit {raw text : List Char} (h : Longest raw text) :
    ∀ c ∈ text.head?, c.isDigit := by
  intro c hc
  obtain ⟨more, rfl⟩ := List.head?_eq_some_iff.mp hc
  by_cases hx : ['0', 'x'] <+: c :: more ∨ ['0', 'X'] <+: c :: more
  · rcases hx with hx | hx <;> rw [← (List.cons_prefix_cons.mp hx).1] <;> rfl
  by_cases hb : ['0', 'b'] <+: c :: more ∨ ['0', 'B'] <+: c :: more
  · rcases hb with hb | hb <;> rw [← (List.cons_prefix_cons.mp hb).1] <;> rfl
  · have hlongest := h.decimal hx hb
    obtain ⟨ds, rest, rfl, hds, -⟩ := hlongest.fits
    obtain ⟨d, ds, rfl⟩ := List.exists_cons_of_ne_nil hds.1
    rw [← (List.cons_prefix_cons.mp hlongest.begins).1]
    exact hds.2 d List.mem_cons_self

/-- There is only one longest numeral of a text. -/
theorem Longest.unique {taken other text : List Char} (h : Longest taken text)
    (hother : Longest other text) : taken = other := by
  by_cases hx : ['0', 'x'] <+: text ∨ ['0', 'X'] <+: text
  · exact (h.hexadecimal hx).unique (hother.hexadecimal hx)
  by_cases hb : ['0', 'b'] <+: text ∨ ['0', 'B'] <+: text
  · exact (h.binary hb).unique (hother.binary hb)
  · exact (h.decimal hx hb).unique (hother.decimal hx hb)

end Numeral

end BraceLang
