import BraceLang.Proofs.Lexer.FirstBreak

/-! # Lookahead — a segment depends on one character behind it

    Of the text behind a segment only the first character decides that the
    segment ends there.  So the segment is read in front of every other text
    that begins with the same character, or with one that joins nothing
    (`read_of_stopsAlike`).  For a numeral this needs an argument for each of
    its parts: what a part leaves is the next part or the text behind the
    numeral, and either way it begins as before (`StopsAlike.append`). -/

namespace BraceLang

/-- What was read in front of `rest` ends in front of `other` too: the two begin
    with the same character, or `other` with none that joins. -/
def StopsAlike (rest other : List Char) : Prop :=
  ∀ d ∈ other.head?, d ∈ rest.head? ∨ ¬ joins d

theorem StopsAlike.refl (rest : List Char) : StopsAlike rest rest :=
  fun _ hd => .inl hd

theorem StopsAlike.append {rest other : List Char} (h : StopsAlike rest other)
    (front : List Char) : StopsAlike (front ++ rest) (front ++ other) := by
  cases front with
  | nil => exact h
  | cons c front => exact fun d hd => .inl hd

theorem StopsAlike.head {rest other : List Char} (h : StopsAlike rest other) {p : Char → Prop}
    (hrest : ∀ d ∈ rest.head?, p d) (hother : ∀ d, ¬ joins d → p d) : ∀ d ∈ other.head?, p d := by
  intro d hd
  rcases h d hd with hsame | hnot
  · exact hrest d hsame
  · exact hother d hnot

/-- A run of characters that join ends at the same place. -/
theorem takeWhile_of_stopsAlike {p : Char → Bool} (hp : ∀ c, p c → joins c)
    {text other : List Char} (h : StopsAlike (text.dropWhile p) other) :
    (text.takeWhile p ++ other).takeWhile p = text.takeWhile p
      ∧ (text.takeWhile p ++ other).dropWhile p = other := by
  have hstop : ∀ d ∈ other.head?, ¬ p d := by
    refine h.head ?_ fun d hnot hd => hnot (hp d hd)
    intro d hd
    have hnot := List.head?_dropWhile_not p text
    rw [Option.mem_def.mp hd] at hnot
    simpa using hnot
  obtain ⟨htake, hdrop⟩ := takeWhile_of_forall (Numeral.forall_mem_takeWhile p text)
  obtain ⟨htake', hdrop'⟩ :=
    @takeWhile_append_of_stop p (text.takeWhile p) other (.inr hstop)
  rw [htake', hdrop', htake, hdrop]
  exact ⟨rfl, rfl⟩

/-! ## Numerals -/

namespace Numeral

/-- A reader that started behind `lead` took a beginning of `text`, and takes it
    behind `lead` in front of `other` too. -/
def ReadsAlike (reader : List Char → Except Malformed (List Char × List Char))
    (lead text taken rest other : List Char) : Prop :=
  ∃ more, taken = lead ++ more ∧ more ++ rest = text ∧ reader (more ++ other) = .ok (taken, other)

variable {lead text taken rest other : List Char}

theorem digits_of_stopsAlike {isDigit : Char → Bool} (hjoins : ∀ c, isDigit c → joins c)
    {cause : LexicalFault} (h : digits isDigit cause lead text = .ok (taken, rest))
    (hother : StopsAlike rest other) :
    ReadsAlike (digits isDigit cause lead) lead text taken rest other := by
  rw [digits] at h
  split at h
  next => cases h
  next hne =>
      cases h
      obtain ⟨htake, hdrop⟩ := takeWhile_of_stopsAlike hjoins hother
      refine ⟨text.takeWhile isDigit, rfl, List.takeWhile_append_dropWhile, ?_⟩
      rw [digits, htake, hdrop, if_neg hne]

theorem fraction_of_stopsAlike (hother : StopsAlike (fraction text).2 other) :
    fraction ((fraction text).1 ++ other) = ((fraction text).1, other) := by
  by_cases h : ∃ more, text = '.' :: more
  · obtain ⟨more, rfl⟩ := h
    obtain ⟨htake, hdrop⟩ := takeWhile_of_stopsAlike (fun _ => joins_of_isDigit) hother
    show ('.' :: (more.takeWhile Char.isDigit ++ other).takeWhile Char.isDigit,
      (more.takeWhile Char.isDigit ++ other).dropWhile Char.isDigit) = _
    rw [htake, hdrop]
    rfl
  · have hnone : fraction text = ([], text) := fraction_of_ne fun more hmore => h ⟨more, hmore⟩
    rw [hnone] at hother ⊢
    have hpoint : ∀ d ∈ other.head?, d ≠ '.' := by
      refine hother.head ?_ ?_
      · rintro d hd rfl
        obtain ⟨more, hmore⟩ := List.head?_eq_some_iff.mp hd
        exact h ⟨more, hmore⟩
      · rintro d hnot rfl
        exact hnot rfl
    refine fraction_of_ne ?_
    rintro more rfl
    exact hpoint '.' rfl rfl

/-- A text that begins with no letter of an exponent has none. -/
theorem exponent_of_head (h : ∀ d ∈ text.head?, ¬ (d = 'e' ∨ d = 'E')) :
    exponent lead text = .ok (lead, text) := by
  cases text with
  | nil => rfl
  | cons c text => rw [exponent, if_neg (h c rfl)]

theorem exponent_of_stopsAlike (h : exponent lead text = .ok (taken, rest))
    (hother : StopsAlike rest other) :
    ReadsAlike (exponent lead) lead text taken rest other := by
  by_cases hletter : ∃ c more, text = c :: more ∧ (c = 'e' ∨ c = 'E')
  · obtain ⟨c, more, rfl, hc⟩ := hletter
    rw [exponent, if_pos hc] at h
    obtain ⟨-, hrun⟩ := digits_eq_ok h
    obtain ⟨ds, rfl, hds, halike⟩ :=
      digits_of_stopsAlike (fun _ => joins_of_isDigit) h hother
    refine ⟨c :: ((sign more).1 ++ ds), ?_, ?_, ?_⟩
    · rw [List.append_assoc]
      rfl
    · rw [List.cons_append, List.append_assoc, hds, sign_append]
    · -- the digits behind the sign keep it from being read as anything else
      have hne : DigitRun Char.isDigit ds := by
        have hlength := (digits_eq_ok h).1
        rw [List.append_cancel_left hlength]
        exact hrun.fits
      have hsign := sign_of_digits other (sign_cases more) hne
      rw [List.cons_append, exponent, if_pos hc, hsign]
      exact halike
  · have hhead : ∀ d ∈ text.head?, ¬ (d = 'e' ∨ d = 'E') := by
      intro d hd hc
      obtain ⟨more, hmore⟩ := List.head?_eq_some_iff.mp hd
      exact hletter ⟨d, more, hmore, hc⟩
    rw [exponent_of_head hhead] at h
    cases h
    refine ⟨[], (List.append_nil lead).symm, rfl, ?_⟩
    rw [List.nil_append]
    refine exponent_of_head (hother.head hhead ?_)
    rintro d hnot (rfl | rfl) <;> exact hnot rfl

theorem decimal_of_stopsAlike (h : decimal text = .ok (taken, rest))
    (hother : StopsAlike rest other) : decimal (taken ++ other) = .ok (taken, other) := by
  obtain ⟨power, rfl, hpower, halike⟩ := exponent_of_stopsAlike h hother
  have hpart : StopsAlike (fraction (text.dropWhile Char.isDigit)).2 (power ++ other) := by
    rw [← hpower]
    exact hother.append power
  have hwhole : StopsAlike (text.dropWhile Char.isDigit)
      ((fraction (text.dropWhile Char.isDigit)).1 ++ (power ++ other)) := by
    have happ := hpart.append (fraction (text.dropWhile Char.isDigit)).1
    rwa [fraction_append] at happ
  obtain ⟨htake, hdrop⟩ := takeWhile_of_stopsAlike (fun _ => joins_of_isDigit) hwhole
  rw [List.append_assoc, List.append_assoc, decimal, htake, hdrop, fraction_of_stopsAlike hpart]
  exact halike

/-- A radix letter behind a digit is in the numeral, or the text behind it
    begins with the letter. -/
theorem radix_prefix_of_stopsAlike {letter c : Char} (hletter : joins letter)
    {more : List Char} (hother : StopsAlike rest other)
    (h : ['0', letter] <+: c :: (more ++ other)) : ['0', letter] <+: c :: (more ++ rest) := by
  obtain ⟨hzero, htail⟩ := List.cons_prefix_cons.mp h
  refine List.cons_prefix_cons.mpr ⟨hzero, ?_⟩
  cases more with
  | cons d more =>
      rw [List.cons_append] at htail ⊢
      exact List.cons_prefix_cons.mpr ⟨(List.cons_prefix_cons.mp htail).1, List.nil_prefix⟩
  | nil =>
      obtain ⟨behind, hbehind⟩ := htail
      rw [List.nil_append] at hbehind
      rcases hother letter (by rw [← hbehind]; rfl) with hsame | hnot
      · obtain ⟨front, rfl⟩ := List.head?_eq_some_iff.mp hsame
        exact ⟨front, rfl⟩
      · exact absurd hletter hnot

/-- A numeral is read in front of every text that begins like the one behind
    it, or joins nothing. -/
theorem read_of_stopsAlike {c : Char} (hc : c.isDigit) (h : read (c :: text) = .ok (taken, rest))
    (hother : StopsAlike rest other) : read (taken ++ other) = .ok (taken, other) := by
  by_cases hx : ['0', 'x'] <+: c :: text ∨ ['0', 'X'] <+: c :: text
  · rcases hx with ⟨ds, hds⟩ | ⟨ds, hds⟩
    all_goals
      cases hds
      obtain ⟨more, rfl, -, halike⟩ :=
        digits_of_stopsAlike (fun _ => joins_of_isHexDigit) h hother
      exact halike
  by_cases hb : ['0', 'b'] <+: c :: text ∨ ['0', 'B'] <+: c :: text
  · rcases hb with ⟨ds, hds⟩ | ⟨ds, hds⟩
    all_goals
      cases hds
      obtain ⟨more, rfl, -, halike⟩ :=
        digits_of_stopsAlike (fun _ => joins_of_isBinaryDigit) h hother
      exact halike
  have hextends := read_extends hc text
  rw [h] at hextends
  obtain ⟨more, rfl, rfl⟩ := hextends
  rw [read_of_decimal hx hb] at h
  have hradix : ∀ letter, joins letter → ['0', letter] <+: c :: (more ++ other) →
      ['0', letter] <+: c :: (more ++ rest) :=
    fun _ hletter => radix_prefix_of_stopsAlike hletter hother
  have hx' := mt (Or.imp (hradix 'x' rfl) (hradix 'X' rfl)) hx
  have hb' := mt (Or.imp (hradix 'b' rfl) (hradix 'B' rfl)) hb
  exact (read_of_decimal hx' hb').trans (decimal_of_stopsAlike h hother)

end Numeral

/-! ## Segments -/

namespace Segment

/-- A segment is read in front of every text that begins like the one behind it,
    or joins nothing. -/
theorem read_of_stopsAlike {c : Char} {text rest other : List Char} {s : Segment}
    (h : read c text = .ok (s, rest)) (hother : StopsAlike rest other) :
    ∃ more, s.raw = c :: more ∧ read c (more ++ other) = .ok (s, other) := by
  rw [read] at h
  split at h
  next hquote =>
      split at h
      next => cases h
      next d behind hdrop =>
          cases h
          subst hquote
          have hnone : '"' ∉ text.takeWhile isQuotedPart := by
            intro hmem
            exact absurd (Numeral.forall_mem_takeWhile isQuotedPart text _ hmem) (by decide)
          refine ⟨text.takeWhile isQuotedPart ++ ['"'], rfl, ?_⟩
          rw [List.append_assoc]
          exact read_append_of_quoted hnone other
  next hquote =>
  split at h
  next hdigit =>
      split at h
      next => cases h
      next digits behind hread =>
          cases h
          have hextends := Numeral.read_extends hdigit text
          rw [hread] at hextends
          obtain ⟨more, rfl, -⟩ := hextends
          have hnumeral : Numeral.read (c :: (more ++ other)) = .ok (c :: more, other) :=
            Numeral.read_of_stopsAlike hdigit hread hother
          refine ⟨more, rfl, ?_⟩
          rw [read, if_neg hquote, if_pos hdigit, hnumeral]
          rfl
  next hdigit =>
  split at h
  next hword =>
      cases h
      obtain ⟨htake, hdrop⟩ := takeWhile_of_stopsAlike (fun _ => joins_of_isWordPart) hother
      refine ⟨text.takeWhile isWordPart, rfl, ?_⟩
      rw [read, if_neg hquote, if_neg hdigit, if_pos hword, htake, hdrop]
  next hword =>
  split at h
  next kind hsign =>
      cases h
      refine ⟨[], rfl, ?_⟩
      rw [List.nil_append, read, if_neg hquote, if_neg hdigit, if_neg hword, hsign]
  next hsign =>
      cases h
      refine ⟨[], rfl, ?_⟩
      rw [List.nil_append, read, if_neg hquote, if_neg hdigit, if_neg hword, hsign]

end Segment

end BraceLang
