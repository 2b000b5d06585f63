import BraceLang.Proofs.Lexer.NumeralForm
import BraceLang.Proofs.Lexer.Boundary
import Mathlib.Data.List.TakeWhile

/-! # Breaking off — where a text stops being segments

    A text that is not segments up to its end breaks off at a quote that
    nothing closes, or at a numeral of which a digit is missing.  `Broken` is
    the form of such a numeral, with the text behind it that does not supply
    the digit; `read_error` and `exists_readAll` say that the lexer stops
    exactly there. -/

namespace BraceLang

namespace Numeral

/-- The beginning of a numeral that cannot go on with the text behind it: the
    cause, the beginning, and that text. -/
inductive Broken : LexicalFault → List Char → List Char → Prop where
  | hexadecimal {letter : Char} {rest : List Char} (hletter : letter = 'x' ∨ letter = 'X')
      (hrest : ∀ d ∈ rest.head?, ¬ isHexDigit d) :
      Broken .invalidHexLiteral ['0', letter] rest
  | binary {letter : Char} {rest : List Char} (hletter : letter = 'b' ∨ letter = 'B')
      (hrest : ∀ d ∈ rest.head?, ¬ isBinaryDigit d) :
      Broken .invalidBinaryLiteral ['0', letter] rest
  | exponent {ds part sgn rest : List Char} {letter : Char} (hds : DigitRun Char.isDigit ds)
      (hpart : Fraction part) (hletter : letter = 'e' ∨ letter = 'E')
      (hsgn : sgn = [] ∨ sgn = ['+'] ∨ sgn = ['-'])
      (hrest : ∀ d ∈ rest.head?, ¬ d.isDigit ∧ (sgn = [] → d ≠ '+' ∧ d ≠ '-')) :
      Broken .invalidExponent (ds ++ part ++ letter :: sgn) rest

/-- A numeral breaks off behind a letter or a sign. -/
theorem Broken.getLast?_ne_return {cause : LexicalFault} {raw rest : List Char}
    (h : Broken cause raw rest) (front : List Char) : (front ++ raw).getLast? ≠ some '\r' := by
  cases h with
  | hexadecimal hletter hrest | binary hletter hrest =>
      rcases hletter with rfl | rfl <;> simp
  | exponent hds hpart hletter hsgn hrest =>
      rcases hsgn with rfl | rfl | rfl
      · rcases hletter with rfl | rfl <;> simp
      · simp
      · simp

theorem digits_error {isDigit : Char → Bool} {cause : LexicalFault} {lead text : List Char}
    {m : Malformed} (h : digits isDigit cause lead text = .error m) :
    m = ⟨cause, lead⟩ ∧ ∀ d ∈ text.head?, ¬ isDigit d := by
  rw [digits] at h
  split at h
  next hnone =>
      cases h
      refine ⟨rfl, ?_⟩
      intro d hd
      obtain ⟨more, rfl⟩ := List.head?_eq_some_iff.mp hd
      intro hdigit
      rw [List.takeWhile_cons_of_pos hdigit] at hnone
      cases hnone
  next => cases h

/-- A text in which no sign was read begins with none. -/
theorem head_ne_sign {text : List Char} (h : (sign text).1 = []) :
    ∀ d ∈ (sign text).2.head?, d ≠ '+' ∧ d ≠ '-' := by
  rw [sign.eq_def] at h ⊢
  split at h
  next => cases h
  next => cases h
  next hplus hminus =>
      intro d hd
      obtain ⟨more, hmore⟩ := List.head?_eq_some_iff.mp hd
      refine ⟨?_, ?_⟩
      · rintro rfl
        exact hplus more hmore
      · rintro rfl
        exact hminus more hmore

theorem exponent_error {lead text : List Char} {m : Malformed}
    (h : exponent lead text = .error m) :
    ∃ letter sgn rest, text = letter :: (sgn ++ rest) ∧ m = ⟨.invalidExponent, lead ++ letter :: sgn⟩
      ∧ (letter = 'e' ∨ letter = 'E') ∧ (sgn = [] ∨ sgn = ['+'] ∨ sgn = ['-'])
      ∧ ∀ d ∈ rest.head?, ¬ d.isDigit ∧ (sgn = [] → d ≠ '+' ∧ d ≠ '-') := by
  cases text with
  | nil => cases h
  | cons letter text =>
      rw [exponent] at h
      split at h
      next hletter =>
          obtain ⟨hm, hrest⟩ := digits_error h
          refine ⟨letter, (sign text).1, (sign text).2, ?_, hm, hletter, sign_cases text, ?_⟩
          · rw [sign_append]
          · intro d hd
            exact ⟨hrest d hd, fun hnone => head_ne_sign hnone d hd⟩
      next => cases h

theorem decimal_error {c : Char} {text : List Char} {m : Malformed} (hc : c.isDigit)
    (h : decimal (c :: text) = .error m) :
    ∃ rest, c :: text = m.read ++ rest ∧ Broken m.cause m.read rest := by
  have hne : (c :: text).takeWhile Char.isDigit ≠ [] := by
    rw [List.takeWhile_cons_of_pos hc]
    exact List.cons_ne_nil _ _
  generalize c :: text = whole at h hne
  obtain ⟨letter, sgn, rest, hpower, rfl, hletter, hsgn, hrest⟩ := exponent_error h
  refine ⟨rest, ?_, .exponent (longest_digitRun hne).fits (longest_fraction _).fits hletter hsgn
    hrest⟩
  have hsplit : whole.takeWhile Char.isDigit ++ whole.dropWhile Char.isDigit = whole :=
    List.takeWhile_append_dropWhile
  rw [← fraction_append (whole.dropWhile Char.isDigit), hpower] at hsplit
  refine hsplit.symm.trans ?_
  simp

/-- **Broken numerals.**  Where a numeral breaks off, what was read of it is the
    beginning of one, and the text behind does not supply what is missing. -/
theorem read_error {c : Char} {text : List Char} {m : Malformed} (hc : c.isDigit)
    (h : read (c :: text) = .error m) :
    ∃ rest, c :: text = m.read ++ rest ∧ Broken m.cause m.read rest := by
  rw [read.eq_def] at h
  split at h
  next heq =>
      cases heq
      obtain ⟨rfl, hrest⟩ := digits_error h
      exact ⟨_, rfl, .hexadecimal (.inl rfl) hrest⟩
  next heq =>
      cases heq
      obtain ⟨rfl, hrest⟩ := digits_error h
      exact ⟨_, rfl, .hexadecimal (.inr rfl) hrest⟩
  next heq =>
      cases heq
      obtain ⟨rfl, hrest⟩ := digits_error h
      exact ⟨_, rfl, .binary (.inl rfl) hrest⟩
  next heq =>
      cases heq
      obtain ⟨rfl, hrest⟩ := digits_error h
      exact ⟨_, rfl, .binary (.inr rfl) hrest⟩
  next => exact decimal_error hc h

/-- Where no digit begins the text, the digits are missing. -/
theorem digits_of_head {isDigit : Char → Bool} {text : List Char}
    (h : ∀ d ∈ text.head?, ¬ isDigit d) (cause : LexicalFault) (lead : List Char) :
    digits isDigit cause lead text = .error ⟨cause, lead⟩ := by
  have hnone : text.takeWhile isDigit = [] := by
    cases text with
    | nil => rfl
    | cons d text => exact List.takeWhile_cons_of_neg (h d rfl)
  rw [digits, if_pos hnone]

/-- The beginning of a numeral of which a digit is missing is read so far, and
    no further. -/
theorem read_of_broken {cause : LexicalFault} {raw rest : List Char} (h : Broken cause raw rest) :
    read (raw ++ rest) = .error ⟨cause, raw⟩ := by
  cases h with
  | hexadecimal hletter hrest =>
      rcases hletter with rfl | rfl
      · exact digits_of_head hrest .invalidHexLiteral ['0', 'x']
      · exact digits_of_head hrest .invalidHexLiteral ['0', 'X']
  | binary hletter hrest =>
      rcases hletter with rfl | rfl
      · exact digits_of_head hrest .invalidBinaryLiteral ['0', 'b']
      · exact digits_of_head hrest .invalidBinaryLiteral ['0', 'B']
  | @exponent ds part sgn _ letter hds hpart hletter hsgn hrest =>
      have hsign : sign (sgn ++ rest) = (sgn, rest) :=
        sign_append_of_head hsgn fun hnone d hd => (hrest d hd).2 hnone
      have htext : ds ++ part ++ letter :: sgn ++ rest = ds ++ (part ++ letter :: (sgn ++ rest)) := by
        simp
      -- what follows the first digits is a point or the letter of the exponent
      obtain ⟨c, more, hmore, hc⟩ : ∃ c more, part ++ letter :: (sgn ++ rest) = c :: more
          ∧ (c = '.' ∨ c = 'e' ∨ c = 'E') := by
        cases hpart with
        | none => exact ⟨letter, _, rfl, .inr hletter⟩
        | point hds' => exact ⟨'.', _, rfl, .inl rfl⟩
      have hdigit : ¬ c.isDigit := by rcases hc with rfl | rfl | rfl <;> decide
      have hwhole : (ds ++ c :: more).takeWhile Char.isDigit = ds :=
        takeWhile_of_stop hds.2 hdigit
      have hbehind := List.takeWhile_append_dropWhile (p := Char.isDigit) (l := ds ++ c :: more)
      rw [hwhole] at hbehind
      have hfirst : ∀ d ∈ (c :: more).head?, d = '.' ∨ d = 'e' ∨ d = 'E' := by
        rintro _ ⟨⟩
        exact hc
      rw [htext, hmore, read_of_digits hds hfirst, decimal, hwhole,
        List.append_cancel_left hbehind, ← hmore, fraction_of_letter hpart hletter, exponent,
        if_pos hletter, hsign]
      exact digits_of_head (fun d hd => (hrest d hd).1) .invalidExponent _

theorem Broken.exists_digit {cause : LexicalFault} {raw rest : List Char}
    (h : Broken cause raw rest) : ∃ c text, raw = c :: text ∧ c.isDigit := by
  cases h with
  | hexadecimal hletter hrest | binary hletter hrest => exact ⟨'0', _, rfl, rfl⟩
  | @exponent ds part sgn _ letter hds hpart hletter hsgn hrest =>
      obtain ⟨d, ds, rfl⟩ := List.exists_cons_of_ne_nil hds.1
      exact ⟨d, ds ++ part ++ letter :: sgn, rfl, hds.2 d List.mem_cons_self⟩

theorem Broken.cause_ne {cause : LexicalFault} {raw rest : List Char}
    (h : Broken cause raw rest) : cause ≠ .unterminatedString := by
  cases h <;> rintro ⟨⟩

end Numeral

/-- A broken numeral is reported behind what was read of it. -/
theorem Lexer.faultPosition_of_broken {m : Malformed} {rest : List Char}
    (h : Numeral.Broken m.cause m.read rest) (p : Position) :
    faultPosition p m = p.after m.read := by
  have hne := h.cause_ne
  rw [faultPosition]
  split
  next hcause => exact absurd hcause hne
  next => rfl

namespace Segment

theorem read_of_unclosed {text : List Char} (h : '"' ∉ text) :
    read '"' text = .error ⟨.unterminatedString, '"' :: text⟩ := by
  have hnone : text.dropWhile isQuotedPart = [] := by
    rw [List.dropWhile_eq_nil_iff]
    intro c hc
    have hne : c ≠ '"' := fun heq => h (heq ▸ hc)
    simpa [isQuotedPart] using hne
  rw [read, if_pos rfl, hnone]

/-- A text that does not begin with a segment begins with a quote that nothing
    closes, or with a broken numeral. -/
theorem read_error {c : Char} {text : List Char} {m : Malformed} (h : read c text = .error m) :
    (c = '"' ∧ '"' ∉ text ∧ m = ⟨.unterminatedString, c :: text⟩)
      ∨ ∃ rest, c :: text = m.read ++ rest ∧ Numeral.Broken m.cause m.read rest := by
  rw [read] at h
  split at h
  next hquote =>
      split at h
      next hopen =>
          cases h
          refine .inl ⟨hquote, ?_, rfl⟩
          intro hmem
          have hpart : isQuotedPart '"' := List.dropWhile_eq_nil_iff.mp hopen _ hmem
          exact absurd hpart (by decide)
      next => cases h
  next =>
  split at h
  next hdigit =>
      split at h
      next hread =>
          cases h
          exact .inr (Numeral.read_error hdigit hread)
      next => cases h
  next =>
  split at h
  next => cases h
  next =>
  split at h
  next => cases h
  next => cases h

/-! ## A row of segments, cut between two of them -/

/-- Behind the first segments of a text, the others are those of the rest. -/
theorem exists_readAll {text : List Char} {front back : List Segment} {halted : Option Malformed}
    (h : readAll text = (front ++ back, halted)) :
    ∃ rest, text = front.flatMap raw ++ rest ∧ readAll rest = (back, halted) := by
  induction front generalizing text with
  | nil => exact ⟨text, rfl, h⟩
  | cons s front ih =>
      revert h
      fun_cases readAll text with
      | case1 => rintro ⟨⟩
      | case2 c text m hread => rintro ⟨⟩
      | case3 c text s' rest hread =>
          intro h
          obtain ⟨hsegments, hhalted⟩ := Prod.mk.inj h
          obtain ⟨rfl, hfront⟩ := List.cons.inj hsegments
          obtain ⟨behind, rfl, hbehind⟩ := ih (Prod.ext hfront hhalted)
          refine ⟨behind, ?_, hbehind⟩
          rw [List.flatMap_cons, List.append_assoc, raw_append_of_read hread]

theorem read_of_readAll_cons {text : List Char} {s : Segment} {segments : List Segment}
    {halted : Option Malformed} (h : readAll text = (s :: segments, halted)) :
    ∃ c more rest, text = c :: more ∧ read c more = .ok (s, rest) := by
  revert h
  fun_cases readAll text with
  | case1 => rintro ⟨⟩
  | case2 c text m hread => rintro ⟨⟩
  | case3 c text s' rest hread =>
      intro h
      obtain ⟨rfl, -⟩ := List.cons.inj (Prod.mk.inj h).1
      exact ⟨c, text, rest, rfl, hread⟩

theorem read_of_readAll_malformed {text : List Char} {m : Malformed}
    (h : readAll text = ([], some m)) : ∃ c more, text = c :: more ∧ read c more = .error m := by
  revert h
  fun_cases readAll text with
  | case1 => rintro ⟨⟩
  | case2 c text m' hread =>
      rintro ⟨⟩
      exact ⟨c, text, rfl, hread⟩
  | case3 c text s rest hread => rintro ⟨⟩

theorem eq_nil_of_readAll {text : List Char} (h : readAll text = ([], none)) : text = [] := by
  revert h
  fun_cases readAll text with
  | case1 => exact fun _ => rfl
  | case2 c text m hread => rintro ⟨⟩
  | case3 c text s rest hread => rintro ⟨⟩

/-- A text without a malformed end is its segments. -/
theorem flatMap_raw_of_readAll {text : List Char} {segments : List Segment}
    (h : readAll text = (segments, none)) : segments.flatMap raw = text := by
  rw [← List.append_nil segments] at h
  obtain ⟨rest, htext, hrest⟩ := exists_readAll h
  rw [htext, eq_nil_of_readAll hrest, List.append_nil]

/-- Behind the segments of a text that breaks off, no segment can be read. -/
theorem exists_read_error_of_readAll {text : List Char} {segments : List Segment} {m : Malformed}
    (h : readAll text = (segments, some m)) :
    ∃ c more, text = segments.flatMap raw ++ c :: more ∧ read c more = .error m := by
  rw [← List.append_nil segments] at h
  obtain ⟨rest, htext, hrest⟩ := exists_readAll h
  obtain ⟨c, more, rfl, hread⟩ := read_of_readAll_malformed hrest
  exact ⟨c, more, htext, hread⟩

end Segment

end BraceLang
