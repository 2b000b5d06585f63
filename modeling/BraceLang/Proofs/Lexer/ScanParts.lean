import BraceLang.Proofs.Lexer.NumeralForm
import BraceLang.Proofs.Lexer.Scanner

/-! # Parts of a scan — each scanner takes what the reader of its segment takes

    A scan reads a segment from a mark on.  All of it is done at scanners of the
    form `m.past raw`, which are at the mark but for the characters that were
    read, so every part is described by the text that it still has ahead.  What
    it comes to is the outcome of the reader for the same part
    (`Scanner.outcome`), whether that succeeds or fails; the slices that it takes
    are in the source. -/

namespace BraceLang

namespace Scanner

variable {s m : Scanner} {c : Char} {text rest raw lead : List Char}

/-- The cursor is where a segment begins. -/
structure Marked (m : Scanner) : Prop where
  start : m.start = m.current
  position : m.startPosition = m.position
  inside : m.current ≤ m.source.length

/-- The scanner with a segment behind its cursor, and the token of it kept. -/
def accept (m : Scanner) (segment : Segment) : Scanner :=
  { m.past segment.raw with
    tokens := m.tokens ++ (segment.token? ⟨m.startPosition, m.filename⟩).toList }

/-- What becomes of a scan at a segment that is read, or malformed. -/
def outcome (m : Scanner) :
    Except Malformed (Segment × List Char) → EStateM.Result Stop Scanner Unit
  | .ok (segment, _) => .ok () (m.accept segment)
  | .error e =>
      .error (.fault (.lexical e.cause ⟨Lexer.faultPosition m.startPosition e, m.filename⟩))
        (m.past e.read)

/-- What becomes of a scan at a numeral. -/
def numeralOutcome (m : Scanner) :
    Except Malformed (List Char × List Char) → EStateM.Result Stop Scanner Unit
  | .ok (digits, rest) => m.outcome (.ok (.numeral digits, rest))
  | .error e => m.outcome (.error e)

/-- A slice that begins in the source, and is no longer than it goes on there. -/
theorem slice_eq {first last : Nat} (s : Scanner) (h : s.source.drop first = raw ++ rest)
    (hfirst : first ≤ s.source.length) (hlast : last = first + raw.length) :
    (slice first last).run s = .ok raw s := by
  have hlength : s.source.length - first = raw.length + rest.length := by
    rw [← List.length_drop, h, List.length_append]
  have hbounds : first ≤ last ∧ last ≤ s.source.length := by
    omega
  rw [EStateM.run, slice, if_pos hbounds, h, hlast, Nat.add_sub_cancel_left, List.take_left]

/-- What was read of a segment is a slice. -/
theorem slice_past (hm : m.Marked) (h : m.ahead = raw ++ rest) :
    (slice (m.past raw).start (m.past raw).current).run (m.past raw) = .ok raw (m.past raw) := by
  have hdrop : (m.past raw).source.drop (m.past raw).start = raw ++ rest := by
    show m.source.drop m.start = raw ++ rest
    rw [hm.start]
    exact h
  refine slice_eq (m.past raw) hdrop ?_ ?_
  · show m.start ≤ m.source.length
    rw [hm.start]
    exact hm.inside
  · show m.current + raw.length = m.start + raw.length
    rw [hm.start]

theorem addToken_eq (hm : m.Marked) (h : m.ahead = raw ++ rest) (kind : TokenKind) :
    (addToken kind).run (m.past raw)
      = .ok () { m.past raw with
          tokens := m.tokens.push ⟨kind, String.ofList raw, ⟨m.startPosition, m.filename⟩⟩ } := by
  rw [addToken, EStateM.run_bind, EStateM.run_get]
  simp only [EStateM.run_bind, slice_past hm h]
  rfl

theorem refuse_eq (hm : m.Marked) {cause : LexicalFault} (h : cause ≠ .unterminatedString)
    (lead : List Char) :
    (refuse cause).run (m.past lead) = m.numeralOutcome (.error ⟨cause, lead⟩) := by
  have hplace : Lexer.faultPosition m.startPosition ⟨cause, lead⟩ = m.position.after lead := by
    rw [Lexer.faultPosition, hm.position]
    split
    next hcause => exact absurd hcause h
    next => rfl
  show EStateM.Result.error (Stop.fault (.lexical cause ⟨m.position.after lead, m.filename⟩)) _ = _
  rw [numeralOutcome, outcome, hplace]

/-- A class of digits: what stands for the end of the source is none of them,
    and neither is a line feed. -/
structure DigitClass (isDigit : Char → Bool) : Prop where
  sentinel : isDigit '\x00' = false
  feed : isDigit '\n' = false

theorem digitClass_decimal : DigitClass Char.isDigit :=
  ⟨rfl, rfl⟩

theorem digitClass_hex : DigitClass Numeral.isHexDigit :=
  ⟨rfl, rfl⟩

theorem digitClass_binary : DigitClass Numeral.isBinaryDigit :=
  ⟨rfl, rfl⟩

theorem scanDigits_eq (hm : m.Marked) (h : m.ahead = lead ++ text) {isDigit : Char → Bool}
    (hclass : DigitClass isDigit) {cause : LexicalFault} (hcause : cause ≠ .unterminatedString) :
    (scanDigits isDigit cause).run (m.past lead)
      = m.numeralOutcome (Numeral.digits isDigit cause lead text) := by
  rw [scanDigits, EStateM.run_bind, peek_eq, ahead_past h]
  by_cases hdigit : isDigit (text.headD '\x00')
  · have hne : text.takeWhile isDigit ≠ [] := by
      cases text with
      | nil => exact absurd (hclass.sentinel.symm.trans hdigit) Bool.false_ne_true
      | cons c text =>
          have hc : isDigit c := hdigit
          rw [List.takeWhile_cons_of_pos hc]
          exact List.cons_ne_nil c _
    have hahead : m.ahead = (lead ++ text.takeWhile isDigit) ++ text.dropWhile isDigit := by
      rw [List.append_assoc, List.takeWhile_append_dropWhile, h]
    rw [Numeral.digits, if_neg hne]
    simp only [hdigit, Bool.not_true, Bool.false_eq_true, if_false]
    rw [EStateM.run_bind, skipWhile_eq hclass.feed, ahead_past h, past_past]
    exact addToken_eq hm hahead .number
  · have hnil : text.takeWhile isDigit = [] := by
      cases text with
      | nil => rfl
      | cons c text => exact List.takeWhile_cons_of_neg hdigit
    rw [Numeral.digits, if_pos hnil]
    simp only [hdigit, Bool.not_false, if_true]
    exact refuse_eq hm hcause lead

theorem scanRadix_eq (hm : m.Marked) (h : m.ahead = lead ++ text) {isDigit : Char → Bool}
    (hclass : DigitClass isDigit) {cause : LexicalFault} (hcause : cause ≠ .unterminatedString) :
    (scanRadix isDigit cause).run (m.past lead)
      = m.numeralOutcome (Numeral.digits isDigit cause lead text) := by
  rw [scanRadix, EStateM.run_bind, EStateM.run_get]
  cases text with
  | nil =>
      simp only [atEnd_iff.mpr (ahead_past h), if_true]
      exact refuse_eq hm hcause lead
  | cons c text =>
      simp only [not_atEnd (ahead_past h), Bool.false_eq_true, if_false]
      exact scanDigits_eq hm h hclass hcause

theorem skipFraction_eq (s : Scanner) :
    skipFraction.run s = .ok () (s.past (Numeral.fraction s.ahead).1) := by
  rw [skipFraction, EStateM.run_bind, matchChar_eq s (by decide)]
  by_cases hpoint : s.ahead.head? = some '.'
  · obtain ⟨more, hmore⟩ := List.head?_eq_some_iff.mp hpoint
    have hrest : (s.past ['.']).ahead = more := ahead_past hmore
    rw [if_pos hpoint, hmore, Numeral.fraction]
    show (skipWhile Char.isDigit).run (s.past ['.']) = _
    rw [skipWhile_eq digitClass_decimal.feed, hrest, past_past]
    rfl
  · have hnot : ∀ more, s.ahead ≠ '.' :: more := by
      intro more hmore
      exact hpoint (by rw [hmore]; rfl)
    rw [if_neg hpoint, Numeral.fraction_of_ne hnot]
    rfl

theorem skipSign_eq (s : Scanner) :
    skipSign.run s = .ok () (s.past (Numeral.sign s.ahead).1) := by
  rw [skipSign, EStateM.run_bind, matchChar_eq s (by decide)]
  by_cases hplus : s.ahead.head? = some '+'
  · obtain ⟨more, hmore⟩ := List.head?_eq_some_iff.mp hplus
    rw [if_pos hplus, hmore]
    rfl
  · rw [if_neg hplus]
    show ((matchChar '-' >>= fun _ => pure ()) : Scan Unit).run s = _
    rw [EStateM.run_bind, matchChar_eq s (by decide)]
    by_cases hminus : s.ahead.head? = some '-'
    · obtain ⟨more, hmore⟩ := List.head?_eq_some_iff.mp hminus
      rw [if_pos hminus, hmore]
      rfl
    · have hnone : ∀ d ∈ s.ahead.head?, d ≠ '+' ∧ d ≠ '-' := by
        intro d hd
        rw [Option.mem_def] at hd
        rw [hd] at hplus hminus
        exact ⟨fun h => hplus (by rw [h]), fun h => hminus (by rw [h])⟩
      rw [if_neg hminus, Numeral.sign_of_head hnone]
      rfl

theorem scanExponent_eq (hm : m.Marked) (h : m.ahead = lead ++ text) :
    scanExponent.run (m.past lead) = m.numeralOutcome (Numeral.exponent lead text) := by
  have hahead := ahead_past h
  rw [scanExponent, EStateM.run_bind]
  by_cases hletter : ∃ c ∈ text.head?, c = 'e' ∨ c = 'E'
  · obtain ⟨c, hhead, hc⟩ := hletter
    obtain ⟨more, rfl⟩ := List.head?_eq_some_iff.mp hhead
    have hsigned : m.ahead = (lead ++ [c]) ++ more := by
      rw [h, List.append_assoc, List.singleton_append]
    have hdigits : m.ahead = (lead ++ c :: (Numeral.sign more).1) ++ (Numeral.sign more).2 := by
      rw [h, List.append_assoc, List.cons_append, Numeral.sign_append]
    rw [matchEither_of_mem hahead hc (by decide), past_past]
    simp only [if_true]
    rw [EStateM.run_bind, skipSign_eq, ahead_past hsigned, past_past, List.append_assoc,
      List.singleton_append, Numeral.exponent, if_pos hc]
    exact scanDigits_eq hm hdigits digitClass_decimal (by decide)
  · have hnone : ∀ c ∈ text.head?, ¬ (c = 'e' ∨ c = 'E') :=
      fun c hhead hc => hletter ⟨c, hhead, hc⟩
    have hexponent : Numeral.exponent lead text = .ok (lead, text) := by
      cases text with
      | nil => rfl
      | cons c more => rw [Numeral.exponent, if_neg (hnone c rfl)]
    rw [matchEither_of_not_mem hahead hnone (by decide), hexponent]
    exact addToken_eq hm h .number

theorem scanDecimal_eq (hm : m.Marked) (hc : c.isDigit) (h : m.ahead = c :: text) :
    scanDecimal.run (m.past [c]) = m.numeralOutcome (Numeral.decimal (c :: text)) := by
  have hrest : (m.past [c]).ahead = text := ahead_past h
  have hwhole : m.ahead
      = (c :: text.takeWhile Char.isDigit) ++ text.dropWhile Char.isDigit := by
    rw [h, List.cons_append, List.takeWhile_append_dropWhile]
  have hpart : m.ahead = (c :: text.takeWhile Char.isDigit
      ++ (Numeral.fraction (text.dropWhile Char.isDigit)).1)
      ++ (Numeral.fraction (text.dropWhile Char.isDigit)).2 := by
    rw [List.append_assoc, Numeral.fraction_append, hwhole]
  rw [scanDecimal, EStateM.run_bind, skipWhile_eq digitClass_decimal.feed, hrest, past_past,
    List.singleton_append]
  simp only [EStateM.run_bind, skipFraction_eq, ahead_past hwhole, past_past]
  rw [Numeral.decimal, List.takeWhile_cons_of_pos hc, List.dropWhile_cons_of_pos hc]
  exact scanExponent_eq hm hpart

/-- Without a zero and a radix letter, a numeral is a decimal. -/
theorem read_eq_decimal
    (h : c = '0' → ∀ d ∈ text.head?, ¬ (d = 'x' ∨ d = 'X') ∧ ¬ (d = 'b' ∨ d = 'B')) :
    Numeral.read (c :: text) = Numeral.decimal (c :: text) := by
  rw [Numeral.read.eq_def]
  split
  next heq => cases heq; exact absurd (.inl rfl) (h rfl _ rfl).1
  next heq => cases heq; exact absurd (.inr rfl) (h rfl _ rfl).1
  next heq => cases heq; exact absurd (.inl rfl) (h rfl _ rfl).2
  next heq => cases heq; exact absurd (.inr rfl) (h rfl _ rfl).2
  next => rfl

theorem scanNumeral_eq (hm : m.Marked) (hc : c.isDigit) (h : m.ahead = c :: text) :
    (scanNumeral c).run (m.past [c]) = m.numeralOutcome (Numeral.read (c :: text)) := by
  have hrest : (m.past [c]).ahead = text := ahead_past h
  rw [scanNumeral]
  by_cases hzero : c = '0'
  · subst hzero
    rw [if_pos rfl, EStateM.run_bind]
    by_cases hhex : ∃ d ∈ text.head?, d = 'x' ∨ d = 'X'
    · obtain ⟨d, hhead, hd⟩ := hhex
      obtain ⟨more, rfl⟩ := List.head?_eq_some_iff.mp hhead
      have hlead : m.ahead = ['0', d] ++ more := h
      rw [matchEither_of_mem hrest hd (by decide), past_past]
      rcases hd with rfl | rfl
      · exact scanRadix_eq hm hlead digitClass_hex (by decide)
      · exact scanRadix_eq hm hlead digitClass_hex (by decide)
    · have hnoHex : ∀ d ∈ text.head?, ¬ (d = 'x' ∨ d = 'X') :=
        fun d hhead hd => hhex ⟨d, hhead, hd⟩
      rw [matchEither_of_not_mem hrest hnoHex (by decide)]
      simp only [Bool.false_eq_true, if_false]
      rw [EStateM.run_bind]
      by_cases hbinary : ∃ d ∈ text.head?, d = 'b' ∨ d = 'B'
      · obtain ⟨d, hhead, hd⟩ := hbinary
        obtain ⟨more, rfl⟩ := List.head?_eq_some_iff.mp hhead
        have hlead : m.ahead = ['0', d] ++ more := h
        rw [matchEither_of_mem hrest hd (by decide), past_past]
        rcases hd with rfl | rfl
        · exact scanRadix_eq hm hlead digitClass_binary (by decide)
        · exact scanRadix_eq hm hlead digitClass_binary (by decide)
      · have hnoBinary : ∀ d ∈ text.head?, ¬ (d = 'b' ∨ d = 'B') :=
          fun d hhead hd => hbinary ⟨d, hhead, hd⟩
        rw [matchEither_of_not_mem hrest hnoBinary (by decide),
          read_eq_decimal fun _ d hhead => ⟨hnoHex d hhead, hnoBinary d hhead⟩]
        exact scanDecimal_eq hm hc h
  · rw [if_neg hzero, read_eq_decimal fun h => absurd h hzero]
    exact scanDecimal_eq hm hc h

theorem scanWord_eq (hm : m.Marked) (h : m.ahead = c :: text) :
    scanWord.run (m.past [c])
      = .ok () (m.accept (.word (c :: text.takeWhile Segment.isWordPart))) := by
  have hrest : (m.past [c]).ahead = text := ahead_past h
  have hword : m.ahead = (c :: text.takeWhile Segment.isWordPart)
      ++ text.dropWhile Segment.isWordPart := by
    rw [h, List.cons_append, List.takeWhile_append_dropWhile]
  rw [scanWord, EStateM.run_bind, skipWhile_eq (by decide), hrest, past_past,
    List.singleton_append]
  simp only [EStateM.run_bind, EStateM.run_get, slice_past hm hword]
  rfl

theorem skipQuoted_eq (s : Scanner) :
    skipQuoted.run s = .ok () (s.past (s.ahead.takeWhile Segment.isQuotedPart)) := by
  rw [skipQuoted, EStateM.run_bind, EStateM.run_get]
  refine repeatWhile_eq ?test (fun s c rest h _ => advance_breakLine h) s s.length_ahead_le
  case test =>
    intro s
    rw [EStateM.run_bind, peek_eq]
    cases h : s.ahead with
    | nil =>
        simp only [EStateM.run_bind, EStateM.run_get, atEnd_iff.mpr h]
        rfl
    | cons c rest =>
        simp only [EStateM.run_bind, EStateM.run_get, not_atEnd h]
        show EStateM.Result.ok (decide (c ≠ '"') && true) s = .ok (c != '"') s
        by_cases hc : c = '"'
        · subst hc
          rfl
        · simp [hc]

/-- What stands between two quotes is a slice, since the second quote is behind
    the first. -/
theorem slice_inner {inner : List Char} (hm : m.Marked)
    (h : m.ahead = ('"' :: inner) ++ '"' :: rest) :
    (slice ((m.past ('"' :: inner ++ ['"'])).start + 1)
        ((m.past ('"' :: inner ++ ['"'])).current - 1)).run (m.past ('"' :: inner ++ ['"']))
      = .ok inner (m.past ('"' :: inner ++ ['"'])) := by
  have hdrop : m.source.drop (m.start + 1) = inner ++ '"' :: rest := by
    rw [hm.start, ← List.drop_drop]
    show m.ahead.drop 1 = _
    rw [h]
    rfl
  have hlength : m.source.length - m.current = (inner.length + 1) + (rest.length + 1) := by
    rw [← List.length_drop]
    show m.ahead.length = _
    rw [h, List.length_append, List.length_cons, List.length_cons]
  refine slice_eq _ hdrop ?_ ?_
  · show m.start + 1 ≤ m.source.length
    rw [hm.start]
    omega
  · show m.current + ('"' :: inner ++ ['"']).length - 1 = m.start + 1 + inner.length
    rw [hm.start, List.length_append, List.length_cons, List.length_singleton]
    omega

theorem scanQuoted_eq (hm : m.Marked) (h : m.ahead = '"' :: text) :
    scanQuoted.run (m.past ['"'])
      = m.outcome (match text.dropWhile Segment.isQuotedPart with
        | [] => .error ⟨.unterminatedString, '"' :: text⟩
        | _ :: rest => .ok (.quoted (text.takeWhile Segment.isQuotedPart), rest)) := by
  have hrest : (m.past ['"']).ahead = text := ahead_past h
  have hopen : m.ahead = ('"' :: text.takeWhile Segment.isQuotedPart)
      ++ text.dropWhile Segment.isQuotedPart := by
    rw [h, List.cons_append, List.takeWhile_append_dropWhile]
  rw [scanQuoted, EStateM.run_bind, skipQuoted_eq, hrest, past_past, List.singleton_append]
  simp only [EStateM.run_bind, EStateM.run_get]
  cases hclose : text.dropWhile Segment.isQuotedPart with
  | nil =>
      have hall : text.takeWhile Segment.isQuotedPart = text := by
        rw [← List.append_nil (text.takeWhile _), ← hclose, List.takeWhile_append_dropWhile]
      rw [hclose, hall] at hopen
      have hend : (m.past ('"' :: text)).atEnd := atEnd_iff.mpr (ahead_past hopen)
      rw [hall, if_pos hend]
      rfl
  | cons d rest =>
      obtain rfl : d = '"' := by
        have heq : text.takeWhile Segment.isQuotedPart ++ d :: rest
            = text.takeWhile Segment.isQuotedPart ++ '"' :: rest := by
          rw [← hclose, List.takeWhile_append_dropWhile, Segment.quote_split hclose]
        exact (List.cons.inj (List.append_cancel_left heq)).1
      rw [hclose] at hopen
      have hahead := ahead_past hopen
      have hslice := slice_inner hm hopen
      rw [if_neg (Bool.eq_false_iff.mp (not_atEnd hahead)), EStateM.run_bind, advance_eq hahead,
        ← past_char _ (show '"' ≠ '\n' by decide), past_past]
      simp only [EStateM.run_bind, EStateM.run_get, hslice]
      rfl

end Scanner

end BraceLang
