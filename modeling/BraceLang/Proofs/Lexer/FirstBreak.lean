import BraceLang.Proofs.Lexer.BreakOff
import BraceLang.Proofs.Lexer.Segmentation
import BraceLang.Proofs.Lexer.Spelling

/-! # First breaks — exactly the sources that cannot be tokenized

    Scanning goes through a text by lexemes and dropped characters.  A place at
    which the text breaks off, because a quote or a numeral is not completed, is
    the only thing that keeps a source from being tokenized; the fault is that of
    the first such place (`tokenize_eq_error_iff_firstBreak`).  Up to that place
    there is only one way to scan (`Lexeme.eq_of_read`), so no other place could
    be meant. -/

namespace BraceLang

/-- Scanning a text by lexemes and dropped characters comes to a place of it,
    behind `front` and in front of `back`. -/
inductive ScansTo : List Char → List Char → List Char → Prop where
  | here (text : List Char) : ScansTo text [] text
  | drop {c : Char} {rest front back : List Char} (hc : Droppable c)
      (h : ScansTo rest front back) : ScansTo (c :: rest) (c :: front) back
  | lexeme {t : Token} {raw rest front back : List Char} (ht : Lexeme t raw rest)
      (h : ScansTo rest front back) : ScansTo (raw ++ rest) (raw ++ front) back

/-- A text that begins with no complete lexeme: what is missing of one shows
    between `lead` and `back`. -/
inductive BreaksOff : LexicalFault → List Char → List Char → Prop where
  /-- A quote that no later quote closes is reported where it stands. -/
  | unclosed {more : List Char} (h : '"' ∉ more) :
      BreaksOff .unterminatedString [] ('"' :: more)
  /-- A digit that is missing is reported behind what is there of the numeral. -/
  | broken {cause : LexicalFault} {raw back : List Char} (h : Numeral.Broken cause raw back) :
      BreaksOff cause raw back

/-- Scanning comes to a place behind `front` at which the text breaks off. -/
def BreaksAt (text : List Char) (cause : LexicalFault) (front lead : List Char) : Prop :=
  ∃ back, ScansTo text front (lead ++ back) ∧ BreaksOff cause lead back

/-- Scanning comes to no earlier place at which the text breaks off. -/
structure FirstBreak (text : List Char) (cause : LexicalFault) (front lead : List Char) : Prop where
  breaks : BreaksAt text cause front lead
  first : ∀ other before lead', BreaksAt text other before lead' → front.length ≤ before.length

theorem ScansTo.split {text front back : List Char} (h : ScansTo text front back) :
    text = front ++ back := by
  induction h with
  | here text => rfl
  | drop hc h ih => rw [ih, List.cons_append]
  | lexeme ht h ih => rw [ih, List.append_assoc]

/-! ## Where no segment is read -/

namespace Segment

theorem read_of_breaksOff {cause : LexicalFault} {lead back : List Char}
    (h : BreaksOff cause lead back) :
    ∃ c more m, lead ++ back = c :: more ∧ read c more = .error m ∧ m.cause = cause
      ∧ ∀ p, Lexer.faultPosition p m = p.after lead := by
  cases h with
  | @unclosed more h =>
      exact ⟨'"', more, ⟨.unterminatedString, '"' :: more⟩, rfl, read_of_unclosed h, rfl,
        fun _ => rfl⟩
  | broken h =>
      obtain ⟨c, text, rfl, hdigit⟩ := h.exists_digit
      have hread := Numeral.read_of_broken h
      refine ⟨c, text ++ back, ⟨cause, c :: text⟩, rfl, ?_, rfl, ?_⟩
      · have hquote : c ≠ '"' := by
          rintro rfl
          exact absurd hdigit (by decide)
        rw [List.cons_append] at hread
        rw [read, if_neg hquote, if_pos hdigit, hread]
      · exact Lexer.faultPosition_of_broken h

theorem breaksOff_of_read {c : Char} {text : List Char} {m : Malformed}
    (h : read c text = .error m) :
    ∃ lead back, c :: text = lead ++ back ∧ BreaksOff m.cause lead back
      ∧ ∀ p, Lexer.faultPosition p m = p.after lead := by
  rcases read_error h with ⟨rfl, hopen, rfl⟩ | ⟨back, hback, hbroken⟩
  · exact ⟨[], '"' :: text, rfl, .unclosed hopen, fun _ => rfl⟩
  · exact ⟨m.read, back, hback, .broken hbroken, Lexer.faultPosition_of_broken hbroken⟩

end Segment

/-! ## Where a segment is read -/

theorem TokenKind.sign?_of_mem {c : Char} {kind : TokenKind} (h : (c, kind) ∈ signs) :
    sign? c = some kind := by
  simp only [signs, List.mem_cons, Prod.mk.injEq, List.not_mem_nil, or_false] at h
  rcases h with h | h | h | h | h | h | h | h | h | h <;> rw [h.1, h.2] <;> rfl

theorem toNat_le_of_le {c d : Char} (h : c ≤ d) : c.toNat ≤ d.toNat :=
  UInt32.le_iff_toNat_le.mp h

theorem toNat_of_isAlphanum {c : Char} (h : c.isAlphanum) : 48 ≤ c.toNat ∧ c.toNat ≤ 122 := by
  rcases Bool.or_eq_true_iff.mp h with halpha | hdigit
  · rcases isAlpha_iff.mp halpha with hupper | hlower
    · obtain ⟨hlow, hhigh⟩ := isUpper_iff.mp hupper
      have hlow' : 65 ≤ c.toNat := toNat_le_of_le hlow
      have hhigh' : c.toNat ≤ 90 := toNat_le_of_le hhigh
      omega
    · obtain ⟨hlow, hhigh⟩ := isLower_iff.mp hlower
      have hlow' : 97 ≤ c.toNat := toNat_le_of_le hlow
      have hhigh' : c.toNat ≤ 122 := toNat_le_of_le hhigh
      omega
  · rw [Char.isDigit, Bool.and_eq_true, decide_eq_true_eq, decide_eq_true_eq] at hdigit
    have hlow : 48 ≤ c.toNat := UInt32.le_iff_toNat_le.mp hdigit.1
    have hhigh : c.toNat ≤ 57 := UInt32.le_iff_toNat_le.mp hdigit.2
    omega

/-- A blank begins no lexeme either. -/
theorem Droppable.not_start {c : Char} (h : Droppable c) :
    c ≠ '"' ∧ ¬ c.isAlphanum ∧ c ≠ '_' ∧ c ∉ signs.map Prod.fst := by
  rcases h with hblank | hother
  · have hrange : c.toNat ≤ 32 ∨ 133 ≤ c.toNat := by
      simp [Text.isBlank, Text.blankRanges] at hblank
      omega
    refine ⟨?_, ?_, ?_, ?_⟩
    · rintro rfl
      exact absurd hblank (by decide)
    · intro halnum
      have hbounds := toNat_of_isAlphanum halnum
      omega
    · rintro rfl
      exact absurd hblank (by decide)
    · intro hmem
      have hall : ∀ x ∈ signs, ¬ Text.isBlank x.1 := by decide
      obtain ⟨x, hx, rfl⟩ := List.mem_map.mp hmem
      exact hall x hx hblank
  · exact hother

namespace Segment

theorem read_of_droppable {c : Char} (h : Droppable c) (text : List Char) :
    read c text = .ok (dropped c, text) := by
  obtain ⟨hquote, halnum, hunderscore, hsigns⟩ := h.not_start
  simp only [Char.isAlphanum, Bool.or_eq_true, not_or] at halnum
  have hword : ¬ isWordStart c := by
    rw [isWordStart_iff]
    exact not_or.mpr ⟨halnum.1, hunderscore⟩
  have hsign : TokenKind.sign? c = none := by
    cases hs : TokenKind.sign? c with
    | none => rfl
    | some kind => exact absurd (List.mem_map_of_mem (TokenKind.mem_signs hs)) hsigns
  rw [read, if_neg hquote, if_neg halnum.2, if_neg hword, hsign]

theorem read_of_sign {c : Char} {kind : TokenKind} (h : (c, kind) ∈ signs) (text : List Char) :
    read c text = .ok (sign kind c, text) := by
  have hsign := TokenKind.sign?_of_mem h
  have hall : ∀ x ∈ signs, x.1 ≠ '"' ∧ ¬ x.1.isDigit ∧ ¬ isWordStart x.1 := by decide
  obtain ⟨hquote, hdigit, hword⟩ := hall _ h
  rw [read, if_neg hquote, if_neg hdigit, if_neg hword, hsign]

/-- A numeral that is read at a digit is the longest one there. -/
theorem longest_of_read {c : Char} {text rest : List Char} {s : Segment} (hdigit : c.isDigit)
    (h : read c text = .ok (s, rest)) : Numeral.Longest s.raw (c :: text) := by
  have hquote : c ≠ '"' := by
    rintro rfl
    exact absurd hdigit (by decide)
  rw [read, if_neg hquote, if_pos hdigit] at h
  split at h
  next => cases h
  next digits behind hread =>
      cases h
      exact Numeral.longest_of_read hdigit hread

end Segment

/-- Where a segment is read, no lexeme but that of the segment begins the text. -/
theorem Lexeme.eq_of_read {t : Token} {raw rest : List Char} (ht : Lexeme t raw rest) {c : Char}
    {text behind : List Char} {s : Segment} (hsplit : raw ++ rest = c :: text)
    (h : Segment.read c text = .ok (s, behind)) : s.raw = raw ∧ behind = rest := by
  have hraw : s.raw = raw := by
    cases ht with
    | word htext hstart hpart hstop hkind =>
        rw [List.cons_append] at hsplit
        obtain ⟨rfl, rfl⟩ := List.cons.inj hsplit
        have hends : ∀ d ∈ rest.head?, ¬ Segment.isWordPart d :=
          fun d hd => mt Segment.isWordPart_iff.mp (hstop d hd)
        rw [Segment.read_append_of_isWord ⟨hstart, hpart⟩ hends] at h
        cases h
        rfl
    | numeral htext hkind hlongest =>
        rw [hsplit] at hlongest
        exact (Segment.longest_of_read (hlongest.head?_isDigit c rfl) h).unique hlongest
    | quoted htext hkind hquote =>
        rw [List.cons_append, List.append_assoc] at hsplit
        obtain ⟨rfl, rfl⟩ := List.cons.inj hsplit
        have hquoted := Segment.read_append_of_quoted hquote rest
        change Segment.read _ (_ ++ '"' :: rest) = _ at h
        rw [hquoted] at h
        cases h
        rfl
    | sign htext hkind =>
        obtain ⟨rfl, rfl⟩ := List.cons.inj hsplit
        rw [Segment.read_of_sign hkind] at h
        cases h
        rfl
  refine ⟨hraw, ?_⟩
  have happ := Segment.raw_append_of_read h
  rw [hraw, ← hsplit] at happ
  exact List.append_cancel_left happ

/-! ## The first break -/

open Segment

/-- The segments of a text lead to every place that scanning comes to in front of
    a break. -/
theorem BreaksAt.exists_readAll {text front lead : List Char} {cause : LexicalFault}
    (h : BreaksAt text cause front lead) :
    ∃ segments m, readAll text = (segments, some m)
      ∧ (segments.flatMap raw).length ≤ front.length := by
  obtain ⟨back, hscan, hbreak⟩ := h
  generalize hplace : lead ++ back = place at hscan
  induction hscan with
  | here text =>
      obtain ⟨c, more, m, hsplit, hread, -⟩ := read_of_breaksOff hbreak
      rw [← hplace, hsplit, readAll_of_error hread]
      exact ⟨[], m, rfl, Nat.le_refl _⟩
  | @drop c rest front back hc h ih =>
      obtain ⟨segments, m, hall, hle⟩ := ih hplace
      rw [readAll_of_ok (read_of_droppable hc rest), hall]
      exact ⟨_, m, rfl, Nat.succ_le_succ hle⟩
  | @lexeme t lexeme rest front back ht h ih =>
      obtain ⟨segments, m, hall, hle⟩ := ih hplace
      cases hsplit : lexeme ++ rest with
      | nil =>
          rw [(List.append_eq_nil_iff.mp hsplit).2, readAll_nil] at hall
          cases hall
      | cons c more =>
          cases hread : read c more with
          | error m' =>
              rw [readAll_of_error hread]
              exact ⟨[], m', rfl, Nat.zero_le _⟩
          | ok answer =>
              obtain ⟨s, behind⟩ := answer
              obtain ⟨hraw, rfl⟩ := ht.eq_of_read hsplit hread
              rw [readAll_of_ok hread, hall]
              refine ⟨_, m, rfl, ?_⟩
              rw [List.flatMap_cons, hraw, List.length_append, List.length_append]
              exact Nat.add_le_add_left hle lexeme.length

/-- Scanning comes to every place between two segments of a text. -/
theorem scansTo_of_readAll {text : List Char} {front back : List Segment}
    {halted : Option Malformed} (h : readAll text = (front ++ back, halted)) :
    ∃ rest, ScansTo text (front.flatMap raw) rest ∧ readAll rest = (back, halted) := by
  induction front generalizing text with
  | nil => exact ⟨text, .here text, h⟩
  | cons s front ih =>
      revert h
      fun_cases readAll text with
      | case1 => rintro ⟨⟩
      | case2 c text m hread => rintro ⟨⟩
      | case3 c text s' behind hread =>
          intro h
          obtain ⟨hsegments, hhalted⟩ := Prod.mk.inj h
          obtain ⟨rfl, hfront⟩ := List.cons.inj hsegments
          obtain ⟨rest, hscan, hrest⟩ := ih (Prod.ext hfront hhalted)
          refine ⟨rest, ?_, hrest⟩
          rw [List.flatMap_cons, ← raw_append_of_read hread]
          cases ht : s'.token? ⟨.first, none⟩ with
          | some t => exact .lexeme (lexeme_of_read hread ht) hscan
          | none =>
              obtain ⟨hraw, hc⟩ := droppable_of_read hread ht
              rw [hraw]
              exact .drop hc hscan

/-- The text breaks off where its segments end before it does. -/
theorem breaksAt_of_readAll {text : List Char} {segments : List Segment} {m : Malformed}
    (h : readAll text = (segments, some m)) :
    ∃ lead, BreaksAt text m.cause (segments.flatMap raw) lead
      ∧ ∀ p, Lexer.faultPosition p m = p.after lead := by
  rw [← List.append_nil segments] at h
  obtain ⟨rest, hscan, hrest⟩ := scansTo_of_readAll h
  obtain ⟨c, more, rfl, hread⟩ := read_of_readAll_malformed hrest
  obtain ⟨lead, back, hsplit, hbreak, hposition⟩ := breaksOff_of_read hread
  rw [hsplit] at hscan
  exact ⟨lead, ⟨back, hscan, hbreak⟩, hposition⟩

/-- Where the segments of a text end before it does is its first break. -/
theorem firstBreak_of_readAll {text : List Char} {segments : List Segment} {m : Malformed}
    (h : readAll text = (segments, some m)) :
    ∃ lead, FirstBreak text m.cause (segments.flatMap raw) lead
      ∧ ∀ p, Lexer.faultPosition p m = p.after lead := by
  obtain ⟨lead, hbreaks, hposition⟩ := breaksAt_of_readAll h
  refine ⟨lead, ⟨hbreaks, ?_⟩, hposition⟩
  intro other before lead' hother
  obtain ⟨segments', m', hall, hle⟩ := hother.exists_readAll
  rw [h] at hall
  rw [(Prod.mk.inj hall).1]
  exact hle

/-- At its first break the segments of a text end, and for the same cause. -/
theorem FirstBreak.exists_readAll {text front lead : List Char} {cause : LexicalFault}
    (h : FirstBreak text cause front lead) :
    ∃ segments m, readAll text = (segments, some m) ∧ segments.flatMap raw = front
      ∧ m.cause = cause ∧ ∀ p, Lexer.faultPosition p m = p.after lead := by
  obtain ⟨segments, m, hall, hle⟩ := h.breaks.exists_readAll
  obtain ⟨lead', hbreaks', -⟩ := breaksAt_of_readAll hall
  have hlength : (segments.flatMap raw).length = front.length :=
    Nat.le_antisymm hle (h.first _ _ _ hbreaks')
  obtain ⟨back, hscan, hbreak⟩ := h.breaks
  rw [← List.append_nil segments] at hall
  obtain ⟨rest, hscan', hrest⟩ := scansTo_of_readAll hall
  -- both places are behind as many characters of the same text
  obtain ⟨hfront, hback⟩ := List.append_inj (hscan'.split.symm.trans hscan.split) hlength
  obtain ⟨c, more, m', hsplit, hread', hcause, hposition⟩ := read_of_breaksOff hbreak
  rw [hback, hsplit, readAll_of_error hread'] at hrest
  rw [List.append_nil] at hall
  obtain rfl : m' = m := Option.some.inj (Prod.mk.inj hrest).2
  exact ⟨segments, m', hall, hfront, hcause, hposition⟩

/-- The fault of a source is that of its first break. -/
theorem tokenize_eq_error_iff_exists {source : String} {filename : Option String} {fault : Fault} :
    tokenize source filename = .error fault
      ↔ ∃ cause front lead, FirstBreak source.toList cause front lead
        ∧ fault = .lexical cause ⟨Position.first.after (front ++ lead), filename⟩ := by
  rw [tokenize_eq_error_iff]
  constructor
  · rintro ⟨segments, m, hall, rfl⟩
    obtain ⟨lead, hfirst, hposition⟩ := firstBreak_of_readAll hall
    refine ⟨m.cause, segments.flatMap raw, lead, hfirst, ?_⟩
    rw [hposition, positionAfter, Position.after_append]
  · rintro ⟨cause, front, lead, hfirst, rfl⟩
    obtain ⟨segments, m, hall, rfl, rfl, hposition⟩ := hfirst.exists_readAll
    refine ⟨segments, m, hall, ?_⟩
    rw [hposition, positionAfter, Position.after_append]

/-- **First breaks.**  A source cannot be tokenized exactly if scanning comes to
    a place at which it breaks off, and then its fault is that of the first such
    place; every other source has tokens. -/
theorem tokenize_eq_error_iff_firstBreak (source : String) (filename : Option String) :
    ((∃ fault, tokenize source filename = .error fault)
        ↔ ∃ cause front lead, BreaksAt source.toList cause front lead)
      ∧ (∀ fault, tokenize source filename = .error fault
        ↔ ∃ cause front lead, FirstBreak source.toList cause front lead
          ∧ fault = .lexical cause ⟨Position.first.after (front ++ lead), filename⟩)
      ∧ ((∃ tokens, tokenize source filename = .ok tokens)
        ↔ ¬ ∃ cause front lead, BreaksAt source.toList cause front lead) := by
  have hfails : (∃ fault, tokenize source filename = .error fault)
      ↔ ∃ cause front lead, BreaksAt source.toList cause front lead := by
    constructor
    · rintro ⟨fault, hfault⟩
      obtain ⟨cause, front, lead, hfirst, -⟩ := tokenize_eq_error_iff_exists.mp hfault
      exact ⟨cause, front, lead, hfirst.breaks⟩
    · rintro ⟨cause, front, lead, hbreaks⟩
      obtain ⟨segments, m, hall, -⟩ := hbreaks.exists_readAll
      exact ⟨_, tokenize_of_readAll_malformed filename hall⟩
  refine ⟨hfails, fun fault => tokenize_eq_error_iff_exists, ?_⟩
  rw [← hfails]
  cases tokenize source filename with
  | ok tokens => exact iff_of_true ⟨tokens, rfl⟩ (by rintro ⟨_, ⟨⟩⟩)
  | error fault => exact iff_of_false (by rintro ⟨_, ⟨⟩⟩) (not_not.mpr ⟨fault, rfl⟩)

end BraceLang
