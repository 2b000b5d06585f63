import BraceLang.Proofs.Lexer.Concatenation
import BraceLang.Proofs.Lexer.Segmentation

/-! # Spelling — the texts that are read as given tokens

    A text of the form of a word, of a numeral or of a quoted text is read as
    one token from its first character to its last (`spells_identifier`,
    `spells_numeral`, `spells_quoted`).  `Spells` says which tokens a text is
    read as, by their kinds and texts alone, so that it does not matter where
    the text stands; across a boundary that cuts no segment, texts and their
    tokens are put one behind the other (`Spells.append`). -/

namespace BraceLang

/-- What the grammar sees of a token: not where it stands. -/
def Token.face (t : Token) : TokenKind × String :=
  (t.kind, t.text)

/-- A letter or an underscore, and then letters, digits and underscores. -/
def IsWord : List Char → Prop
  | [] => False
  | c :: letters => (c.isAlpha ∨ c = '_') ∧ ∀ d ∈ letters, d.isAlphanum ∨ d = '_'

instance : DecidablePred IsWord
  | [] => inferInstanceAs (Decidable False)
  | _ :: letters => @instDecidableAnd _ _ inferInstance (List.decidableBAll _ letters)

/-- A word that is no keyword. -/
def IsName (name : String) : Prop :=
  IsWord name.toList ∧ name ∉ keywords.map Prod.fst

instance : DecidablePred IsName :=
  fun name => inferInstanceAs (Decidable (IsWord name.toList ∧ name ∉ keywords.map Prod.fst))

/-- A run of characters of one class is taken to its end. -/
theorem takeWhile_of_forall {p : Char → Bool} {ds : List Char} (h : ∀ d ∈ ds, p d) :
    ds.takeWhile p = ds ∧ ds.dropWhile p = [] := by
  induction ds with
  | nil => exact ⟨rfl, rfl⟩
  | cons d ds ih =>
      obtain ⟨hd, hds⟩ := List.forall_mem_cons.mp h
      obtain ⟨htake, hdrop⟩ := ih hds
      rw [List.takeWhile_cons_of_pos hd, List.dropWhile_cons_of_pos hd, htake, hdrop]
      exact ⟨rfl, rfl⟩

/-! ## Numerals -/

namespace Numeral

/-- The forms of a numeral. -/
inductive Form : List Char → Prop where
  | hexadecimal {raw : List Char} (h : Radix 'x' 'X' isHexDigit raw) : Form raw
  | binary {raw : List Char} (h : Radix 'b' 'B' isBinaryDigit raw) : Form raw
  | decimal {raw : List Char} (h : Decimal raw) : Form raw

theorem digits_of_digitRun {isDigit : Char → Bool} {ds : List Char} (h : DigitRun isDigit ds)
    (cause : LexicalFault) (lead : List Char) :
    digits isDigit cause lead ds = .ok (lead ++ ds, []) := by
  obtain ⟨htake, hdrop⟩ := takeWhile_of_forall h.2
  rw [digits, htake, hdrop, if_neg h.1]

theorem fraction_of_parts {part power : List Char} (hpart : Fraction part)
    (hpower : Exponent power) : fraction (part ++ power) = (part, power) := by
  cases power with
  | cons c power => exact fraction_of_letter hpart hpower.head
  | nil =>
      rw [List.append_nil]
      cases hpart with
      | none => rfl
      | point hds =>
          obtain ⟨htake, hdrop⟩ := takeWhile_of_forall hds
          rw [fraction, htake, hdrop]

theorem exponent_of_exponent {power : List Char} (h : Exponent power) (lead : List Char) :
    exponent lead power = .ok (lead ++ power, []) := by
  cases h with
  | none => rw [List.append_nil]; rfl
  | @power letter sgn ds hletter hsgn hds =>
      have hsign := sign_of_digits [] hsgn hds
      rw [List.append_nil, List.append_nil] at hsign
      rw [exponent, if_pos hletter, hsign, digits_of_digitRun hds, List.append_assoc]
      rfl

/-- What follows the whole digits of a decimal begins with a point or with the
    letter of an exponent. -/
theorem head_cases_of_joined {c : Char} {more : List Char}
    (h : Joined Fraction Exponent (c :: more)) : c = '.' ∨ c = 'e' ∨ c = 'E' := by
  obtain ⟨part, power, happ, hpart, hpower⟩ := h
  cases hpart with
  | none =>
      rw [List.nil_append] at happ
      rw [← happ] at hpower
      exact .inr hpower.head
  | point hds => exact .inl (List.cons.inj happ).1

theorem decimal_of_form {raw : List Char} (h : Decimal raw) : decimal raw = .ok (raw, []) := by
  obtain ⟨ds, rest, rfl, hds, hrest⟩ := h
  have htake : (ds ++ rest).takeWhile Char.isDigit = ds := by
    cases rest with
    | nil => rw [List.append_nil, (takeWhile_of_forall hds.2).1]
    | cons c more => exact takeWhile_of_stop hds.2 (head_of_joined hrest)
  have hdrop : (ds ++ rest).dropWhile Char.isDigit = rest := by
    have happ := List.takeWhile_append_dropWhile (p := Char.isDigit) (l := ds ++ rest)
    rw [htake] at happ
    exact List.append_cancel_left happ
  obtain ⟨part, power, rfl, hpart, hpower⟩ := hrest
  rw [decimal, htake, hdrop, fraction_of_parts hpart hpower, exponent_of_exponent hpower,
    List.append_assoc]

/-- A text of the form of a numeral is read as one to its end. -/
theorem read_of_form {raw : List Char} (h : Form raw) : read raw = .ok (raw, []) := by
  cases h with
  | hexadecimal h =>
      obtain ⟨rfl | rfl, hds⟩ := h
      · exact digits_of_digitRun hds .invalidHexLiteral ['0', 'x']
      · exact digits_of_digitRun hds .invalidHexLiteral ['0', 'X']
  | binary h =>
      obtain ⟨rfl | rfl, hds⟩ := h
      · exact digits_of_digitRun hds .invalidBinaryLiteral ['0', 'b']
      · exact digits_of_digitRun hds .invalidBinaryLiteral ['0', 'B']
  | decimal h =>
      rw [← decimal_of_form h]
      obtain ⟨ds, rest, rfl, hds, hrest⟩ := h
      refine read_of_digits hds ?_
      intro c hc
      obtain ⟨more, rfl⟩ := List.head?_eq_some_iff.mp hc
      exact head_cases_of_joined hrest

theorem Form.exists_digit {raw : List Char} (h : Form raw) :
    ∃ c text, raw = c :: text ∧ c.isDigit := by
  cases h with
  | hexadecimal h | binary h =>
      cases h
      exact ⟨'0', _, rfl, rfl⟩
  | decimal h =>
      obtain ⟨ds, rest, rfl, hds, -⟩ := h
      obtain ⟨d, ds, rfl⟩ := List.exists_cons_of_ne_nil hds.1
      exact ⟨d, ds ++ rest, rfl, hds.2 d List.mem_cons_self⟩

end Numeral

/-! ## Segments -/

namespace Segment

theorem not_isDigit_of_isWordStart {c : Char} (h : isWordStart c) : ¬ c.isDigit := by
  rcases isWordStart_iff.mp h with halpha | rfl
  · intro hdigit
    have hhigh : c ≤ '9' := by
      simp only [Char.isDigit, Bool.and_eq_true, decide_eq_true_eq] at hdigit
      exact hdigit.2
    have hlow : 'A' ≤ c := by
      rcases isAlpha_iff.mp halpha with hupper | hlower
      · exact (isUpper_iff.mp hupper).1
      · exact Char.le_trans (show 'A' ≤ 'a' by decide) (isLower_iff.mp hlower).1
    exact absurd (Char.le_trans hlow hhigh) (by decide)
  · decide

/-- A word is read to its end, where a character follows that does not continue
    it. -/
theorem read_append_of_isWord {c : Char} {letters rest : List Char} (h : IsWord (c :: letters))
    (hstop : ∀ d ∈ rest.head?, ¬ isWordPart d) :
    read c (letters ++ rest) = .ok (word (c :: letters), rest) := by
  obtain ⟨hstart, hpart⟩ := h
  have hword : isWordStart c := isWordStart_iff.mpr hstart
  have hquote : c ≠ '"' := by
    rintro rfl
    exact absurd hword (by decide)
  obtain ⟨htake, hdrop⟩ := takeWhile_of_forall fun d hd => isWordPart_iff.mpr (hpart d hd)
  have happend : (letters ++ rest).takeWhile isWordPart = letters.takeWhile isWordPart
      ∧ (letters ++ rest).dropWhile isWordPart = letters.dropWhile isWordPart ++ rest :=
    takeWhile_append_of_stop (.inr hstop)
  rw [read, if_neg hquote, if_neg (not_isDigit_of_isWordStart hword), if_pos hword,
    happend.1, happend.2, htake, hdrop, List.nil_append]

theorem read_of_isWord {c : Char} {letters : List Char} (h : IsWord (c :: letters)) :
    read c letters = .ok (word (c :: letters), []) := by
  have hstop : ∀ d ∈ ([] : List Char).head?, ¬ isWordPart d := fun _ hd => nomatch hd
  have hread := read_append_of_isWord h hstop
  rwa [List.append_nil] at hread

theorem read_of_numeralForm {c : Char} {text : List Char} (h : Numeral.Form (c :: text)) :
    read c text = .ok (numeral (c :: text), []) := by
  obtain ⟨d, more, hcons, hdigit⟩ := h.exists_digit
  obtain ⟨rfl, rfl⟩ := List.cons.inj hcons
  have hquote : c ≠ '"' := by
    rintro rfl
    exact absurd hdigit (by decide)
  rw [read, if_neg hquote, if_pos hdigit, Numeral.read_of_form h]

theorem read_of_quoted {text : List Char} (h : '"' ∉ text) :
    read '"' (text ++ ['"']) = .ok (quoted text, []) := by
  have hpart : ∀ d ∈ text, isQuotedPart d := by
    intro d hd
    have hne : d ≠ '"' := fun heq => h (heq ▸ hd)
    simpa [isQuotedPart] using hne
  have htake : (text ++ ['"']).takeWhile isQuotedPart = text :=
    Numeral.takeWhile_of_stop hpart (by decide)
  have happ := List.takeWhile_append_dropWhile (p := isQuotedPart) (l := text ++ ['"'])
  rw [htake] at happ
  rw [read, if_pos rfl, htake, List.append_cancel_left happ]

/-- A quoted text is read to the next quote, whatever follows. -/
theorem read_append_of_quoted {text : List Char} (h : '"' ∉ text) (rest : List Char) :
    read '"' (text ++ '"' :: rest) = .ok (quoted text, rest) := by
  have hclosed : Separate (quoted text).raw rest := by
    refine .inl ?_
    rw [raw, ← List.cons_append, List.getLast?_concat]
    rintro _ ⟨⟩
    decide
  have hread := read_append_of_ok (read_of_quoted h) (.inr hclosed)
  rwa [List.append_assoc] at hread

/-- The kinds and texts of the tokens of some segments. -/
def faces (segments : List Segment) : List (TokenKind × String) :=
  segments.filterMap fun s => (s.token? ⟨.first, none⟩).map Token.face

theorem map_face_token? (s : Segment) (l : Location) :
    (s.token? l).toList.map Token.face = faces [s] := by
  cases s <;> rfl

theorem faces_append (front back : List Segment) :
    faces (front ++ back) = faces front ++ faces back :=
  List.filterMap_append

theorem map_face_tokensAt (filename : Option String) (p : Position) (segments : List Segment) :
    (tokensAt filename p segments).map Token.face = faces segments := by
  induction segments generalizing p with
  | nil => rfl
  | cons s segments ih =>
      rw [tokensAt, List.map_append, map_face_token?, ih, ← faces_append]
      rfl

end Segment

open Segment

/-- The text is read to its end, as tokens of these kinds and texts. -/
def Spells (text : List Char) (fs : List (TokenKind × String)) : Prop :=
  ∃ segments, readAll text = (segments, none) ∧ faces segments = fs

theorem spells_nil : Spells [] [] :=
  ⟨[], readAll_nil, rfl⟩

theorem Spells.append {text q : List Char} {fs gs : List (TokenKind × String)}
    (h : Spells text fs) (hq : Spells q gs) (hseparate : Separate text q) :
    Spells (text ++ q) (fs ++ gs) := by
  obtain ⟨front, hfront, rfl⟩ := h
  obtain ⟨back, hback, rfl⟩ := hq
  refine ⟨front ++ back, ?_, faces_append front back⟩
  rw [readAll_append hfront hseparate, hback]

/-- A character that is a segment by itself, whatever follows. -/
theorem Spells.cons {c : Char} {s : Segment} {text : List Char} {fs : List (TokenKind × String)}
    (h : Spells text fs) (hc : read c text = .ok (s, text)) :
    Spells (c :: text) (faces [s] ++ fs) := by
  obtain ⟨segments, hall, rfl⟩ := h
  refine ⟨s :: segments, ?_, faces_append [s] segments⟩
  rw [readAll_of_ok hc, hall]

theorem spells_of_read {c : Char} {s : Segment} {text : List Char}
    (h : read c text = .ok (s, [])) : Spells (c :: text) (faces [s]) := by
  refine ⟨[s], ?_, rfl⟩
  rw [readAll_of_ok h, readAll_nil]

theorem spells_word {text : List Char} (h : IsWord text) :
    Spells text [((TokenKind.keyword? (String.ofList text)).getD .identifier,
      String.ofList text)] := by
  cases text with
  | nil => exact absurd h id
  | cons c letters => exact spells_of_read (read_of_isWord h)

theorem keyword?_of_not_mem {word : String} (h : word ∉ keywords.map Prod.fst) :
    TokenKind.keyword? word = none := by
  cases hk : TokenKind.keyword? word with
  | none => rfl
  | some kind => exact absurd (List.mem_map_of_mem (TokenKind.mem_keywords hk)) h

theorem spells_identifier {name : String} (h : IsName name) :
    Spells name.toList [(.identifier, name)] := by
  have hspells := spells_word h.1
  rw [String.ofList_toList, keyword?_of_not_mem h.2] at hspells
  exact hspells

theorem spells_numeral {value : String} (h : Numeral.Form value.toList) :
    Spells value.toList [(.number, value)] := by
  obtain ⟨c, text, hvalue, -⟩ := h.exists_digit
  rw [hvalue] at h
  have hspells := spells_of_read (read_of_numeralForm h)
  rw [← hvalue] at hspells
  have hfaces : faces [numeral value.toList] = [(.number, String.ofList value.toList)] := rfl
  rw [hfaces, String.ofList_toList] at hspells
  exact hspells

theorem spells_quoted {value : String} (h : '"' ∉ value.toList) :
    Spells ('"' :: (value.toList ++ ['"'])) [(.string, value)] := by
  have hspells := spells_of_read (read_of_quoted h)
  have hfaces : faces [quoted value.toList] = [(.string, String.ofList value.toList)] := rfl
  rw [hfaces, String.ofList_toList] at hspells
  exact hspells

/-- A source has the tokens that its text spells, and one end marker behind
    them. -/
theorem Spells.tokenize {source : String} {fs : List (TokenKind × String)}
    (h : Spells source.toList fs) (filename : Option String) :
    ∃ found marker, BraceLang.tokenize source filename = .ok (found ++ [marker])
      ∧ (∀ t ∈ found, ¬ t.isEnd) ∧ marker.isEnd ∧ found.map Token.face = fs := by
  obtain ⟨segments, hall, rfl⟩ := h
  obtain ⟨found, marker, hplace, hkind, -, hfound⟩ := segmented_of_readAll hall filename .first
  have hsplit := place_append filename .first segments []
  rw [List.append_nil, hplace] at hsplit
  refine ⟨found, marker, ?_, hfound.not_isEnd, decide_eq_true hkind, ?_⟩
  · rw [tokenize_of_readAll filename hall, hplace]
  · rw [(List.append_inj' hsplit rfl).1]
    exact map_face_tokensAt filename .first segments

end BraceLang
