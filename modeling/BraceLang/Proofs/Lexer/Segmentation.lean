import BraceLang.Text.Blank
import BraceLang.Proofs.Lexer.NumeralForm
import BraceLang.Proofs.Lexer.Segments

/-! # Segmentation — a source is its lexemes and the characters dropped

    `Lexeme` says, without the lexer, which characters of a source are a token:
    a word that the next character does not continue, the longest numeral, a
    text between two quotes, or one of ten signs.  A source that is tokenized
    is a row of lexemes and dropped characters, and its tokens are those of
    the lexemes (`segmented_of_tokenize`). -/

namespace BraceLang

/-- The words with a kind of their own. -/
def keywords : List (String × TokenKind) :=
  [("func", .funcKeyword), ("let", .letKeyword), ("if", .ifKeyword), ("else", .elseKeyword),
    ("return", .returnKeyword)]

/-- The characters that are a token by themselves. -/
def signs : List (Char × TokenKind) :=
  [('(', .lparen), (')', .rparen), ('{', .lbrace), ('}', .rbrace), ('+', .plus), ('-', .minus),
    ('*', .star), ('/', .slash), ('=', .equals), (',', .comma)]

/-- The kind of a word: a keyword's own, and identifier for all others. -/
def WordKind (word : String) (kind : TokenKind) : Prop :=
  (word, kind) ∈ keywords ∨ word ∉ keywords.map Prod.fst ∧ kind = .identifier

/-- A blank, or a character that begins no lexeme. -/
def Droppable (c : Char) : Prop :=
  Text.isBlank c ∨ c ≠ '"' ∧ ¬ c.isAlphanum ∧ c ≠ '_' ∧ c ∉ signs.map Prod.fst

/-- The characters that a token has in a source, where other characters follow. -/
inductive Lexeme : Token → List Char → List Char → Prop where
  | word {t : Token} {c : Char} {letters rest : List Char}
      (htext : t.text = String.ofList (c :: letters)) (hstart : c.isAlpha ∨ c = '_')
      (hpart : ∀ d ∈ letters, d.isAlphanum ∨ d = '_')
      (hstop : ∀ d ∈ rest.head?, ¬ (d.isAlphanum ∨ d = '_')) (hkind : WordKind t.text t.kind) :
      Lexeme t (c :: letters) rest
  | numeral {t : Token} {raw rest : List Char} (htext : t.text = String.ofList raw)
      (hkind : t.kind = .number) (hlongest : Numeral.Longest raw (raw ++ rest)) :
      Lexeme t raw rest
  | quoted {t : Token} {text rest : List Char} (htext : t.text = String.ofList text)
      (hkind : t.kind = .string) (hquote : '"' ∉ text) :
      Lexeme t ('"' :: (text ++ ['"'])) rest
  | sign {t : Token} {c : Char} {rest : List Char} (htext : t.text = c.toString)
      (hkind : (c, t.kind) ∈ signs) : Lexeme t [c] rest

/-- A text that is lexemes and dropped characters one behind the other, and
    the tokens of the lexemes. -/
inductive Segmented : List Char → List Token → Prop where
  | nil : Segmented [] []
  | drop {c : Char} {rest : List Char} {tokens : List Token} (hc : Droppable c)
      (hrest : Segmented rest tokens) : Segmented (c :: rest) tokens
  | lexeme {t : Token} {raw rest : List Char} {tokens : List Token} (ht : Lexeme t raw rest)
      (hrest : Segmented rest tokens) : Segmented (raw ++ rest) (t :: tokens)

/-! ## The two tables -/

theorem TokenKind.mem_signs {c : Char} {kind : TokenKind} (h : sign? c = some kind) :
    (c, kind) ∈ signs := by
  rw [sign?.eq_def] at h
  split at h <;> cases h <;> decide

theorem TokenKind.not_mem_signs {c : Char} (h : sign? c = none) : c ∉ signs.map Prod.fst := by
  intro hmem
  simp only [signs, List.map_cons, List.map_nil, List.mem_cons, List.not_mem_nil, or_false]
    at hmem
  rcases hmem with rfl | rfl | rfl | rfl | rfl | rfl | rfl | rfl | rfl | rfl <;> cases h

theorem TokenKind.mem_keywords {word : String} {kind : TokenKind}
    (h : keyword? word = some kind) : (word, kind) ∈ keywords := by
  have hkeyword := isKeyword_of_keyword? h
  rw [← spelling_of_keyword? h]
  cases kind <;> first | exact absurd hkeyword Bool.false_ne_true | decide

theorem wordKind_keyword? (word : String) :
    WordKind word ((TokenKind.keyword? word).getD .identifier) := by
  cases h : TokenKind.keyword? word with
  | some kind => exact .inl (TokenKind.mem_keywords h)
  | none =>
      refine .inr ⟨?_, rfl⟩
      intro hmem
      simp only [keywords, List.map_cons, List.map_nil, List.mem_cons, List.not_mem_nil,
        or_false] at hmem
      rcases hmem with rfl | rfl | rfl | rfl | rfl <;> exact absurd h (by decide)

/-! ## Every segment is a lexeme or dropped -/

namespace Segment

theorem isWordStart_iff {c : Char} : isWordStart c ↔ c.isAlpha ∨ c = '_' := by
  simp [isWordStart]

theorem isWordPart_iff {c : Char} : isWordPart c ↔ c.isAlphanum ∨ c = '_' := by
  simp [isWordPart]

/-- A word goes as far as its characters go. -/
theorem lexeme_word {t : Token} {c : Char} {text : List Char} (hc : isWordStart c)
    (htext : t.text = String.ofList (c :: text.takeWhile isWordPart))
    (hkind : WordKind t.text t.kind) :
    Lexeme t (c :: text.takeWhile isWordPart) (text.dropWhile isWordPart) := by
  refine .word htext (isWordStart_iff.mp hc) ?_ ?_ hkind
  · intro d hd
    exact isWordPart_iff.mp (Numeral.forall_mem_takeWhile isWordPart text d hd)
  · intro d hd
    rw [← isWordPart_iff]
    have hnot := List.head?_dropWhile_not isWordPart text
    rw [Option.mem_def.mp hd] at hnot
    simpa using hnot

/-- A segment that has a token is the token's lexeme. -/
theorem lexeme_of_read {c : Char} {text rest : List Char} {s : Segment} {location : Location}
    {t : Token} (h : read c text = .ok (s, rest)) (ht : s.token? location = some t) :
    Lexeme t s.raw rest := by
  have happ := raw_append_of_read h
  rw [read] at h
  split at h
  next hquote =>
      split at h
      · cases h
      · cases h
        cases ht
        refine .quoted rfl rfl ?_
        intro hmem
        have hpart := Numeral.forall_mem_takeWhile isQuotedPart text _ hmem
        exact absurd hpart (by decide)
  next hquote =>
  split at h
  next hdigit =>
      split at h
      · cases h
      next digits rest' hread =>
          cases h
          cases ht
          refine .numeral rfl rfl ?_
          rw [happ]
          exact Numeral.longest_of_read hdigit hread
  next hdigit =>
  split at h
  next hword =>
      cases h
      cases ht
      exact lexeme_word hword rfl (wordKind_keyword? _)
  next hword =>
  split at h
  next kind hsign =>
      cases h
      cases ht
      exact .sign rfl (TokenKind.mem_signs hsign)
  next hsign =>
      cases h
      cases ht

/-- A segment without a token is one character, and begins no lexeme. -/
theorem droppable_of_read {c : Char} {text rest : List Char} {s : Segment} {location : Location}
    (h : read c text = .ok (s, rest)) (ht : s.token? location = none) :
    s.raw = [c] ∧ Droppable c := by
  rw [read] at h
  split at h
  next hquote =>
      split at h
      · cases h
      · cases h
        cases ht
  next hquote =>
  split at h
  next hdigit =>
      split at h
      · cases h
      · cases h
        cases ht
  next hdigit =>
  split at h
  next hword =>
      cases h
      cases ht
  next hword =>
  split at h
  next kind hsign =>
      cases h
      cases ht
  next hsign =>
      cases h
      rw [isWordStart_iff, not_or] at hword
      refine ⟨rfl, .inr ⟨hquote, ?_, hword.2, TokenKind.not_mem_signs hsign⟩⟩
      simp [Char.isAlphanum, hword.1, hdigit]

/-- What a segment adds to a segmented text. -/
theorem segmented_of_read {c : Char} {text rest : List Char} {s : Segment} {tokens : List Token}
    (h : read c text = .ok (s, rest)) (location : Location) (hrest : Segmented rest tokens) :
    Segmented (c :: text) ((s.token? location).toList ++ tokens) := by
  rw [← raw_append_of_read h]
  cases ht : s.token? location with
  | some t => exact .lexeme (lexeme_of_read h ht) hrest
  | none =>
      obtain ⟨hraw, hc⟩ := droppable_of_read h ht
      rw [hraw]
      exact .drop hc hrest

theorem segmented_of_readAll {text : List Char} {segments : List Segment}
    (h : readAll text = (segments, none)) (filename : Option String) (p : Position) :
    ∃ found marker, place filename p segments = found ++ [marker]
      ∧ marker.kind = .endOfInput ∧ marker.text = "<EOF>" ∧ Segmented text found := by
  fun_induction readAll text generalizing segments p with
  | case1 =>
      cases h
      exact ⟨[], .endMarker ⟨p, filename⟩, rfl, rfl, rfl, .nil⟩
  | case2 c text m hread => cases h
  | case3 c text s rest hread ih =>
      obtain ⟨rfl, hnone⟩ := Prod.mk.inj h
      obtain ⟨found, marker, hplace, hkind, htext, hfound⟩ := ih (Prod.ext rfl hnone) (p.after s.raw)
      refine ⟨(s.token? ⟨p, filename⟩).toList ++ found, marker, ?_, hkind, htext,
        segmented_of_read hread ⟨p, filename⟩ hfound⟩
      rw [place, hplace, List.append_assoc]

end Segment

/-- No lexeme is an end marker. -/
theorem Lexeme.not_isEnd {t : Token} {raw rest : List Char} (h : Lexeme t raw rest) :
    ¬ t.isEnd := by
  intro hend
  have hk : t.kind = .endOfInput := of_decide_eq_true hend
  cases h with
  | word _ _ _ _ hkind => simp [WordKind, keywords, hk] at hkind
  | numeral _ hkind _ => simp [hk] at hkind
  | quoted _ hkind _ => simp [hk] at hkind
  | sign _ hkind => simp [signs, hk] at hkind

theorem Segmented.not_isEnd {text : List Char} {tokens : List Token}
    (h : Segmented text tokens) : ∀ t ∈ tokens, ¬ t.isEnd := by
  induction h with
  | nil => exact List.forall_mem_nil _
  | drop hc hrest ih => exact ih
  | lexeme ht hrest ih => exact List.forall_mem_cons.mpr ⟨ht.not_isEnd, ih⟩

/-- **Segmentation.**  A source that is tokenized is lexemes and dropped
    characters one behind the other, and nothing else; its tokens are those of
    the lexemes in order, and behind them the one end marker. -/
theorem segmented_of_tokenize {source : String} {filename : Option String}
    {tokens : List Token} (h : tokenize source filename = .ok tokens) :
    ∃ found marker, tokens = found ++ [marker]
      ∧ marker.kind = .endOfInput ∧ marker.text = "<EOF>"
      ∧ (∀ t ∈ found, t.kind ≠ .endOfInput) ∧ Segmented source.toList found := by
  obtain ⟨segments, hall, rfl⟩ := tokenize_eq_ok_iff.mp h
  obtain ⟨found, marker, hplace, hkind, htext, hfound⟩ :=
    Segment.segmented_of_readAll hall filename .first
  refine ⟨found, marker, hplace, hkind, htext, ?_, hfound⟩
  intro t ht hend
  exact hfound.not_isEnd t ht (decide_eq_true hend)

/-- A name, a sign, a numeral, a character that is dropped, and a quoted text. -/
theorem segmented_of_tokenize_assignment :
    let tokens : List Token :=
      [⟨.identifier, "x", ⟨⟨1, 1⟩, none⟩⟩, ⟨.equals, "=", ⟨⟨1, 2⟩, none⟩⟩,
        ⟨.number, "0x1F", ⟨⟨1, 3⟩, none⟩⟩, ⟨.string, "s", ⟨⟨1, 8⟩, none⟩⟩,
        ⟨.endOfInput, "<EOF>", ⟨⟨1, 11⟩, none⟩⟩]
    tokenize "x=0x1F;\"s\"" none = .ok tokens
      ∧ ∃ found marker, tokens = found ++ [marker]
        ∧ marker.kind = .endOfInput ∧ marker.text = "<EOF>"
        ∧ (∀ t ∈ found, t.kind ≠ .endOfInput) ∧ Segmented "x=0x1F;\"s\"".toList found := by
  intro tokens
  have hall : Segment.readAll "x=0x1F;\"s\"".toList
      = ([.word ['x'], .sign .equals '=', .numeral ['0', 'x', '1', 'F'], .dropped ';',
        .quoted ['s']], none) := by
    have htext : "x=0x1F;\"s\"".toList
        = ['x', '=', '0', 'x', '1', 'F', ';', '"', 's', '"'] := by decide
    have hdropped : Segment.read ';' ['"', 's', '"'] = .ok (.dropped ';', ['"', 's', '"']) := rfl
    have hquoted : Segment.read '"' ['s', '"'] = .ok (.quoted ['s'], []) := rfl
    have hnumeral : Segment.read '0' ['x', '1', 'F', ';', '"', 's', '"']
        = .ok (.numeral ['0', 'x', '1', 'F'], [';', '"', 's', '"']) := rfl
    have hsign : Segment.read '=' ['0', 'x', '1', 'F', ';', '"', 's', '"']
        = .ok (.sign .equals '=', ['0', 'x', '1', 'F', ';', '"', 's', '"']) := rfl
    have hword : Segment.read 'x' ['=', '0', 'x', '1', 'F', ';', '"', 's', '"']
        = .ok (.word ['x'], ['=', '0', 'x', '1', 'F', ';', '"', 's', '"']) := rfl
    rw [htext, Segment.readAll_of_ok hword, Segment.readAll_of_ok hsign,
      Segment.readAll_of_ok hnumeral, Segment.readAll_of_ok hdropped,
      Segment.readAll_of_ok hquoted, Segment.readAll]
  have htokens : tokenize "x=0x1F;\"s\"" none = .ok tokens := tokenize_of_readAll none hall
  exact ⟨htokens, segmented_of_tokenize htokens⟩

end BraceLang
