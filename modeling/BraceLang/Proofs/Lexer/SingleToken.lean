import BraceLang.Proofs.Lexer.Respacing

/-! # Single tokens — the sources that are one token from end to end

    A source that is one number token with the whole source as its text has one
    of the forms of a numeral, and every text of such a form is one number
    token; so it is with names and keywords (`singleToken_iff`).  From left to
    right the token's lexeme is found in the source (`Segmented.exists_lexeme`)
    and fills it (`lexeme_of_singleToken`); from right to left a text of the
    form spells its token. -/

namespace BraceLang

/-- The source is one token of the kind, with the source as its text, and
    nothing behind it but the end marker. -/
def SingleToken (source : String) (filename : Option String) (kind : TokenKind) : Prop :=
  ∃ tokens, tokenize source filename = .ok tokens
    ∧ tokens.map Token.face = [(kind, source), (.endOfInput, "<EOF>")]

theorem singleToken_of_spells {source : String} {kind : TokenKind}
    (h : Spells source.toList [(kind, source)]) (filename : Option String) :
    SingleToken source filename kind :=
  h.exists_tokens filename

/-- A piece of a text that is as long as the text is all of it. -/
theorem eq_nil_of_append_self {front text rest : List Char} (h : text = front ++ (text ++ rest)) :
    rest = [] := by
  have hlength := congrArg List.length h
  rw [List.length_append, List.length_append] at hlength
  refine List.eq_nil_of_length_eq_zero ?_
  omega

/-- A token that has all of its source as its text is the lexeme of the source. -/
theorem lexeme_of_singleToken {source : String} {filename : Option String} {kind : TokenKind}
    (h : SingleToken source filename kind) (hstring : kind ≠ .string)
    (hend : kind ≠ .endOfInput) :
    ∃ t, t.face = (kind, source) ∧ Lexeme t source.toList [] := by
  obtain ⟨tokens, htokens, hfaces⟩ := h
  obtain ⟨segments, hall, rfl⟩ := tokenize_eq_ok_iff.mp htokens
  obtain ⟨found, marker, hplace, -, -, hfound⟩ :=
    Segment.segmented_of_readAll hall filename .first
  rw [hplace, List.map_append, List.map_singleton] at hfaces
  change _ = [(kind, source)] ++ [(TokenKind.endOfInput, "<EOF>")] at hfaces
  have hone : found.map Token.face = [(kind, source)] := (List.append_inj' hfaces rfl).1
  obtain ⟨t, rfl, hface⟩ := List.map_eq_singleton_iff.mp hone
  obtain ⟨hkind, htext⟩ := Prod.mk.inj hface
  obtain ⟨front, rest, hsource, hlexeme⟩ := hfound.exists_lexeme t (List.mem_singleton.mpr rfl)
  have hraw : t.raw = source.toList := by
    rw [Token.raw_of_ne (by rw [hkind]; exact hstring) (by rw [hkind]; exact hend), htext]
  rw [hraw] at hsource hlexeme
  rw [eq_nil_of_append_self hsource] at hlexeme
  exact ⟨t, hface, hlexeme⟩

/-- The lexeme of a number token is a numeral. -/
theorem Lexeme.form {t : Token} {raw rest : List Char} (h : Lexeme t raw rest)
    (hnumber : t.kind = .number) : Numeral.Form raw := by
  cases h with
  | numeral htext hkind hlongest => exact hlongest.form
  | word htext hstart hpart hstop hkind => simp [WordKind, keywords, hnumber] at hkind
  | quoted htext hkind hquote => simp [hnumber] at hkind
  | sign htext hkind => simp [signs, hnumber] at hkind

/-- The lexeme of an identifier or of a keyword is a word, with its kind. -/
theorem Lexeme.word_of_kind {t : Token} {raw rest : List Char} (h : Lexeme t raw rest)
    (hword : t.kind = .identifier ∨ t.kind.isKeyword) : IsWord raw ∧ WordKind t.text t.kind := by
  cases h with
  | word htext hstart hpart hstop hkind => exact ⟨⟨hstart, hpart⟩, hkind⟩
  | numeral htext hkind hlongest => simp [hkind, TokenKind.isKeyword] at hword
  | quoted htext hkind hquote => simp [hkind, TokenKind.isKeyword] at hword
  | sign htext hkind =>
      simp only [signs, List.mem_cons, Prod.mk.injEq, List.not_mem_nil, or_false] at hkind
      rcases hkind with h | h | h | h | h | h | h | h | h | h <;>
        simp [h.2, TokenKind.isKeyword] at hword

/-! ## Keywords -/

theorem isWord_of_mem_keywords {word : String} {kind : TokenKind} (h : (word, kind) ∈ keywords) :
    IsWord word.toList := by
  have hall : ∀ x ∈ keywords, IsWord x.1.toList := by decide
  exact hall _ h

theorem isKeyword_of_mem_keywords {word : String} {kind : TokenKind}
    (h : (word, kind) ∈ keywords) : kind.isKeyword := by
  have hall : ∀ x ∈ keywords, x.2.isKeyword := by decide
  exact hall _ h

theorem spells_keyword {word : String} {kind : TokenKind} (h : (word, kind) ∈ keywords) :
    Spells word.toList [(kind, word)] := by
  have hspells := spells_word (isWord_of_mem_keywords h)
  have hkind : kind = (TokenKind.keyword? word).getD .identifier := WordKind.eq (.inl h)
  rw [String.ofList_toList, ← hkind] at hspells
  exact hspells

/-! ## The three sorts of source -/

theorem singleToken_number_iff {source : String} {filename : Option String} :
    SingleToken source filename .number ↔ Numeral.Form source.toList := by
  constructor
  · intro h
    obtain ⟨t, hface, hlexeme⟩ := lexeme_of_singleToken h (by decide) (by decide)
    exact hlexeme.form (Prod.mk.inj hface).1
  · intro h
    exact singleToken_of_spells (spells_numeral h) filename

theorem singleToken_identifier_iff {source : String} {filename : Option String} :
    SingleToken source filename .identifier ↔ IsName source := by
  constructor
  · intro h
    obtain ⟨t, hface, hlexeme⟩ := lexeme_of_singleToken h (by decide) (by decide)
    obtain ⟨hkind, htext⟩ := Prod.mk.inj hface
    obtain ⟨hword, hwordKind⟩ := hlexeme.word_of_kind (.inl hkind)
    rw [hkind, htext] at hwordKind
    rcases hwordKind with hmem | ⟨hnot, -⟩
    · exact absurd (isKeyword_of_mem_keywords hmem) (by decide)
    · exact ⟨hword, hnot⟩
  · intro h
    exact singleToken_of_spells (spells_identifier h) filename

theorem singleToken_keyword_iff {source : String} {filename : Option String} {kind : TokenKind} :
    kind.isKeyword ∧ SingleToken source filename kind ↔ (source, kind) ∈ keywords := by
  constructor
  · rintro ⟨hkeyword, h⟩
    have hstring : kind ≠ .string := by rintro rfl; exact absurd hkeyword (by decide)
    have hend : kind ≠ .endOfInput := by rintro rfl; exact absurd hkeyword (by decide)
    obtain ⟨t, hface, hlexeme⟩ := lexeme_of_singleToken h hstring hend
    obtain ⟨hkind, htext⟩ := Prod.mk.inj hface
    obtain ⟨-, hwordKind⟩ := hlexeme.word_of_kind (.inr (by rw [hkind]; exact hkeyword))
    rw [hkind, htext] at hwordKind
    rcases hwordKind with hmem | ⟨-, rfl⟩
    · exact hmem
    · exact absurd hkeyword (by decide)
  · intro h
    exact ⟨isKeyword_of_mem_keywords h, singleToken_of_spells (spells_keyword h) filename⟩

/-- **Single tokens.**  A source is one number exactly if it has one of the
    forms of a numeral, one identifier exactly if it is a name, and one keyword
    exactly if it is the word of the keyword. -/
theorem singleToken_iff (source : String) (filename : Option String) :
    (SingleToken source filename .number ↔ Numeral.Form source.toList)
      ∧ (SingleToken source filename .identifier ↔ IsName source)
      ∧ ∀ kind, kind.isKeyword ∧ SingleToken source filename kind ↔ (source, kind) ∈ keywords :=
  ⟨singleToken_number_iff, singleToken_identifier_iff, fun _ => singleToken_keyword_iff⟩

end BraceLang
