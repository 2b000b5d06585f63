import BraceLang.Proofs.Lexer.FirstBreak
import BraceLang.Proofs.Lexer.Offsets

/-! # Respacing — the tokens of a source, written out again

    What stands between two tokens of a source is not needed to read them: the
    characters of each token are a lexeme wherever they stand, and one blank
    keeps them apart.  So tokens that are written out with a space or a line
    feed between them are read back (`tokenize_of_spaced`).

    The step is `Lexeme.spells`: a lexeme was read with other characters behind
    it, and is read in the same way by itself. -/

namespace BraceLang

/-- The characters of some tokens one behind the other, with one space or one
    line feed between each two of them. -/
inductive Spaced : List Token → List Char → Prop where
  | nil : Spaced [] []
  | last (t : Token) : Spaced [t] t.raw
  | cons {t u : Token} {ts : List Token} {blank : Char} {text : List Char}
      (hblank : blank = ' ' ∨ blank = '\n') (h : Spaced (u :: ts) text) :
      Spaced (t :: u :: ts) (t.raw ++ blank :: text)

theorem spaced_intercalate {blank : Char} (hblank : blank = ' ' ∨ blank = '\n')
    (tokens : List Token) : Spaced tokens ([blank].intercalate (tokens.map Token.raw)) := by
  induction tokens with
  | nil => exact .nil
  | cons t tokens ih =>
      cases tokens with
      | nil =>
          rw [List.map_singleton, List.intercalate_singleton]
          exact .last t
      | cons u tokens =>
          rw [List.map_cons, List.map_cons, List.intercalate_cons_cons, List.append_assoc]
          exact .cons hblank ih

/-! ## Lexemes by themselves -/

/-- The longest numeral of a text has one of the forms of a numeral. -/
theorem Numeral.Longest.form {raw text : List Char} (h : Longest raw text) : Form raw := by
  by_cases hx : ['0', 'x'] <+: text ∨ ['0', 'X'] <+: text
  · exact .hexadecimal (h.hexadecimal hx).fits
  by_cases hb : ['0', 'b'] <+: text ∨ ['0', 'B'] <+: text
  · exact .binary (h.binary hb).fits
  · exact .decimal (h.decimal hx hb).fits

/-- A word has one kind only. -/
theorem WordKind.eq {word : String} {kind : TokenKind} (h : WordKind word kind) :
    kind = (TokenKind.keyword? word).getD .identifier := by
  rcases h with hmem | ⟨hnot, rfl⟩
  · simp only [keywords, List.mem_cons, Prod.mk.injEq, List.not_mem_nil, or_false] at hmem
    rcases hmem with ⟨rfl, rfl⟩ | ⟨rfl, rfl⟩ | ⟨rfl, rfl⟩ | ⟨rfl, rfl⟩ | ⟨rfl, rfl⟩ <;> decide
  · rw [keyword?_of_not_mem hnot]
    rfl

/-- A lexeme spells its token, whatever followed it where it was read. -/
theorem Lexeme.spells {t : Token} {raw rest : List Char} (h : Lexeme t raw rest) :
    Spells raw [t.face] := by
  cases h with
  | @word c letters _ htext hstart hpart hstop hkind =>
      have hword : IsWord (c :: letters) := ⟨hstart, hpart⟩
      have hspells := spells_word hword
      rw [← htext, ← hkind.eq] at hspells
      exact hspells
  | numeral htext hkind hlongest =>
      have hraw : raw = t.text.toList := by rw [htext, String.toList_ofList]
      have hform := hlongest.form
      rw [hraw] at hform ⊢
      rw [Token.face, hkind]
      exact spells_numeral hform
  | @quoted text _ htext hkind hquote =>
      have hraw : text = t.text.toList := by rw [htext, String.toList_ofList]
      rw [hraw] at hquote ⊢
      rw [Token.face, hkind]
      exact spells_quoted hquote
  | @sign c _ htext hkind =>
      have hspells := spells_of_read (Segment.read_of_sign hkind [])
      rw [Token.face, htext]
      exact hspells

/-- Every token of a segmented text stands in it with its characters. -/
theorem Segmented.exists_lexeme {text : List Char} {tokens : List Token}
    (h : Segmented text tokens) :
    ∀ t ∈ tokens, ∃ front rest, text = front ++ (t.raw ++ rest) ∧ Lexeme t t.raw rest := by
  induction h with
  | nil => exact List.forall_mem_nil _
  | @drop c rest tokens hc hrest ih =>
      intro t ht
      obtain ⟨front, behind, rfl, hlexeme⟩ := ih t ht
      exact ⟨c :: front, behind, rfl, hlexeme⟩
  | @lexeme t raw rest tokens ht hrest ih =>
      intro u hu
      rcases List.mem_cons.mp hu with rfl | hmem
      · rw [ht.raw_eq]
        exact ⟨[], rest, rfl, ht⟩
      · obtain ⟨front, behind, rfl, hlexeme⟩ := ih u hmem
        exact ⟨raw ++ front, behind, (List.append_assoc raw front _).symm, hlexeme⟩

/-! ## Tokens written out -/

/-- Tokens that are spelled one by one are spelled together, a blank between
    them. -/
theorem Spaced.spells {tokens : List Token} {text : List Char} (h : Spaced tokens text)
    (htokens : ∀ t ∈ tokens, Spells t.raw [t.face]) : Spells text (tokens.map Token.face) := by
  induction h with
  | nil => exact spells_nil
  | last t => exact htokens t (List.mem_singleton.mpr rfl)
  | @cons t u ts blank text hblank h ih =>
      obtain ⟨ht, hrest⟩ := List.forall_mem_cons.mp htokens
      have hback : Spells (blank :: text) ((u :: ts).map Token.face) := by
        rcases hblank with rfl | rfl
        · exact (ih hrest).cons (s := .dropped ' ') rfl
        · exact (ih hrest).cons (s := .dropped '\n') rfl
      refine ht.append hback (.inr ?_)
      rintro _ ⟨⟩
      rcases hblank with rfl | rfl <;> decide

/-- The tokens of a source are those that its text spells, and the end marker. -/
theorem Spells.exists_tokens {source : String} {fs : List (TokenKind × String)}
    (h : Spells source.toList fs) (filename : Option String) :
    ∃ tokens, BraceLang.tokenize source filename = .ok tokens
      ∧ tokens.map Token.face = fs ++ [(.endOfInput, "<EOF>")] := by
  obtain ⟨segments, hall, rfl⟩ := h
  have hplace := Segment.place_append filename .first segments []
  rw [List.append_nil] at hplace
  refine ⟨_, tokenize_of_readAll filename hall, ?_⟩
  rw [hplace, List.map_append, Segment.map_face_tokensAt]
  rfl

/-- **Respacing.**  The tokens of a source, written out with one space or one
    line feed between each two of them, are read back with the same kinds and
    texts, the end marker included. -/
theorem tokenize_of_spaced {source : String} {filename : Option String} {tokens : List Token}
    (h : tokenize source filename = .ok tokens) :
    ∃ found marker, tokens = found ++ [marker]
      ∧ (∀ t ∈ found, t.kind ≠ .endOfInput) ∧ marker.kind = .endOfInput
      ∧ (∀ blank, blank = ' ' ∨ blank = '\n' →
        Spaced found ([blank].intercalate (found.map Token.raw)))
      ∧ ∀ (text : String) (name : Option String), Spaced found text.toList →
        ∃ again, tokenize text name = .ok again
          ∧ again.map Token.face = tokens.map Token.face := by
  obtain ⟨segments, hall, rfl⟩ := tokenize_eq_ok_iff.mp h
  obtain ⟨found, marker, hplace, hkind, heof, hfound⟩ :=
    Segment.segmented_of_readAll hall filename .first
  have hmarker : marker.face = (.endOfInput, "<EOF>") := Prod.ext hkind heof
  refine ⟨found, marker, hplace, ?_, hkind, fun blank hblank => spaced_intercalate hblank found, ?_⟩
  · intro t ht hend
    exact hfound.not_isEnd t ht (decide_eq_true hend)
  · intro text name hspaced
    have hspells : Spells text.toList (found.map Token.face) := by
      refine hspaced.spells ?_
      intro t ht
      obtain ⟨front, rest, -, hlexeme⟩ := hfound.exists_lexeme t ht
      exact hlexeme.spells
    obtain ⟨again, hagain, hfaces⟩ := hspells.exists_tokens name
    refine ⟨again, hagain, ?_⟩
    rw [hfaces, hplace, List.map_append, List.map_singleton, hmarker]

/-- Two numerals that a binary one cut short left side by side, a string of two
    lines and a word that begins like a keyword, with blanks of both sorts. -/
theorem tokenize_of_spaced_adjacent :
    let found : List Token :=
      [⟨.number, "0b1", ⟨⟨1, 1⟩, none⟩⟩, ⟨.number, "2.", ⟨⟨1, 4⟩, none⟩⟩,
        ⟨.string, "a\nb", ⟨⟨1, 6⟩, none⟩⟩, ⟨.identifier, "letx", ⟨⟨2, 3⟩, none⟩⟩]
    let tokens := found ++ [.endMarker ⟨⟨2, 7⟩, none⟩]
    tokenize "0b12.\"a\nb\"letx" none = .ok tokens
      ∧ Spaced found "0b1 2.\n\"a\nb\" letx".toList
      ∧ ∃ again, tokenize "0b1 2.\n\"a\nb\" letx" none = .ok again
        ∧ again.map Token.face = tokens.map Token.face := by
  intro found tokens
  have htokens : tokenize "0b12.\"a\nb\"letx" none = .ok tokens := by decide +kernel
  have hspaced : Spaced found "0b1 2.\n\"a\nb\" letx".toList := by
    have htext : "0b1 2.\n\"a\nb\" letx".toList
        = found[0].raw ++ ' ' :: (found[1].raw ++ '\n' :: (found[2].raw ++ ' ' :: found[3].raw)) := by
      decide
    rw [htext]
    exact .cons (.inl rfl) (.cons (.inr rfl) (.cons (.inl rfl) (.last _)))
  obtain ⟨front, marker, hsplit, -, -, -, hagain⟩ := tokenize_of_spaced htokens
  have hfound : found = front := (List.append_inj' hsplit rfl).1
  rw [← hfound] at hagain
  exact ⟨htokens, hspaced, hagain _ none hspaced⟩

end BraceLang
