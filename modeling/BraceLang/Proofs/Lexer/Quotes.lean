import BraceLang.Proofs.Lexer.BreakOff
import BraceLang.Proofs.Lexer.Spelling
import Mathlib.Algebra.Ring.Parity

/-! # Quotes — a source cut at all its quotes

    A quote means the same wherever it stands: the first one opens a string, the
    next one closes it, and so on in turn.  So the pieces of a source between its
    quotes are in turn outside of strings and strings.  Each piece outside is
    tokenized as it is by itself, and what keeps a source from being tokenized is
    the first of them that cannot be, or a last quote without a partner
    (`cutAtQuotes`). -/

namespace BraceLang

/-- The pieces of a source between its quotes, one more than there are quotes. -/
def quotePieces (source : String) : List String :=
  (source.toList.splitOn '"').map String.ofList

/-- Some pieces with the quote behind each. -/
def quotedText (pieces : List String) : List Char :=
  pieces.flatMap fun piece => piece.toList ++ ['"']

/-- The source can be cut into tokens. -/
def HasTokens (source : String) (filename : Option String) : Prop :=
  ∃ tokens, tokenize source filename = .ok tokens

/-- The kinds and texts of the tokens of a source in front of its end marker. -/
def facesOf (filename : Option String) (source : String) : List (TokenKind × String) :=
  match tokenize source filename with
  | .ok tokens => tokens.dropLast.map Token.face
  | .error _ => []

/-- What two readings make of some texts that are read by the one and by the other
    in turn. -/
def inTurn {α β : Type} (f g : α → List β) : List α → List β
  | [] => []
  | a :: rest => f a ++ inTurn g f rest

/-- What the quotes of a source make of it.  The pieces with an even number in
    front of them are outside of strings. -/
structure CutAtQuotes (source : String) (filename : Option String) : Prop where
  /-- A source has tokens exactly if no quote is left over and each piece outside
      of strings has tokens. -/
  hasTokens_iff : HasTokens source filename
    ↔ Odd (quotePieces source).length
      ∧ ∀ i piece, (quotePieces source)[2 * i]? = some piece → HasTokens piece filename
  /-- The tokens are those of the pieces outside, with one string for each piece
      between them. -/
  faces : ∀ tokens, tokenize source filename = .ok tokens →
    ∃ found marker, tokens = found ++ [marker] ∧ marker.kind = .endOfInput
      ∧ found.map Token.face
        = inTurn (facesOf filename) (fun piece => [(.string, piece)]) (quotePieces source)
  /-- The first piece outside that has no tokens decides on the fault, at the place
      where the piece begins. -/
  broken : ∀ i piece fault, (quotePieces source)[2 * i]? = some piece →
    (∀ j < i, ∀ other, (quotePieces source)[2 * j]? = some other → HasTokens other filename) →
    tokenize piece filename = .error fault →
    tokenize source filename
      = .error (fault.behind (Position.first.after
        (quotedText ((quotePieces source).take (2 * i)))))
  /-- If there is none, a last quote without a partner does. -/
  unclosed : Even (quotePieces source).length →
    (∀ i piece, (quotePieces source)[2 * i]? = some piece → HasTokens piece filename) →
    ∃ front more, source.toList = front ++ '"' :: more ∧ '"' ∉ more
      ∧ tokenize source filename
        = .error (.lexical .unterminatedString ⟨Position.first.after front, filename⟩)

/-! ## The pieces -/

theorem not_mem_of_mem_splitOn {text part : List Char} (h : part ∈ text.splitOn '"') :
    '"' ∉ part := by
  induction text generalizing part with
  | nil =>
      rw [List.splitOn_nil, List.mem_singleton] at h
      rw [h]
      exact List.not_mem_nil
  | cons c text ih =>
      rw [List.splitOn_cons_eq_if_modifyHead] at h
      split at h
      next =>
          rcases List.mem_cons.mp h with rfl | htail
          · exact List.not_mem_nil
          · exact ih htail
      next hc =>
          have hne : c ≠ '"' := by simpa using hc
          cases hsplit : text.splitOn '"' with
          | nil => exact absurd hsplit (List.splitOn_ne_nil '"' text)
          | cons first others =>
              rw [hsplit] at h ih
              rcases List.mem_cons.mp h with rfl | htail
              · intro hmem
                rcases List.mem_cons.mp hmem with heq | hfirst
                · exact hne heq.symm
                · exact ih List.mem_cons_self hfirst
              · exact ih (List.mem_cons_of_mem first htail)

/-- No piece has a quote. -/
theorem not_mem_of_mem_quotePieces {source piece : String} (h : piece ∈ quotePieces source) :
    '"' ∉ piece.toList := by
  obtain ⟨part, hpart, rfl⟩ := List.mem_map.mp h
  rw [String.toList_ofList]
  exact not_mem_of_mem_splitOn hpart

theorem quotePieces_ne_nil (source : String) : quotePieces source ≠ [] := by
  rw [quotePieces, ne_eq, List.map_eq_nil_iff]
  exact List.splitOn_ne_nil '"' source.toList

theorem intercalate_eq_quotedText (front back : List String) (piece : String) :
    ['"'].intercalate ((front ++ piece :: back).map String.toList)
      = quotedText front ++ (piece.toList ++ back.flatMap fun other => '"' :: other.toList) := by
  induction front generalizing piece back with
  | nil =>
      induction back generalizing piece with
      | nil => simp [quotedText]
      | cons next back ih =>
          rw [List.nil_append, List.map_cons, List.map_cons, List.intercalate_cons_cons,
            ← List.map_cons, ← List.nil_append (next :: back), ih]
          simp [quotedText]
  | cons first front ih =>
      rw [List.cons_append, List.map_cons]
      cases hrest : (front ++ piece :: back).map String.toList with
      | nil => simp at hrest
      | cons next others =>
          rw [List.intercalate_cons_cons, ← hrest, ih]
          simp [quotedText]

/-- A source is the pieces in front of one of them, with their quotes, that
    piece, and the quotes and pieces behind it. -/
theorem toList_of_quotePieces {source piece : String} {front back : List String}
    (h : quotePieces source = front ++ piece :: back) :
    source.toList = quotedText front
      ++ (piece.toList ++ back.flatMap fun other => '"' :: other.toList) := by
  rw [← intercalate_eq_quotedText, ← h, quotePieces, List.map_map]
  have hid : (String.toList ∘ String.ofList) = id := funext fun _ => String.toList_ofList
  rw [hid, List.map_id, List.intercalate_splitOn]

example : quotePieces "a\"1e\"" = ["a", "1e", ""] := by decide

/-! ## Pairs of pieces -/

open Segment

/-- Pieces outside of strings and strings in turn, the last one a string: the
    segments that they are read as, with the quote behind each of them. -/
inductive Balanced : List String → List Segment → Prop where
  | nil : Balanced [] []
  | pair {outside inside : String} {rest : List String} {segments more : List Segment}
      (houtside : readAll outside.toList = (segments, none)) (hinside : '"' ∉ inside.toList)
      (hrest : Balanced rest more) :
      Balanced (outside :: inside :: rest) (segments ++ .quoted inside.toList :: more)

theorem quotedText_pair (outside inside : String) (rest : List String) (text : List Char) :
    quotedText (outside :: inside :: rest) ++ text
      = outside.toList ++ '"' :: (inside.toList ++ '"' :: (quotedText rest ++ text)) := by
  simp [quotedText]

theorem Balanced.flatMap_raw {front : List String} {segments : List Segment}
    (h : Balanced front segments) : segments.flatMap raw = quotedText front := by
  induction h with
  | nil => rfl
  | @pair outside inside rest segments more houtside hinside hrest ih =>
      rw [List.flatMap_append, List.flatMap_cons, flatMap_raw_of_readAll houtside, ih]
      simp [quotedText, raw]

theorem separate_of_quote (text more : List Char) : Separate text ('"' :: more) := by
  refine .inr ?_
  rintro _ ⟨⟩
  decide

/-- Behind such pieces a text is read as it is by itself. -/
theorem Balanced.readAll_append {front : List String} {segments : List Segment}
    (h : Balanced front segments) (text : List Char) :
    readAll (quotedText front ++ text) = (segments ++ (readAll text).1, (readAll text).2) := by
  induction h with
  | nil => rfl
  | @pair outside inside rest segments more houtside hinside hrest ih =>
      rw [quotedText_pair, Segment.readAll_append houtside (separate_of_quote _ _),
        readAll_of_ok (read_append_of_quoted hinside _), ih, List.append_assoc]
      rfl

theorem hasTokens_iff_readAll {source : String} {filename : Option String} :
    HasTokens source filename ↔ ∃ segments, readAll source.toList = (segments, none) := by
  constructor
  · rintro ⟨tokens, htokens⟩
    obtain ⟨segments, hall, -⟩ := tokenize_eq_ok_iff.mp htokens
    exact ⟨segments, hall⟩
  · rintro ⟨segments, hall⟩
    exact ⟨_, tokenize_of_readAll filename hall⟩

/-- The first pieces are such pairs if those outside of strings have tokens. -/
theorem exists_balanced {filename : Option String} {pieces : List String} {n : Nat}
    (hlength : 2 * n ≤ pieces.length) (hquotes : ∀ piece ∈ pieces, '"' ∉ piece.toList)
    (htokens : ∀ j < n, ∀ piece, pieces[2 * j]? = some piece → HasTokens piece filename) :
    ∃ segments, Balanced (pieces.take (2 * n)) segments := by
  induction n generalizing pieces with
  | zero => exact ⟨[], .nil⟩
  | succ n ih =>
      match pieces, hlength with
      | outside :: inside :: rest, hlength =>
          obtain ⟨segments, hall⟩ :=
            hasTokens_iff_readAll.mp (htokens 0 (Nat.succ_pos n) outside rfl)
          have hinside := hquotes inside (List.mem_cons_of_mem _ List.mem_cons_self)
          have hrest : 2 * n ≤ rest.length := by
            rw [List.length_cons, List.length_cons] at hlength
            omega
          have hothers : ∀ piece ∈ rest, '"' ∉ piece.toList := fun piece hpiece =>
            hquotes piece (List.mem_cons_of_mem _ (List.mem_cons_of_mem _ hpiece))
          obtain ⟨more, hmore⟩ := ih hrest hothers fun j hj piece hpiece =>
            htokens (j + 1) (Nat.succ_lt_succ hj) piece hpiece
          exact ⟨_, .pair hall hinside hmore⟩

theorem facesOf_of_readAll {source : String} {segments : List Segment} (filename : Option String)
    (h : readAll source.toList = (segments, none)) : facesOf filename source = faces segments := by
  have hspells : Spells source.toList (faces segments) := ⟨segments, h, rfl⟩
  obtain ⟨found, marker, htokens, -, -, hfaces⟩ := hspells.tokenize filename
  rw [facesOf, htokens, ← hfaces]
  exact congrArg (List.map Token.face) List.dropLast_concat

theorem faces_quoted (text : String) : faces [quoted text.toList] = [(.string, text)] := by
  rw [← String.ofList_toList (s := text), String.toList_ofList]
  rfl

/-- The faces of such pairs come first. -/
theorem Balanced.inTurn_append (filename : Option String) {front : List String}
    {segments : List Segment} (h : Balanced front segments) (back : List String) :
    inTurn (facesOf filename) (fun piece => [(.string, piece)]) (front ++ back)
      = faces segments ++ inTurn (facesOf filename) (fun piece => [(.string, piece)]) back := by
  induction h with
  | nil => rfl
  | @pair outside inside rest segments more houtside hinside hrest ih =>
      rw [List.cons_append, List.cons_append, inTurn, inTurn, ih,
        facesOf_of_readAll filename houtside, ← faces_quoted, ← List.singleton_append (l := more),
        faces_append, faces_append, List.append_assoc, List.append_assoc]

/-! ## The three ways in which a source ends -/

/-- A text without a quote breaks off at a numeral only. -/
theorem cause_ne_of_not_mem {text : List Char} {segments : List Segment} {m : Malformed}
    (hquote : '"' ∉ text) (h : readAll text = (segments, some m)) :
    m.cause ≠ .unterminatedString := by
  obtain ⟨c, more, rfl, hread⟩ := exists_read_error_of_readAll h
  rcases read_error hread with ⟨rfl, -⟩ | ⟨back, -, hbroken⟩
  · exact absurd (List.mem_append_right _ List.mem_cons_self) hquote
  · exact hbroken.cause_ne

theorem closing_of_pieces (back : List String) :
    Closing (back.flatMap fun other => '"' :: other.toList) := by
  cases back with
  | nil => rintro _ ⟨⟩
  | cons other back =>
      rintro _ ⟨⟩
      decide

theorem tokenize_of_broken {source piece : String} {front back : List String}
    {filename : Option String} {segments : List Segment} {fault : Fault}
    (hpieces : quotePieces source = front ++ piece :: back) (hfront : Balanced front segments)
    (hfault : tokenize piece filename = .error fault) :
    tokenize source filename = .error (fault.behind (Position.first.after (quotedText front))) := by
  obtain ⟨more, m, hall, rfl⟩ := tokenize_eq_error_iff.mp hfault
  have hquote : '"' ∉ piece.toList :=
    not_mem_of_mem_quotePieces (hpieces ▸ List.mem_append_right front List.mem_cons_self)
  have hcause := cause_ne_of_not_mem hquote hall
  have hsource : readAll source.toList = (segments ++ more, some m) := by
    rw [toList_of_quotePieces hpieces, hfront.readAll_append,
      readAll_append_of_malformed hall hcause (closing_of_pieces back)]
  have hmore : (positionAfter .first more).line ≠ 0 ∧ (positionAfter .first more).column ≠ 0 :=
    Position.after_pos Position.first_pos _
  have horigin : positionAfter .first segments = Position.first.after (quotedText front) := by
    rw [positionAfter, hfront.flatMap_raw]
  rw [tokenize_of_readAll_malformed filename hsource, positionAfter_append, positionAfter_behind,
    Lexer.faultPosition_behind _ hmore, horigin]
  rfl

theorem tokenize_of_unclosed {source outside inside : String} {front : List String}
    {segments more : List Segment} (filename : Option String)
    (hpieces : quotePieces source = front ++ [outside, inside]) (hfront : Balanced front segments)
    (houtside : readAll outside.toList = (more, none)) :
    ∃ before behind, source.toList = before ++ '"' :: behind ∧ '"' ∉ behind
      ∧ tokenize source filename
        = .error (.lexical .unterminatedString ⟨Position.first.after before, filename⟩) := by
  have hquote : '"' ∉ inside.toList :=
    not_mem_of_mem_quotePieces (hpieces ▸ List.mem_append_right front (by simp))
  have hsplit : source.toList = (quotedText front ++ outside.toList) ++ '"' :: inside.toList := by
    rw [toList_of_quotePieces hpieces]
    simp
  have htail : readAll (outside.toList ++ '"' :: inside.toList)
      = (more, some ⟨.unterminatedString, '"' :: inside.toList⟩) := by
    rw [Segment.readAll_append houtside (separate_of_quote _ _),
      readAll_of_error (read_of_unclosed hquote), List.append_nil]
  have hsource : readAll source.toList
      = (segments ++ more, some ⟨.unterminatedString, '"' :: inside.toList⟩) := by
    rw [hsplit, List.append_assoc, hfront.readAll_append, htail]
  have hbefore : positionAfter .first (segments ++ more)
      = Position.first.after (quotedText front ++ outside.toList) := by
    rw [positionAfter, List.flatMap_append, hfront.flatMap_raw, flatMap_raw_of_readAll houtside]
  refine ⟨_, _, hsplit, hquote, ?_⟩
  rw [tokenize_of_readAll_malformed filename hsource, hbefore]
  rfl

theorem tokenize_of_closed {source piece : String} {front : List String}
    {segments more : List Segment} (filename : Option String)
    (hpieces : quotePieces source = front ++ [piece]) (hfront : Balanced front segments)
    (hpiece : readAll piece.toList = (more, none)) :
    ∃ found marker, tokenize source filename = .ok (found ++ [marker])
      ∧ marker.kind = .endOfInput
      ∧ found.map Token.face
        = inTurn (facesOf filename) (fun piece => [(.string, piece)]) (quotePieces source) := by
  have hspells : Spells source.toList (faces (segments ++ more)) := by
    refine ⟨segments ++ more, ?_, rfl⟩
    rw [toList_of_quotePieces hpieces, List.flatMap_nil, List.append_nil, hfront.readAll_append,
      hpiece]
  obtain ⟨found, marker, htokens, -, hmarker, hfaces⟩ := hspells.tokenize filename
  refine ⟨found, marker, htokens, of_decide_eq_true hmarker, ?_⟩
  rw [hfaces, hpieces, hfront.inTurn_append, inTurn, inTurn, List.append_nil,
    facesOf_of_readAll filename hpiece, faces_append]

/-! ## Which of the three it is -/

/-- The pieces in front of an even number, that piece, and those behind it. -/
theorem exists_balanced_front {source piece : String} {filename : Option String} {i : Nat}
    (hpiece : (quotePieces source)[2 * i]? = some piece)
    (htokens : ∀ j < i, ∀ other, (quotePieces source)[2 * j]? = some other →
      HasTokens other filename) :
    ∃ segments, Balanced ((quotePieces source).take (2 * i)) segments
      ∧ quotePieces source
        = (quotePieces source).take (2 * i) ++ piece :: (quotePieces source).drop (2 * i + 1) := by
  obtain ⟨hlt, hget⟩ := List.getElem?_eq_some_iff.mp hpiece
  obtain ⟨segments, hbalanced⟩ :=
    exists_balanced (Nat.le_of_lt hlt) (fun _ hmem => not_mem_of_mem_quotePieces hmem) htokens
  refine ⟨segments, hbalanced, ?_⟩
  rw [← hget, List.getElem_cons_drop, List.take_append_drop]

theorem exists_tokens_of_odd {source : String} {filename : Option String}
    (hodd : Odd (quotePieces source).length)
    (htokens : ∀ i piece, (quotePieces source)[2 * i]? = some piece → HasTokens piece filename) :
    ∃ found marker, tokenize source filename = .ok (found ++ [marker])
      ∧ marker.kind = .endOfInput
      ∧ found.map Token.face
        = inTurn (facesOf filename) (fun piece => [(.string, piece)]) (quotePieces source) := by
  obtain ⟨n, hn⟩ := hodd
  have hlt : 2 * n < (quotePieces source).length := by omega
  have hpiece := List.getElem?_eq_getElem hlt
  obtain ⟨segments, hbalanced, hpieces⟩ :=
    exists_balanced_front hpiece fun j _ other hother => htokens j other hother
  obtain ⟨more, hmore⟩ := hasTokens_iff_readAll.mp (htokens n _ hpiece)
  rw [List.drop_eq_nil_of_le (by omega)] at hpieces
  exact tokenize_of_closed filename hpieces hbalanced hmore

theorem tokenize_of_even {source : String} {filename : Option String}
    (heven : Even (quotePieces source).length)
    (htokens : ∀ i piece, (quotePieces source)[2 * i]? = some piece → HasTokens piece filename) :
    ∃ before behind, source.toList = before ++ '"' :: behind ∧ '"' ∉ behind
      ∧ tokenize source filename
        = .error (.lexical .unterminatedString ⟨Position.first.after before, filename⟩) := by
  have hpos := List.length_pos_iff.mpr (quotePieces_ne_nil source)
  obtain ⟨n, hn⟩ : ∃ n, (quotePieces source).length = 2 * n + 2 := by
    obtain ⟨m, hm⟩ := heven
    exact ⟨m - 1, by omega⟩
  have hlt : 2 * n < (quotePieces source).length := by omega
  have hlast : 2 * n + 1 < (quotePieces source).length := by omega
  have hpiece := List.getElem?_eq_getElem hlt
  obtain ⟨segments, hbalanced, hpieces⟩ :=
    exists_balanced_front hpiece fun j _ other hother => htokens j other hother
  obtain ⟨more, hmore⟩ := hasTokens_iff_readAll.mp (htokens n _ hpiece)
  rw [List.drop_eq_getElem_cons hlast, List.drop_eq_nil_of_le (by omega)] at hpieces
  exact tokenize_of_unclosed filename hpieces hbalanced hmore

theorem tokenize_of_first_broken {source piece : String} {filename : Option String} {i : Nat}
    {fault : Fault} (hpiece : (quotePieces source)[2 * i]? = some piece)
    (htokens : ∀ j < i, ∀ other, (quotePieces source)[2 * j]? = some other →
      HasTokens other filename)
    (hfault : tokenize piece filename = .error fault) :
    tokenize source filename
      = .error (fault.behind (Position.first.after
        (quotedText ((quotePieces source).take (2 * i))))) := by
  obtain ⟨segments, hbalanced, hpieces⟩ := exists_balanced_front hpiece htokens
  exact tokenize_of_broken hpieces hbalanced hfault

/-- The pieces outside of the strings of a source with tokens have tokens. -/
theorem HasTokens.piece {source piece : String} {filename : Option String} {i : Nat}
    (h : HasTokens source filename) (hpiece : (quotePieces source)[2 * i]? = some piece) :
    HasTokens piece filename := by
  induction i using Nat.strong_induction_on generalizing piece with
  | _ i ih =>
      cases hanswer : tokenize piece filename with
      | ok tokens => exact ⟨tokens, hanswer⟩
      | error fault =>
          -- the pieces in front have tokens, so this one would decide on the fault
          obtain ⟨tokens, htokens⟩ := h
          rw [tokenize_of_first_broken hpiece (fun j hj other hother => ih j hj hother) hanswer]
            at htokens
          cases htokens

theorem HasTokens.odd {source : String} {filename : Option String}
    (h : HasTokens source filename) : Odd (quotePieces source).length := by
  rw [← Nat.not_even_iff_odd]
  intro heven
  obtain ⟨before, behind, -, -, hfault⟩ := tokenize_of_even heven fun i piece => h.piece
  obtain ⟨tokens, htokens⟩ := h
  rw [hfault] at htokens
  cases htokens

/-- **Cut at the quotes.**  The strings of a source are every other piece between
    its quotes, and the pieces around them are tokenized as they are by
    themselves, up to the first that has no tokens. -/
theorem cutAtQuotes (source : String) (filename : Option String) :
    CutAtQuotes source filename where
  hasTokens_iff := by
    constructor
    · intro h
      exact ⟨h.odd, fun i piece => h.piece⟩
    · rintro ⟨hodd, hpieces⟩
      obtain ⟨found, marker, htokens, -⟩ := exists_tokens_of_odd hodd hpieces
      exact ⟨_, htokens⟩
  faces := by
    intro tokens htokens
    have h : HasTokens source filename := ⟨tokens, htokens⟩
    obtain ⟨found, marker, hanswer, hmarker, hfaces⟩ :=
      exists_tokens_of_odd h.odd fun i piece => h.piece
    rw [hanswer] at htokens
    cases htokens
    exact ⟨found, marker, rfl, hmarker, hfaces⟩
  broken := fun _ _ _ => tokenize_of_first_broken
  unclosed := tokenize_of_even

end BraceLang
