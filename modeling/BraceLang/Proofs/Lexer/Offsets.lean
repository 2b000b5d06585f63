import BraceLang.Proofs.Lexer.Segmentation
import BraceLang.Proofs.Text.Place
import Mathlib.Data.List.DropRight

/-! # Offsets — the tokens of a source by the characters in front of them

    The place of a token is counted while the source is read; here it is
    compared with the source itself.  Every token has an offset, the number of
    characters in front of it.  The source goes on there with the characters of
    the token, and its line and column are what the characters in front add up
    to.  The offsets increase, and so do the places (`exists_offsets_of_tokenize`). -/

namespace BraceLang

/-- The characters that a token has in a source: a string its quotes too, the
    end marker none, and every other token its text. -/
def Token.raw (t : Token) : List Char :=
  match t.kind with
  | .string => '"' :: (t.text.toList ++ ['"'])
  | .endOfInput => []
  | _ => t.text.toList

/-- The characters behind the last line feed of a text. -/
def Text.lastLine (text : List Char) : List Char :=
  text.rtakeWhile (· ≠ '\n')

/-- At the offset the text goes on with the characters of the token, and the
    place of the token is counted from what is in front of the offset. -/
structure Token.StandsAt (t : Token) (text : List Char) (offset : Nat) : Prop where
  continues : t.raw <+: text.drop offset
  line : t.location.position.line = 1 + (text.take offset).count '\n'
  column : t.location.position.column = 1 + (Text.lastLine (text.take offset)).length

/-- Further down, or on the same line further to the right. -/
def Position.Before (p q : Position) : Prop :=
  p.line < q.line ∨ p.line = q.line ∧ p.column < q.column

/-- Offsets for the tokens of a text, one each: each token stands at its
    offset, and its characters are over where the next token stands. -/
structure OffsetsIn (text : List Char) (placed : List (Token × Nat)) : Prop where
  stands : ∀ x ∈ placed, x.1.StandsAt text x.2
  increasing : placed.Pairwise fun x y => x.2 < y.2
  apart : placed.Pairwise fun x y => x.2 + x.1.raw.length ≤ y.2
  /-- The last token is the end marker, at the end of the text. -/
  ends : ∃ marker, placed.getLast? = some (marker, text.length) ∧ marker.kind = .endOfInput

/-! ## Places by the text in front of them -/

namespace Position

theorem after_first (text : List Char) :
    first.after text = ⟨1 + text.count '\n', 1 + (Text.lastLine text).length⟩ := by
  induction text using List.reverseRecOn with
  | nil => rfl
  | append_singleton text c ih =>
      rw [after_append, ih, after_cons, after_nil, next, List.count_append]
      by_cases hc : c = '\n'
      · subst hc
        have hlast : Text.lastLine (text ++ ['\n']) = [] :=
          List.rtakeWhile_concat_neg _ _ _ (by decide)
        rw [if_pos rfl, hlast]
        rfl
      · have hlast : Text.lastLine (text ++ [c]) = Text.lastLine text ++ [c] :=
          List.rtakeWhile_concat_pos _ _ _ (decide_eq_true hc)
        have hcount : [c].count '\n' = 0 :=
          List.count_eq_zero_of_not_mem fun hmem => hc (List.mem_singleton.mp hmem).symm
        rw [if_neg hc, hlast, List.length_append, hcount]
        rfl

theorem Before.trans {p q r : Position} (hpq : p.Before q) (hqr : q.Before r) : p.Before r := by
  unfold Before at *
  omega

theorem before_next (p : Position) (c : Char) : p.Before (p.next c) := by
  rw [next]
  split
  · exact .inl (Nat.lt_succ_self p.line)
  · exact .inr ⟨rfl, Nat.lt_succ_self p.column⟩

/-- Characters in between keep two places apart. -/
theorem before_after (p : Position) {text : List Char} (h : text ≠ []) :
    p.Before (p.after text) := by
  induction text generalizing p with
  | nil => exact absurd rfl h
  | cons c text ih =>
      rw [after_cons]
      by_cases htext : text = []
      · rw [htext, after_nil]
        exact p.before_next c
      · exact (p.before_next c).trans (ih (p.next c) htext)

end Position

namespace Token

variable {t u : Token} {text : List Char} {offset other : Nat}

theorem StandsAt.position (h : t.StandsAt text offset) :
    t.location.position = Position.first.after (text.take offset) := by
  rw [Position.after_first, ← h.line, ← h.column]

theorem standsAt_of_split {front back : List Char} (hraw : t.raw <+: back)
    (hposition : t.location.position = Position.first.after front) :
    t.StandsAt (front ++ back) front.length := by
  rw [Position.after_first] at hposition
  refine ⟨?_, ?_, ?_⟩
  · rwa [List.drop_left]
  · rw [List.take_left, hposition]
  · rw [List.take_left, hposition]

/-- Tokens at different offsets stand at different places, in the same order. -/
theorem StandsAt.before (ht : t.StandsAt text offset) (hu : u.StandsAt text other)
    (hlt : offset < other) (hle : other ≤ text.length) :
    t.location.position.Before u.location.position := by
  have hsplit : text.take other = text.take offset ++ (text.drop offset).take (other - offset) := by
    rw [← List.take_add, Nat.add_sub_cancel' (Nat.le_of_lt hlt)]
  rw [ht.position, hu.position, hsplit, Position.after_append]
  refine Position.before_after _ ?_
  rw [← List.length_pos_iff, List.length_take, List.length_drop]
  omega

end Token

/-! ## The characters of a token -/

theorem Token.raw_of_ne {t : Token} (hstring : t.kind ≠ .string) (hend : t.kind ≠ .endOfInput) :
    t.raw = t.text.toList := by
  rw [raw]
  split
  next hkind => exact absurd hkind hstring
  next hkind => exact absurd hkind hend
  next => rfl

/-- The characters of a lexeme are those of its token. -/
theorem Lexeme.raw_eq {t : Token} {raw rest : List Char} (h : Lexeme t raw rest) :
    t.raw = raw := by
  have hend : t.kind ≠ .endOfInput := fun hkind => h.not_isEnd (decide_eq_true hkind)
  cases h with
  | word htext _ _ _ hkind =>
      have hstring : t.kind ≠ .string := by
        intro hk
        simp [WordKind, keywords, hk] at hkind
      rw [Token.raw_of_ne hstring hend, htext, String.toList_ofList]
  | numeral htext hkind _ =>
      rw [Token.raw_of_ne (by rw [hkind]; decide) hend, htext, String.toList_ofList]
  | quoted htext hkind _ => simp only [Token.raw, hkind, htext, String.toList_ofList]
  | sign htext hkind =>
      have hstring : t.kind ≠ .string := by
        intro hk
        simp [signs, hk] at hkind
      rw [Token.raw_of_ne hstring hend, htext]
      exact String.toList_singleton _

/-! ## The offsets of segments -/

/-- One more token stands in front of the others. -/
theorem OffsetsIn.cons {t : Token} {text : List Char} {offset : Nat}
    {placed : List (Token × Nat)} (h : OffsetsIn text placed) (ht : t.StandsAt text offset)
    (hlt : ∀ x ∈ placed, offset < x.2) (hle : ∀ x ∈ placed, offset + t.raw.length ≤ x.2) :
    OffsetsIn text ((t, offset) :: placed) where
  stands := List.forall_mem_cons.mpr ⟨ht, h.stands⟩
  increasing := List.pairwise_cons.mpr ⟨hlt, h.increasing⟩
  apart := List.pairwise_cons.mpr ⟨hle, h.apart⟩
  ends := by
    obtain ⟨marker, hlast, hmarker⟩ := h.ends
    refine ⟨marker, ?_, hmarker⟩
    rw [List.getLast?_cons, hlast]
    rfl

namespace Segment

/-- By recursion on the segments, with the text that was read before them in
    `front`. -/
theorem exists_offsets_of_readAll (filename : Option String) (front : List Char)
    {text : List Char} {segments : List Segment} (h : readAll text = (segments, none)) :
    ∃ placed, placed.map Prod.fst = place filename (Position.first.after front) segments
      ∧ (∀ x ∈ placed, front.length ≤ x.2) ∧ OffsetsIn (front ++ text) placed := by
  fun_induction readAll text generalizing front segments with
  | case1 =>
      cases h
      let marker := Token.endMarker ⟨Position.first.after front, filename⟩
      have hstands : marker.StandsAt (front ++ []) front.length :=
        Token.standsAt_of_split List.nil_prefix rfl
      refine ⟨[(marker, front.length)], rfl, ?_, ?_⟩
      · exact List.forall_mem_singleton.mpr (Nat.le_refl _)
      · refine ⟨List.forall_mem_singleton.mpr hstands, List.pairwise_singleton _ _,
          List.pairwise_singleton _ _, marker, ?_, rfl⟩
        rw [List.append_nil]
        rfl
  | case2 c text m hread => cases h
  | case3 c text s rest hread ih =>
      obtain ⟨rfl, hnone⟩ := Prod.mk.inj h
      obtain ⟨placed, hplaced, hbehind, hoffsets⟩ := ih (front ++ s.raw) (Prod.ext rfl hnone)
      have hraw := raw_append_of_read hread
      rw [Position.after_append] at hplaced
      rw [List.append_assoc, hraw] at hoffsets
      rw [List.length_append] at hbehind
      have hpos := List.length_pos_iff.mpr (raw_ne_nil_of_read hread)
      cases ht : s.token? ⟨Position.first.after front, filename⟩ with
      | none =>
          refine ⟨placed, ?_, ?_, hoffsets⟩
          · rw [place, ht, hplaced]
            rfl
          · exact fun x hx => Nat.le_trans (Nat.le_add_right _ _) (hbehind x hx)
      | some t =>
          have htraw : t.raw = s.raw := (lexeme_of_read hread ht).raw_eq
          have hstands : t.StandsAt (front ++ c :: text) front.length := by
            refine Token.standsAt_of_split ?_ ?_
            · rw [htraw, ← hraw]
              exact List.prefix_append s.raw rest
            · rw [location_of_token? ht]
          refine ⟨(t, front.length) :: placed, ?_, ?_, ?_⟩
          · rw [place, ht, List.map_cons, hplaced]
            rfl
          · refine List.forall_mem_cons.mpr ⟨Nat.le_refl _, ?_⟩
            exact fun x hx => Nat.le_trans (Nat.le_add_right _ _) (hbehind x hx)
          · refine hoffsets.cons hstands ?_ ?_
            · intro x hx
              have hle := hbehind x hx
              omega
            · rw [htraw]
              exact hbehind

end Segment

/-- No token stands behind the end of the text. -/
theorem OffsetsIn.le_length {text : List Char} {placed : List (Token × Nat)}
    (h : OffsetsIn text placed) : ∀ x ∈ placed, x.2 ≤ text.length := by
  obtain ⟨marker, hlast, -⟩ := h.ends
  obtain ⟨init, rfl⟩ := List.getLast?_eq_some_iff.mp hlast
  intro x hx
  rcases List.mem_append.mp hx with hinit | hmarker
  · have hall := (List.pairwise_append.mp h.increasing).2.2
    exact Nat.le_of_lt (hall x hinit _ (List.mem_singleton.mpr rfl))
  · rw [List.mem_singleton.mp hmarker]

theorem OffsetsIn.before {text : List Char} {placed : List (Token × Nat)}
    (h : OffsetsIn text placed) :
    (placed.map Prod.fst).Pairwise fun t u => t.location.position.Before u.location.position := by
  rw [List.pairwise_map]
  refine h.increasing.imp_of_mem ?_
  intro x y hx hy hlt
  exact (h.stands x hx).before (h.stands y hy) hlt (h.le_length y hy)

/-- **Offsets.**  The tokens of a source stand at increasing offsets of it, the
    end marker at its end: each is where the source has the characters of the
    token, and the lines and columns are those of the offsets.  So from token to
    token the places increase. -/
theorem exists_offsets_of_tokenize {source : String} {filename : Option String}
    {tokens : List Token} (h : tokenize source filename = .ok tokens) :
    ∃ placed, placed.map Prod.fst = tokens ∧ OffsetsIn source.toList placed
      ∧ tokens.Pairwise fun t u => t.location.position.Before u.location.position := by
  obtain ⟨segments, hall, rfl⟩ := tokenize_eq_ok_iff.mp h
  obtain ⟨placed, hplaced, -, hoffsets⟩ :=
    Segment.exists_offsets_of_readAll filename [] hall
  refine ⟨placed, hplaced, hoffsets, ?_⟩
  have hbefore := hoffsets.before
  rwa [hplaced] at hbefore

/-- A string that goes over a line feed, and a word on its second line. -/
theorem exists_offsets_of_tokenize_second_line :
    let tokens : List Token :=
      [⟨.string, "\n", ⟨⟨1, 1⟩, none⟩⟩, ⟨.identifier, "x", ⟨⟨2, 3⟩, none⟩⟩,
        .endMarker ⟨⟨2, 4⟩, none⟩]
    tokenize "\"\n\" x" none = .ok tokens
      ∧ ∃ placed, placed.map Prod.fst = tokens ∧ OffsetsIn "\"\n\" x".toList placed
        ∧ tokens.Pairwise fun t u => t.location.position.Before u.location.position := by
  intro tokens
  have htokens : tokenize "\"\n\" x" none = .ok tokens := by
    cbv
  exact ⟨htokens, exists_offsets_of_tokenize htokens⟩

end BraceLang
