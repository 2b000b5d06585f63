import BraceLang.Proofs.Lexer.Lookahead

/-! # Blanking — the characters without a token might as well be spaces

    `Blanked` says place by place which text has a space for each character
    that the scan of another drops, line feeds apart; `blanked` makes it.  The
    scan then reads the same segments, with spaces among them
    (`readAll_blanked`): a space is dropped as well, and it ends the word or the
    numeral in front of it as the dropped character did (`stopsAlike_blanked`).
    So the tokens and the fault are the same, each where it was
    (`tokenize_of_blanked`). -/

namespace BraceLang

open Segment

/-- A space for a character that is dropped, unless it ends its line. -/
def Segment.blank : Segment → Segment
  | dropped c => dropped (if c = '\n' then c else ' ')
  | s => s

/-- The text with a space for each character that its scan drops, up to where
    the text breaks off; line feeds stay. -/
def blanked : List Char → List Char
  | [] => []
  | c :: text =>
      match _h : read c text with
      | .error _ => c :: text
      | .ok (s, rest) => s.blank.raw ++ blanked rest
termination_by text => text.length
decreasing_by exact length_lt_of_read _h

/-- The scan of the text comes to the offset and drops the character there. -/
inductive Drops : List Char → Nat → Prop where
  | here {c : Char} {text : List Char} (h : read c text = .ok (.dropped c, text)) :
      Drops (c :: text) 0
  | behind {c : Char} {text rest : List Char} {s : Segment} {i : Nat}
      (h : read c text = .ok (s, rest)) (hi : Drops rest i) : Drops (c :: text) (s.raw.length + i)

/-- The second text is the first with a space for each dropped character that
    is no line feed. -/
structure Blanked (text other : List Char) : Prop where
  dropped : ∀ i, Drops text i → text[i]? ≠ some '\n' → other[i]? = some ' '
  kept : ∀ i, ¬ Drops text i ∨ text[i]? = some '\n' → other[i]? = text[i]?

/-! ## The recursion -/

theorem blanked_of_error {c : Char} {text : List Char} {m : Malformed}
    (h : read c text = .error m) : blanked (c :: text) = c :: text := by
  rw [blanked]
  split
  next => rfl
  next s rest h' =>
      rw [h] at h'
      cases h'

theorem blanked_of_ok {c : Char} {text rest : List Char} {s : Segment}
    (h : read c text = .ok (s, rest)) : blanked (c :: text) = s.blank.raw ++ blanked rest := by
  rw [blanked]
  split
  next m h' =>
      rw [h] at h'
      cases h'
  next s' rest' h' =>
      rw [h] at h'
      cases h'
      rfl

/-! ## Segments with blanks among them -/

namespace Segment

/-- A dropped character is the first of its text, and what it leaves is the
    rest. -/
theorem eq_of_read_dropped {c d : Char} {text rest : List Char}
    (h : read c text = .ok (dropped d, rest)) : d = c ∧ rest = text ∧ Droppable c := by
  have happ := raw_append_of_read h
  have htoken : (dropped d).token? ⟨.first, none⟩ = none := rfl
  obtain ⟨hraw, hc⟩ := droppable_of_read h htoken
  obtain ⟨rfl, rfl⟩ := List.cons.inj happ
  exact ⟨rfl, rfl, hc⟩

theorem blank_of_raw_ne {s : Segment} (h : ∀ c, s ≠ dropped c) : s.blank = s := by
  cases s with
  | dropped c => exact absurd rfl (h c)
  | _ => rfl

theorem token?_blank (s : Segment) (l : Location) : s.blank.token? l = s.token? l := by
  cases s <;> rfl

theorem length_raw_blank (s : Segment) : s.blank.raw.length = s.raw.length := by
  cases s <;> rfl

/-- A blank takes one column like every other character, and a line feed stays. -/
theorem after_raw_blank (s : Segment) (p : Position) : p.after s.blank.raw = p.after s.raw := by
  cases s with
  | dropped c =>
      show p.next (if c = '\n' then c else ' ') = p.next c
      by_cases hc : c = '\n'
      · rw [if_pos hc]
      · rw [if_neg hc, Position.next, Position.next, if_neg hc]
        rfl
  | _ => rfl

theorem place_map_blank (filename : Option String) (p : Position) (segments : List Segment) :
    place filename p (segments.map blank) = place filename p segments := by
  induction segments generalizing p with
  | nil => rfl
  | cons s segments ih => rw [List.map_cons, place, place, token?_blank, after_raw_blank, ih]

theorem positionAfter_map_blank (p : Position) (segments : List Segment) :
    positionAfter p (segments.map blank) = positionAfter p segments := by
  induction segments generalizing p with
  | nil => rfl
  | cons s segments ih =>
      rw [List.map_cons, positionAfter_cons, positionAfter_cons, after_raw_blank, ih]

end Segment

theorem droppable_blank {c : Char} (h : Droppable c) :
    Droppable (if c = '\n' then c else ' ') := by
  split
  next => exact h
  next => exact .inl (by decide)

/-- A text and the same with blanks begin with the same character, or the latter
    with a blank. -/
theorem stopsAlike_blanked (text : List Char) : StopsAlike text (blanked text) := by
  cases text with
  | nil =>
      rw [blanked]
      exact fun d hd => nomatch hd
  | cons c text =>
      cases hread : read c text with
      | error m =>
          rw [blanked_of_error hread]
          exact .refl _
      | ok answer =>
          obtain ⟨s, rest⟩ := answer
          rw [blanked_of_ok hread]
          cases s with
          | dropped d =>
              obtain ⟨rfl, rfl, -⟩ := eq_of_read_dropped hread
              rintro _ ⟨⟩
              by_cases hd : d = '\n'
              · rw [if_pos hd]
                exact .inl rfl
              · rw [if_neg hd]
                exact .inr (by decide)
          | _ =>
              obtain ⟨more, hraw, -⟩ := read_of_stopsAlike hread (.refl rest)
              rw [blank_of_raw_ne (by rintro _ ⟨⟩), hraw]
              exact fun _ hd => .inl hd

/-- A segment is read where it was, or a blank for it. -/
theorem Segment.readAll_blank_append {c : Char} {text rest : List Char} {s : Segment}
    (h : read c text = .ok (s, rest)) :
    readAll (s.blank.raw ++ blanked rest)
      = (s.blank :: (readAll (blanked rest)).1, (readAll (blanked rest)).2) := by
  by_cases hdropped : ∃ d, s = dropped d
  · obtain ⟨d, rfl⟩ := hdropped
    obtain ⟨rfl, rfl, hd⟩ := eq_of_read_dropped h
    exact readAll_of_ok (read_of_droppable (droppable_blank hd) (blanked rest))
  · rw [blank_of_raw_ne fun d hd => hdropped ⟨d, hd⟩]
    obtain ⟨more, hraw, hread⟩ := read_of_stopsAlike h (stopsAlike_blanked rest)
    rw [hraw]
    exact readAll_of_ok hread

/-- The scan of a text with blanks reads the same segments, blanks among them,
    and breaks off where the scan of the text did. -/
theorem readAll_blanked (text : List Char) :
    readAll (blanked text) = ((readAll text).1.map blank, (readAll text).2) := by
  fun_induction readAll text with
  | case1 => rw [blanked, readAll_nil]; rfl
  | case2 c text m hread => rw [blanked_of_error hread, readAll_of_error hread]; rfl
  | case3 c text s rest hread ih =>
      rw [blanked_of_ok hread, readAll_blank_append hread, ih]
      rfl

/-! ## Place by place -/

/-- Behind a segment stands the text that it leaves. -/
theorem Segment.getElem?_behind_read {c : Char} {text rest : List Char} {s : Segment}
    (h : read c text = .ok (s, rest)) (i : Nat) : (c :: text)[s.raw.length + i]? = rest[i]? := by
  rw [← raw_append_of_read h, List.getElem?_append_right (Nat.le_add_right _ _),
    Nat.add_sub_cancel_left]

/-- The scan drops a character that is there, and that begins no token. -/
theorem Drops.exists_droppable {text : List Char} {i : Nat} (h : Drops text i) :
    ∃ c, text[i]? = some c ∧ Droppable c := by
  induction h with
  | @here c text h => exact ⟨c, rfl, (eq_of_read_dropped h).2.2⟩
  | @behind c text rest s i h hi ih =>
      rw [getElem?_behind_read h]
      exact ih

theorem not_drops_of_error {c : Char} {text : List Char} {m : Malformed}
    (h : read c text = .error m) (i : Nat) : ¬ Drops (c :: text) i := by
  intro hi
  cases hi with
  | here h' =>
      rw [h] at h'
      cases h'
  | behind h' hi =>
      rw [h] at h'
      cases h'

/-- Inside a segment only the character that it drops is dropped, and behind the
    segment those of the rest. -/
theorem drops_iff_of_ok {c : Char} {text rest : List Char} {s : Segment}
    (h : read c text = .ok (s, rest)) (i : Nat) :
    Drops (c :: text) i
      ↔ i = 0 ∧ s = .dropped c ∨ ∃ j, i = s.raw.length + j ∧ Drops rest j := by
  constructor
  · intro hi
    cases hi with
    | here h' =>
        rw [h] at h'
        cases h'
        exact .inl ⟨rfl, rfl⟩
    | behind h' hj =>
        rw [h] at h'
        cases h'
        exact .inr ⟨_, rfl, hj⟩
  · rintro (⟨rfl, rfl⟩ | ⟨j, rfl, hj⟩)
    · obtain ⟨-, rfl, -⟩ := eq_of_read_dropped h
      exact .here h
    · exact .behind h hj

/-- A segment and its blank have the same characters, but for a dropped one that
    is no line feed. -/
theorem Segment.getElem?_raw_blank {s : Segment} {i : Nat} (hi : i < s.raw.length)
    (hdropped : ∀ d, s = dropped d → s.raw[i]? = some '\n') :
    s.blank.raw[i]? = s.raw[i]? := by
  cases s with
  | dropped d =>
      have hd := hdropped d rfl
      obtain rfl : i = 0 := Nat.lt_one_iff.mp hi
      obtain rfl : d = '\n' := Option.some.inj hd
      rfl
  | _ => rfl

/-- A segment, or a blank for it, in front of a text with blanks. -/
theorem Blanked.of_read {c : Char} {text rest other : List Char} {s : Segment}
    (h : read c text = .ok (s, rest)) (hrest : Blanked rest other) :
    Blanked (c :: text) (s.blank.raw ++ other) := by
  have hother : ∀ j, (s.blank.raw ++ other)[s.raw.length + j]? = other[j]? := by
    intro j
    rw [← length_raw_blank, List.getElem?_append_right (Nat.le_add_right _ _),
      Nat.add_sub_cancel_left]
  constructor
  · intro i hi hfeed
    rcases (drops_iff_of_ok h i).mp hi with ⟨rfl, rfl⟩ | ⟨j, rfl, hj⟩
    · have hc : c ≠ '\n' := fun heq => hfeed (congrArg some heq)
      show some (if c = '\n' then c else ' ') = some ' '
      rw [if_neg hc]
    · rw [getElem?_behind_read h] at hfeed
      rw [hother]
      exact hrest.dropped j hj hfeed
  · intro i hi
    by_cases hlt : i < s.raw.length
    · have hinside : (c :: text)[i]? = s.raw[i]? := by
        rw [← raw_append_of_read h, List.getElem?_append_left hlt]
      rw [hinside, List.getElem?_append_left (by rw [length_raw_blank]; exact hlt)]
      refine getElem?_raw_blank hlt ?_
      rintro d rfl
      obtain ⟨rfl, -, -⟩ := eq_of_read_dropped h
      obtain rfl : i = 0 := Nat.lt_one_iff.mp hlt
      -- the character is dropped, so it is a line feed
      rcases hi with hnot | hfeed
      · exact absurd ((drops_iff_of_ok h 0).mpr (.inl ⟨rfl, rfl⟩)) hnot
      · exact hfeed
    · obtain ⟨j, rfl⟩ := Nat.exists_eq_add_of_le (Nat.le_of_not_lt hlt)
      rw [getElem?_behind_read h] at hi ⊢
      rw [hother]
      refine hrest.kept j (hi.imp_left ?_)
      exact fun hnot hj => hnot (.behind h hj)

theorem blanked_blanked (text : List Char) : Blanked text (blanked text) := by
  fun_induction blanked text with
  | case1 => exact ⟨fun i hi => (nomatch hi), fun i _ => rfl⟩
  | case2 c text m hread =>
      exact ⟨fun i hi => absurd hi (not_drops_of_error hread i), fun i _ => rfl⟩
  | case3 c text s rest hread ih => exact ih.of_read hread

/-- The places of a text leave no choice. -/
theorem Blanked.eq_blanked {text other : List Char} (h : Blanked text other) :
    other = blanked text := by
  have hblanked := blanked_blanked text
  refine List.ext_getElem? fun i => ?_
  by_cases hi : Drops text i ∧ text[i]? ≠ some '\n'
  · rw [h.dropped i hi.1 hi.2, hblanked.dropped i hi.1 hi.2]
  · have hkept : ¬ Drops text i ∨ text[i]? = some '\n' :=
      (not_and_or.mp hi).imp_right not_not.mp
    rw [h.kept i hkept, hblanked.kept i hkept]

/-- The dropped characters are blanks already, for the tokens and the fault. -/
theorem tokenize_blanked (source : String) (filename : Option String) :
    tokenize (String.ofList (blanked source.toList)) filename = tokenize source filename := by
  have hblanked := readAll_blanked source.toList
  rw [← String.toList_ofList (l := blanked source.toList)] at hblanked
  cases hall : readAll source.toList with
  | mk segments halted =>
  rw [hall] at hblanked
  cases halted with
  | none =>
      rw [tokenize_of_readAll filename hblanked, tokenize_of_readAll filename hall,
        place_map_blank]
  | some m =>
      rw [tokenize_of_readAll_malformed filename hblanked,
        tokenize_of_readAll_malformed filename hall, positionAfter_map_blank]

/-- **Blanking.**  For every source there is the text with a space in the place
    of each character that the scan drops, line feeds apart.  What is dropped
    begins no token, and the text has the same tokens in the same places, or the
    same fault. -/
theorem tokenize_of_blanked (source : String) (filename : Option String) :
    (∃ other : String, Blanked source.toList other.toList)
      ∧ (∀ i, Drops source.toList i → ∃ c, source.toList[i]? = some c ∧ Droppable c)
      ∧ ∀ other : String, Blanked source.toList other.toList →
        tokenize other filename = tokenize source filename := by
  refine ⟨⟨String.ofList (blanked source.toList), ?_⟩, fun i hi => hi.exists_droppable, ?_⟩
  · rw [String.toList_ofList]
    exact blanked_blanked source.toList
  · intro other hother
    rw [← tokenize_blanked source filename, ← hother.eq_blanked, String.ofList_toList]

/-- A second point and a letter outside of ASCII end a numeral and a name, and
    the string keeps its semicolon; a broken numeral behind a sign without a
    token is reported in the same place. -/
theorem tokenize_of_blanked_point :
    (Blanked "1.2.3 é\nxéy;\";\"".toList "1.2 3  \nx y \";\"".toList
      ∧ tokenize "1.2 3  \nx y \";\"" none = tokenize "1.2.3 é\nxéy;\";\"" none)
    ∧ Blanked "@1e".toList " 1e".toList
    ∧ tokenize " 1e" none = tokenize "@1e" none := by
  have hnumerals : Blanked "1.2.3 é\nxéy;\";\"".toList "1.2 3  \nx y \";\"".toList := by
    have hblanked : blanked "1.2.3 é\nxéy;\";\"".toList = "1.2 3  \nx y \";\"".toList := by
      decide +kernel
    rw [← hblanked]
    exact blanked_blanked _
  have hbroken : Blanked "@1e".toList " 1e".toList := by
    have hblanked : blanked "@1e".toList = " 1e".toList := by decide +kernel
    rw [← hblanked]
    exact blanked_blanked _
  exact ⟨⟨hnumerals, (tokenize_of_blanked _ none).2.2 _ hnumerals⟩, hbroken,
    (tokenize_of_blanked _ none).2.2 _ hbroken⟩

end BraceLang
