import BraceLang.Proofs.Lexer.BreakOff
import BraceLang.Proofs.Lexer.Concatenation
import BraceLang.Proofs.Parser.Blame
import BraceLang.Proofs.Source.Beginning

/-! # Places of faults — what stands in a source where a fault shows

    The position of a fault is counted from the beginning of the source to a
    place in it.  There stands what the fault is about: a quote that nothing
    closes, the text behind a broken numeral, the token that does not fit, or
    the end of the source (`exists_place`). -/

namespace BraceLang

/-- The faults of a source: the one that keeps it from being tokenized, or those
    that are recorded when it is read as a program. -/
def FaultOf (source : String) (filename : Option String) (fault : Fault) : Prop :=
  tokenize source filename = .error fault
    ∨ ∃ p, Parser.ofSource source filename = .ok p ∧ fault ∈ p.parseProgram.2.diagnostics

/-- What a fault is about stands between `front` and `back`, where it shows. -/
inductive Fault.ShowsAt : Fault → List Char → List Char → Prop where
  /-- The last quote of the source. -/
  | unclosed {location : Location} {front more : List Char} (h : '"' ∉ more) :
      ShowsAt (.lexical .unterminatedString location) front ('"' :: more)
  /-- The place behind what was read of a numeral. -/
  | broken {cause : LexicalFault} {location : Location} {front raw back : List Char}
      (h : Numeral.Broken cause raw back) :
      ShowsAt (.lexical cause location) (front ++ raw) back
  /-- The lexeme of the token that is blamed. -/
  | lexeme {fault : Fault} {t : Token} {front raw rest : List Char} (h : fault.Blames t)
      (ht : Lexeme t raw rest) : ShowsAt fault front (raw ++ rest)
  /-- The end of the source. -/
  | marker {fault : Fault} {t : Token} {front : List Char} (h : fault.Blames t) (ht : t.isEnd) :
      ShowsAt fault front []

/-- The fault shows in the source between `front` and `back`, and its position
    is that place. -/
structure Fault.Placed (fault : Fault) (source : String) (filename : Option String)
    (front back : List Char) : Prop where
  split : source.toList = front ++ back
  location : fault.location? = some ⟨Position.first.after front, filename⟩
  shows : fault.ShowsAt front back

namespace Segment

/-- A token in place is the end marker, or that of a segment behind the others
    in front of it. -/
theorem mem_place {filename : Option String} {p : Position} {segments : List Segment} {t : Token}
    (h : t ∈ place filename p segments) :
    (∃ front s back, segments = front ++ s :: back
        ∧ s.token? ⟨positionAfter p front, filename⟩ = some t)
      ∨ t = .endMarker ⟨positionAfter p segments, filename⟩ := by
  induction segments generalizing p with
  | nil => exact .inr (List.mem_singleton.mp h)
  | cons s segments ih =>
      rw [positionAfter_cons]
      rcases List.mem_append.mp h with hhead | hrest
      · exact .inl ⟨[], s, segments, rfl, Option.mem_toList.mp hhead⟩
      · refine (ih hrest).imp_left ?_
        rintro ⟨front, s', back, rfl, ht⟩
        refine ⟨s :: front, s', back, rfl, ?_⟩
        rw [positionAfter_cons]
        exact ht

/-- A token of a source stands where its lexeme begins, or at the end. -/
theorem exists_lexeme_of_mem_place {filename : Option String} {text : List Char}
    {segments : List Segment} (hall : readAll text = (segments, none)) {t : Token}
    (ht : t ∈ place filename .first segments) :
    ∃ front back, text = front ++ back ∧ t.location = ⟨Position.first.after front, filename⟩
      ∧ ((∃ raw rest, back = raw ++ rest ∧ Lexeme t raw rest) ∨ back = [] ∧ t.isEnd) := by
  rcases mem_place ht with ⟨before, s, behind, rfl, htoken⟩ | rfl
  · obtain ⟨back, htext, hback⟩ := exists_readAll hall
    obtain ⟨c, more, rest, rfl, hread⟩ := read_of_readAll_cons hback
    refine ⟨before.flatMap raw, c :: more, htext, location_of_token? htoken, .inl ?_⟩
    exact ⟨s.raw, rest, (raw_append_of_read hread).symm, lexeme_of_read hread htoken⟩
  · refine ⟨text, [], (List.append_nil text).symm, ?_, .inr ⟨rfl, rfl⟩⟩
    rw [← flatMap_raw_of_readAll hall]
    rfl

end Segment

/-! ## The place -/

open Segment

/-- Where a source cannot be tokenized, it breaks off at the place of the fault. -/
theorem exists_place_of_tokenize {source : String} {filename : Option String} {fault : Fault}
    (h : tokenize source filename = .error fault) :
    ∃ front back, fault.Placed source filename front back := by
  obtain ⟨segments, m, hall, rfl⟩ := tokenize_eq_error_iff.mp h
  obtain ⟨c, more, hsource, hread⟩ := exists_read_error_of_readAll hall
  rcases read_error hread with ⟨rfl, hmore, rfl⟩ | ⟨back, hback, hbroken⟩
  · exact ⟨segments.flatMap raw, '"' :: more, hsource, rfl, .unclosed hmore⟩
  · refine ⟨segments.flatMap raw ++ m.read, back, ?_, ?_, .broken hbroken⟩
    · rw [hsource, hback, List.append_assoc]
    · rw [Position.after_append, ← positionAfter, ← Lexer.faultPosition_of_broken hbroken]
      rfl

/-- Where a program is misread, the fault shows at one of the tokens. -/
theorem exists_place_of_program {source : String} {filename : Option String} {fault : Fault}
    {p : Parser} (hp : Parser.ofSource source filename = .ok p)
    (h : fault ∈ p.parseProgram.2.diagnostics) :
    ∃ front back, fault.Placed source filename front back := by
  obtain ⟨tokens, htokens, hbegins⟩ := Parser.exists_tokenize_of_ofSource hp
  obtain ⟨t, ht, hblames⟩ := hbegins.exists_blames (.call .parseProgram .refl) h
  obtain ⟨segments, hall, rfl⟩ := tokenize_eq_ok_iff.mp htokens
  obtain ⟨front, back, hsource, hlocation, hback⟩ := exists_lexeme_of_mem_place hall ht
  refine ⟨front, back, hsource, ?_, ?_⟩
  · rw [hblames.location?, hlocation]
  · rcases hback with ⟨raw, rest, rfl, hlexeme⟩ | ⟨rfl, hend⟩
    · exact .lexeme hblames hlexeme
    · exact .marker hblames hend

/-- **Places.**  Every fault of a source shows at a place of it, which is the one
    that its position names. -/
theorem exists_place {source : String} {filename : Option String} {fault : Fault}
    (h : FaultOf source filename fault) :
    ∃ front back, fault.Placed source filename front back := by
  rcases h with htokenize | ⟨p, hp, hfault⟩
  · exact exists_place_of_tokenize htokenize
  · exact exists_place_of_program hp hfault

/-- A source with a fault is not empty. -/
theorem FaultOf.ne_nil {source : String} {filename : Option String} {fault : Fault}
    (h : FaultOf source filename fault) : source.toList ≠ [] := by
  intro hnil
  have hall : readAll source.toList = ([], none) := by rw [hnil, readAll_nil]
  have htokens : tokenize source filename = .ok [.endMarker ⟨.first, filename⟩] :=
    tokenize_of_readAll filename hall
  rcases h with htokenize | ⟨p, hp, hfault⟩
  · rw [htokens] at htokenize
    cases htokenize
  · rw [Parser.ofSource, htokens] at hp
    cases hp
    -- the stream of the end marker alone is at its end
    have hprogram : Grammar.program ⟨[], .endMarker ⟨.first, filename⟩, []⟩ = ⟨[], [], _⟩ :=
      Grammar.program_of_atEnd rfl
    have hnone : fault ∈ (Grammar.program ⟨[], .endMarker ⟨.first, filename⟩, []⟩).faults := hfault
    rw [hprogram] at hnone
    exact absurd hnone List.not_mem_nil

/-- A lexeme begins with no line feed. -/
theorem Lexeme.head?_ne_feed {t : Token} {raw rest : List Char} (h : Lexeme t raw rest) :
    (raw ++ rest).head? ≠ some '\n' := by
  intro hhead
  cases h with
  | word htext hstart hpart hstop hkind =>
      cases hhead
      exact absurd hstart (by decide)
  | numeral htext hkind hlongest => exact absurd (hlongest.head?_isDigit _ hhead) (by decide)
  | quoted htext hkind hquote => cases hhead
  | sign htext hkind =>
      cases hhead
      simp [signs] at hkind

/-- No fault shows between a carriage return and its line feed. -/
theorem Fault.ShowsAt.not_cut {fault : Fault} {front back : List Char}
    (h : fault.ShowsAt front back) :
    ¬ (front.getLast? = some '\r' ∧ back.head? = some '\n') := by
  rintro ⟨hlast, hhead⟩
  cases h with
  | unclosed h => cases hhead
  | broken h => exact h.getLast?_ne_return _ hlast
  | lexeme h ht => exact ht.head?_ne_feed hhead
  | marker h ht => cases hhead

end BraceLang
