import BraceLang.Proofs.Grammar.Misread
import BraceLang.Proofs.Lexer.Offsets
import BraceLang.Proofs.Source.Beginning

/-! # Fault order — the faults of a source from the top to the bottom

    The tokens of a source stand at different places of it, in order, and each
    fault of a program shows at the token that broke its construct off.  So the
    order of the misreadings is that of their places: the faults come in the
    order of the source, and only a `return` that breaks off a declaration has
    a second one, at once and for itself (`inSourceOrder_of_tokenize`). -/

namespace BraceLang

open Grammar

/-- Misreadings in the order of the tokens that broke them off. -/
structure InSourceOrder (tokens : List Token) (row : List Misreading) : Prop where
  /-- Each fault shows at the token where its construct breaks off. -/
  shows : ∀ m ∈ row, tokens[m.stop.index]? = some m.stop.current
    ∧ m.fault.location? = some m.stop.current.location
  /-- The places never decrease. -/
  ordered : row.Pairwise fun m n =>
    m.stop.current.location.position.Before n.stop.current.location.position
      ∨ m.fault.location? = n.fault.location?
  /-- Two at one place follow each other at once, and the second one is about
      the `return` that broke off a declaration. -/
  repeated : ∀ i j m n, i < j → row[i]? = some m → row[j]? = some n →
    m.fault.location? = n.fault.location? → j = i + 1 ∧ m.Repeats n
  twice : ∀ location, row.countP (·.fault.location? = some location) ≤ 2

theorem Position.not_before_self (p : Position) : ¬ p.Before p := by
  unfold Before
  omega

theorem pairwise_before_of_tokenize {source : String} {filename : Option String}
    {tokens : List Token} (h : tokenize source filename = .ok tokens) :
    tokens.Pairwise fun t u => t.location.position.Before u.location.position := by
  obtain ⟨segments, hall, rfl⟩ := tokenize_eq_ok_iff.mp h
  obtain ⟨placed, hplaced, -, hoffsets⟩ := Segment.exists_offsets_of_readAll filename [] hall
  have hbefore := hoffsets.before
  rwa [hplaced] at hbefore

namespace Parser

variable {p : Parser} {tokens : List Token} {m n : Misreading}

/-- A misreading of the program breaks off at one of the tokens, and its fault
    shows there. -/
theorem Begins.shows (h : p.Begins tokens) (hm : m ∈ misreadings p.stream) :
    tokens[m.stop.index]? = some m.stop.current
      ∧ m.fault.location? = some m.stop.current.location := by
  have htokens : p.stream.tokens = tokens :=
    (TokenStream.tokens_eq_remaining h.passed).trans h.remaining
  obtain ⟨-, hreach, -⟩ := reaches_of_mem_attempts (start_mem_attempts hm)
  obtain ⟨taken, hpasses⟩ := hreach.exists_passes
  constructor
  · rw [← htokens, ← (hreach.trans m.reaches).tokens_eq]
    exact m.stop.getElem?_index
  · exact (m.blames (hpasses.marked h.marked_remaining)).location?

/-- Further to the right among the tokens is further down in the source. -/
theorem Begins.before (h : p.Begins tokens)
    (htokens : tokens.Pairwise fun t u => t.location.position.Before u.location.position)
    (hm : m ∈ misreadings p.stream) (hn : n ∈ misreadings p.stream)
    (hlt : m.stop.index < n.stop.index) :
    m.stop.current.location.position.Before n.stop.current.location.position := by
  obtain ⟨hi, hmget⟩ := List.getElem?_eq_some_iff.mp (h.shows hm).1
  obtain ⟨hj, hnget⟩ := List.getElem?_eq_some_iff.mp (h.shows hn).1
  have hbefore := List.pairwise_iff_getElem.mp htokens _ _ hi hj hlt
  rwa [hmget, hnget] at hbefore

/-- Faults at one place are those of constructs that break off at one token. -/
theorem Begins.index_eq (h : p.Begins tokens)
    (htokens : tokens.Pairwise fun t u => t.location.position.Before u.location.position)
    (hm : m ∈ misreadings p.stream) (hn : n ∈ misreadings p.stream)
    (hplace : m.fault.location? = n.fault.location?) : m.stop.index = n.stop.index := by
  rw [(h.shows hm).2, (h.shows hn).2] at hplace
  have hlocation := Option.some.inj hplace
  rcases Nat.lt_trichotomy m.stop.index n.stop.index with hlt | heq | hgt
  · have hbefore := h.before htokens hm hn hlt
    rw [hlocation] at hbefore
    exact absurd hbefore (Position.not_before_self _)
  · exact heq
  · have hbefore := h.before htokens hn hm hgt
    rw [hlocation] at hbefore
    exact absurd hbefore (Position.not_before_self _)

theorem Begins.inSourceOrder (h : p.Begins tokens)
    (htokens : tokens.Pairwise fun t u => t.location.position.Before u.location.position) :
    InSourceOrder tokens (misreadings p.stream) := by
  have hmarked := h.marked_remaining
  refine ⟨fun m hm => h.shows hm, ?_, ?_, ?_⟩
  · refine (pairwise_leads_misreadings hmarked).imp_of_mem ?_
    intro m n hm hn hleads
    rcases hleads with hlt | hrepeats
    · exact .inl (h.before htokens hm hn hlt)
    · rw [(h.shows hm).2, (h.shows hn).2, hrepeats.stop_eq]
      exact .inr rfl
  · intro i j m n hij hi hj hplace
    have hindex := h.index_eq htokens (List.mem_of_getElem? hi) (List.mem_of_getElem? hj) hplace
    exact consecutive_of_index_eq hmarked hij hi hj hindex
  · intro location
    by_cases hshown : ∃ m ∈ misreadings p.stream, m.fault.location? = some location
    · obtain ⟨m, hm, hplace⟩ := hshown
      -- all that show there break off where this one does
      refine Nat.le_trans (List.countP_mono_left ?_) (countP_index_le_two hmarked m.stop.index)
      intro n hn hthere
      have hsame := (of_decide_eq_true hthere).trans hplace.symm
      exact decide_eq_true (h.index_eq htokens hn hm hsame)
    · have hnone : (misreadings p.stream).countP (·.fault.location? = some location) = 0 := by
        rw [List.countP_eq_zero]
        intro m hm hthere
        exact hshown ⟨m, hm, of_decide_eq_true hthere⟩
      rw [hnone]
      exact Nat.zero_le 2

/-- **Fault order.**  The faults of a source that has tokens come in the order
    of their places in it, each at a token.  A place has a second fault only if
    a declaration breaks off at a `return` there: the next fault is then that
    no construct begins with it. -/
theorem inSourceOrder_of_tokenize {source : String} {filename : Option String}
    {tokens : List Token} (h : tokenize source filename = .ok tokens) :
    ∃ p, ofSource source filename = .ok p
      ∧ p.parseProgram.2.diagnostics = (misreadings p.stream).map Misreading.fault
      ∧ InSourceOrder tokens (misreadings p.stream) := by
  obtain ⟨p, hp, hbegins⟩ := ofSource_of_tokenize h
  refine ⟨p, hp, ?_, hbegins.inSourceOrder (pairwise_before_of_tokenize h)⟩
  show p.diagnostics ++ (program p.stream).faults = _
  rw [hbegins.diagnostics, List.nil_append, map_fault_misreadings]

/-- A `return` that breaks off a variable has two faults. -/
theorem inSourceOrder_of_tokenize_return :
    let tokens : List Token :=
      [⟨.letKeyword, "let", ⟨⟨1, 1⟩, none⟩⟩, ⟨.returnKeyword, "return", ⟨⟨1, 5⟩, none⟩⟩,
        .endMarker ⟨⟨1, 11⟩, none⟩]
    tokenize "let return" none = .ok tokens
      ∧ ∃ p, ofSource "let return" none = .ok p
        ∧ p.parseProgram.2.diagnostics.map Fault.location?
          = [some ⟨⟨1, 5⟩, none⟩, some ⟨⟨1, 5⟩, none⟩]
        ∧ InSourceOrder tokens (misreadings p.stream) := by
  intro tokens
  have hall : Segment.readAll "let return".toList
      = ([.word ['l', 'e', 't'], .dropped ' ', .word ['r', 'e', 't', 'u', 'r', 'n']], none) := by
    have htext : "let return".toList = ['l', 'e', 't', ' ', 'r', 'e', 't', 'u', 'r', 'n'] := by
      decide
    have hreturn : Segment.read 'r' ['e', 't', 'u', 'r', 'n']
        = .ok (.word ['r', 'e', 't', 'u', 'r', 'n'], []) := rfl
    have hdropped : Segment.read ' ' ['r', 'e', 't', 'u', 'r', 'n']
        = .ok (.dropped ' ', ['r', 'e', 't', 'u', 'r', 'n']) := rfl
    have hlet : Segment.read 'l' ['e', 't', ' ', 'r', 'e', 't', 'u', 'r', 'n']
        = .ok (.word ['l', 'e', 't'], [' ', 'r', 'e', 't', 'u', 'r', 'n']) := rfl
    rw [htext, Segment.readAll_of_ok hlet, Segment.readAll_of_ok hdropped,
      Segment.readAll_of_ok hreturn, Segment.readAll]
  have htokens : tokenize "let return" none = .ok tokens := tokenize_of_readAll none hall
  obtain ⟨p, hp, -, horder⟩ := inSourceOrder_of_tokenize htokens
  refine ⟨htokens, p, hp, ?_, horder⟩
  rw [ofSource, htokens] at hp
  cases hp
  -- reading goes on at the `return`, and then at the end
  let s : TokenStream := ⟨[], ⟨.letKeyword, "let", ⟨⟨1, 1⟩, none⟩⟩, tokens.tail⟩
  have hresume : resume s s.advance = s.advance := rfl
  have hsynchronize : resume s.advance s.advance = s.advance.advance := by
    show s.advance.advance.skip = _
    rw [TokenStream.skip]
    rfl
  show ([] ++ (program s).faults).map Fault.location? = _
  rw [program_of_error (t := s.advance) (by decide) rfl, hresume,
    program_of_error (t := s.advance) (by decide) rfl, hsynchronize,
    program_of_atEnd (by decide)]
  rfl

end Parser

end BraceLang
