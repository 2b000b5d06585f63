import BraceLang.Proofs.Grammar.Attempt
import BraceLang.Proofs.Parser.Calls

/-! # Blame — the tokens that the faults of a parser are about

    Every fault that a call records on marked tokens blames one of the tokens
    that were left to read: it shows where that token is.  So all faults of a
    driven parser blame tokens that the parser began with
    (`Driven.exists_blames`). -/

namespace BraceLang

/-- A fault shows at the token that it blames. -/
theorem Fault.Blames.location? {fault : Fault} {t : Token} (h : fault.Blames t) :
    fault.location? = some t.location := by
  cases fault with
  | lexical cause location => exact h.elim
  | configuration message => exact h.elim
  | syntactic cause location =>
      have hlocation : location = t.location := by
        cases cause with
        | tokenMismatch expected found message => exact h.1
        | unexpectedEndOfInput => exact h
        | unexpectedToken found => exact h.1
      exact congrArg some hlocation

namespace Grammar

/-- The fault of a misread construct blames a token that was left to read. -/
theorem exists_blames_of_error {s t : TokenStream} (hs : Marked s.remaining) {fault : Fault}
    (h : construct s = .error fault t) : ∃ u ∈ s.remaining, fault.Blames u := by
  obtain ⟨taken, hpasses, -, hblames⟩ := recognizes_construct.of_error hs h
  rw [hpasses.remaining]
  exact ⟨t.current, List.mem_append_right taken List.mem_cons_self, hblames⟩

/-- Every fault of a program blames one of its tokens. -/
theorem exists_blames {s : TokenStream} (hs : Marked s.remaining) {fault : Fault}
    (h : fault ∈ (program s).faults) : ∃ t ∈ s.remaining, fault.Blames t := by
  rw [faults_eq_filterMap_attempts] at h
  obtain ⟨u, hu, hfault⟩ := List.mem_filterMap.mp h
  obtain ⟨-, taken, hpasses⟩ := passes_of_mem_attempts hs hu
  rw [fault?] at hfault
  cases hc : construct u with
  | ok node v =>
      rw [hc] at hfault
      cases hfault
  | error f v =>
      rw [hc] at hfault
      obtain ⟨t, ht, hblames⟩ := exists_blames_of_error (hpasses.marked hs) hc
      rw [hpasses.remaining, ← Option.some.inj hfault]
      exact ⟨t, List.mem_append_right taken ht, hblames⟩

end Grammar

namespace Parser

/-- A fault behind a call was there before, or blames a token that was left to
    read. -/
theorem exists_blames_call {q : Parser} (hq : Marked q.stream.remaining) {c : Call}
    {fault : Fault} (h : fault ∈ (q.call c).2.diagnostics) :
    fault ∈ q.diagnostics ∨ ∃ t ∈ q.stream.remaining, fault.Blames t := by
  cases c with
  | parse =>
      have hparsed := q.parsed
      change fault ∈ q.parse.2.diagnostics at h
      generalize q.parse = answer at hparsed h
      cases hparsed with
      | atEnd hend => exact .inl h
      | read hend hok => exact .inl h
      | misread hend herror =>
          rcases List.mem_append.mp h with hold | hnew
          · exact .inl hold
          · rw [List.mem_singleton.mp hnew]
            exact .inr (Grammar.exists_blames_of_error hq herror)
  | synchronize => exact .inl h
  | parseProgram => exact (List.mem_append.mp h).imp_right (Grammar.exists_blames hq)

/-- By induction on the calls: the tokens left at any time are among those at
    the beginning. -/
theorem Driven.exists_blames {p q : Parser} (h : p.Driven q)
    (hp : Marked p.stream.remaining) (hnone : p.diagnostics = []) {fault : Fault}
    (hfault : fault ∈ q.diagnostics) : ∃ t ∈ p.stream.remaining, fault.Blames t := by
  induction h with
  | refl =>
      rw [hnone] at hfault
      exact absurd hfault List.not_mem_nil
  | @call q c hdriven ih =>
      rcases exists_blames_call (hdriven.marked hp) hfault with hold | ⟨t, ht, hblames⟩
      · exact ih hold
      · obtain ⟨taken, hpasses⟩ := hdriven.reaches.exists_passes
        rw [hpasses.remaining]
        exact ⟨t, List.mem_append_right taken ht, hblames⟩

end Parser

end BraceLang
