import BraceLang.Proofs.Grammar.Attempt
import BraceLang.Proofs.Grammar.Seam

/-! # Containment — faults do not cross the start of a construct

    Where a token starts a construct, tokens can be cut in two: whatever
    stands in front of the cut, the program from the cut on is read as if it
    stood alone (`parseProgram_append`).  The reading of the whole stays in
    step with the reading of the first part up to the cut, and then with the
    reading of the second part, where the seam is at the marker. -/

namespace BraceLang

/-- The index tells the streams apart that can be reached. -/
theorem TokenStream.Reaches.eq_of_index_eq {s t : TokenStream} (h : s.Reaches t)
    (hindex : t.index = s.index) : t = s := by
  rcases h.eq_or_lt with heq | hlt
  · exact heq
  · have hlength := congrArg List.length h.tokens_eq
    have hpassed : t.passed.length = s.passed.length := hindex
    simp only [tokens, List.length_append, List.length_reverse, List.length_cons] at hlength
    omega

namespace Grammar

/-- The faults are the same, or only the last ones differ, of which each blames
    its own token. -/
def AgreeUpToLast (x y : Token) (fs gs : List Fault) : Prop :=
  fs = gs ∨ x ≠ y ∧ ∃ front f g, fs = front ++ [f] ∧ gs = front ++ [g] ∧ f.Blames x ∧ g.Blames y

theorem AgreeUpToLast.append {x y : Token} {fs gs : List Fault} (front : List Fault)
    (h : AgreeUpToLast x y fs gs) : AgreeUpToLast x y (front ++ fs) (front ++ gs) := by
  rcases h with heq | ⟨hne, more, f, g, hf, hg, hblames⟩
  · exact .inl (by rw [heq])
  · refine .inr ⟨hne, front ++ more, f, g, ?_, ?_, hblames⟩
    · rw [hf, List.append_assoc]
    · rw [hg, List.append_assoc]

namespace Seam

variable {j : Seam} {s t u v : TokenStream}

/-- A construct that was misread up to the seam is left there. -/
theorem AtCut.resume (huv : j.AtCut u v) (hindex : u.index ≠ s.index) :
    j.AtCut (resume s u) (resume t v) := by
  have hv : Grammar.resume t v = v := by
    have hnot : ¬ (v.index ≠ t.index ∧ v.current.kind.startsConstruct) := by
      rw [huv.current_eq.2, kind_of_isEnd j.ends]
      exact fun hstay => Bool.false_ne_true hstay.2
    rw [Grammar.resume, if_neg hnot, TokenStream.synchronize_of_atEnd huv.atEnd]
  have hu : Grammar.resume s u = u := by
    rcases j.opens with hopens | heq
    · rw [← huv.current_eq.1] at hopens
      rw [Grammar.resume, if_pos ⟨hindex, hopens⟩]
    · rw [Grammar.resume, TokenStream.synchronize_of_atEnd (huv.atEnd_of_eq heq), ite_self]
  rw [hu, hv]
  exact huv

/-- A construct that was misread in front of the seam is left at the same
    place in both streams. -/
theorem Inside.resume (huv : j.Inside u v) (hindex : u.index = s.index ↔ v.index = t.index) :
    j.Twins (resume s u) (resume t v) := by
  have hahead : u.index ≠ s.index ↔ v.index ≠ t.index := not_congr hindex
  rw [Grammar.resume, Grammar.resume, huv.current_eq]
  simp only [hahead]
  by_cases hstay : v.index ≠ t.index ∧ v.current.kind.startsConstruct
  · rw [if_pos hstay, if_pos hstay]
    exact .inside huv
  · rw [if_neg hstay, if_neg hstay]
    refine huv.advance.skip ?_
    rw [(TokenStream.passes_advance huv.not_atEnd.2).passed]
    exact List.cons_ne_nil _ _

/-- One attempt in front of the seam gives the same in both streams, unless it
    fails at the seam. -/
theorem Inside.following (h : j.Inside s t) :
    j.Twins (following s) (following t) ∧ node? s = node? t
      ∧ (fault? s = fault? t
        ∨ j.AtCut (following s) (following t) ∧ j.next ≠ j.marker
          ∧ ∃ f g, fault? s = some f ∧ fault? t = some g ∧ f.Blames j.next ∧ g.Blames j.marker) := by
  have hstep := h.inStep_construct
  have hreach := advances_construct t
  rw [Grammar.following, Grammar.following, node?, node?, fault?, fault?]
  generalize construct s = x at hstep
  generalize construct t = y at hstep hreach
  cases hstep with
  | ok huv => exact ⟨huv, rfl, .inl rfl⟩
  | @error f g u v huv hf hg heq =>
      have hs := (Twins.inside h).index_eq
      have hu := huv.index_eq
      rcases huv with hinside | hcut
      · refine ⟨hinside.resume ?_, rfl, .inl ?_⟩
        · omega
        · rw [heq hinside.current_eq]
      · have hindex : u.index ≠ s.index := by
          -- with the same index the second stream would have been at its end already
          intro hsame
          have hvt : v = t := hreach.eq_of_index_eq (by show v.index = t.index; omega)
          have hend := hcut.atEnd
          rw [hvt] at hend
          exact h.not_atEnd.2 hend
        refine ⟨.cut (hcut.resume hindex), rfl, ?_⟩
        rw [hcut.current_eq.1, hcut.current_eq.2] at heq
        rw [hcut.current_eq.1] at hf
        rw [hcut.current_eq.2] at hg
        by_cases hsame : j.next = j.marker
        · exact .inl (by rw [heq hsame])
        · exact .inr ⟨hcut.resume hindex, hsame, f, g, rfl, rfl, hf, hg⟩

/-- From the seam on the first stream is read by itself; up to the seam it
    gives what the second stream gives. -/
theorem Twins.program_append (h : j.Twins s t) :
    ∃ passed faults, let back := program ⟨passed ++ j.before, j.next, j.rest⟩
      (program s).nodes = (program t).nodes ++ back.nodes
        ∧ (program s).faults = faults ++ back.faults
        ∧ AgreeUpToLast j.next j.marker faults (program t).faults := by
  induction hn : t.upcoming.length using Nat.strongRecOn generalizing s t with
  | ind n ih =>
  rcases h with h | h
  · obtain ⟨hs, ht⟩ := h.not_atEnd
    obtain ⟨hnodes, hfaults⟩ := program_of_not_atEnd hs
    obtain ⟨hnodes', hfaults'⟩ := program_of_not_atEnd ht
    obtain ⟨hnext, hnode, hfault⟩ := h.following
    have hlt := length_upcoming_following ht
    obtain ⟨passed, faults, hback, hsplit, hagree⟩ := ih _ (by omega) hnext rfl
    refine ⟨passed, (fault? s).toList ++ faults, ?_, ?_, ?_⟩
    · rw [hnodes, hnodes', hback, hnode, List.append_assoc]
    · rw [hfaults, hsplit, List.append_assoc]
    · rw [hfaults']
      rcases hfault with heq | ⟨hcut, hne, f, g, hf, hg, hblames⟩
      · rw [heq]
        exact hagree.append _
      · -- the attempt failed at the seam, so the second stream is read to its end
        rw [program_of_atEnd hcut.atEnd] at hagree ⊢
        rcases hagree with hnil | ⟨-, front, -, g', -, hnil, -⟩
        · rw [hnil, hf, hg]
          exact .inr ⟨hne, [], f, g, rfl, rfl, hblames⟩
        · exact absurd hnil (by simp)
  · cases h with
    | intro passed =>
        have hend : program ⟨passed, j.marker, []⟩ = _ := program_of_atEnd rfl
        rw [hend]
        exact ⟨passed, [], rfl, rfl, .inl rfl⟩

end Seam

/-- What was passed before the cursor does not change how a program is read. -/
theorem program_of_fresh {s t : TokenStream} {body : List Token} {e : Token}
    (hbody : ∀ u ∈ body, ¬ u.isEnd) (he : e.isEnd) (hs : s.remaining = body ++ [e])
    (ht : t.remaining = body ++ [e]) (hfresh : t.passed = []) :
    (program s).nodes = (program t).nodes ∧ (program s).faults = (program t).faults := by
  let j : Seam := ⟨s.passed, e, [], e, he, .inr rfl⟩
  have htwins : j.Twins s t := Seam.twins_of_front hbody rfl hs hfresh ht
  obtain ⟨passed, faults, hnodes, hfaults, hagree⟩ := htwins.program_append
  have hback : program ⟨passed ++ j.before, e, []⟩ = _ := program_of_atEnd rfl
  rw [hback, List.append_nil] at hnodes hfaults
  rcases hagree with heq | ⟨hne, -⟩
  · exact ⟨hnodes, hfaults.trans heq⟩
  · exact absurd rfl hne

/-- **Containment.**  Where a token starts a construct, the nodes of a program
    are those of the part in front of the token and those of the part from it
    on.  So are the faults, except that the last fault of the first part may
    blame the token where it blames the marker if the part stands alone. -/
theorem parseProgram_append (front back : List Token) (next marker : Token)
    (hfront : ∀ t ∈ front, ¬ t.isEnd) (hback : ∀ t ∈ back, ¬ t.isEnd)
    (hnext : next.kind = .funcKeyword ∨ next.kind = .letKeyword ∨ next.kind = .returnKeyword)
    (hmarker : marker.isEnd) :
    ∃ whole first second,
      Parser.ofTokens (front ++ (next :: back) ++ [marker]) = .ok whole
        ∧ Parser.ofTokens (front ++ [marker]) = .ok first
        ∧ Parser.ofTokens ((next :: back) ++ [marker]) = .ok second
        ∧ whole.parseProgram.1 = first.parseProgram.1 ++ second.parseProgram.1
        ∧ ∃ faults, AgreeUpToLast next marker faults first.parseProgram.2.diagnostics
          ∧ whole.parseProgram.2.diagnostics
            = faults ++ second.parseProgram.2.diagnostics := by
  have hend : ∀ ts : List Token, ts ++ [marker] ≠ [] :=
    fun ts => List.append_ne_nil_of_right_ne_nil ts (List.cons_ne_nil marker [])
  obtain ⟨whole, hwhole, hnil, hpassed, hremaining⟩ := Parser.ofTokens_of_ne_nil (hend _)
  obtain ⟨first, hfirst, hnil₁, hpassed₁, hremaining₁⟩ := Parser.ofTokens_of_ne_nil (hend front)
  obtain ⟨second, hsecond, hnil₂, hpassed₂, hremaining₂⟩ :=
    Parser.ofTokens_of_ne_nil (hend (next :: back))
  refine ⟨whole, first, second, hwhole, hfirst, hsecond, ?_⟩
  have hopens : next.kind.startsConstruct := by
    rcases hnext with hk | hk | hk <;> rw [hk] <;> rfl
  have hnot : ¬ next.isEnd := by
    intro h
    rw [kind_of_isEnd h] at hopens
    exact Bool.false_ne_true hopens
  let j : Seam := ⟨[], next, back ++ [marker], marker, hmarker, .inl hopens⟩
  rw [List.append_assoc] at hremaining
  -- the whole is read in step with the first part, and from the seam on like the second
  have htwins : j.Twins whole.stream first.stream :=
    Seam.twins_of_front hfront hpassed hremaining hpassed₁ hremaining₁
  obtain ⟨passed, faults, hnodes, hfaults, hagree⟩ := htwins.program_append
  obtain ⟨hnodes₂, hfaults₂⟩ := program_of_fresh
    (List.forall_mem_cons.mpr ⟨hnot, hback⟩) hmarker
    (show TokenStream.remaining ⟨passed ++ [], next, back ++ [marker]⟩ = _ from rfl)
    hremaining₂ hpassed₂
  refine ⟨hnodes.trans (congrArg _ hnodes₂), faults, ?_, ?_⟩
  · show AgreeUpToLast next marker faults (first.diagnostics ++ (program first.stream).faults)
    rw [hnil₁]
    exact hagree
  · show whole.diagnostics ++ _ = faults ++ (second.diagnostics ++ _)
    rw [hnil, hnil₂]
    exact hfaults.trans (congrArg _ hfaults₂)

/-- A function that the next declaration cuts off: one fault, at the cut. -/
theorem parseProgram_append_cut_off :
    ∃ whole first second,
      Parser.ofTokens [sample .funcKeyword "func", sample .identifier "f", sample .lparen "(",
          sample .letKeyword "let", sample .identifier "x", sample .equals "=",
          sample .number "1", sample .endOfInput "<EOF>"] = .ok whole
        ∧ Parser.ofTokens [sample .funcKeyword "func", sample .identifier "f",
          sample .lparen "(", sample .endOfInput "<EOF>"] = .ok first
        ∧ Parser.ofTokens [sample .letKeyword "let", sample .identifier "x",
          sample .equals "=", sample .number "1", sample .endOfInput "<EOF>"] = .ok second
        ∧ whole.parseProgram.1 = first.parseProgram.1 ++ second.parseProgram.1
        ∧ ∃ faults, AgreeUpToLast (sample .letKeyword "let") (sample .endOfInput "<EOF>") faults
            first.parseProgram.2.diagnostics
          ∧ whole.parseProgram.2.diagnostics
            = faults ++ second.parseProgram.2.diagnostics :=
  parseProgram_append
    [sample .funcKeyword "func", sample .identifier "f", sample .lparen "("]
    [sample .identifier "x", sample .equals "=", sample .number "1"]
    (sample .letKeyword "let") (sample .endOfInput "<EOF>") (by decide) (by decide)
    (.inr (.inl rfl)) rfl

end Grammar

end BraceLang
