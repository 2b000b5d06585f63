import BraceLang.Proofs.Grammar.Attempt

/-! # Misreadings — where the constructs of a program break off

    A misreading is an attempt that fails: the place where it begins, the place
    where it breaks off, and its fault.  The faults of a program are those of
    its misreadings (`map_fault_misreadings`).

    Reading may go on at the very token that broke a construct off.  Then the
    next misreading is further to the right all the same, as a construct that
    opens with `func` or `let` does not break off there.  The exception is
    `return`: reading goes on there, and no construct begins with it
    (`pairwise_leads_misreadings`).  So at most two misreadings break off at one
    token, one right behind the other (`consecutive_of_index_eq`). -/

namespace BraceLang

/-- Besides the tokens that open a declaration, only `return` starts a
    construct. -/
theorem Token.kind_of_startsConstruct {t : Token} (h : t.kind.startsConstruct)
    (hopens : ¬ t.opensDeclaration) : t.kind = .returnKeyword := by
  cases hk : t.kind with
  | returnKeyword => rfl
  | funcKeyword | letKeyword => simp [opensDeclaration, hk] at hopens
  | _ => simp [TokenKind.startsConstruct, hk] at h

namespace Grammar

/-- An attempt that fails. -/
structure Misreading where
  /-- Where the attempt begins. -/
  start : TokenStream
  /-- Where it breaks off. -/
  stop : TokenStream
  fault : Fault
  broke : construct start = .error fault stop

/-- The attempt at the cursor, if it fails. -/
def misreading? (s : TokenStream) : Option Misreading :=
  match h : construct s with
  | .ok _ _ => none
  | .error fault t => some ⟨s, t, fault, h⟩

/-- The attempts of the program that fail, in order. -/
def misreadings (s : TokenStream) : List Misreading :=
  (attempts s).filterMap misreading?

namespace Misreading

/-- The second is about the `return` that broke off a declaration, the first
    one: reading goes on there, but no construct begins with that token. -/
structure Repeats (m n : Misreading) : Prop where
  opens : m.start.current.opensDeclaration
  here : n.start = m.stop
  stays : n.stop = n.start
  kind : n.start.current.kind = .returnKeyword
  fault : n.fault = n.start.fault (.unexpectedToken .returnKeyword)

/-- The second breaks off further to the right, or is about the same `return`. -/
def Leads (m n : Misreading) : Prop :=
  m.stop.index < n.stop.index ∨ m.Repeats n

variable {m n o : Misreading}

/-- No token is the place of three: the second one does not open a
    declaration. -/
theorem Repeats.not_repeats (h : m.Repeats n) : ¬ n.Repeats o := by
  intro ho
  have hopens := ho.opens
  simp [Token.opensDeclaration, h.kind] at hopens

theorem Repeats.stop_eq (h : m.Repeats n) : n.stop = m.stop :=
  h.stays.trans h.here

theorem Leads.index_le (h : m.Leads n) : m.stop.index ≤ n.stop.index := by
  rcases h with hlt | hrepeats
  · exact Nat.le_of_lt hlt
  · exact Nat.le_of_eq (congrArg TokenStream.index hrepeats.stop_eq.symm)

/-- Two that break off at the same place repeat each other. -/
theorem Leads.repeats (h : m.Leads n) (hindex : n.stop.index ≤ m.stop.index) : m.Repeats n :=
  h.resolve_left (Nat.not_lt_of_le hindex)

end Misreading

theorem misreading?_eq_some {s : TokenStream} {m : Misreading} (h : misreading? s = some m) :
    m.start = s := by
  rw [misreading?] at h
  split at h
  next => cases h
  next => cases h; rfl

theorem map_fault_misreading? (s : TokenStream) :
    (misreading? s).map Misreading.fault = fault? s := by
  rw [misreading?]
  split
  next node t h => rw [fault?, h]; rfl
  next fault t h =>
      show some fault = fault? s
      rw [fault?, h]

/-- The faults of a program are those of its misreadings, one for each. -/
theorem map_fault_misreadings (s : TokenStream) :
    (misreadings s).map Misreading.fault = (program s).faults := by
  rw [faults_eq_filterMap_attempts, misreadings, List.map_filterMap]
  congr 1
  funext u
  exact map_fault_misreading? u

theorem start_mem_attempts {s : TokenStream} {m : Misreading} (h : m ∈ misreadings s) :
    m.start ∈ attempts s := by
  obtain ⟨u, hu, hm⟩ := List.mem_filterMap.mp h
  rwa [misreading?_eq_some hm]

/-! ## Where a construct breaks off -/

/-- A token that opens a declaration begins some construct. -/
theorem exists_construct_of_opensDeclaration {t : Token} (h : t.opensDeclaration) :
    ∃ rest node, Construct (t :: rest) node := by
  have hcases : t.kind = .funcKeyword ∨ t.kind = .letKeyword := by
    simpa [Token.opensDeclaration] using h
  rcases hcases with hk | hk
  · exact ⟨sample .identifier "" :: sample .lparen "" ::
      ([sample .rparen ""] ++ [sample .lbrace "", sample .number "", sample .rbrace ""]), _,
      .functionDecl hk rfl rfl (.close rfl) rfl (.literal (.inl rfl)) rfl⟩
  · exact ⟨[sample .identifier "", sample .equals "", sample .number ""], _,
      .variableDecl hk rfl rfl (.literal (.inl rfl))⟩

/-- A declaration does not break off at the token that opens it. -/
theorem Misreading.index_lt {m : Misreading} (hs : Marked m.start.remaining)
    (hopens : m.start.current.opensDeclaration) : m.start.index < m.stop.index := by
  obtain ⟨taken, hpasses, hblocked, -⟩ := recognizes_construct.of_error hs m.broke
  cases taken with
  | nil =>
      obtain ⟨rest, node, hconstruct⟩ := exists_construct_of_opensDeclaration hopens
      rw [hpasses.eq (.refl m.start)] at hblocked
      exact absurd hconstruct (hblocked.stuck rest node)
  | cons t taken =>
      have hlength := hpasses.index_eq
      rw [List.length_cons] at hlength
      omega

/-- What opens no declaration breaks off where it begins. -/
theorem Misreading.stop_eq_start {m : Misreading} (hend : ¬ m.start.atEnd)
    (hopens : ¬ m.start.current.opensDeclaration) :
    m.stop = m.start ∧ m.fault = m.start.fault (.unexpectedToken m.start.current.kind) := by
  have hkinds : m.start.current.kind ≠ .funcKeyword ∧ m.start.current.kind ≠ .letKeyword := by
    simpa [Token.opensDeclaration] using hopens
  have hbroke := m.broke
  rw [construct_eq_readerFor, readerFor, if_neg hkinds.1, if_neg hkinds.2] at hbroke
  by_cases hatom : ∃ e, Atom m.start.current e
  · obtain ⟨e, he⟩ := hatom
    rw [bareExpression, bind_of_ok (expression_of_atom hend he)] at hbroke
    cases hbroke
  · have hnone : ∀ e, ¬ Atom m.start.current e := fun e he => hatom ⟨e, he⟩
    rw [bareExpression, bind_of_error (expression_of_not_atom hnone)] at hbroke
    obtain ⟨hfault, hstop⟩ := EStateM.Result.error.inj hbroke
    exact ⟨hstop.symm, hfault.symm⟩

theorem Misreading.blames {m : Misreading} (hs : Marked m.start.remaining) :
    m.fault.Blames m.stop.current := by
  obtain ⟨taken, hpasses, hblocked, hblames⟩ := recognizes_construct.of_error hs m.broke
  exact hblames

theorem Misreading.reaches (m : Misreading) : m.start.Reaches m.stop :=
  reaches_of_construct_error m.broke

/-! ## The order of misreadings -/

/-- Where reading goes on at the token that broke a construct off, the next
    misreading is further to the right, or that token is a `return`. -/
theorem Misreading.leads_of_start_eq {m n : Misreading} (hs : Marked m.stop.remaining)
    (hend : ¬ m.start.atEnd) (hnend : ¬ n.start.atEnd) (hindex : m.stop.index ≠ m.start.index)
    (hstarts : m.stop.current.kind.startsConstruct) (hsame : n.start = m.stop) : m.Leads n := by
  by_cases hnopens : n.start.current.opensDeclaration
  · have hlt := index_lt (by rwa [hsame]) hnopens
    rw [hsame] at hlt
    exact .inl hlt
  · -- only a declaration gets ahead before it breaks off
    have hopens : m.start.current.opensDeclaration := by
      by_cases h : m.start.current.opensDeclaration
      · exact h
      · exact absurd (congrArg TokenStream.index (stop_eq_start hend h).1) hindex
    have hkind : n.start.current.kind = .returnKeyword := by
      rw [← hsame] at hstarts
      exact Token.kind_of_startsConstruct hstarts hnopens
    obtain ⟨hstays, hfault⟩ := stop_eq_start hnend hnopens
    rw [hkind] at hfault
    exact .inr ⟨hopens, hsame, hstays, hkind, hfault⟩

/-- What breaks off behind a misreading is further to the right, or it is the
    `return` where reading goes on. -/
theorem Misreading.leads {m n : Misreading} (hs : Marked m.start.remaining)
    (hend : ¬ m.start.atEnd) (hn : n ∈ misreadings (following m.start)) : m.Leads n := by
  obtain ⟨taken, hpasses⟩ := m.reaches.exists_passes
  obtain ⟨hnend, hnext, -⟩ := reaches_of_mem_attempts (start_mem_attempts hn)
  have hover := n.reaches.index_le
  rw [following_of_error m.broke, resume] at hnext
  split at hnext
  next hhere =>
      rcases hnext.eq_or_lt with hsame | hless
      · exact leads_of_start_eq (hpasses.marked hs) hend hnend hhere.1 hhere.2 hsame
      · exact .inl (Nat.lt_of_lt_of_le (hnext.index_lt hless) hover)
  next =>
      by_cases hstop : m.stop.atEnd
      · -- at the end nothing more is tried
        rw [TokenStream.synchronize_of_atEnd hstop] at hnext
        rw [hnext.eq_of_atEnd hstop] at hnend
        exact absurd hstop hnend
      · have hskip := m.stop.reaches_synchronize.index_lt
          (TokenStream.length_upcoming_synchronize hstop)
        exact .inl (Nat.lt_of_lt_of_le hskip (Nat.le_trans hnext.index_le hover))

/-- By induction on the attempts. -/
theorem pairwise_leads_misreadings {s : TokenStream} (hs : Marked s.remaining) :
    (misreadings s).Pairwise Misreading.Leads := by
  rw [misreadings]
  fun_induction attempts s with
  | case1 s hend => exact .nil
  | case2 s hend ih =>
      obtain ⟨rest, hpasses, -⟩ := passes_following hs hend
      have hrest := ih (hpasses.marked hs)
      cases h : misreading? s with
      | none =>
          rw [List.filterMap_cons_none h]
          exact hrest
      | some m =>
          rw [List.filterMap_cons_some h]
          refine .cons ?_ hrest
          intro n hn
          have hstart := misreading?_eq_some h
          rw [← hstart] at hs hend hn
          exact m.leads hs hend hn

/-- Two misreadings that break off at one token follow each other at once, and
    the second one is about a `return`. -/
theorem consecutive_of_index_eq {s : TokenStream} (hs : Marked s.remaining) {i j : Nat}
    {m n : Misreading} (hij : i < j) (hi : (misreadings s)[i]? = some m)
    (hj : (misreadings s)[j]? = some n) (h : m.stop.index = n.stop.index) :
    j = i + 1 ∧ m.Repeats n := by
  obtain ⟨hilt, rfl⟩ := List.getElem?_eq_some_iff.mp hi
  obtain ⟨hjlt, rfl⟩ := List.getElem?_eq_some_iff.mp hj
  have hleads := List.pairwise_iff_getElem.mp (pairwise_leads_misreadings hs)
  refine ⟨?_, (hleads i j hilt hjlt hij).repeats (Nat.le_of_eq h.symm)⟩
  rcases Nat.lt_or_eq_of_le (Nat.succ_le_of_lt hij) with hbetween | heq
  · -- a third one in between would repeat the first and be repeated
    have hfirst := hleads i (i + 1) hilt (Nat.lt_trans hbetween hjlt) (Nat.lt_succ_self i)
    have hsecond := hleads (i + 1) j (Nat.lt_trans hbetween hjlt) hjlt hbetween
    have hle := hfirst.index_le
    have hle' := hsecond.index_le
    exact absurd (hsecond.repeats (by omega)) (hfirst.repeats (by omega)).not_repeats
  · exact heq.symm

/-- Among those that break off at one token each repeats all before it, which
    only one can do. -/
theorem countP_index_le_two {s : TokenStream} (hs : Marked s.remaining) (i : Nat) :
    (misreadings s).countP (·.stop.index = i) ≤ 2 := by
  have hrepeats : ((misreadings s).filter (·.stop.index = i)).Pairwise Misreading.Repeats := by
    refine ((pairwise_leads_misreadings hs).filter _).imp_of_mem ?_
    intro m n hm hn hleads
    have hmi := of_decide_eq_true (List.mem_filter.mp hm).2
    have hni := of_decide_eq_true (List.mem_filter.mp hn).2
    exact hleads.repeats (Nat.le_of_eq (hni.trans hmi.symm))
  rw [List.countP_eq_length_filter]
  generalize (misreadings s).filter (·.stop.index = i) = row at hrepeats
  cases hrepeats with
  | nil => exact Nat.zero_le 2
  | @cons m row hm hrow =>
      cases hrow with
      | nil => exact Nat.le_succ 1
      | @cons n row hn hrow =>
          cases row with
          | nil => exact Nat.le_refl 2
          | cons o row =>
              exact absurd (hn o List.mem_cons_self) (hm n List.mem_cons_self).not_repeats

end Grammar

end BraceLang
