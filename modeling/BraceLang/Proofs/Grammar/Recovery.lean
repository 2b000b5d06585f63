import BraceLang.Proofs.Grammar.Attempt

/-! # Recovery — misread constructs cost no declaration

    However malformed the tokens are, a program keeps exactly the declarations
    that are complete where they begin: reading goes through the tokens, tries
    each token that opens a declaration once, and keeps the declaration if it
    is there (`keepsDeclarations_parseProgram`). -/

namespace BraceLang

/-- Whether the node declares a function or a variable. -/
def Node.isDeclaration : Node → Bool
  | functionDecl _ _ _ => true
  | variableDecl _ _ => true
  | expression _ => false

namespace Grammar

/-- The tokens begin with a complete declaration, which is `node`. -/
def Declares (tokens : List Token) (node : Node) : Prop :=
  node.isDeclaration ∧ ∃ piece rest, tokens = piece ++ rest ∧ Construct piece node

/-- The declaration of an attempt, if it gives one, with its place. -/
def declaration? (s : TokenStream) : Option (Nat × Node) :=
  ((node? s).filter Node.isDeclaration).map (s.index, ·)

/-- What reading a program makes of the declarations among its tokens. -/
structure KeepsDeclarations (tokens : List Token) (p : Parser) : Prop where
  /-- The declarations among the nodes are, in order, those that are complete
      at some place of the tokens. -/
  declared : ∃ found : List (Nat × Node),
    p.parseProgram.1.filter Node.isDeclaration = found.map Prod.snd
      ∧ (found.map Prod.fst).Pairwise (· < ·)
      ∧ ∀ i node, (i, node) ∈ found ↔ Declares (tokens.drop i) node
  /-- Every node comes from an attempt, and every fault from one that failed. -/
  answered : p.parseProgram.1 = (attempts p.stream).filterMap node?
    ∧ p.parseProgram.2.diagnostics = (attempts p.stream).filterMap fault?
  /-- One attempt begins at each token that opens a declaration. -/
  tried : ∀ i t, tokens[i]? = some t → t.opensDeclaration →
    ((attempts p.stream).map TokenStream.index).count i = 1
  /-- No attempt takes such a token behind its first one, nor is one skipped
      before the next attempt. -/
  untouched : ∀ u ∈ attempts p.stream, ∃ rest, u.Passes (u.current :: rest) (following u)
    ∧ ∀ t ∈ rest, ¬ t.opensDeclaration

theorem Construct.opensDeclaration {t : Token} {rest : List Token} {node : Node}
    (h : Construct (t :: rest) node) (hnode : node.isDeclaration) : t.opensDeclaration := by
  cases h with
  | functionDecl hfunc hname hlparen hrow hlbrace hatom hrbrace =>
      simp [Token.opensDeclaration, hfunc]
  | variableDecl hlet hname hequals hatom => simp [Token.opensDeclaration, hlet]
  | expression hatom => exact absurd hnode Bool.false_ne_true

theorem map_snd_filterMap_declaration? (l : List TokenStream) :
    (l.filterMap declaration?).map Prod.snd = (l.filterMap node?).filter Node.isDeclaration := by
  rw [List.map_filterMap, List.filter_filterMap]
  congr 1
  funext s
  simp [declaration?, Option.map_map, Function.comp_def]

theorem declaration?_eq_some_iff {s : TokenStream} {i : Nat} {node : Node} :
    declaration? s = some (i, node)
      ↔ s.index = i ∧ node.isDeclaration ∧ ∃ t, construct s = .ok node t := by
  rw [← node?_eq_some_iff]
  constructor
  · intro h
    obtain ⟨other, hother, hpair⟩ := Option.map_eq_some_iff.mp h
    obtain ⟨hnode, hdeclaration⟩ := Option.filter_eq_some_iff.mp hother
    cases hpair
    exact ⟨rfl, hdeclaration, hnode⟩
  · rintro ⟨rfl, hdeclaration, hnode⟩
    rw [declaration?, Option.filter_eq_some_iff.mpr ⟨hnode, hdeclaration⟩]
    rfl

/-- The declarations found by the attempts are those that are complete at
    their place. -/
theorem mem_declarations_iff {s : TokenStream} (hs : Marked s.remaining) (hfirst : s.passed = [])
    {i : Nat} {node : Node} :
    (i, node) ∈ (attempts s).filterMap declaration? ↔ Declares (s.remaining.drop i) node := by
  rw [List.mem_filterMap]
  constructor
  · rintro ⟨u, hu, hfound⟩
    obtain ⟨rfl, hdeclaration, t, hok⟩ := declaration?_eq_some_iff.mp hfound
    obtain ⟨-, taken, hpasses⟩ := passes_of_mem_attempts hs hu
    obtain ⟨piece, hpiece, hconstruct⟩ := recognizes_construct.of_ok (hpasses.marked hs) hok
    rw [hpasses.drop_index hfirst]
    exact ⟨hdeclaration, piece, t.remaining, hpiece.remaining, hconstruct⟩
  · rintro ⟨hdeclaration, piece, rest, hsplit, hconstruct⟩
    obtain ⟨t, tail, rfl⟩ := hconstruct.exists_cons
    have hget : s.remaining[i]? = some t := by
      have hfront := congrArg (fun ts => ts[0]?) hsplit
      simpa using hfront
    obtain ⟨taken, u, hpasses, rfl, rfl⟩ := TokenStream.exists_passes_index hfirst hget
    rw [hpasses.drop_index hfirst] at hsplit
    obtain ⟨v, hok, -⟩ := recognizes_construct.takes (hpasses.marked hs) hsplit hconstruct
    -- no attempt is missed where a declaration opens, whatever was misread before
    have hattempt := exists_attempt hs hpasses (hconstruct.opensDeclaration hdeclaration)
    exact ⟨u, hattempt, declaration?_eq_some_iff.mpr ⟨rfl, hdeclaration, v, hok⟩⟩

theorem count_attempts {s : TokenStream} (hs : Marked s.remaining) (hfirst : s.passed = [])
    {i : Nat} {t : Token} (h : s.remaining[i]? = some t) (ht : t.opensDeclaration) :
    ((attempts s).map TokenStream.index).count i = 1 := by
  obtain ⟨taken, u, hpasses, rfl, rfl⟩ := TokenStream.exists_passes_index hfirst h
  have hmem : u.index ∈ (attempts s).map TokenStream.index :=
    List.mem_map_of_mem (exists_attempt hs hpasses ht)
  have hnodup : ((attempts s).map TokenStream.index).Nodup :=
    (pairwise_index_attempts hs).imp fun hlt => Nat.ne_of_lt hlt
  rw [hnodup.count, if_pos hmem]

/-- **Recovery.**  For all tokens that are closed by their only end marker,
    however malformed they are, the program keeps exactly the declarations
    that are complete where they begin. -/
theorem keepsDeclarations_parseProgram (body : List Token) (marker : Token)
    (hbody : ∀ t ∈ body, ¬ t.isEnd) (hmarker : marker.isEnd) :
    ∃ p, Parser.ofTokens (body ++ [marker]) = .ok p
      ∧ KeepsDeclarations (body ++ [marker]) p := by
  have hs : Marked (body ++ [marker]) := Marked.append hbody (.marker hmarker)
  obtain ⟨p, hp, hdiagnostics, hfirst, hremaining⟩ := Parser.ofTokens_of_ne_nil hs.ne_nil
  rw [← hremaining] at hs
  refine ⟨p, hp, ?_⟩
  rw [← hremaining]
  refine ⟨⟨(attempts p.stream).filterMap declaration?, ?_, ?_, ?_⟩, ⟨?_, ?_⟩, ?_, ?_⟩
  · rw [map_snd_filterMap_declaration?, ← nodes_eq_filterMap_attempts]
    rfl
  · rw [List.pairwise_map]
    refine (List.pairwise_map.mp (pairwise_index_attempts hs)).filterMap declaration? ?_
    rintro u v hlt ⟨i, node⟩ hu ⟨j, other⟩ hv
    obtain ⟨rfl, -⟩ := declaration?_eq_some_iff.mp hu
    obtain ⟨rfl, -⟩ := declaration?_eq_some_iff.mp hv
    exact hlt
  · intro i node
    exact mem_declarations_iff hs hfirst
  · exact nodes_eq_filterMap_attempts p.stream
  · show p.diagnostics ++ (program p.stream).faults = _
    rw [hdiagnostics, List.nil_append, faults_eq_filterMap_attempts]
  · intro i t ht hopens
    exact count_attempts hs hfirst ht hopens
  · intro u hu
    obtain ⟨hend, taken, hpasses⟩ := passes_of_mem_attempts hs hu
    obtain ⟨rest, hrest, hnot⟩ := passes_following (hpasses.marked hs) hend
    refine ⟨rest, hrest, ?_⟩
    intro t ht hopens
    exact hnot t ht (Token.startsConstruct_of_opensDeclaration hopens)

/-- Declarations inside the broken head and the broken body of functions. -/
theorem keepsDeclarations_nested :
    ∃ p, Parser.ofTokens [sample .funcKeyword "func", sample .identifier "f",
        sample .lparen "(", sample .letKeyword "let", sample .identifier "x",
        sample .equals "=", sample .number "1", sample .funcKeyword "func",
        sample .identifier "g", sample .lparen "(", sample .rparen ")", sample .lbrace "\x7b",
        sample .letKeyword "let", sample .identifier "y", sample .equals "=",
        sample .string "s", sample .endOfInput "<EOF>"] = .ok p
      ∧ KeepsDeclarations [sample .funcKeyword "func", sample .identifier "f",
        sample .lparen "(", sample .letKeyword "let", sample .identifier "x",
        sample .equals "=", sample .number "1", sample .funcKeyword "func",
        sample .identifier "g", sample .lparen "(", sample .rparen ")", sample .lbrace "\x7b",
        sample .letKeyword "let", sample .identifier "y", sample .equals "=",
        sample .string "s", sample .endOfInput "<EOF>"] p :=
  keepsDeclarations_parseProgram
    [sample .funcKeyword "func", sample .identifier "f", sample .lparen "(",
      sample .letKeyword "let", sample .identifier "x", sample .equals "=", sample .number "1",
      sample .funcKeyword "func", sample .identifier "g", sample .lparen "(",
      sample .rparen ")", sample .lbrace "\x7b", sample .letKeyword "let",
      sample .identifier "y", sample .equals "=", sample .string "s"]
    (sample .endOfInput "<EOF>") (by decide) rfl

end Grammar

end BraceLang
