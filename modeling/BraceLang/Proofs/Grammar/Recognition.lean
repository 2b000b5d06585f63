import BraceLang.Proofs.Grammar.Parameters

/-! # Recognition — the readers take exactly the constructs

    The reader of each construct is made of readers that recognize the parts of
    it, one behind the other.  So `construct`, which picks one by the first
    token, recognizes exactly `Construct` (`recognizes_construct`). -/

namespace BraceLang

namespace Grammar

/-- The reader of the construct that begins with a token of a given kind. -/
def readerFor (kind : TokenKind) : Reader Node :=
  if kind = .funcKeyword then functionDeclaration
  else if kind = .letKeyword then variableDeclaration
  else bareExpression

theorem construct_eq_readerFor (s : TokenStream) :
    construct s = readerFor s.current.kind s := by
  cases hk : s.current.kind <;> simp [construct, readerFor, hk]

/-- The closing parenthesis of a function's names is read together with them. -/
theorem functionDeclaration_eq : functionDeclaration = (do
    let _ ← expect .funcKeyword "Expect 'func' at the start of function declaration"
    let name ← expect .identifier "Expect function name"
    let _ ← expect .lparen "Expect '(' after function name"
    let names ← closedParameters
    let _ ← expect .lbrace "Expect '\x7b' before function body"
    let body ← expression
    let _ ← expect .rbrace "Expect '\x7d' after function body"
    return .functionDecl name.text names (.expression body)) := by
  simp only [functionDeclaration, closedParameters_bind]

theorem recognizes_functionDeclaration :
    Recognizes functionDeclaration (shapeFor .funcKeyword) := by
  rw [functionDeclaration_eq]
  exact (recognizes_expect _ (by decide)).bind fun _ =>
    (recognizes_expect _ (by decide)).bind fun _ =>
      (recognizes_expect _ (by decide)).bind fun _ => recognizes_closedRow.bind fun _ =>
        (recognizes_expect _ (by decide)).bind fun _ => recognizes_expression.bind fun _ =>
          (recognizes_expect _ (by decide)).bind fun _ => .pure _

theorem recognizes_variableDeclaration :
    Recognizes variableDeclaration (shapeFor .letKeyword) :=
  (recognizes_expect _ (by decide)).bind fun _ =>
    (recognizes_expect _ (by decide)).bind fun _ =>
      (recognizes_expect _ (by decide)).bind fun _ => recognizes_expression.bind fun _ => .pure _

theorem recognizes_readerFor (kind : TokenKind) :
    Recognizes (readerFor kind) (shapeFor kind) := by
  by_cases hfunc : kind = .funcKeyword
  · rw [hfunc]
    exact recognizes_functionDeclaration
  by_cases hlet : kind = .letKeyword
  · rw [hlet]
    exact recognizes_variableDeclaration
  · rw [readerFor, shapeFor, if_neg hfunc, if_neg hfunc, if_neg hlet, if_neg hlet]
    exact recognizes_expression.bind fun _ => .pure _

/-- The reader of constructs takes every construct that begins the tokens, and
    otherwise stops at the first token with which no construct goes on. -/
theorem recognizes_construct : Recognizes construct Construct where
  sharp := by
    intro front more a b hfront hmore
    obtain ⟨t, rest, hts, hshape⟩ := shapeFor_of_construct hfront
    rw [hts] at hmore hshape
    exact (recognizes_readerFor t.kind).sharp (t :: rest) more a b hshape
      (construct_iff_shapeFor.mp hmore)
  inhabited := ⟨[sample .number ""], _, .expression (.literal (.inl rfl))⟩
  answers := by
    intro s hs
    have hanswer := (recognizes_readerFor s.current.kind).answers s hs
    rw [construct_eq_readerFor]
    cases hr : readerFor s.current.kind s with
    | ok node t =>
        rw [hr] at hanswer
        obtain ⟨taken, hpasses, hshape⟩ := hanswer
        exact ⟨taken, hpasses, construct_of_shapeFor hshape⟩
    | error fault t =>
        rw [hr] at hanswer
        obtain ⟨taken, hpasses, ⟨⟨more, node, hmore, hopen⟩, hstuck⟩, hblames⟩ := hanswer
        refine ⟨taken, hpasses, ⟨⟨more, node, hmore, construct_of_shapeFor hopen⟩, ?_⟩, hblames⟩
        intro rest other hconstruct
        obtain ⟨u, us, hts, hshape⟩ := shapeFor_of_construct hconstruct
        have hhead : s.current = u := by
          have heq : s.current :: s.upcoming = taken ++ t.current :: t.upcoming := hpasses.remaining
          cases taken with
          | nil => exact (List.cons.inj heq).1.trans (List.cons.inj hts).1
          | cons v vs => exact (List.cons.inj heq).1.trans (List.cons.inj hts).1
        rw [← hhead] at hshape
        exact hstuck rest other hshape

end Grammar

end BraceLang
