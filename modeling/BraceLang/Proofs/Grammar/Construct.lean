import BraceLang.Proofs.Grammar.Shape

/-! # Constructs — the grammar

    `Construct` gives the token lists of the three constructs and the node of
    each.  The first token of a construct decides which one it is, and with it
    the shapes of the parts (`construct_iff_shapeFor`).

    The parameters of a function alone are no shape that ends by itself: their
    end is seen from the parenthesis behind them.  So they are taken together
    with that parenthesis (`ClosedRow`). -/

namespace BraceLang

namespace Grammar

/-- A token that is an expression, and the expression that it is. -/
inductive Atom : Token → Expression → Prop where
  | literal {t : Token} (h : t.kind = .number ∨ t.kind = .identifier) :
      Atom t ⟨.literal, t.text⟩
  | string {t : Token} (h : t.kind = .string) : Atom t ⟨.stringLiteral, t.text⟩

/-- Names, a comma allowed behind each, and the parenthesis that closes them. -/
inductive ClosedRow : Shape (List String) where
  | close {t : Token} (h : t.kind = .rparen) : ClosedRow [t] []
  | name {t : Token} {ts : List Token} {names : List String}
      (h : t.kind = .identifier) (rest : ClosedRow ts names) :
      ClosedRow (t :: ts) (t.text :: names)
  | nameComma {t c : Token} {ts : List Token} {names : List String}
      (h : t.kind = .identifier) (hc : c.kind = .comma) (rest : ClosedRow ts names) :
      ClosedRow (t :: c :: ts) (t.text :: names)

/-- The token lists of the constructs, each with its node. -/
inductive Construct : Shape Node where
  | functionDecl {func name lparen lbrace atom rbrace : Token} {row : List Token}
      {names : List String} {e : Expression}
      (hfunc : func.kind = .funcKeyword) (hname : name.kind = .identifier)
      (hlparen : lparen.kind = .lparen) (hrow : ClosedRow row names)
      (hlbrace : lbrace.kind = .lbrace) (hatom : Atom atom e)
      (hrbrace : rbrace.kind = .rbrace) :
      Construct (func :: name :: lparen :: (row ++ [lbrace, atom, rbrace]))
        (.functionDecl name.text names (.expression e))
  | variableDecl {letToken name equals atom : Token} {e : Expression}
      (hlet : letToken.kind = .letKeyword) (hname : name.kind = .identifier)
      (hequals : equals.kind = .equals) (hatom : Atom atom e) :
      Construct [letToken, name, equals, atom] (.variableDecl name.text (.expression e))
  | expression {atom : Token} {e : Expression} (hatom : Atom atom e) :
      Construct [atom] (.expression e)

/-- A token by itself. -/
def sample (kind : TokenKind) (text : String) : Token := ⟨kind, text, ⟨.first, none⟩⟩

/-! ## Single tokens -/

theorem Atom.kind_cases {t : Token} {e : Expression} (h : Atom t e) :
    t.kind = .number ∨ t.kind = .identifier ∨ t.kind = .string := by
  cases h with
  | literal h => exact h.imp_right Or.inl
  | string h => exact Or.inr (Or.inr h)

theorem Atom.unique {t : Token} {e f : Expression} (he : Atom t e) (hf : Atom t f) :
    f = e := by
  cases he with
  | literal h =>
      cases hf with
      | literal _ => rfl
      | string h' => simp [h'] at h
  | string h =>
      cases hf with
      | literal h' => simp [h] at h'
      | string _ => rfl

theorem kind_of_isEnd {t : Token} (h : t.isEnd) : t.kind = .endOfInput :=
  of_decide_eq_true h

/-- The shape of one token of a given kind. -/
def ofKind (kind : TokenKind) : Shape Token :=
  .single fun t u => u = t ∧ t.kind = kind

/-! ## The parameters with their closing parenthesis -/

theorem ClosedRow.head {t : Token} {ts : List Token} {names : List String}
    (h : ClosedRow (t :: ts) names) : t.kind = .rparen ∨ t.kind = .identifier := by
  cases h with
  | close h => exact Or.inl h
  | name h _ | nameComma h _ _ => exact Or.inr h

theorem ClosedRow.ne_nil {ts : List Token} {names : List String} (h : ClosedRow ts names) :
    ts ≠ [] := by
  cases h <;> exact List.cons_ne_nil _ _

/-- Behind a name that no comma follows, the rest of the row is a row. -/
theorem ClosedRow.of_name {t : Token} {ts : List Token} {names : List String}
    (h : ClosedRow (t :: ts) names) (ht : t.kind = .identifier)
    (hts : ∀ c rest, ts = c :: rest → c.kind ≠ .comma) :
    ∃ rest, names = t.text :: rest ∧ ClosedRow ts rest := by
  cases h with
  | close h => exact nomatch h.symm.trans ht
  | name _ rest => exact ⟨_, rfl, rest⟩
  | nameComma _ hc _ => exact absurd hc (hts _ _ rfl)

/-- Behind a name and a comma, the rest of the row is a row. -/
theorem ClosedRow.of_nameComma {t c : Token} {ts : List Token} {names : List String}
    (h : ClosedRow (t :: c :: ts) names) (hc : c.kind = .comma) :
    ∃ rest, names = t.text :: rest ∧ ClosedRow ts rest := by
  cases h with
  | name _ rest => simpa [hc] using rest.head
  | nameComma _ _ rest => exact ⟨_, rfl, rest⟩

theorem exact_closedRow : ClosedRow.Exact := by
  intro front more a b hfront
  induction hfront generalizing b with
  | @close t h =>
      intro happ
      cases happ with
      | close _ => exact ⟨rfl, rfl⟩
      | name h' _ => exact nomatch h.symm.trans h'
      | nameComma h' _ _ => exact nomatch h.symm.trans h'
  | @name t ts names h rest ih =>
      intro happ
      obtain ⟨bs, hb, hrow⟩ := ClosedRow.of_name happ h (by
        intro c tail htail hc
        cases ts with
        | nil => exact rest.ne_nil rfl
        | cons u us =>
            rw [← (List.cons.inj htail).1] at hc
            simpa [hc] using rest.head)
      obtain ⟨hmore, hnames⟩ := ih bs hrow
      exact ⟨hmore, by rw [hb, hnames]⟩
  | nameComma h hc rest ih =>
      intro happ
      obtain ⟨bs, hb, hrow⟩ := ClosedRow.of_nameComma happ hc
      obtain ⟨hmore, hnames⟩ := ih bs hrow
      exact ⟨hmore, by rw [hb, hnames]⟩

theorem blocked_of_other {x : Token} (hclose : x.kind ≠ .rparen)
    (hname : x.kind ≠ .identifier) : ClosedRow.Blocked [] x where
  viable := ⟨[sample .rparen ""], [], List.cons_ne_nil _ _, .close rfl⟩
  stuck := by
    intro more names h
    rcases h.head with hk | hk
    · exact hclose hk
    · exact hname hk

theorem blocked_name {t x : Token} {taken : List Token} (ht : t.kind = .identifier)
    (hcomma : ∀ c rest, taken ++ [x] = c :: rest → c.kind ≠ .comma)
    (h : ClosedRow.Blocked taken x) : ClosedRow.Blocked (t :: taken) x where
  viable := by
    obtain ⟨more, names, hmore, hrow⟩ := h.viable
    exact ⟨more, t.text :: names, hmore, .name ht hrow⟩
  stuck := by
    intro more names hrow
    obtain ⟨rest, -, hrest⟩ := ClosedRow.of_name hrow ht (by
      intro c tail htail
      cases taken with
      | nil => exact hcomma c [] (by rw [(List.cons.inj htail).1]; rfl)
      | cons u us => exact hcomma c (us ++ [x]) (by rw [← (List.cons.inj htail).1]; rfl))
    exact h.stuck more rest hrest

theorem blocked_nameComma {t c x : Token} {taken : List Token} (ht : t.kind = .identifier)
    (hc : c.kind = .comma) (h : ClosedRow.Blocked taken x) :
    ClosedRow.Blocked (t :: c :: taken) x where
  viable := by
    obtain ⟨more, names, hmore, hrow⟩ := h.viable
    exact ⟨more, t.text :: names, hmore, .nameComma ht hc hrow⟩
  stuck := by
    intro more names hrow
    obtain ⟨rest, -, hrest⟩ := ClosedRow.of_nameComma hrow hc
    exact h.stuck more rest hrest

/-! ## The shape of each construct -/

/-- The shape of the construct that begins with a token of a given kind. -/
def shapeFor (kind : TokenKind) : Shape Node :=
  if kind = .funcKeyword then
    (ofKind .funcKeyword).andThen fun _ => (ofKind .identifier).andThen fun name =>
      (ofKind .lparen).andThen fun _ => ClosedRow.andThen fun names =>
        (ofKind .lbrace).andThen fun _ => (Shape.single Atom).andThen fun e =>
          (ofKind .rbrace).andThen fun _ =>
            .done (.functionDecl name.text names (.expression e))
  else if kind = .letKeyword then
    (ofKind .letKeyword).andThen fun _ => (ofKind .identifier).andThen fun name =>
      (ofKind .equals).andThen fun _ => (Shape.single Atom).andThen fun e =>
        .done (.variableDecl name.text (.expression e))
  else (Shape.single Atom).andThen fun e => .done (.expression e)

theorem shapeFor_of_construct {ts : List Token} {node : Node} (h : Construct ts node) :
    ∃ t rest, ts = t :: rest ∧ shapeFor t.kind ts node := by
  cases h with
  | @functionDecl func name lparen lbrace atom rbrace row names e hfunc hname hlparen hrow hlbrace
      hatom hrbrace =>
      refine ⟨func, _, rfl, ?_⟩
      rw [shapeFor, if_pos hfunc]
      exact ⟨func, [func], _, rfl, ⟨func, rfl, rfl, hfunc⟩, name, [name], _, rfl,
        ⟨name, rfl, rfl, hname⟩, lparen, [lparen], _, rfl, ⟨lparen, rfl, rfl, hlparen⟩,
        names, row, _, rfl, hrow, lbrace, [lbrace], _, rfl, ⟨lbrace, rfl, rfl, hlbrace⟩,
        e, [atom], _, rfl, ⟨atom, rfl, hatom⟩, rbrace, [rbrace], [], rfl,
        ⟨rbrace, rfl, rfl, hrbrace⟩, rfl, rfl⟩
  | @variableDecl letToken name equals atom e hlet hname hequals hatom =>
      refine ⟨letToken, _, rfl, ?_⟩
      rw [shapeFor, if_neg (by simp [hlet]), if_pos hlet]
      exact ⟨letToken, [letToken], _, rfl, ⟨letToken, rfl, rfl, hlet⟩, name, [name], _, rfl,
        ⟨name, rfl, rfl, hname⟩, equals, [equals], _, rfl, ⟨equals, rfl, rfl, hequals⟩,
        e, [atom], [], rfl, ⟨atom, rfl, hatom⟩, rfl, rfl⟩
  | @expression atom e hatom =>
      refine ⟨atom, [], rfl, ?_⟩
      have hcases := hatom.kind_cases
      rw [shapeFor, if_neg (by rintro hk; simp [hk] at hcases),
        if_neg (by rintro hk; simp [hk] at hcases)]
      exact ⟨e, [atom], [], rfl, ⟨atom, rfl, hatom⟩, rfl, rfl⟩

theorem Construct.exists_cons {ts : List Token} {node : Node} (h : Construct ts node) :
    ∃ t rest, ts = t :: rest := by
  obtain ⟨t, rest, hts, -⟩ := shapeFor_of_construct h
  exact ⟨t, rest, hts⟩

theorem construct_of_shapeFor {kind : TokenKind} {ts : List Token} {node : Node}
    (h : shapeFor kind ts node) : Construct ts node := by
  by_cases hfunc : kind = .funcKeyword
  · rw [shapeFor, if_pos hfunc] at h
    obtain ⟨_, _, _, rfl, ⟨func, rfl, rfl, hfunc⟩, _, _, _, rfl, ⟨name, rfl, rfl, hname⟩,
      _, _, _, rfl, ⟨lparen, rfl, rfl, hlparen⟩, names, row, _, rfl, hrow,
      _, _, _, rfl, ⟨lbrace, rfl, rfl, hlbrace⟩, e, _, _, rfl, ⟨atom, rfl, hatom⟩,
      _, _, _, rfl, ⟨rbrace, rfl, rfl, hrbrace⟩, rfl, rfl⟩ := h
    exact .functionDecl hfunc hname hlparen hrow hlbrace hatom hrbrace
  by_cases hlet : kind = .letKeyword
  · rw [shapeFor, if_neg hfunc, if_pos hlet] at h
    obtain ⟨_, _, _, rfl, ⟨letToken, rfl, rfl, hlet⟩, _, _, _, rfl, ⟨name, rfl, rfl, hname⟩,
      _, _, _, rfl, ⟨equals, rfl, rfl, hequals⟩, e, _, _, rfl, ⟨atom, rfl, hatom⟩,
      rfl, rfl⟩ := h
    exact .variableDecl hlet hname hequals hatom
  · rw [shapeFor, if_neg hfunc, if_neg hlet] at h
    obtain ⟨e, _, _, rfl, ⟨atom, rfl, hatom⟩, rfl, rfl⟩ := h
    exact .expression hatom

/-- The first token of a construct decides which construct it is. -/
theorem construct_iff_shapeFor {t : Token} {rest : List Token} {node : Node} :
    Construct (t :: rest) node ↔ shapeFor t.kind (t :: rest) node := by
  constructor
  · intro h
    obtain ⟨u, us, hts, hshape⟩ := shapeFor_of_construct h
    obtain ⟨rfl, -⟩ := List.cons.inj hts
    exact hshape
  · exact construct_of_shapeFor

end Grammar

end BraceLang
