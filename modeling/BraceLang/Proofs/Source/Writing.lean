import BraceLang.Proofs.Grammar.Program
import BraceLang.Proofs.Lexer.Spelling

/-! # Writing — nodes as a source, and read back

    `Node.write` writes a node in the syntax of the language.  Nodes whose
    names are names, whose values are names, numerals or quotable texts, and
    whose parts are expressions (`Node.Writable`) are read back unchanged from
    what is written, one below the other, whatever empty lines stand between
    them (`parseSource_of_written`).

    The proof goes through the tokens that a written node spells: they form
    the construct of the node, and the grammar sees of them only what is
    spelled (`Construct.congr`), not where they stand. -/

namespace BraceLang

/-- An expression in the syntax of the language. -/
def Expression.write (e : Expression) : String :=
  match e.kind with
  | .literal => e.value
  | .stringLiteral => "\"" ++ e.value ++ "\""

/-- A node in the syntax of the language. -/
def Node.write : Node → String
  | functionDecl name parameters body =>
      "func " ++ name ++ "(" ++ ", ".intercalate parameters ++ ") \x7b " ++ body.write ++ " \x7d"
  | variableDecl name initial => "let " ++ name ++ " = " ++ initial.write
  | expression e => e.write

/-- Nodes one below the other. -/
def writeLines (nodes : List Node) : String :=
  "\n".intercalate (nodes.map Node.write)

/-- A text that holds written nodes, each on lines of its own; there may be
    empty lines anywhere between them. -/
inductive Written : List Node → List Char → Prop where
  | nil : Written [] []
  | blank {nodes : List Node} {text : List Char} (h : Written nodes text) :
      Written nodes ('\n' :: text)
  | node {nodes : List Node} {text : List Char} (n : Node) (h : Written nodes text)
      (hend : ∀ c ∈ text.head?, c = '\n') : Written (n :: nodes) (n.write.toList ++ text)

/-- An expression whose value can be written: a name or a numeral, or between
    quotes a text without a quote. -/
inductive Expression.Writable : Expression → Prop where
  | name {value : String} (h : IsName value) : Writable ⟨.literal, value⟩
  | numeral {value : String} (h : Numeral.Form value.toList) : Writable ⟨.literal, value⟩
  | string {value : String} (h : '"' ∉ value.toList) : Writable ⟨.stringLiteral, value⟩

/-- A node that can be written. -/
inductive Node.Writable : Node → Prop where
  | functionDecl {name : String} {parameters : List String} {e : Expression} (hname : IsName name)
      (hparameters : ∀ parameter ∈ parameters, IsName parameter) (he : e.Writable) :
      Writable (.functionDecl name parameters (.expression e))
  | variableDecl {name : String} {e : Expression} (hname : IsName name) (he : e.Writable) :
      Writable (.variableDecl name (.expression e))
  | expression {e : Expression} (he : e.Writable) : Writable (.expression e)

theorem written_writeLines (nodes : List Node) : Written nodes (writeLines nodes).toList := by
  match nodes with
  | [] => exact .nil
  | [n] =>
      have h := Written.node n .nil (fun c hc => nomatch hc)
      rw [List.append_nil] at h
      exact h
  | n :: m :: nodes =>
      have h := Written.node n (.blank (written_writeLines (m :: nodes))) (by rintro c ⟨⟩; rfl)
      have hlines : (writeLines (n :: m :: nodes)).toList
          = n.write.toList ++ '\n' :: (writeLines (m :: nodes)).toList := by
        rw [writeLines, List.map_cons, List.map_cons, String.intercalate_cons_cons,
          String.toList_append, String.toList_append, List.append_assoc]
        rfl
      rw [hlines]
      exact h

/-! ## The grammar does not see locations -/

namespace Grammar

variable {us : List Token}

theorem Atom.congr {t u : Token} {e : Expression} (h : Atom t e) (hu : u.face = t.face) :
    Atom u e := by
  obtain ⟨hkind, htext⟩ := Prod.mk.inj hu
  cases h with
  | literal h =>
      rw [← hkind] at h
      rw [← htext]
      exact .literal h
  | string h =>
      rw [← hkind] at h
      rw [← htext]
      exact .string h

theorem ClosedRow.congr {row : List Token} {names : List String} (h : ClosedRow row names)
    (hus : us.map Token.face = row.map Token.face) : ClosedRow us names := by
  induction h generalizing us with
  | close h =>
      obtain ⟨u, rest, rfl, hu, hrest⟩ := List.map_eq_cons_iff.mp hus
      rw [List.map_eq_nil_iff.mp hrest]
      exact .close ((Prod.mk.inj hu).1.trans h)
  | name h _ ih =>
      obtain ⟨u, rest, rfl, hu, hrest⟩ := List.map_eq_cons_iff.mp hus
      obtain ⟨hkind, htext⟩ := Prod.mk.inj hu
      rw [← htext]
      exact .name (hkind.trans h) (ih hrest)
  | nameComma h hc _ ih =>
      obtain ⟨u, rest, rfl, hu, hrest⟩ := List.map_eq_cons_iff.mp hus
      obtain ⟨c, rest, rfl, hcomma, hrest⟩ := List.map_eq_cons_iff.mp hrest
      obtain ⟨hkind, htext⟩ := Prod.mk.inj hu
      rw [← htext]
      exact .nameComma (hkind.trans h) ((Prod.mk.inj hcomma).1.trans hc) (ih hrest)

theorem Construct.congr {ts : List Token} {node : Node} (h : Construct ts node)
    (hus : us.map Token.face = ts.map Token.face) : Construct us node := by
  cases h with
  | functionDecl hfunc hname hlparen hrow hlbrace hatom hrbrace =>
      obtain ⟨func, us, rfl, hf, hus⟩ := List.map_eq_cons_iff.mp hus
      obtain ⟨name, us, rfl, hn, hus⟩ := List.map_eq_cons_iff.mp hus
      obtain ⟨lparen, us, rfl, hl, hus⟩ := List.map_eq_cons_iff.mp hus
      rw [List.map_append] at hus
      obtain ⟨row, us, rfl, hr, hus⟩ := List.map_eq_append_iff.mp hus
      obtain ⟨lbrace, us, rfl, hlb, hus⟩ := List.map_eq_cons_iff.mp hus
      obtain ⟨atom, us, rfl, ha, hus⟩ := List.map_eq_cons_iff.mp hus
      obtain ⟨rbrace, us, rfl, hrb, hus⟩ := List.map_eq_cons_iff.mp hus
      obtain ⟨hkind, htext⟩ := Prod.mk.inj hn
      rw [List.map_eq_nil_iff.mp hus, ← htext]
      exact .functionDecl ((Prod.mk.inj hf).1.trans hfunc) (hkind.trans hname)
        ((Prod.mk.inj hl).1.trans hlparen) (hrow.congr hr) ((Prod.mk.inj hlb).1.trans hlbrace)
        (hatom.congr ha) ((Prod.mk.inj hrb).1.trans hrbrace)
  | variableDecl hlet hname hequals hatom =>
      obtain ⟨letToken, us, rfl, hl, hus⟩ := List.map_eq_cons_iff.mp hus
      obtain ⟨name, us, rfl, hn, hus⟩ := List.map_eq_cons_iff.mp hus
      obtain ⟨equals, us, rfl, he, hus⟩ := List.map_eq_cons_iff.mp hus
      obtain ⟨atom, us, rfl, ha, hus⟩ := List.map_eq_cons_iff.mp hus
      obtain ⟨hkind, htext⟩ := Prod.mk.inj hn
      rw [List.map_eq_nil_iff.mp hus, ← htext]
      exact .variableDecl ((Prod.mk.inj hl).1.trans hlet) (hkind.trans hname)
        ((Prod.mk.inj he).1.trans hequals) (hatom.congr ha)
  | expression hatom =>
      obtain ⟨atom, us, rfl, ha, hus⟩ := List.map_eq_cons_iff.mp hus
      rw [List.map_eq_nil_iff.mp hus]
      exact .expression (hatom.congr ha)

theorem Constructs.congr {ts : List Token} {nodes : List Node} (h : Constructs ts nodes)
    (hus : us.map Token.face = ts.map Token.face) : Constructs us nodes := by
  induction h generalizing us with
  | nil =>
      rw [List.map_eq_nil_iff.mp hus]
      exact .nil
  | cons hpiece _ ih =>
      rw [List.map_append] at hus
      obtain ⟨front, back, rfl, hfront, hback⟩ := List.map_eq_append_iff.mp hus
      exact .cons (hpiece.congr hfront) (ih hback)

end Grammar

/-! ## What written nodes spell -/

open Grammar

/-- The text cannot continue a word or a numeral in front of it. -/
def Detached (q : List Char) : Prop :=
  ∀ c ∈ q.head?, ¬ joins c

theorem detached_cons {c : Char} (hc : ¬ joins c) (q : List Char) : Detached (c :: q) := by
  rintro d ⟨⟩
  exact hc

/-- The texts of an expression in the syntax of the language, and its token. -/
theorem Expression.Writable.spells {e : Expression} (h : e.Writable) :
    ∃ t, Atom t e ∧ Spells e.write.toList [t.face] := by
  cases h with
  | @name value h =>
      exact ⟨sample .identifier value, .literal (.inr rfl), spells_identifier h⟩
  | @numeral value h => exact ⟨sample .number value, .literal (.inl rfl), spells_numeral h⟩
  | @string value h =>
      refine ⟨sample .string value, .string rfl, ?_⟩
      have htext : ("\"" ++ value ++ "\"").toList = '"' :: (value.toList ++ ['"']) := by
        rw [String.toList_append, String.toList_append, List.append_assoc]
        rfl
      show Spells ("\"" ++ value ++ "\"").toList _
      rw [htext]
      exact spells_quoted h

/-- A row of parameters spells a row of names up to the parenthesis behind it. -/
theorem spells_parameters {parameters : List String} (h : ∀ p ∈ parameters, IsName p)
    {q : List Char} {fs : List (TokenKind × String)} (hq : Spells q fs) :
    ∃ row, ClosedRow row parameters
      ∧ Spells ((", ".intercalate parameters).toList ++ ')' :: q) (row.map Token.face ++ fs) := by
  have hclose : Spells (')' :: q) ((.rparen, ")") :: fs) := hq.cons (s := .sign .rparen ')') rfl
  match parameters with
  | [] => exact ⟨[sample .rparen ")"], .close rfl, hclose⟩
  | [name] =>
      obtain ⟨hname, -⟩ := List.forall_mem_cons.mp h
      refine ⟨[sample .identifier name, sample .rparen ")"], .name rfl (.close rfl), ?_⟩
      exact (spells_identifier hname).append hclose (.inr (detached_cons (by decide) q))
  | name :: name' :: names =>
      obtain ⟨hname, hnames⟩ := List.forall_mem_cons.mp h
      obtain ⟨row, hrow, hspells⟩ := spells_parameters hnames hq
      refine ⟨sample .identifier name :: sample .comma "," :: row, .nameComma rfl rfl hrow, ?_⟩
      have hblank : Spells (' ' :: _) _ := hspells.cons (s := .dropped ' ') rfl
      have hcomma : Spells (',' :: _) _ := hblank.cons (s := .sign .comma ',') rfl
      have hall := (spells_identifier hname).append hcomma (.inr (detached_cons (by decide) _))
      rw [String.intercalate_cons_cons, String.toList_append, String.toList_append,
        List.append_assoc, List.append_assoc]
      exact hall

theorem spells_func : Spells ['f', 'u', 'n', 'c'] [(.funcKeyword, "func")] :=
  spells_of_read (s := .word ['f', 'u', 'n', 'c']) rfl

theorem spells_let : Spells ['l', 'e', 't'] [(.letKeyword, "let")] :=
  spells_of_read (s := .word ['l', 'e', 't']) rfl

/-- A function spells its construct: from its closing brace backwards, each part
    is put in front of what is spelled behind it. -/
theorem spells_functionDecl {name : String} {parameters : List String} {e : Expression}
    (hname : IsName name) (hparameters : ∀ p ∈ parameters, IsName p) (he : e.Writable) :
    ∃ ts, Construct ts (.functionDecl name parameters (.expression e))
      ∧ Spells (Node.functionDecl name parameters (.expression e)).write.toList
        (ts.map Token.face) := by
  obtain ⟨atom, hatom, hbody⟩ := he.spells
  have hrbrace : Spells ['}'] [(.rbrace, "\x7d")] := spells_nil.cons (s := .sign .rbrace '}') rfl
  have hend : Spells [' ', '}'] [(.rbrace, "\x7d")] := hrbrace.cons (s := .dropped ' ') rfl
  have hblock := hbody.append hend (.inr (detached_cons (by decide) _))
  have hinside : Spells (' ' :: _) _ := hblock.cons (s := .dropped ' ') rfl
  have hlbrace : Spells ('{' :: _) ((.lbrace, "\x7b") :: _) :=
    hinside.cons (s := .sign .lbrace '{') rfl
  have hbehind : Spells (' ' :: _) _ := hlbrace.cons (s := .dropped ' ') rfl
  obtain ⟨row, hrow, hhead⟩ := spells_parameters hparameters hbehind
  have hlparen : Spells ('(' :: _) ((.lparen, "(") :: _) := hhead.cons (s := .sign .lparen '(') rfl
  have hnamed := (spells_identifier hname).append hlparen (.inr (detached_cons (by decide) _))
  have hblank : Spells (' ' :: _) _ := hnamed.cons (s := .dropped ' ') rfl
  have hall := spells_func.append hblank (.inr (detached_cons (by decide) _))
  refine ⟨sample .funcKeyword "func" :: sample .identifier name :: sample .lparen "("
    :: (row ++ [sample .lbrace "\x7b", atom, sample .rbrace "\x7d"]),
    .functionDecl rfl rfl rfl hrow rfl hatom rfl, ?_⟩
  have htext : (Node.functionDecl name parameters (.expression e)).write.toList
      = ['f', 'u', 'n', 'c'] ++ ' ' :: (name.toList ++ '(' ::
        ((", ".intercalate parameters).toList ++ ')' :: ' ' :: '{' :: ' ' ::
          (e.write.toList ++ [' ', '}']))) := by
    simp [Node.write]
  rw [htext, List.map_cons, List.map_cons, List.map_cons, List.map_append]
  exact hall

theorem spells_variableDecl {name : String} {e : Expression} (hname : IsName name)
    (he : e.Writable) :
    ∃ ts, Construct ts (.variableDecl name (.expression e))
      ∧ Spells (Node.variableDecl name (.expression e)).write.toList (ts.map Token.face) := by
  obtain ⟨atom, hatom, hinitial⟩ := he.spells
  have hblank : Spells (' ' :: _) _ := hinitial.cons (s := .dropped ' ') rfl
  have hequals : Spells ('=' :: _) ((.equals, "=") :: _) :=
    hblank.cons (s := .sign .equals '=') rfl
  have hassigned : Spells (' ' :: _) _ := hequals.cons (s := .dropped ' ') rfl
  have hnamed := (spells_identifier hname).append hassigned (.inr (detached_cons (by decide) _))
  have hbehind : Spells (' ' :: _) _ := hnamed.cons (s := .dropped ' ') rfl
  have hall := spells_let.append hbehind (.inr (detached_cons (by decide) _))
  refine ⟨[sample .letKeyword "let", sample .identifier name, sample .equals "=", atom],
    .variableDecl rfl rfl rfl hatom, ?_⟩
  have htext : (Node.variableDecl name (.expression e)).write.toList
      = ['l', 'e', 't'] ++ ' ' :: (name.toList ++ ' ' :: '=' :: ' ' :: e.write.toList) := by
    simp [Node.write]
  rw [htext]
  exact hall

theorem Node.Writable.spells {node : Node} (h : node.Writable) :
    ∃ ts, Construct ts node ∧ Spells node.write.toList (ts.map Token.face) := by
  cases h with
  | functionDecl hname hparameters he => exact spells_functionDecl hname hparameters he
  | variableDecl hname he => exact spells_variableDecl hname he
  | expression he =>
      obtain ⟨atom, hatom, hspells⟩ := he.spells
      exact ⟨[atom], .expression hatom, hspells⟩

/-- Written nodes spell their constructs, one behind the other. -/
theorem Written.spells {nodes : List Node} {text : List Char} (h : Written nodes text)
    (hnodes : ∀ node ∈ nodes, node.Writable) :
    ∃ ts, Constructs ts nodes ∧ Spells text (ts.map Token.face) := by
  induction h with
  | nil => exact ⟨[], .nil, spells_nil⟩
  | blank _ ih =>
      obtain ⟨ts, hconstructs, hspells⟩ := ih hnodes
      exact ⟨ts, hconstructs, hspells.cons (s := .dropped '\n') rfl⟩
  | @node nodes text n _ hend ih =>
      obtain ⟨hn, hrest⟩ := List.forall_mem_cons.mp hnodes
      obtain ⟨ts, hconstructs, hspells⟩ := ih hrest
      obtain ⟨piece, hpiece, hwrite⟩ := hn.spells
      have hdetached : Detached text := by
        intro c hc
        rw [hend c hc]
        decide
      refine ⟨piece ++ ts, .cons hpiece hconstructs, ?_⟩
      rw [List.map_append]
      exact hwrite.append hspells (.inr hdetached)

/-- **Writing.**  Nodes that can be written are read back from what is written,
    all of them and unchanged, and without a fault: from the nodes one below
    the other, and whatever empty lines stand between them. -/
theorem parseSource_of_written (nodes : List Node) (hnodes : ∀ node ∈ nodes, node.Writable)
    (filename : Option String) :
    Written nodes (writeLines nodes).toList
      ∧ ∀ source : String, Written nodes source.toList →
        parseSource source filename = .ok nodes
          ∧ ∃ p, Parser.ofSource source filename = .ok p
            ∧ p.parseProgram.2.diagnostics = [] := by
  refine ⟨written_writeLines nodes, ?_⟩
  intro source hsource
  obtain ⟨ts, hconstructs, hspells⟩ := hsource.spells hnodes
  obtain ⟨found, marker, htokens, hfound, hmarker, hfaces⟩ := hspells.tokenize filename
  have hmarked : Marked (found ++ [marker]) := Marked.append hfound (.marker hmarker)
  obtain ⟨p, hp, hdiagnostics, -, hremaining⟩ := Parser.ofTokens_of_ne_nil hmarked.ne_nil
  rw [← hremaining] at hmarked
  have hparser : Parser.ofSource source filename = .ok p := by
    rw [Parser.ofSource, htokens]
    exact hp
  obtain ⟨hnodes, hfaults⟩ :=
    program_of_constructs (hconstructs.congr hfaces) hmarked hremaining
  refine ⟨?_, p, hparser, ?_⟩
  · rw [parseSource, hparser]
    exact congrArg Except.ok hnodes
  · show p.diagnostics ++ (program p.stream).faults = []
    rw [hdiagnostics, hfaults]
    rfl

/-- A function, a variable that begins with a text of two lines, and a bare
    numeral, with an empty line between the first two. -/
theorem parseSource_of_written_script :
    let nodes : List Node := [.functionDecl "f" ["x", "y"] (.expression ⟨.literal, "x"⟩),
      .variableDecl "s" (.expression ⟨.stringLiteral, "let\n\x7d"⟩), .expression ⟨.literal, "0x1F"⟩]
    let source := "func f(x, y) \x7b x \x7d\n\nlet s = \"let\n\x7d\"\n0x1F"
    (∀ node ∈ nodes, node.Writable) ∧ Written nodes source.toList
      ∧ Written nodes (writeLines nodes).toList
      ∧ parseSource source none = .ok nodes
      ∧ ∃ p, Parser.ofSource source none = .ok p ∧ p.parseProgram.2.diagnostics = [] := by
  intro nodes source
  have hnumeral : Numeral.Form "0x1F".toList := by
    rw [show "0x1F".toList = ['0', 'x', '1', 'F'] by decide]
    have hdigits : ∀ d ∈ ['1', 'F'], Numeral.isHexDigit d :=
      List.forall_mem_cons.mpr ⟨rfl, List.forall_mem_cons.mpr ⟨rfl, List.forall_mem_nil _⟩⟩
    exact .hexadecimal (.intro (.inl rfl) ⟨List.cons_ne_nil _ _, hdigits⟩)
  have hnodes : ∀ node ∈ nodes, node.Writable := by
    intro node hnode
    simp only [nodes, List.mem_cons, List.not_mem_nil, or_false] at hnode
    rcases hnode with rfl | rfl | rfl
    · exact .functionDecl (by decide) (by decide) (.name (by decide))
    · exact .variableDecl (by decide) (.string (by decide))
    · exact .expression (.numeral hnumeral)
  have hlast : Written [.expression ⟨.literal, "0x1F"⟩] "0x1F".toList := by
    have h := Written.node (.expression ⟨.literal, "0x1F"⟩) .nil (fun c hc => nomatch hc)
    rw [List.append_nil] at h
    exact h
  have hsource : Written nodes source.toList := by
    have h := Written.node nodes[0] (.blank (.blank (.node nodes[1] (.blank hlast)
      (by rintro c ⟨⟩; rfl)))) (by rintro c ⟨⟩; rfl)
    have htext : source.toList = nodes[0].write.toList
        ++ '\n' :: '\n' :: (nodes[1].write.toList ++ '\n' :: "0x1F".toList) := by
      decide
    rw [htext]
    exact h
  obtain ⟨hlines, hread⟩ := parseSource_of_written nodes hnodes none
  exact ⟨hnodes, hsource, hlines, hread source hsource⟩

end BraceLang
