import BraceLang.Proofs.Report.Alignment

/-! # Styling — what colors add to a report

    A terminal takes up a style at a code: an escape, a bracket, and everything
    to the next `m`.  Without its codes a colored report is the report without
    colors, as far as its own texts hold no escape: all that is padded is padded
    before it is styled.  The severity of a report is seen in its styles alone,
    so it makes no difference without colors (`withoutCodes_render`).

    Of the paint with colors it is assumed that it puts a text between the code
    of its style and the code that ends every style (`Paint.Colored`); which codes
    these are makes no difference.

    `Codes` says of two texts that the second is the first without its codes,
    whatever follows them; texts that are joined keep that. -/

namespace BraceLang

namespace Text

/-- The character that codes begin with. -/
def escape : Char :=
  '\x1b'

/-- What is behind the code that a text begins with, if it begins with one. -/
def behindCode? : List Char → Option (List Char)
  | '\x1b' :: '[' :: text =>
      match text.dropWhile (· ≠ 'm') with
      | [] => none
      | _ :: rest => some rest
  | _ => none

theorem length_lt_of_behindCode? {text rest : List Char} (h : behindCode? text = some rest) :
    rest.length < text.length := by
  rw [behindCode?.eq_def] at h
  split at h
  next text =>
      have hle := (List.dropWhile_suffix (l := text) (· ≠ 'm')).length_le
      split at h
      next => cases h
      next d more hdrop =>
          cases h
          rw [hdrop, List.length_cons] at hle
          rw [List.length_cons, List.length_cons]
          omega
  next => cases h

/-- A text without its codes, which are looked for from left to right. -/
def withoutCodes : List Char → List Char
  | [] => []
  | c :: text =>
      match _h : behindCode? (c :: text) with
      | some rest => withoutCodes rest
      | none => c :: withoutCodes text
termination_by text => text.length
decreasing_by
  · exact length_lt_of_behindCode? _h
  · exact Nat.lt_succ_self text.length

theorem withoutCodes_of_ne {c : Char} (h : c ≠ escape) (text : List Char) :
    withoutCodes (c :: text) = c :: withoutCodes text := by
  have hnone : behindCode? (c :: text) = none := by
    rw [behindCode?]
    intro more heq
    exact h (List.cons.inj heq).1
  rw [withoutCodes]
  split
  next rest hsome =>
      rw [hnone] at hsome
      cases hsome
  next => rfl

theorem withoutCodes_code {code : List Char} (h : 'm' ∉ code) (text : List Char) :
    withoutCodes (escape :: '[' :: (code ++ 'm' :: text)) = withoutCodes text := by
  have hdrop : (code ++ 'm' :: text).dropWhile (· ≠ 'm') = 'm' :: text := by
    rw [List.dropWhile_append_of_pos]
    · rfl
    · intro c hc
      exact decide_eq_true fun hm => h (hm ▸ hc)
  have hsome : behindCode? (escape :: '[' :: (code ++ 'm' :: text)) = some text := by
    show (match (code ++ 'm' :: text).dropWhile (· ≠ 'm') with
      | [] => none
      | _ :: rest => some rest) = some text
    rw [hdrop]
  rw [withoutCodes]
  split
  next rest hrest =>
      rw [hsome] at hrest
      cases hrest
      rfl
  next hnone =>
      rw [hsome] at hnone
      cases hnone

end Text

/-! ## Texts with codes and without -/

/-- In front of any text, the first one is the second without its codes. -/
def Codes (coded bare : List Char) : Prop :=
  ∀ text, Text.withoutCodes (coded ++ text) = bare ++ Text.withoutCodes text

/-- A text that has no escape. -/
def Plain (text : List Char) : Prop :=
  Text.escape ∉ text

instance (text : List Char) : Decidable (Plain text) :=
  inferInstanceAs (Decidable (Text.escape ∉ text))

namespace Codes

theorem nil : Codes [] [] :=
  fun _ => rfl

theorem append {a b x y : List Char} (ha : Codes a x) (hb : Codes b y) :
    Codes (a ++ b) (x ++ y) := by
  intro text
  rw [List.append_assoc, ha, hb, List.append_assoc]

theorem flatMap {α : Type} {coded bare : α → List Char} {items : List α}
    (h : ∀ x ∈ items, Codes (coded x) (bare x)) :
    Codes (items.flatMap coded) (items.flatMap bare) := by
  induction items with
  | nil => exact nil
  | cons x items ih =>
      obtain ⟨hx, hitems⟩ := List.forall_mem_cons.mp h
      rw [List.flatMap_cons, List.flatMap_cons]
      exact hx.append (ih hitems)

theorem of_plain {text : List Char} (h : Plain text) : Codes text text := by
  induction text with
  | nil => exact nil
  | cons c text ih =>
      obtain ⟨hc, htext⟩ := not_or.mp (mt List.mem_cons.mpr h)
      intro more
      rw [List.cons_append, Text.withoutCodes_of_ne (Ne.symm hc), ih htext]
      rfl

theorem code {code : List Char} (h : 'm' ∉ code) :
    Codes (Text.escape :: '[' :: (code ++ ['m'])) [] := by
  intro text
  have hjoined := Text.withoutCodes_code h text
  rw [List.cons_append, List.cons_append, List.append_assoc]
  exact hjoined

theorem withoutCodes_eq {coded bare : List Char} (h : Codes coded bare) :
    Text.withoutCodes coded = bare := by
  have hend := h []
  rw [List.append_nil, Text.withoutCodes, List.append_nil] at hend
  exact hend

end Codes

/-- The paint of a run with colors.  A text with escapes of its own may be written
    in another way. -/
structure Paint.Colored (paint : Paint) (codes : Style → String) : Prop where
  /-- No code ends before its `m`. -/
  unbroken : ∀ style, 'm' ∉ (codes style).toList
  written : ∀ style text, Plain text.toList →
    paint style text = "\x1b[" ++ codes style ++ "m" ++ text ++ "\x1b[0m"

theorem Paint.colored_terminal : terminal.Colored terminalCodes where
  unbroken := by
    intro style
    cases style <;> decide
  written := fun _ _ _ => rfl

/-! ## Spans and rows -/

section Spans

variable {colored bare : Paint} {codes : Style → String}

/-- Around the text of a span there are only codes. -/
theorem Span.codes_render (hcolored : colored.Colored codes) (hbare : bare.Bare) {s : Span}
    (h : Plain s.text.toList) : Codes (s.render colored).toList (s.render bare).toList := by
  obtain ⟨_ | style, text⟩ := s
  · exact .of_plain h
  · have hbegin := Codes.code (hcolored.unbroken style)
    have hend : Codes (Text.escape :: '[' :: (['0'] ++ ['m'])) [] := .code (by decide)
    have hwhole := (hbegin.append (.of_plain h)).append hend
    rw [List.nil_append, List.append_nil] at hwhole
    have hcoded : (colored style text).toList
        = Text.escape :: '[' :: ((codes style).toList ++ ['m']) ++ text.toList
          ++ Text.escape :: '[' :: (['0'] ++ ['m']) := by
      rw [hcolored.written style text h]
      simp [Text.escape]
    show Codes (colored style text).toList (bare style text).toList
    rw [hcoded, hbare]
    exact hwhole

theorem Row.codes_render (hcolored : colored.Colored codes) (hbare : bare.Bare) {row : Row}
    (h : ∀ s ∈ row, Plain s.text.toList) :
    Codes (row.render colored).toList (row.render bare).toList := by
  have hspans : Codes (row.letters colored) (row.letters bare) :=
    .flatMap fun s hs => Span.codes_render hcolored hbare (h s hs)
  rw [toList_render, toList_render]
  exact hspans.append (.of_plain (by decide))

theorem codes_renderRows (hcolored : colored.Colored codes) (hbare : bare.Bare) {rows : List Row}
    (h : ∀ row ∈ rows, ∀ s ∈ row, Plain s.text.toList) :
    Codes (renderRows colored rows).toList (renderRows bare rows).toList := by
  rw [renderRows, renderRows, String.toList_join, String.toList_join, List.flatMap_map,
    List.flatMap_map]
  exact .flatMap fun row hrow => row.codes_render hcolored hbare (h row hrow)

end Spans

/-! ## Texts of a report -/

theorem Plain.append {a b : List Char} (ha : Plain a) (hb : Plain b) : Plain (a ++ b) :=
  fun hmem => (List.mem_append.mp hmem).elim ha hb

theorem Plain.append_string {a b : String} (ha : Plain a.toList) (hb : Plain b.toList) :
    Plain (a ++ b).toList := by
  rw [String.toList_append]
  exact ha.append hb

theorem plain_toString (n : Nat) : Plain (toString n).toList :=
  fun hmem => absurd (Text.isDigit_of_mem_toString hmem) (by decide)

theorem Location.plain_display {location : Location}
    (h : ∀ name ∈ location.filename, Plain name.toList) : Plain location.display.toList := by
  have hposition : Plain location.position.display.toList :=
    ((plain_toString _).append_string (by decide)).append_string (plain_toString _)
  rw [display]
  cases hname : location.filename with
  | none => exact hposition
  | some name => exact ((h name hname).append_string (by decide)).append_string hposition

theorem Fault.plain_heading (fault : Fault) : Plain fault.heading.toList := by
  have hwords : ∀ words ∈ ["Lexer Error", "Parse Error", "Config Error"], Plain words.toList := by
    decide
  cases fault with
  | lexical cause location => exact hwords _ (.head _)
  | syntactic cause location => exact hwords _ (.tail _ (.head _))
  | configuration message => exact hwords _ (.tail _ (.tail _ (.head _)))

namespace Excerpt

variable {e : Excerpt} {source : String}

theorem plain_blanks (n : Nat) : Plain (blanks n).toList := by
  rw [toList_blanks]
  intro hmem
  exact absurd (List.eq_of_mem_replicate hmem) (by decide)

theorem plain_line {place : Nat} {line : List Char} (h : Plain source.toList)
    (hline : (Text.lines source.toList)[place]? = some line) : Plain line :=
  fun hmem => h ((Text.holds_of_getElem?_lines hline).chars _ hmem).1

theorem plain_sourceRow (e : Excerpt) (style : Style) (number : Nat) {line : List Char}
    (h : Plain line) : ∀ s ∈ e.sourceRow style number line, Plain s.text.toList := by
  have hline : Plain (String.ofList line).toList := by
    rwa [String.toList_ofList]
  have hgutter : Plain (e.gutter number).toList :=
    (plain_blanks _).append_string (plain_toString number)
  have hshown : Plain (" " ++ String.ofList line).toList :=
    .append_string (by decide) hline
  rw [sourceRow]
  refine List.forall_mem_cons.mpr ⟨?_, List.forall_mem_cons.mpr ⟨hgutter, ?_⟩⟩
  · show Plain "  ".toList
    decide
  · exact List.forall_mem_singleton.mpr hshown

theorem plain_caretRow (e : Excerpt) (style : Style) :
    ∀ s ∈ e.caretRow style, Plain s.text.toList := by
  have hcaret : Plain "^".toList := by decide
  rw [caretRow]
  exact List.forall_mem_cons.mpr ⟨plain_blanks _, List.forall_mem_singleton.mpr hcaret⟩

theorem plain_rows {p : Position} (h : Plain source.toList)
    (hshows : e.Shows (Text.lines source.toList) p) (style : Style) :
    ∀ row ∈ e.rows style, ∀ s ∈ row, Plain s.text.toList := by
  have hneighbour : ∀ (number : Nat) (line? : Option (List Char)),
      (∀ line ∈ line?, ∃ place : Nat, (Text.lines source.toList)[place]? = some line) →
      ∀ row ∈ (line?.map (e.sourceRow .aside number)).toList, ∀ s ∈ row, Plain s.text.toList := by
    intro number line? hlines row hrow
    obtain ⟨line, hline, rfl⟩ := Option.map_eq_some_iff.mp (Option.mem_toList.mp hrow)
    obtain ⟨place, hplace⟩ := hlines line hline
    exact e.plain_sourceRow .aside number (plain_line h hplace)
  rw [rows]
  refine List.forall_mem_append.mpr ⟨List.forall_mem_append.mpr ⟨?_, ?_⟩, ?_⟩
  · exact hneighbour _ _ hshows.exists_of_mem_before
  · exact List.forall_mem_cons.mpr ⟨e.plain_sourceRow .pointer _ (plain_line h hshows.line),
      List.forall_mem_singleton.mpr (e.plain_caretRow style)⟩
  · exact hneighbour _ _ hshows.exists_of_mem_behind

end Excerpt

namespace Report

/-- The texts that a report takes over hold no escape. -/
structure Unescaped (r : Report) : Prop where
  message : Plain r.fault.message.toList
  filename : ∀ location ∈ r.fault.location?, ∀ name ∈ location.filename, Plain name.toList
  source : ∀ source ∈ r.source, Plain source.toList

theorem Unescaped.plain_placeRows {r : Report} (h : r.Unescaped) :
    ∀ row ∈ r.placeRows, ∀ s ∈ row, Plain s.text.toList := by
  rw [placeRows]
  cases hlocation : r.fault.location? with
  | none => exact List.forall_mem_nil _
  | some location =>
      have hdisplay : Plain (" " ++ location.display).toList :=
        .append_string (by decide) (Location.plain_display (h.filename location hlocation))
      have harrow : Plain "-->".toList := by decide
      have hindent : Plain "  ".toList := by decide
      refine List.forall_mem_cons.mpr ⟨?_, ?_⟩
      · exact List.forall_mem_cons.mpr ⟨hindent, List.forall_mem_cons.mpr ⟨harrow,
          List.forall_mem_singleton.mpr hdisplay⟩⟩
      · cases hsource : r.source with
        | none => exact List.forall_mem_nil _
        | some source =>
            rw [Option.bind_some]
            cases he : Excerpt.ofPosition? source location.position with
            | none => exact List.forall_mem_nil _
            | some e =>
                exact Excerpt.plain_rows (h.source source hsource)
                  (Excerpt.shows_of_ofPosition? he) r.severity.style

theorem Unescaped.plain_rows {r : Report} (h : r.Unescaped) :
    ∀ row ∈ r.rows, ∀ s ∈ row, Plain s.text.toList := by
  have hmessage : Plain (": " ++ r.fault.message).toList := .append_string (by decide) h.message
  refine List.forall_mem_cons.mpr ⟨?_, h.plain_placeRows⟩
  exact List.forall_mem_cons.mpr ⟨r.fault.plain_heading, List.forall_mem_singleton.mpr hmessage⟩

variable {colored bare : Paint} {codes : Style → String}

/-- Without colors the characters of the rows do not depend on the severity. -/
theorem letters_placeRows (hbare : bare.Bare) (r : Report) (severity : Severity) :
    ({ r with severity } : Report).placeRows.map (Row.letters bare)
      = r.placeRows.map (Row.letters bare) := by
  have hexcerpt : ∀ excerpt : Option Excerpt,
      ((excerpt.map (Excerpt.rows · severity.style)).getD []).map (Row.letters bare)
        = ((excerpt.map (Excerpt.rows · r.severity.style)).getD []).map (Row.letters bare) := by
    intro excerpt
    cases excerpt with
    | none => rfl
    | some e =>
        show (e.rows severity.style).map _ = (e.rows r.severity.style).map _
        rw [Excerpt.letters_rows hbare, Excerpt.letters_rows hbare]
  rw [placeRows, placeRows]
  cases r.fault.location? with
  | none => rfl
  | some location => exact congrArg (List.cons _) (hexcerpt _)

theorem render_withSeverity (hbare : bare.Bare) (r : Report) (severity : Severity) :
    ({ r with severity } : Report).render bare = r.render bare := by
  have hheading : Row.letters bare [.styled severity.style r.fault.heading,
        .plain (": " ++ r.fault.message)]
      = Row.letters bare [.styled r.severity.style r.fault.heading,
        .plain (": " ++ r.fault.message)] := by
    simp [Row.letters, Span.render, Span.styled, hbare _ _]
  apply String.toList_injective
  rw [render, render, toList_renderRows, toList_renderRows, rows, rows, List.map_cons,
    List.map_cons, letters_placeRows hbare r severity, hheading]

/-- **Styling.**  In either severity a colored report without its codes is the
    report without colors, which is the same in both. -/
theorem withoutCodes_render (hcolored : colored.Colored codes) (hbare : bare.Bare) (r : Report)
    (severity : Severity) :
    (r.Unescaped →
        Text.withoutCodes (({ r with severity } : Report).render colored).toList
          = (r.render bare).toList)
      ∧ ({ r with severity } : Report).render bare = r.render bare := by
  refine ⟨?_, r.render_withSeverity hbare severity⟩
  intro h
  have hshown : ({ r with severity } : Report).Unescaped := ⟨h.message, h.filename, h.source⟩
  rw [← r.render_withSeverity hbare severity]
  exact (codes_renderRows hcolored hbare hshown.plain_rows).withoutCodes_eq

/-- A warning at a place with a line above it and a line below, as a terminal gets
    it. -/
theorem withoutCodes_render_warning :
    let r : Report :=
      ⟨.syntactic (.unexpectedToken .plus) ⟨⟨2, 2⟩, some "a"⟩, .error, some "x\n1+\ny"⟩
    Paint.terminal.Colored terminalCodes
      ∧ Paint.bare.Bare
      ∧ r.Unescaped
      ∧ ({ r with severity := .warning } : Report).render .terminal
        = "\x1b[1;33mParse Error\x1b[0m: Unexpected token in expression: +\n"
          ++ "  \x1b[1;34m-->\x1b[0m a:2:2\n"
          ++ "  \x1b[34m1\x1b[0m x\n"
          ++ "  \x1b[1;34m2\x1b[0m 1+\n"
          ++ "     \x1b[1;33m^\x1b[0m\n"
          ++ "  \x1b[34m3\x1b[0m y\n"
      ∧ Text.withoutCodes (({ r with severity := .warning } : Report).render .terminal).toList
        = (r.render .bare).toList
      ∧ ({ r with severity := .warning } : Report).render .bare = r.render .bare := by
  intro r
  have hmessage : Plain r.fault.message.toList := by decide
  have hfilename : Plain "a".toList := by decide
  have hsource : Plain "x\n1+\ny".toList := by decide
  have hr : r.Unescaped := {
    message := hmessage
    filename := by
      rintro location ⟨⟩ name ⟨⟩
      exact hfilename
    source := by
      rintro source ⟨⟩
      exact hsource }
  obtain ⟨hcodes, hseverity⟩ :=
    withoutCodes_render Paint.colored_terminal Paint.bare_bare r .warning
  exact ⟨Paint.colored_terminal, Paint.bare_bare, hr, by decide, hcodes hr, hseverity⟩

end Report

end BraceLang
