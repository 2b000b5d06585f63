import BraceLang.Proofs.Grammar.Program

/-! # Relabeling — the same kinds with other texts and locations

    A relabeling gives every token another text and another location, each
    depending only on the old one, and leaves its kind.  It moves no decision
    of the grammar: the relabeled stream ends, skips and resumes where the
    stream does, and a reader maps to itself (`Maps`), with the relabeled value
    or fault as its result.  So a program of relabeled tokens is the relabeled
    program (`program_stream`). -/

namespace BraceLang

/-- Another text and another location for every token. -/
structure Relabeling where
  text : String → String
  location : Location → Location

namespace Relabeling

variable (ρ : Relabeling)

/-- The token with its new labels; its kind stays. -/
def token (t : Token) : Token :=
  { t with text := ρ.text t.text, location := ρ.location t.location }

/-- The expression with its new value. -/
def expression (e : Expression) : Expression :=
  { e with value := ρ.text e.value }

/-- The node with every name, parameter and value in it relabeled. -/
def node : Node → Node
  | .functionDecl name parameters body =>
      .functionDecl (ρ.text name) (parameters.map ρ.text) (node body)
  | .variableDecl name initial => .variableDecl (ρ.text name) (node initial)
  | .expression e => .expression (ρ.expression e)

/-- The fault at its new location; its cause stays. -/
def fault : Fault → Fault
  | .lexical cause location => .lexical cause (ρ.location location)
  | .syntactic cause location => .syntactic cause (ρ.location location)
  | .configuration message => .configuration message

/-- The stream of the relabeled tokens, at the same place. -/
def stream (s : TokenStream) : TokenStream :=
  ⟨s.passed.map ρ.token, ρ.token s.current, s.upcoming.map ρ.token⟩

-- ── The cursor ───────────────────────────────────────────────────────────

@[simp] theorem kind_token (t : Token) : (ρ.token t).kind = t.kind := rfl

@[simp] theorem current_stream (s : TokenStream) :
    (ρ.stream s).current = ρ.token s.current := rfl

@[simp] theorem atEnd_stream (s : TokenStream) : (ρ.stream s).atEnd = s.atEnd := by
  show ((s.upcoming.map ρ.token).isEmpty || s.current.isEnd) = _
  rw [List.isEmpty_map]
  rfl

@[simp] theorem index_stream (s : TokenStream) : (ρ.stream s).index = s.index :=
  List.length_map ρ.token

@[simp] theorem previous_stream (s : TokenStream) :
    (ρ.stream s).previous = ρ.token s.previous := by
  obtain ⟨passed, current, upcoming⟩ := s
  cases passed with
  | nil => rfl
  | cons t passed => rfl

@[simp] theorem advance_stream (s : TokenStream) :
    (ρ.stream s).advance = ρ.stream s.advance := by
  rw [TokenStream.advance, TokenStream.advance, atEnd_stream]
  obtain ⟨passed, current, upcoming⟩ := s
  split
  next => rfl
  next =>
      cases upcoming with
      | nil => rfl
      | cons t rest => rfl

/-- Skipping stops at the same token: by the recursion of `skip`, which looks
    at kinds. -/
@[simp] theorem skip_stream (s : TokenStream) : (ρ.stream s).skip = ρ.stream s.skip := by
  fun_induction TokenStream.skip s with
  | case1 s hend =>
      rw [TokenStream.skip.eq_def]
      simp [hend]
  | case2 s hend hbrace =>
      rw [TokenStream.skip.eq_def]
      simp [hend, hbrace]
  | case3 s hend hbrace hstart =>
      rw [TokenStream.skip.eq_def]
      simp [hend, hbrace, hstart]
  | case4 s hend hbrace hstart ih =>
      rw [TokenStream.skip.eq_def]
      simp [hend, hbrace, hstart, ih]

@[simp] theorem synchronize_stream (s : TokenStream) :
    (ρ.stream s).synchronize = ρ.stream s.synchronize := by
  rw [TokenStream.synchronize, TokenStream.synchronize, advance_stream, skip_stream]

-- ── Readers ──────────────────────────────────────────────────────────────

open Grammar

variable {α β γ δ : Type}

/-- The result at the relabeled stream; `f` relabels the value. -/
def result (f : α → β) :
    EStateM.Result Fault TokenStream α → EStateM.Result Fault TokenStream β
  | .ok a t => .ok (f a) (ρ.stream t)
  | .error fault t => .error (ρ.fault fault) (ρ.stream t)

/-- On relabeled streams the second reader does what the first one does, with
    the relabeled result. -/
def Maps (f : α → β) (r : Reader α) (r' : Reader β) : Prop :=
  ∀ s, r' (ρ.stream s) = ρ.result f (r s)

variable {ρ} in
theorem Maps.bind {f : α → β} {g : γ → δ} {r : Reader α} {r' : Reader β}
    {k : α → Reader γ} {k' : β → Reader δ} (hr : ρ.Maps f r r')
    (hk : ∀ a, ρ.Maps g (k a) (k' (f a))) : ρ.Maps g (r >>= k) (r' >>= k') := by
  intro s
  have h := hr s
  cases hrs : r s with
  | ok a t =>
      rw [hrs] at h
      rw [bind_of_ok hrs, bind_of_ok h]
      exact hk a t
  | error fault t =>
      rw [hrs] at h
      rw [bind_of_error hrs, bind_of_error h]
      rfl

theorem maps_pure (f : α → β) (a : α) :
    ρ.Maps f (Pure.pure a : Reader α) (Pure.pure (f a)) :=
  fun _ => rfl

theorem maps_expect (kind : TokenKind) (message : String) :
    ρ.Maps ρ.token (expect kind message) (expect kind message) := by
  intro s
  rw [expect, expect]
  by_cases hfits : ¬ s.atEnd ∧ s.current.kind = kind
  · rw [if_pos hfits, if_pos (by simpa using hfits), advance_stream]
    rfl
  · rw [if_neg hfits, if_neg (by simpa using hfits)]
    rfl

theorem maps_expression : ρ.Maps ρ.expression Grammar.expression Grammar.expression := by
  intro s
  rw [Grammar.expression, Grammar.expression, advance_stream, previous_stream, current_stream,
    kind_token]
  split
  next => rfl
  next => rfl
  next => rfl
  next => rfl

theorem passComma_stream (s : TokenStream) :
    passComma (ρ.stream s) = ρ.stream (passComma s) := by
  rw [passComma, passComma, current_stream, kind_token, advance_stream]
  split
  next => rfl
  next => rfl

theorem withName_result (name : String)
    (x : EStateM.Result Fault TokenStream (List String)) :
    withName (ρ.text name) (ρ.result (List.map ρ.text) x)
      = ρ.result (List.map ρ.text) (withName name x) := by
  cases x with
  | ok names t => rfl
  | error fault t => rfl

theorem furtherParameters_stream {u : TokenStream}
    (h : closedParameters (ρ.stream u) = ρ.result (List.map ρ.text) (closedParameters u)) :
    furtherParameters (ρ.stream u) = ρ.result (List.map ρ.text) (furtherParameters u) := by
  rw [furtherParameters, furtherParameters, ρ.atEnd_stream]
  split
  next => rfl
  next => exact h

/-- The names map one by one: by induction on the tokens to come, of which a
    name takes one. -/
theorem maps_closedParameters :
    ρ.Maps (List.map ρ.text) closedParameters closedParameters := by
  intro s
  induction hn : s.upcoming.length using Nat.strongRecOn generalizing s with
  | ind n ih =>
  by_cases hend : s.atEnd
  · rw [closedParameters_of_atEnd hend, closedParameters_of_atEnd (by simpa using hend)]
    rfl
  have hend' : ¬ (ρ.stream s).atEnd := by simpa using hend
  by_cases hclose : s.current.kind = .rparen
  · rw [closedParameters_of_rparen hend hclose, closedParameters_of_rparen hend' hclose,
      advance_stream]
    rfl
  by_cases hname : s.current.kind = .identifier
  · have hlt := TokenStream.length_upcoming_advance hend
    have hcomma := (reaches_passComma s.advance).eq_or_lt
    rw [closedParameters_of_name hend hname, closedParameters_of_name hend' hname,
      advance_stream, passComma_stream, ← withName_result]
    generalize passComma s.advance = u at hcomma
    have hshorter : u.upcoming.length < n := by
      rcases hcomma with heq | hlt'
      · rw [heq]
        omega
      · omega
    rw [ρ.furtherParameters_stream (ih _ hshorter u rfl)]
    rfl
  · rw [closedParameters_of_other hend hclose hname,
      closedParameters_of_other hend' hclose hname]
    rfl

theorem maps_functionDeclaration :
    ρ.Maps ρ.node functionDeclaration functionDeclaration := by
  rw [functionDeclaration_eq]
  exact (ρ.maps_expect _ _).bind fun _ => (ρ.maps_expect _ _).bind fun _ =>
    (ρ.maps_expect _ _).bind fun _ => ρ.maps_closedParameters.bind fun _ =>
      (ρ.maps_expect _ _).bind fun _ => ρ.maps_expression.bind fun _ =>
        (ρ.maps_expect _ _).bind fun _ => ρ.maps_pure ρ.node _

theorem maps_variableDeclaration :
    ρ.Maps ρ.node variableDeclaration variableDeclaration :=
  (ρ.maps_expect _ _).bind fun _ => (ρ.maps_expect _ _).bind fun _ =>
    (ρ.maps_expect _ _).bind fun _ => ρ.maps_expression.bind fun _ => ρ.maps_pure ρ.node _

theorem maps_bareExpression : ρ.Maps ρ.node bareExpression bareExpression :=
  ρ.maps_expression.bind fun _ => ρ.maps_pure ρ.node _

theorem maps_construct : ρ.Maps ρ.node construct construct := by
  intro s
  rw [construct_eq_readerFor, construct_eq_readerFor, current_stream, kind_token]
  generalize s.current.kind = kind
  by_cases hfunc : kind = .funcKeyword
  · rw [readerFor, if_pos hfunc]
    exact ρ.maps_functionDeclaration s
  by_cases hlet : kind = .letKeyword
  · rw [readerFor, if_neg hfunc, if_pos hlet]
    exact ρ.maps_variableDeclaration s
  · rw [readerFor, if_neg hfunc, if_neg hlet]
    exact ρ.maps_bareExpression s

-- ── Programs ─────────────────────────────────────────────────────────────

/-- What was read of a program, relabeled. -/
def reading (r : Reading) : Reading :=
  ⟨r.nodes.map ρ.node, r.faults.map ρ.fault, ρ.stream r.stream⟩

theorem resume_stream (s t : TokenStream) :
    resume (ρ.stream s) (ρ.stream t) = ρ.stream (resume s t) := by
  rw [resume, resume, index_stream, index_stream, current_stream, kind_token]
  split
  next => rfl
  next => exact ρ.synchronize_stream t

theorem program_stream (s : TokenStream) : program (ρ.stream s) = ρ.reading (program s) := by
  fun_induction program s with
  | case1 s hend =>
      rw [program_of_atEnd (by simpa using hend)]
      rfl
  | case2 s hend node t hok ih =>
      have hconstruct := ρ.maps_construct s
      rw [hok] at hconstruct
      rw [program_of_ok (by simpa using hend) hconstruct, ih]
      rfl
  | case3 s hend fault t herror ih =>
      have hconstruct := ρ.maps_construct s
      rw [herror] at hconstruct
      rw [program_of_error (by simpa using hend) hconstruct, ρ.resume_stream, ih]
      rfl

end Relabeling

end BraceLang
