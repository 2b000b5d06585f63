import BraceLang.Node
import BraceLang.TokenStream

/-! # The grammar — from tokens to constructs

    A construct is a function declaration, a variable declaration or one
    expression.  Each reader starts at the cursor of a stream, moves the
    cursor past the tokens it takes, and stops on the first token that does
    not fit.  `program` reads constructs up to the end; after a misread
    construct it resumes where the next one can start.

    Main statements: readers only advance (`advances_construct`), a construct
    takes at least one token (`takes_construct`), and after a misread one
    reading goes on further to the right (`length_upcoming_resume`). -/

namespace BraceLang

/-- A reader of tokens: it moves the cursor, and returns a value or fails. -/
abbrev Reader (α : Type) := EStateM Fault TokenStream α

namespace Grammar

/-- Takes a token of a given kind.  There is none at the end, whatever the
    last token is. -/
def expect (kind : TokenKind) (message : String) : Reader Token := fun s =>
  if ¬ s.atEnd ∧ s.current.kind = kind then .ok s.current s.advance
  else .error (s.fault (.tokenMismatch kind s.current.kind message)) s

/-- Takes one token as an expression.  At the end the cursor has nowhere to
    go, and the value is that of the token before it. -/
def expression : Reader Expression := fun s =>
  match s.current.kind with
  | .number | .identifier => .ok ⟨.literal, s.advance.previous.text⟩ s.advance
  | .string => .ok ⟨.stringLiteral, s.advance.previous.text⟩ s.advance
  | found => .error (s.fault (.unexpectedToken found)) s

/-- The stream behind a comma, if it stands on one. -/
def passComma (s : TokenStream) : TokenStream :=
  if s.current.kind = .comma then s.advance else s

theorem reaches_passComma (s : TokenStream) : s.Reaches (passComma s) := by
  rw [passComma]
  split
  next => exact .advance (.refl s.advance)
  next => exact .refl s

theorem length_upcoming_of_expect {kind : TokenKind} {message : String}
    {s t : TokenStream} {token : Token} (h : expect kind message s = .ok token t) :
    t.upcoming.length < s.upcoming.length := by
  rw [expect] at h
  split at h
  next hfits =>
      cases h
      exact TokenStream.length_upcoming_advance hfits.1
  next => cases h

/-- Names up to a closing parenthesis or the end, a comma allowed behind each.
    Tokens that end behind a name or its comma are a fault of their own. -/
def parameters (s : TokenStream) : EStateM.Result Fault TokenStream (List String) :=
  if s.atEnd || s.current.kind = .rparen then .ok [] s
  else
    match _hs : expect .identifier "Expect parameter name" s with
    | .error fault t => .error fault t
    | .ok name t =>
        if (passComma t).atEnd then
          .error ((passComma t).fault .unexpectedEndOfInput) (passComma t)
        else
          match parameters (passComma t) with
          | .error fault u => .error fault u
          | .ok names u => .ok (name.text :: names) u
termination_by s.upcoming.length
decreasing_by
  have hexpect := length_upcoming_of_expect _hs
  rcases (reaches_passComma t).eq_or_lt with heq | hlt
  · rw [heq]
    exact hexpect
  · exact Nat.lt_trans hlt hexpect

/-- A function: its name, its parameters, and a body of one expression. -/
def functionDeclaration : Reader Node := do
  let _ ← expect .funcKeyword "Expect 'func' at the start of function declaration"
  let name ← expect .identifier "Expect function name"
  let _ ← expect .lparen "Expect '(' after function name"
  let names ← parameters
  let _ ← expect .rparen "Expect ')' after parameters"
  let _ ← expect .lbrace "Expect '\x7b' before function body"
  let body ← expression
  let _ ← expect .rbrace "Expect '\x7d' after function body"
  return .functionDecl name.text names (.expression body)

/-- A variable: its name and one expression that it begins with. -/
def variableDeclaration : Reader Node := do
  let _ ← expect .letKeyword "Expect 'let' at the start of variable declaration"
  let name ← expect .identifier "Expect variable name"
  let _ ← expect .equals "Expect '=' after variable name"
  let initial ← expression
  return .variableDecl name.text (.expression initial)

/-- An expression that stands by itself. -/
def bareExpression : Reader Node := do
  let e ← expression
  return .expression e

/-- One construct; the current token decides which. -/
def construct : Reader Node := fun s =>
  match s.current.kind with
  | .funcKeyword => functionDeclaration s
  | .letKeyword => variableDeclaration s
  | _ => bareExpression s

-- ── Readers only advance ─────────────────────────────────────────────────

/-- Where a reader leaves the cursor, whether it succeeds or fails. -/
def landing {α : Type} : EStateM.Result Fault TokenStream α → TokenStream
  | .ok _ t => t
  | .error _ t => t

/-- The reader gets from every stream to one that advancing reaches. -/
def Advances {α : Type} (r : Reader α) : Prop :=
  ∀ s : TokenStream, s.Reaches (landing (r s))

theorem Advances.pure {α : Type} (a : α) : Advances (Pure.pure a : Reader α) :=
  fun s => .refl s

theorem Advances.bind {α β : Type} {r : Reader α} {f : α → Reader β}
    (hr : Advances r) (hf : ∀ a, Advances (f a)) : Advances (r >>= f) := by
  intro s
  have h := hr s
  show s.Reaches (landing (EStateM.bind r f s))
  rw [EStateM.bind]
  cases hrs : r s with
  | ok a t =>
      rw [hrs] at h
      exact h.trans (hf a t)
  | error fault t =>
      rw [hrs] at h
      exact h

theorem advances_expect (kind : TokenKind) (message : String) :
    Advances (expect kind message) := by
  intro s
  rw [expect]
  split
  next => exact s.reaches_advance
  next => exact .refl s

theorem advances_expression : Advances expression := by
  intro s
  rw [expression]
  split
  next => exact s.reaches_advance
  next => exact s.reaches_advance
  next => exact s.reaches_advance
  next => exact .refl s

theorem advances_parameters : Advances parameters := by
  intro s
  fun_induction parameters s with
  | case1 s _ => exact .refl s
  | case2 s _ fault t hs =>
      have h := advances_expect .identifier "Expect parameter name" s
      rw [hs] at h
      exact h
  | case3 s _ name t hs _ =>
      have h := advances_expect .identifier "Expect parameter name" s
      rw [hs] at h
      exact h.trans (reaches_passComma t)
  | case4 s _ name t hs _ fault u hu ih =>
      have h := advances_expect .identifier "Expect parameter name" s
      rw [hs] at h
      rw [hu] at ih
      exact (h.trans (reaches_passComma t)).trans ih
  | case5 s _ name t hs _ names u hu ih =>
      have h := advances_expect .identifier "Expect parameter name" s
      rw [hs] at h
      rw [hu] at ih
      exact (h.trans (reaches_passComma t)).trans ih

theorem advances_functionDeclaration : Advances functionDeclaration :=
  (advances_expect _ _).bind fun _ => (advances_expect _ _).bind fun _ =>
    (advances_expect _ _).bind fun _ => advances_parameters.bind fun _ =>
      (advances_expect _ _).bind fun _ => (advances_expect _ _).bind fun _ =>
        advances_expression.bind fun _ => (advances_expect _ _).bind fun _ => .pure _

theorem advances_variableDeclaration : Advances variableDeclaration :=
  (advances_expect _ _).bind fun _ => (advances_expect _ _).bind fun _ =>
    (advances_expect _ _).bind fun _ => advances_expression.bind fun _ => .pure _

theorem advances_construct : Advances construct := by
  intro s
  rw [construct]
  split
  next => exact advances_functionDeclaration s
  next => exact advances_variableDeclaration s
  next => exact (advances_expression.bind fun _ => .pure _) s

/-- The reader, away from the end, takes a token whenever it succeeds. -/
def Takes {α : Type} (r : Reader α) : Prop :=
  ∀ (s t : TokenStream) (a : α), ¬ s.atEnd → r s = .ok a t →
    t.upcoming.length < s.upcoming.length

theorem Takes.bind {α β : Type} {r : Reader α} {f : α → Reader β}
    (hr : Takes r) (hf : ∀ a, Advances (f a)) : Takes (r >>= f) := by
  intro s u b hend hsu
  change EStateM.bind r f s = .ok b u at hsu
  rw [EStateM.bind] at hsu
  cases hrs : r s with
  | ok a t =>
      rw [hrs] at hsu
      have hlt := hr s t a hend hrs
      have hreach := hf a t
      have hfa : f a t = .ok b u := hsu
      rw [hfa] at hreach
      rcases hreach.eq_or_lt with heq | hless
      · have hut : u = t := heq
        rw [hut]
        exact hlt
      · exact Nat.lt_trans hless hlt
  | error fault t =>
      rw [hrs] at hsu
      cases hsu

theorem takes_expect (kind : TokenKind) (message : String) :
    Takes (expect kind message) :=
  fun _ _ _ _ h => length_upcoming_of_expect h

theorem takes_expression : Takes expression := by
  intro s t e hend h
  rw [expression] at h
  split at h
  next => cases h; exact TokenStream.length_upcoming_advance hend
  next => cases h; exact TokenStream.length_upcoming_advance hend
  next => cases h; exact TokenStream.length_upcoming_advance hend
  next => cases h

theorem takes_construct : Takes construct := by
  intro s t node hend h
  rw [construct] at h
  split at h
  next =>
      exact (takes_expect _ _).bind (fun _ => (advances_expect _ _).bind fun _ =>
        (advances_expect _ _).bind fun _ => advances_parameters.bind fun _ =>
          (advances_expect _ _).bind fun _ => (advances_expect _ _).bind fun _ =>
            advances_expression.bind fun _ => (advances_expect _ _).bind fun _ => .pure _)
        s t node hend h
  next =>
      exact (takes_expect _ _).bind (fun _ => (advances_expect _ _).bind fun _ =>
        (advances_expect _ _).bind fun _ => advances_expression.bind fun _ => .pure _)
        s t node hend h
  next => exact takes_expression.bind (fun _ => .pure _) s t node hend h

-- ── Programs ─────────────────────────────────────────────────────────────

/-- Where reading goes on after a construct that began at `s` was misread up
    to `t`: right there if it got ahead and a construct can start there, and
    otherwise where the stream resumes. -/
def resume (s t : TokenStream) : TokenStream :=
  if t.index ≠ s.index ∧ t.current.kind.startsConstruct then t else t.synchronize

theorem reaches_resume (s t : TokenStream) : t.Reaches (resume s t) := by
  rw [resume]
  split
  next => exact .refl t
  next => exact t.reaches_synchronize

/-- Reading never goes on at the token where the misread construct began. -/
theorem length_upcoming_resume {s t : TokenStream} (hend : ¬ s.atEnd)
    (hst : s.Reaches t) : (resume s t).upcoming.length < s.upcoming.length := by
  rcases hst.eq_or_lt with heq | hlt
  · rw [resume, heq, if_neg (fun h => h.1 rfl)]
    exact TokenStream.length_upcoming_synchronize hend
  · rcases (reaches_resume s t).eq_or_lt with heq | hless
    · rw [heq]
      exact hlt
    · exact Nat.lt_trans hless hlt

/-- What was read of a program: its constructs and the faults of the misread
    ones, both in order, and where the cursor stands. -/
structure Reading where
  nodes : List Node
  faults : List Fault
  stream : TokenStream
  deriving DecidableEq

/-- The program with a construct in front. -/
def Reading.withNode (r : Reading) (node : Node) : Reading :=
  { r with nodes := node :: r.nodes }

/-- The program with a misread construct in front. -/
def Reading.withFault (r : Reading) (fault : Fault) : Reading :=
  { r with faults := fault :: r.faults }

/-- Constructs up to the end of the stream, the misread ones left out. -/
def program (s : TokenStream) : Reading :=
  if _h : s.atEnd then ⟨[], [], s⟩
  else
    match _hs : construct s with
    | .ok node t => (program t).withNode node
    | .error fault t => (program (resume s t)).withFault fault
termination_by s.upcoming.length
decreasing_by
  · exact takes_construct s t node _h _hs
  · have hreach := advances_construct s
    rw [_hs] at hreach
    exact length_upcoming_resume _h hreach

end Grammar

end BraceLang
