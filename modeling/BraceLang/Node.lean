/-! # Nodes — what a program is made of

    A program is a list of top-level nodes: function declarations, variable
    declarations and bare expressions.  An expression is one token: the text
    of a number or a name, or the text of a string.  Each node has a one-line
    description; it names the declaration but does not show its body. -/

namespace BraceLang

/-- Where the value of an expression comes from. -/
inductive ExpressionKind where
  /-- A number or a name, told apart by the text alone. -/
  | literal
  /-- A quoted text. -/
  | stringLiteral
  deriving DecidableEq

/-- An expression of one token. -/
structure Expression where
  kind : ExpressionKind
  /-- The text of the token, for a string without its quotes. -/
  value : String
  deriving DecidableEq

/-- A construct of a program. -/
inductive Node where
  /-- A function with its parameters in order; a parameter may come twice. -/
  | functionDecl (name : String) (parameters : List String) (body : Node)
  /-- A variable and what it begins with. -/
  | variableDecl (name : String) (initial : Node)
  | expression (e : Expression)
  deriving DecidableEq

/-- The description of an expression: what it is, and its value. -/
def Expression.describe (e : Expression) : String :=
  match e.kind with
  | .literal => "Expression: " ++ e.value
  | .stringLiteral => "String Literal: " ++ e.value

namespace Node

/-- The description of a node.  A blank follows each parameter. -/
def describe : Node → String
  | functionDecl name parameters _ =>
      "Function: " ++ name ++ "("
        ++ String.join (parameters.map (fun parameter => parameter ++ " ")) ++ ")"
  | variableDecl name _ => "Variable: " ++ name
  | expression e => e.describe

end Node

end BraceLang
