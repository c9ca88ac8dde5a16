import MiniSql.Token.Stream

/-!
# Parse errors

A rule of the grammar that cannot go on has a `Complaint`: what it expected, or a number token that
writes no number. Seen together with the token in front of it, the complaint becomes a `ParseError`
with a cause and a place. An invalid token words its own error.
-/

namespace MiniSql

/-- What a rule of the grammar looks for. -/
inductive Expectation
  | keyword (word : String)
  | token (kind : TokenKind)
  | statement
  | expression
  | tableName
  | columnName
  deriving DecidableEq

/-- An expectation as messages show it. -/
def Expectation.render : Expectation → String
  | .keyword word => s!"keyword '{word}'"
  | .token kind => kind.render
  | .statement => "statement"
  | .expression => "expression"
  | .tableName => "table name"
  | .columnName => "column name"

/-- Why a rule cannot go on at the next token. -/
inductive Complaint
  | expected (what : Expectation)
  | badNumber
  deriving DecidableEq

/-- What is wrong with a text. -/
inductive ParseError.Cause
  | unexpected (expected found : String)
  /-- A problem with words of its own, such as an invalid token's. -/
  | stated (message : String)
  deriving DecidableEq

/-- What is wrong with a text, and where. -/
structure ParseError where
  cause : ParseError.Cause
  position : Position
  deriving DecidableEq

namespace ParseError

/-- The message, without the place. -/
def text (e : ParseError) : String :=
  match e.cause with
  | .unexpected expected found => s!"expected {expected}, found {found}"
  | .stated message => message

/-- The message with the place. -/
def render (e : ParseError) : String := s!"{e.text} at {e.position.render}"

end ParseError

/-- The cause that a complaint has at the next token of a stream. -/
def Complaint.cause (s : TokenStream) : Complaint → ParseError.Cause
  | .badNumber => .stated "invalid number literal"
  | .expected what =>
    match s.tokens with
    | t :: _ =>
      if t.kind = .invalid then .stated t.text else .unexpected what.render t.render
    | [] => .unexpected what.render s.next

/-- The error that a complaint is at the next token of a stream. -/
def Complaint.report (s : TokenStream) (c : Complaint) : ParseError := ⟨c.cause s, s.here⟩

end MiniSql
