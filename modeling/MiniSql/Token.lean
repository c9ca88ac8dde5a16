import MiniSql.Text.Ascii

/-!
# Tokens

A token is a lexeme's kind, its text and the place where it starts. Keywords are not a kind of their
own: `SELECT` is an identifier, and `Token.isKeyword` tells it by its text, ignoring letter case.
-/

namespace MiniSql

/-- A place in a text. Lines and columns count from 1, columns in characters. -/
structure Position where
  line : Nat
  column : Nat
  deriving DecidableEq

namespace Position

/-- The place of a text's first character. -/
def first : Position := ⟨1, 1⟩

instance : Inhabited Position := ⟨first⟩

/-- The place after one character: a line break opens the next line. -/
def next (p : Position) (c : Char) : Position :=
  if c = '\n' then ⟨p.line + 1, 1⟩ else ⟨p.line, p.column + 1⟩

/-- The place after a run of characters. -/
def advance (p : Position) (cs : List Char) : Position := cs.foldl next p

@[simp] theorem advance_nil (p : Position) : p.advance [] = p := rfl

@[simp] theorem advance_cons (p : Position) (c : Char) (cs : List Char) :
    p.advance (c :: cs) = (p.next c).advance cs := rfl

theorem advance_append (p : Position) (cs ds : List Char) :
    p.advance (cs ++ ds) = (p.advance cs).advance ds := by
  simp [advance]

/-- A place as messages show it. -/
def render (p : Position) : String := s!"line {p.line}, column {p.column}"

end Position

/-- The kinds of token. `invalid` stands for text that is no token, `finish` for the end. -/
inductive TokenKind
  | identifier | number | string | trueLiteral | falseLiteral
  | comma | semicolon | leftParen | rightParen | asterisk
  | equal | unequal | less | lessEqual | greater | greaterEqual
  | lineBreak | invalid | finish
  deriving DecidableEq

/-- A kind as messages show it. -/
def TokenKind.render : TokenKind → String
  | identifier => "identifier"
  | number => "number"
  | string => "string"
  | trueLiteral => "'TRUE'"
  | falseLiteral => "'FALSE'"
  | comma => "','"
  | semicolon => "';'"
  | leftParen => "'('"
  | rightParen => "')'"
  | asterisk => "'*'"
  | equal => "'='"
  | unequal => "'!='"
  | less => "'<'"
  | lessEqual => "'<='"
  | greater => "'>'"
  | greaterEqual => "'>='"
  | lineBreak => "newline"
  | invalid => "invalid token"
  | finish => "end of input"

/-- A token. The text of a string or a quoted identifier is its content; the text of an invalid
token is the message about it. -/
structure Token where
  kind : TokenKind
  text : String
  position : Position
  deriving DecidableEq

namespace Token

/-- A token as messages show it: with its text where the kind alone says too little. -/
def render (t : Token) : String :=
  match t.kind with
  | .identifier => s!"identifier '{t.text}'"
  | .number => s!"number '{t.text}'"
  | .string => s!"string '{t.text}'"
  | .invalid => t.text
  | kind => kind.render

/-- The token that ends every token list made from a text. -/
def isFinish (t : Token) : Bool := t.kind == .finish

/-- An identifier spelled like the given keyword, ignoring ASCII case. A quoted identifier counts
too: quoting does not show in a token. -/
def isKeyword (t : Token) (keyword : String) : Bool :=
  t.kind == .identifier && Text.sameIgnoringCase t.text keyword

end Token

end MiniSql
