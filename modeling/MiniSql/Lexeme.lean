import MiniSql.Text.Blank
import MiniSql.Text.Quoted
import MiniSql.Token

/-!
# Lexemes

A text is cut from left to right into *lexemes*, each of them a nonempty run of characters. A lexeme
stands for a token or for nothing (a gap: a blank or a comment). Each step of `cut` takes at least
one character, and the characters that a lexeme takes are its `source`.

Every text can be cut. What is no lexeme of the language is an `invalid` token whose text is the
message about it, and cutting goes on behind it.

Tokens then only need places: `place` walks over the lexemes and gives each token the position of
its first character.
-/

namespace MiniSql

/-- A run of characters, with the kind and the text of the token that it stands for, if any. -/
structure Lexeme where
  source : List Char
  token? : Option (TokenKind × String)

namespace Lexeme

/-- A lexeme that stands for nothing. -/
def gap (source : List Char) : Lexeme := ⟨source, none⟩

/-- A lexeme that stands for a token. -/
def token (kind : TokenKind) (source : List Char) (text : String) : Lexeme :=
  ⟨source, some (kind, text)⟩

/-- A lexeme whose token carries the characters as they are written. -/
def verbatim (kind : TokenKind) (source : List Char) : Lexeme :=
  token kind source (String.ofList source)

/-- A run of characters that is no lexeme of the language. -/
def invalid (source : List Char) (message : String) : Lexeme := token .invalid source message

/-! ## Comments -/

/-- A line comment ends before the line break. -/
def lineComment (cs : List Char) : List Char := cs.takeWhile (· != '\n')

/-- The part of a block comment behind its opening mark, where `depth` comments are open. Block
comments nest. There is no answer when one of them is never closed. -/
def commentTail? : Nat → List Char → Option (List Char)
  | 0, _ => some []
  | _ + 1, [] => none
  | depth + 1, '/' :: '*' :: cs => (commentTail? (depth + 2) cs).map ('/' :: '*' :: ·)
  | depth + 1, '*' :: '/' :: cs => (commentTail? depth cs).map ('*' :: '/' :: ·)
  | depth + 1, c :: cs => (commentTail? (depth + 1) cs).map (c :: ·)

/-- A block comment, given what follows its opening mark. -/
def blockComment (cs : List Char) : Lexeme :=
  match commentTail? 1 cs with
  | some tail => gap ('/' :: '*' :: tail)
  | none => invalid ('/' :: '*' :: cs) "unterminated block comment"

/-! ## Quoted lexemes -/

/-- A quoted lexeme, given what follows its opening mark. -/
def quoted (kind : TokenKind) (mark : Char) (missing : String) (cs : List Char) : Lexeme :=
  match Text.body? mark cs with
  | some (body, _) => token kind (Text.quote mark body) (String.ofList body)
  | none => invalid (mark :: cs) missing

/-! ## Numbers -/

/-- A point and the digits behind it, where at least one digit follows the point. -/
def fraction : List Char → List Char
  | '.' :: c :: cs => if c.isDigit then '.' :: (c :: cs).takeWhile Char.isDigit else []
  | _ => []

/-- A plus or minus sign, if there is one. -/
def sign : List Char → List Char
  | '+' :: _ => ['+']
  | '-' :: _ => ['-']
  | _ => []

/-- The exponent mark and its sign, if there is a mark. -/
def exponentMark : List Char → List Char
  | 'e' :: cs => 'e' :: sign cs
  | 'E' :: cs => 'E' :: sign cs
  | _ => []

/-- A number without its minus sign: digits, a fraction if there is one, an exponent if there is
one. An exponent mark without digits spoils the number. -/
def number (minus cs : List Char) : Lexeme :=
  let whole := cs.takeWhile Char.isDigit
  let part := fraction (cs.dropWhile Char.isDigit)
  let rest := cs.drop (whole.length + part.length)
  let mark := exponentMark rest
  let digits := (rest.drop mark.length).takeWhile Char.isDigit
  if mark = [] then verbatim .number (minus ++ whole ++ part)
  else if digits = [] then invalid (minus ++ whole ++ part ++ mark) "invalid number literal"
  else verbatim .number (minus ++ whole ++ part ++ mark ++ digits)

/-! ## Bare names -/

/-- The kind of a bare name: the two Boolean literals are told by their text, ignoring case. -/
def nameKind (text : String) : TokenKind :=
  if Text.sameIgnoringCase text "true" then .trueLiteral
  else if Text.sameIgnoringCase text "false" then .falseLiteral
  else .identifier

/-- A bare name: the longest run of name characters. -/
def name (cs : List Char) : Lexeme :=
  let source := cs.takeWhile Text.continuesName
  token (nameKind (String.ofList source)) source (String.ofList source)

/-! ## Operators and punctuation -/

/-- The operators of two characters. -/
def pairKind? : Char → Char → Option TokenKind
  | '<', '>' => some .unequal
  | '!', '=' => some .unequal
  | '<', '=' => some .lessEqual
  | '>', '=' => some .greaterEqual
  | _, _ => none

/-- The operators and punctuation marks of one character. -/
def singleKind? : Char → Option TokenKind
  | '*' => some .asterisk
  | '=' => some .equal
  | '<' => some .less
  | '>' => some .greater
  | '(' => some .leftParen
  | ')' => some .rightParen
  | ',' => some .comma
  | ';' => some .semicolon
  | _ => none

/-- One character on its own: an operator, a punctuation mark, or no lexeme at all. -/
def single (c : Char) : Lexeme :=
  match singleKind? c with
  | some kind => verbatim kind [c]
  | none => invalid [c] s!"unexpected character '{c}'"

/-- An operator or a punctuation mark: two characters where they make an operator, else one. -/
def mark (c : Char) (cs : List Char) : Lexeme :=
  match cs with
  | [] => single c
  | d :: _ =>
    match pairKind? c d with
    | some kind => verbatim kind [c, d]
    | none => single c

/-! ## Cutting -/

/-- The lexeme at the start of a nonempty text. -/
def scan (c : Char) (cs : List Char) : Lexeme :=
  if c = '\n' then verbatim .lineBreak [c]
  else if Text.isBlank c then gap [c]
  else if c = '-' ∧ cs.head? = some '-' then gap ('-' :: lineComment cs)
  else if c = '/' ∧ cs.head? = some '*' then blockComment cs.tail
  else if c = '\'' then quoted .string c "unterminated string literal" cs
  else if c = '"' then quoted .identifier c "unterminated quoted identifier" cs
  else if c.isDigit then number [] (c :: cs)
  else if c = '-' ∧ cs.head?.any Char.isDigit then number [c] cs
  else if Text.startsName c then name (c :: cs)
  else mark c cs

/-- Cuts a text into its lexemes. -/
def cut : List Char → List Lexeme
  | [] => []
  | c :: cs =>
    let lexeme := scan c cs
    lexeme :: cut (cs.drop (lexeme.source.length - 1))
termination_by cs => cs.length
decreasing_by simp only [List.length_drop, List.length_cons]; omega

theorem cut_nil : cut [] = [] := by rw [cut]

theorem cut_cons (c : Char) (cs : List Char) :
    cut (c :: cs) = scan c cs :: cut (cs.drop ((scan c cs).source.length - 1)) := by rw [cut]

end Lexeme

/-! ## Tokens in their places -/

/-- Gives the tokens of a run of lexemes their places, and ends them with the `finish` token. -/
def Token.place (p : Position) : List Lexeme → List Token
  | [] => [⟨.finish, "", p⟩]
  | lexeme :: rest =>
    match lexeme.token? with
    | some (kind, text) => ⟨kind, text, p⟩ :: place (p.advance lexeme.source) rest
    | none => place (p.advance lexeme.source) rest

/-- The tokens of a text, in order, the `finish` token last. -/
def tokenize (text : String) : List Token := Token.place .first (Lexeme.cut text.toList)

end MiniSql
