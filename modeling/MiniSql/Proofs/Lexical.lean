import MiniSql.Proofs.Layout

/-!
# The lexical grammar

What the lexemes of a text are, class by class, and how a text divides into them:

```text
text       := gap (token gap)*
gap        := (blank | '--' other-than-line-break* | closed-comment)*
token      := line-break | bare-name | quoted-name | string | number | mark | broken
number     := '-'? digits ('.' digits)? (('e' | 'E') ('+' | '-')? digits)?
bare-name  := [A-Za-z_] [A-Za-z0-9_]*
```

Everywhere the longest lexeme counts, of all classes. Broken lexemes are those that are never closed
and numbers whose exponent has no digits; where no lexeme at all begins, one character is
unexpected. `Divided` is the relation between a text and its tokens.
-/

namespace MiniSql

/-- A number whose exponent has no digits. -/
inductive IsBroken : List Char → Prop
  | mk {minus whole part sign : List Char} {mark : Char} (hminus : minus ∈ [[], ['-']])
      (hwhole : IsDigits whole) (hpart : IsFraction part) (hmark : mark ∈ ['e', 'E'])
      (hsign : sign ∈ [[], ['+'], ['-']]) : IsBroken (minus ++ (whole ++ (part ++ mark :: sign)))

/-- The characters of a lexeme, and the token that it stands for, if any. -/
inductive Shape : List Char → Option (TokenKind × String) → Prop
  | blank {c : Char} (h : Text.isBlank c = true) (hne : c ≠ '\n') : Shape [c] none
  | lineComment {cs : List Char} (h : '\n' ∉ cs) : Shape ('-' :: '-' :: cs) none
  | blockComment {cs : List Char} (h : ClosesComments 1 cs) : Shape ('/' :: '*' :: cs) none
  | lineBreak : Shape ['\n'] (some (.lineBreak, "\n"))
  | trueLiteral {cs : List Char} (h : IsBare cs)
      (htrue : Text.sameIgnoringCase (String.ofList cs) "true" = true) :
      Shape cs (some (.trueLiteral, String.ofList cs))
  | falseLiteral {cs : List Char} (h : IsBare cs)
      (hfalse : Text.sameIgnoringCase (String.ofList cs) "false" = true) :
      Shape cs (some (.falseLiteral, String.ofList cs))
  | name {cs : List Char} (h : IsBare cs)
      (htrue : Text.sameIgnoringCase (String.ofList cs) "true" = false)
      (hfalse : Text.sameIgnoringCase (String.ofList cs) "false" = false) :
      Shape cs (some (.identifier, String.ofList cs))
  | quotedName (body : List Char) :
      Shape (Text.quote '"' body) (some (.identifier, String.ofList body))
  | string (body : List Char) : Shape (Text.quote '\'' body) (some (.string, String.ofList body))
  | number {cs : List Char} (h : IsDecimal cs) : Shape cs (some (.number, String.ofList cs))
  | mark {kind : TokenKind} {text : String} (h : text ∈ kind.spellings) :
      Shape text.toList (some (kind, text))
  | brokenNumber {cs : List Char} (h : IsBroken cs) :
      Shape cs (some (.invalid, "invalid number literal"))
  | openName (body : List Char) :
      Shape ('"' :: Text.double '"' body) (some (.invalid, "unterminated quoted identifier"))
  | openString (body : List Char) :
      Shape ('\'' :: Text.double '\'' body) (some (.invalid, "unterminated string literal"))
  | openComment {cs : List Char} (h : ∀ us, us <+: cs → ¬ ClosesComments 1 us) :
      Shape ('/' :: '*' :: cs) (some (.invalid, "unterminated block comment"))

/-- The lexeme that a text begins with, its token if it has one, and what follows it. -/
inductive Next : List Char → Option (TokenKind × String) → List Char → Prop
  | longest {us rest : List Char} {token? : Option (TokenKind × String)} (h : Shape us token?)
      (hlongest : ∀ vs token?, Shape vs token? → vs <+: us ++ rest → vs.length ≤ us.length) :
      Next us token? rest
  | unexpected {c : Char} {rest : List Char}
      (h : ∀ vs token?, Shape vs token? → ¬ vs <+: c :: rest) :
      Next [c] (some (.invalid, s!"unexpected character '{c}'")) rest

/-- Blanks and comments in front of what follows them. -/
inductive Gap : List Char → List Char → Prop
  | nil {rest : List Char} : Gap [] rest
  | cons {us gap rest : List Char} (h : Next us none (gap ++ rest)) (hs : Gap gap rest) :
      Gap (us ++ gap) rest

/-- A text divides into gaps and lexemes with these tokens. -/
inductive Divided : List Char → List (TokenKind × String) → Prop
  | last {gap : List Char} (hgap : Gap gap []) : Divided gap []
  | more {gap us rest : List Char} {token : TokenKind × String}
      {tokens : List (TokenKind × String)} (hgap : Gap gap (us ++ rest))
      (h : Next us (some token) rest) (hs : Divided rest tokens) :
      Divided (gap ++ (us ++ rest)) (token :: tokens)

end MiniSql
