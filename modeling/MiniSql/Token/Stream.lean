import MiniSql.Token

/-!
# Token streams

What a parser has in front of it: the tokens still to be read, and the place where reading them
ends. Line breaks carry no meaning in the grammar and are left out, and nothing behind the first
`finish` token counts, so a stream holds significant tokens only (`significant_of_ofTokens`).
-/

namespace MiniSql

/-- The tokens still to be read, and the place of their end. -/
structure TokenStream where
  tokens : List Token
  finish : Position

namespace TokenStream

/-- The stream of a list of tokens. Its end is where the `finish` token stands; a list without one
ends where its last token stands, and an empty list at the first place of a text. -/
def ofTokens (tokens : List Token) : TokenStream :=
  let visible := tokens.filter fun t => t.kind != .lineBreak
  { tokens := visible.takeWhile fun t => !t.isFinish
    finish := ((visible.find? Token.isFinish).or visible.getLast?).elim .first Token.position }

/-- The place of the next token, or of the end. -/
def here (s : TokenStream) : Position := s.tokens.head?.elim s.finish Token.position

/-- The next token as messages show it. -/
def next (s : TokenStream) : String := s.tokens.head?.elim TokenKind.finish.render Token.render

/-- The parser sees neither line breaks nor the end mark. -/
theorem significant_of_ofTokens {tokens : List Token} {t : Token}
    (h : t ∈ (ofTokens tokens).tokens) : t.kind ≠ .lineBreak ∧ t.kind ≠ .finish := by
  have hmem := (List.takeWhile_prefix _).subset h
  have hpass := List.all_takeWhile (p := fun t : Token => !t.isFinish)
    (l := tokens.filter fun t => t.kind != .lineBreak)
  have := List.all_eq_true.1 hpass t h
  simp_all [Token.isFinish]

end TokenStream

end MiniSql
