import MiniSql.Proofs.Wording
import MiniSql.Text.Blank
import MiniSql.Text.Quoted

/-!
# Layouts

How a wording is laid out as text. A word may have several spellings: keywords and Boolean literals
in any letter case, names bare or quoted, numbers in any decimal notation, `!=` also as `<>`.
Between two words stands a nonempty run of blanks and comments, and around the whole text any run of
them. `Program.IsLaidOut` is the relation between a program and its texts.
-/

namespace MiniSql

/-! ## Between the words -/

/-- The text of a block comment behind its opening mark, where so many comments are open. Marks are
told from left to right: a mark's second character does not start another one. -/
inductive ClosesComments : Nat → List Char → Prop
  | done : ClosesComments 0 []
  | opening {depth : Nat} {cs : List Char} (h : ClosesComments (depth + 2) cs) :
      ClosesComments (depth + 1) ('/' :: '*' :: cs)
  | closing {depth : Nat} {cs : List Char} (h : ClosesComments depth cs) :
      ClosesComments (depth + 1) ('*' :: '/' :: cs)
  | other {depth : Nat} {c : Char} {cs : List Char} (hopening : ¬ ['/', '*'] <+: c :: cs)
      (hclosing : ¬ ['*', '/'] <+: c :: cs) (h : ClosesComments (depth + 1) cs) :
      ClosesComments (depth + 1) (c :: cs)

/-- A blank or a comment. Line breaks are blanks, and a line comment ends with one. -/
inductive Trivium : List Char → Prop
  | blank {c : Char} (h : Text.isBlank c = true) : Trivium [c]
  | lineComment {cs : List Char} (h : '\n' ∉ cs) : Trivium ('-' :: '-' :: cs ++ ['\n'])
  | blockComment {cs : List Char} (h : ClosesComments 1 cs) : Trivium ('/' :: '*' :: cs)

inductive Trivia : List Char → Prop
  | nil : Trivia []
  | cons {us cs : List Char} (h : Trivium us) (hs : Trivia cs) : Trivia (us ++ cs)

/-! ## Spelling a word -/

def IsDigits (ds : List Char) : Prop := ds ≠ [] ∧ ∀ d ∈ ds, d.isDigit = true

inductive IsFraction : List Char → Prop
  | absent : IsFraction []
  | present {ds : List Char} (h : IsDigits ds) : IsFraction ('.' :: ds)

inductive IsExponent : List Char → Prop
  | absent : IsExponent []
  | present {mark : Char} {sign ds : List Char} (hmark : mark ∈ ['e', 'E'])
      (hsign : sign ∈ [[], ['+'], ['-']]) (h : IsDigits ds) : IsExponent (mark :: (sign ++ ds))

/-- The decimal notation of numbers in a text. It has fewer forms than `Numeral.read?` reads. -/
inductive IsDecimal : List Char → Prop
  | mk {minus whole part exponent : List Char} (hminus : minus ∈ [[], ['-']])
      (hwhole : IsDigits whole) (hpart : IsFraction part) (hexponent : IsExponent exponent) :
      IsDecimal (minus ++ (whole ++ (part ++ exponent)))

inductive IsBare : List Char → Prop
  | mk {c : Char} {cs : List Char} (h : Text.startsName c = true)
      (hs : ∀ d ∈ cs, Text.continuesName d = true) : IsBare (c :: cs)

/-- The spellings of operators and punctuation marks. -/
def TokenKind.spellings : TokenKind → List String
  | comma => [","]
  | semicolon => [";"]
  | leftParen => ["("]
  | rightParen => [")"]
  | asterisk => ["*"]
  | equal => ["="]
  | unequal => ["!=", "<>"]
  | less => ["<"]
  | lessEqual => ["<="]
  | greater => [">"]
  | greaterEqual => [">="]
  | _ => []

def Word.Spells : Word → String → Prop
  | keyword k, text => Text.sameIgnoringCase text k.text = true
  | name n, text => text.toList = Text.quote '"' n.toList ∨
      text = n ∧ IsBare n.toList ∧ Text.sameIgnoringCase n "true" = false ∧
        Text.sameIgnoringCase n "false" = false
  | number value, text => IsDecimal text.toList ∧ Numeral.read? text = some value
  | string content, text => text.toList = Text.quote '\'' content.toList
  | boolean value, text => Text.sameIgnoringCase text (if value then "true" else "false") = true
  | mark kind, text => text ∈ kind.spellings

/-! ## Laying out a wording -/

/-- Spelled words, each with what stands behind it. -/
inductive Spaced : List Word → List Char → Prop
  | last {w : Word} {text : String} {gap : List Char} (hw : w.Spells text) (hgap : Trivia gap) :
      Spaced [w] (text.toList ++ gap)
  | more {w : Word} {ws : List Word} {text : String} {gap cs : List Char} (hw : w.Spells text)
      (hgap : Trivia gap) (hne : gap ≠ []) (h : Spaced ws cs) :
      Spaced (w :: ws) (text.toList ++ (gap ++ cs))

/-- The texts of a program. -/
inductive Program.IsLaidOut (p : Program) : String → Prop
  | mk {lead cs : List Char} (hlead : Trivia lead) (h : Spaced p.words cs) :
      IsLaidOut p (String.ofList (lead ++ cs))

end MiniSql
