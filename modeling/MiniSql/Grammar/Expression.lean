import MiniSql.Grammar.Rule
import MiniSql.Numeric.Numeral
import MiniSql.Program

/-!
# The grammar of expressions

From the loosest binding to the tightest:

* operands joined by `OR`, to the left;
* operands joined by `AND`, to the left;
* at most one `=` or `!=`;
* at most one `<`, `<=`, `>` or `>=`;
* a number, a string, a Boolean, an identifier, or an array: primaries in parentheses, separated by
  commas.

Comparisons do not chain: a second one at the same level is left in the stream.
-/

namespace MiniSql.Grammar

/-! ## Primaries -/

mutual

/-- A literal, an identifier or an array. -/
def primary : (ts : List Token) → Step Expr ts
  | [] => .stuck (.expected .expression)
  | t :: ts =>
    match t.kind with
    | .number =>
      match Numeral.read? t.text with
      | some value => .took (.number value)
      | none => .stuck .badNumber
    | .string => .took (.string t.text)
    | .trueLiteral => .took (.boolean true)
    | .falseLiteral => .took (.boolean false)
    | .identifier => .took (.identifier t.text)
    | .leftParen => ((arrayTail ts).map .array).widen (List.suffix_cons t ts)
    | _ => .stuck (.expected .expression)
termination_by ts => 3 * ts.length

/-- An array behind its opening parenthesis. -/
def arrayTail : (ts : List Token) → Step (List Expr) ts
  | [] => .stuck (.expected .expression)
  | t :: ts => if t.kind = .rightParen then .took [] else elements (t :: ts)
termination_by ts => 3 * ts.length + 2

/-- The elements of an array, at least one, and its closing parenthesis. -/
def elements (ts : List Token) : Step (List Expr) ts :=
  match primary ts with
  | ⟨.error c, rest, h⟩ => ⟨.error c, rest, h⟩
  | ⟨.ok _, [], h⟩ => ⟨.error (.expected (.token .rightParen)), [], h⟩
  | ⟨.ok e, t :: rest, h⟩ =>
    if t.kind = .comma then
      ((elements rest).map (e :: ·)).widen ((List.suffix_cons t rest).trans h)
    else if t.kind = .rightParen then ⟨.ok [e], rest, (List.suffix_cons t rest).trans h⟩
    else ⟨.error (.expected (.token .rightParen)), t :: rest, h⟩
termination_by 3 * ts.length + 1
decreasing_by
  · omega
  · have := h.length_le
    simp only [List.length_cons] at this
    omega

end

/-- An array. -/
def array : Rule Expr := do
  Rule.token .leftParen
  return .array (← arrayTail)

/-! ## Operators -/

/-- The operators of the looser comparison level. -/
def equality? : TokenKind → Option BinaryOp
  | .equal => some .equal
  | .unequal => some .unequal
  | _ => none

/-- The operators of the tighter comparison level. -/
def relation? : TokenKind → Option BinaryOp
  | .less => some .less
  | .lessEqual => some .lessEqual
  | .greater => some .greater
  | .greaterEqual => some .greaterEqual
  | _ => none

/-- One operand, or two with an operator between them. -/
def atMostOne (op? : TokenKind → Option BinaryOp) (operand : Rule Expr) : Rule Expr := do
  let left ← operand
  match ← Rule.take? fun t => op? t.kind with
  | none => return left
  | some op => return .binary left op (← operand)

/-- Operands joined by a keyword; the joins group to the left. -/
def joined (word : String) (op : BinaryOp) (operand : Rule Expr) : Rule Expr := do
  let first ← operand
  let others ← Rule.many (·.isKeyword word) operand
  return others.foldl (Expr.binary · op ·) first

/-- At most one `<`, `<=`, `>` or `>=`. -/
def relation : Rule Expr := atMostOne relation? primary

/-- At most one `=` or `!=`. -/
def equality : Rule Expr := atMostOne equality? relation

/-- Operands joined by `AND`. -/
def conjunction : Rule Expr := joined "AND" .and equality

/-- Operands joined by `OR`. -/
def disjunction : Rule Expr := joined "OR" .or conjunction

/-- An expression. -/
def expression : Rule Expr := disjunction

end MiniSql.Grammar
