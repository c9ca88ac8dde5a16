import MiniSql.Numeric.Numeral
import MiniSql.Program
import MiniSql.Token

/-!
# Phrases of the grammar

The grammar as relations between token lists and what they stand for. `Phrase.Program ts p` says
that the tokens `ts`, all of them and nothing else, derive the program `p`:

```text
program     := (statement ';')+
statement   := SELECT ('*' | names) FROM name (WHERE expression)? (GROUP BY names)?
             | INSERT INTO name ('(' names ')')? VALUES array
names       := name (',' name)*
expression  := conjunction | expression OR conjunction
conjunction := equality | conjunction AND equality
equality    := relation (('=' | '!=') relation)?
relation    := primary (('<' | '<=' | '>' | '>=') primary)?
primary     := number | string | TRUE | FALSE | name | array
array       := '(' (primary (',' primary)*)? ')'
```

Nothing here reads tokens from left to right: a constructor is a rule of the grammar, and a token
list derives something if it can be cut into pieces that do. A number token counts only if its text
writes a number. A keyword is an identifier token with the keyword's spelling up to letter case,
while a name is any identifier token, also one that is spelled like a keyword.
-/

namespace MiniSql.Phrase

variable {α : Type}

/-! ## Names and primaries -/

inductive Names : List Token → List String → Prop
  | one {t : Token} (ht : t.kind = .identifier) : Names [t] [t.text]
  | more {t c : Token} {us : List Token} {ns : List String} (ht : t.kind = .identifier)
      (hc : c.kind = .comma) (h : Names us ns) : Names (t :: c :: us) (t.text :: ns)

mutual

inductive Primary : List Token → Expr → Prop
  | number {t : Token} {value : Binary64} (ht : t.kind = .number)
      (hv : Numeral.read? t.text = some value) : Primary [t] (.number value)
  | string {t : Token} (ht : t.kind = .string) : Primary [t] (.string t.text)
  | trueLiteral {t : Token} (ht : t.kind = .trueLiteral) : Primary [t] (.boolean true)
  | falseLiteral {t : Token} (ht : t.kind = .falseLiteral) : Primary [t] (.boolean false)
  | identifier {t : Token} (ht : t.kind = .identifier) : Primary [t] (.identifier t.text)
  | array {us : List Token} {es : List Expr} (h : Parenthesized us es) : Primary us (.array es)

/-- The elements of an array between its parentheses. -/
inductive Parenthesized : List Token → List Expr → Prop
  | empty {o c : Token} (ho : o.kind = .leftParen) (hc : c.kind = .rightParen) :
      Parenthesized [o, c] []
  | filled {o c : Token} {us : List Token} {es : List Expr} (ho : o.kind = .leftParen)
      (h : Elements us es) (hc : c.kind = .rightParen) : Parenthesized (o :: us ++ [c]) es

inductive Elements : List Token → List Expr → Prop
  | one {us : List Token} {e : Expr} (h : Primary us e) : Elements us [e]
  | more {c : Token} {us vs : List Token} {e : Expr} {es : List Expr} (h : Primary us e)
      (hc : c.kind = .comma) (hs : Elements vs es) : Elements (us ++ c :: vs) (e :: es)

end

/-! ## Operators -/

inductive RelationSign : TokenKind → BinaryOp → Prop
  | less : RelationSign .less .less
  | lessEqual : RelationSign .lessEqual .lessEqual
  | greater : RelationSign .greater .greater
  | greaterEqual : RelationSign .greaterEqual .greaterEqual

inductive EqualitySign : TokenKind → BinaryOp → Prop
  | equal : EqualitySign .equal .equal
  | unequal : EqualitySign .unequal .unequal

/-- One operand, or two with a sign between them. -/
inductive AtMostOne (Sign : TokenKind → BinaryOp → Prop) (Operand : List Token → Expr → Prop) :
    List Token → Expr → Prop
  | one {us : List Token} {e : Expr} (h : Operand us e) : AtMostOne Sign Operand us e
  | two {t : Token} {us vs : List Token} {l r : Expr} {op : BinaryOp} (hl : Operand us l)
      (ht : Sign t.kind op) (hr : Operand vs r) :
      AtMostOne Sign Operand (us ++ t :: vs) (.binary l op r)

/-- Operands joined by a keyword, to the left: what stands before the last keyword is its left
operand. -/
inductive Joined (word : String) (op : BinaryOp) (Operand : List Token → Expr → Prop) :
    List Token → Expr → Prop
  | one {us : List Token} {e : Expr} (h : Operand us e) : Joined word op Operand us e
  | more {t : Token} {us vs : List Token} {l r : Expr} (hl : Joined word op Operand us l)
      (ht : t.isKeyword word) (hr : Operand vs r) :
      Joined word op Operand (us ++ t :: vs) (.binary l op r)

def Relation : List Token → Expr → Prop := AtMostOne RelationSign Primary

def Equality : List Token → Expr → Prop := AtMostOne EqualitySign Relation

def Conjunction : List Token → Expr → Prop := Joined "AND" .and Equality

def Expression : List Token → Expr → Prop := Joined "OR" .or Conjunction

/-! ## Statements -/

inductive Optional (Part : List Token → α → Prop) : List Token → Option α → Prop
  | absent : Optional Part [] none
  | present {us : List Token} {a : α} (h : Part us a) : Optional Part us (some a)

/-- All columns, or the listed ones. -/
inductive Columns : List Token → List String → Prop
  | all {t : Token} (ht : t.kind = .asterisk) : Columns [t] []
  | listed {us : List Token} {ns : List String} (h : Names us ns) : Columns us ns

inductive Where : List Token → Expr → Prop
  | mk {w : Token} {us : List Token} {e : Expr} (hw : w.isKeyword "WHERE")
      (h : Expression us e) : Where (w :: us) e

inductive GroupBy : List Token → List String → Prop
  | mk {g b : Token} {us : List Token} {ns : List String} (hg : g.isKeyword "GROUP")
      (hb : b.isKeyword "BY") (h : Names us ns) : GroupBy (g :: b :: us) ns

/-- The target columns of an insertion, in parentheses. -/
inductive Targets : List Token → List String → Prop
  | mk {o c : Token} {us : List Token} {ns : List String} (ho : o.kind = .leftParen)
      (h : Names us ns) (hc : c.kind = .rightParen) : Targets (o :: us ++ [c]) ns

/-- A selection behind its first keyword. -/
inductive SelectBody : List Token → Select → Prop
  | mk {f t : Token} {cs ws gs : List Token} {columns : List String} {condition? : Option Expr}
      {groupBy? : Option (List String)} (hcolumns : Columns cs columns) (hf : f.isKeyword "FROM")
      (ht : t.kind = .identifier) (hwhere : Optional Where ws condition?)
      (hgroup : Optional GroupBy gs groupBy?) :
      SelectBody (cs ++ f :: t :: (ws ++ gs)) { table := t.text, columns, condition?, groupBy? }

/-- An insertion behind its first keyword. -/
inductive InsertBody : List Token → Insert → Prop
  | mk {n t v : Token} {cs vs : List Token} {columns? : Option (List String)} {es : List Expr}
      (hn : n.isKeyword "INTO") (ht : t.kind = .identifier)
      (hcolumns : Optional Targets cs columns?) (hv : v.isKeyword "VALUES")
      (hvalues : Parenthesized vs es) :
      InsertBody (n :: t :: (cs ++ v :: vs)) { table := t.text, columns?, values := .array es }

inductive Statement : List Token → MiniSql.Statement → Prop
  | select {k : Token} {us : List Token} {s : Select} (hk : k.isKeyword "SELECT")
      (h : SelectBody us s) : Statement (k :: us) (.select s)
  | insert {k : Token} {us : List Token} {i : Insert} (hk : k.isKeyword "INSERT")
      (h : InsertBody us i) : Statement (k :: us) (.insert i)

/-- Statements in source order, each ended by a semicolon. -/
inductive Program : List Token → MiniSql.Program → Prop
  | last {t : Token} {us : List Token} {s : MiniSql.Statement} (h : Statement us s)
      (ht : t.kind = .semicolon) : Program (us ++ [t]) [s]
  | more {t : Token} {us vs : List Token} {s : MiniSql.Statement} {p : MiniSql.Program}
      (h : Statement us s) (ht : t.kind = .semicolon) (hp : Program vs p) :
      Program (us ++ t :: vs) (s :: p)

end MiniSql.Phrase
