import MiniSql.Grammar.Expression
import MiniSql.Lexeme

/-!
# The grammar of programs

```text
program   := (statement ';')+
statement := select | insert
select    := SELECT ('*' | names) FROM name (WHERE expression)? (GROUP BY names)?
insert    := INSERT INTO name ('(' names ')')? VALUES array
names     := name (',' name)*
```

A name is any identifier, also one that is spelled like a keyword: keywords only count where the
grammar asks for one.
-/

namespace MiniSql.Grammar

/-- Column names, separated by commas. -/
def names : Rule (List String) := do
  let first ← Rule.identifier .columnName
  let others ← Rule.many (·.kind == .comma) (Rule.identifier .columnName)
  return first :: others

/-- A part that is there if and only if a starting token is. -/
def optional {α : Type} (starts : Token → Bool) (rule : Rule α) : Rule (Option α) := do
  if ← Rule.accept starts then return some (← rule) else return none

/-- A selection behind its first keyword. -/
def selectTail : Rule Select := do
  let columns ← if ← Rule.accept (·.kind == .asterisk) then pure [] else names
  Rule.keyword "FROM"
  let table ← Rule.identifier .tableName
  let condition? ← optional (·.isKeyword "WHERE") expression
  let groupBy? ← optional (·.isKeyword "GROUP") do Rule.keyword "BY"; names
  return { table, columns, condition?, groupBy? }

/-- An insertion behind its first keyword. -/
def insertTail : Rule Insert := do
  Rule.keyword "INTO"
  let table ← Rule.identifier .tableName
  let columns? ← optional (·.kind == .leftParen) do
    let columns ← names
    Rule.token .rightParen
    return columns
  Rule.keyword "VALUES"
  let values ← array
  return { table, columns?, values }

/-- The rule for a statement that starts with the given token: the statement behind that token,
and the semicolon that ends it. -/
def statementBehind? (t : Token) : Option (Rule Statement) :=
  if t.isKeyword "SELECT" then
    some do let s ← selectTail; Rule.token .semicolon; return .select s
  else if t.isKeyword "INSERT" then
    some do let i ← insertTail; Rule.token .semicolon; return .insert i
  else none

/-- A program: at least one statement, and nothing behind the last one. -/
def program : Rule Program := do
  let first ← Rule.choose .statement statementBehind?
  let others ← Rule.toEnd .statement statementBehind?
  return first :: others

end MiniSql.Grammar

namespace MiniSql

/-- Reads the program that a text holds. -/
def parse (text : String) : Except ParseError Program :=
  (Grammar.program.run (.ofTokens (tokenize text))).1

end MiniSql
