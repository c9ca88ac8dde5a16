import MiniSql.Numeric.Shortest

/-!
# Programs

A program is a list of statements, run in order. A statement selects rows of a table or inserts one
row into a table; conditions and inserted values are written as expressions.

`Node` is a view of any part of a program: what an extension is shown and the evaluator visits.
-/

namespace MiniSql

/-- The binary operators: two logical ones and six comparisons. -/
inductive BinaryOp
  | or | and | equal | unequal | less | lessEqual | greater | greaterEqual
  deriving DecidableEq

/-- The text of an operator, as conditions carry it. -/
def BinaryOp.text : BinaryOp → String
  | or => "or"
  | and => "and"
  | equal => "="
  | unequal => "!="
  | less => "<"
  | lessEqual => "<="
  | greater => ">"
  | greaterEqual => ">="

/-- An expression. -/
inductive Expr
  /-- A name: a column, or a bare word standing for its own text. -/
  | identifier (name : String)
  | number (value : Binary64)
  | string (text : String)
  | boolean (value : Bool)
  /-- Values in parentheses. -/
  | array (elements : List Expr)
  /-- A comparison, or a logical combination of conditions. -/
  | binary (left : Expr) (op : BinaryOp) (right : Expr)

/-- A selection of rows. No columns means every column, as `SELECT *` asks for. -/
structure Select where
  table : String
  columns : List String
  condition? : Option Expr
  groupBy? : Option (List String)

/-- An insertion of one row, into the listed columns or else into all of the table's. -/
structure Insert where
  table : String
  columns? : Option (List String)
  values : Expr

/-- A statement. -/
inductive Statement
  | select (s : Select)
  | insert (i : Insert)

/-- A program: its statements in the order in which they run. -/
abbrev Program := List Statement

/-! ## Nodes -/

/-- A part of a program. -/
inductive Node
  | program (p : Program)
  | select (s : Select)
  | insert (i : Insert)
  /-- A list of column names. -/
  | names (items : List String)
  | expr (e : Expr)

/-- The node of a statement. -/
def Statement.node : Statement → Node
  | select s => .select s
  | insert i => .insert i

namespace Node

/-- The name of a node's kind. -/
def kind : Node → String
  | program _ => "SourceElements"
  | select _ => "Select"
  | insert _ => "Insert"
  | names _ => "List"
  | expr (.identifier _) => "Identifier"
  | expr (.number _) => "Number"
  | expr (.string _) => "String"
  | expr (.boolean _) => "Boolean"
  | expr (.array _) => "Array"
  | expr (.binary ..) => "BinaryOp"

end Node

/-- The parts of a program that can be asked for by name; all but `program` belong to one of its
statements. -/
inductive Part
  | none | program | statement | columns | condition | groupBy | values
  deriving DecidableEq

/-- The columns that a statement names, if it names any. -/
def Statement.columns? : Statement → Option (List String)
  | select s => some s.columns
  | insert i => i.columns?

/-- The part of a statement, where it has one. -/
def Statement.part? : Part → Statement → Option Node
  | .statement, s => some s.node
  | .columns, s => s.columns?.map .names
  | .condition, .select s => s.condition?.map .expr
  | .groupBy, .select s => s.groupBy?.map .names
  | .values, .insert i => some (.expr i.values)
  | _, _ => none

/-- The part of a program; `index` counts its statements from 0. -/
def Program.part? (p : Program) (part : Part) (index : Nat) : Option Node :=
  if part = .none then none
  else if part = .program then some (.program p)
  else (p[index]?).bind (Statement.part? part)

end MiniSql
