import MiniSql.Evaluator
import MiniSql.Store

/-!
# The meaning of programs

What a program means on tables, read off its text alone: no value is built, no request is made, and
no state is carried along. A condition is true or false of a row, a selection answers from a list of
rows, an insertion adds a row or has a fault, and the statements of a program follow one another
(`Statement.resultIn`, `Program.rowsInto`). Whether a statement has a fault depends on the columns
of the tables only.
-/

namespace MiniSql

/-! ## Conditions -/

namespace Expr

/-- The scalar that an expression writes down. A name writes its own text. -/
def scalar? : Expr → Option Scalar
  | identifier name => some (.text name)
  | number x => some (.number x)
  | string s => some (.text s)
  | boolean b => some (.boolean b)
  | array _ => none
  | binary .. => none

/-- The value that a row has in the column that an expression names. -/
def columnIn? (row : Row) : Expr → Option Scalar
  | identifier name => row.get? name
  | _ => none

def equalIn (row : Row) (left right : Expr) : Bool :=
  match left.columnIn? row, right.scalar? with
  | some a, some b => a.equals b
  | _, _ => false

def orderIn? (row : Row) (left right : Expr) : Option Ordering :=
  match left.columnIn? row, right.scalar? with
  | some a, some b => a.compare? b
  | _, _ => none

/-- The truth of a condition on a row. What is no operation is false. -/
def holds (row : Row) : Expr → Bool
  | binary left .and right => left.holds row && right.holds row
  | binary left .or right => left.holds row || right.holds row
  | binary left .equal right => equalIn row left right
  | binary left .unequal right => !equalIn row left right
  | binary left .less right => (orderIn? row left right).any (·.isLT)
  | binary left .lessEqual right => (orderIn? row left right).any (·.isLE)
  | binary left .greater right => (orderIn? row left right).any (·.isGT)
  | binary left .greaterEqual right => (orderIn? row left right).any (·.isGE)
  | _ => false

/-- The name of what an expression evaluates to, as messages show it. -/
def valueKind : Expr → String
  | identifier _ => "name"
  | number _ => "number"
  | string _ => "string"
  | boolean _ => "boolean"
  | array _ => "array"
  | binary .. => "condition"

end Expr

/-! ## Selections -/

def Row.agreesOn (column : String) (a b : Row) : Bool :=
  match a.get? column, b.get? column with
  | some x, some y => x.equals y
  | none, none => true
  | _, _ => false

def Row.sameGroup (keys : List String) (a b : Row) : Bool := keys.all fun key => a.agreesOn key b

/-- The rows that share their group with no row before them. -/
def firstRows (keys : List String) (rows : List Row) : List Row :=
  (rows.zipIdx.filter fun (row, place) =>
    (rows.take place).all fun earlier => !earlier.sameGroup keys row).map Prod.fst

namespace Select

def matching (s : Select) (rows : List Row) : List Row :=
  rows.filter fun row => s.condition?.all (·.holds row)

def grouped (s : Select) (rows : List Row) : List Row :=
  match s.groupBy? with
  | some (key :: keys) => firstRows (key :: keys) rows
  | _ => rows

def projected (s : Select) (rows : List Row) : List Row :=
  if s.columns = [] then rows else rows.map (·.project s.columns)

/-- The answer of a selection from the rows of its table. -/
def answer (s : Select) (rows : List Row) : List Row :=
  s.projected (s.grouped (s.matching rows))

/-- Only an operation restricts rows. -/
def fault? (schema? : String → Option (List String)) (s : Select) : Option EvalError :=
  match s.condition?, schema? s.table with
  | none, none => some (.backend (.tableNotFound s.table))
  | none, some _ => none
  | some (.binary ..), none => some (.backend (.tableNotFound s.table))
  | some (.binary ..), some _ => none
  | some e, _ => some (.invalidCondition e.valueKind)

end Select

/-! ## Insertions -/

/-- The first name that stands earlier in the list, too. -/
def firstRepeat? (names : List String) : Option String :=
  (names.zipIdx.find? fun (name, place) => name ∈ names.take place).map Prod.fst

namespace Insert

def listed (i : Insert) : List String := i.columns?.getD []

/-- The columns filled, given those of the table. -/
def targetsIn (i : Insert) (columns : List String) : List String :=
  if i.listed = [] then columns else i.listed

def scalars (i : Insert) : List Scalar :=
  match i.values with
  | .array es => es.filterMap Expr.scalar?
  | _ => []

def rowIn (i : Insert) (columns : List String) : Row :=
  Row.ofList ((i.targetsIn columns).zip i.scalars)

/-- The first element that writes no scalar, or the whole if it is no array. -/
def unfit? (i : Insert) : Option Expr :=
  match i.values with
  | .array es => es.find? (·.scalar?.isNone)
  | e => some e

/-- The first of: an unknown column, a repeated column, a wrong number of values. -/
def targetFault? (i : Insert) (columns : List String) : Option BackendError :=
  match i.listed.find? (· ∉ columns), firstRepeat? i.listed with
  | some column, _ => some (.columnNotFound i.table column)
  | none, some column => some (.duplicateColumn column)
  | none, none =>
    if (i.targetsIn columns).length = i.scalars.length then none
    else some (.arityMismatch (i.targetsIn columns).length i.scalars.length)

def fault? (schema? : String → Option (List String)) (i : Insert) : Option EvalError :=
  match i.unfit?, schema? i.table with
  | some e, _ => some (.invalidValue e.valueKind)
  | none, none => some (.backend (.tableNotFound i.table))
  | none, some columns => (i.targetFault? columns).map .backend

end Insert

/-! ## Programs -/

/-- The columns of a table. -/
def Store.schema? (store : Store) (name : String) : Option (List String) :=
  (store.table? name).map Table.columns

/-- Why a statement cannot be done, if it cannot. -/
def Statement.fault? (schema? : String → Option (List String)) : Statement → Option EvalError
  | select s => s.fault? schema?
  | insert i => i.fault? schema?

/-- The rows that a program inserts into a table of the given columns. -/
def Program.rowsInto (p : Program) (name : String) (columns : List String) : List Row :=
  p.filterMap fun
    | .insert i => if i.table = name then some (i.rowIn columns) else none
    | .select _ => none

/-- The rows of a table behind the statements of a program. -/
def Store.rowsAfter (store : Store) (p : Program) (name : String) : List Row :=
  (store.table? name).elim [] fun table => table.rows ++ p.rowsInto name table.columns

/-- The result of a statement behind the others. -/
def Statement.resultIn (store : Store) (before : Program) : Statement → Value
  | select s => .rows (s.answer (store.rowsAfter before s.table))
  | insert _ => .null

end MiniSql
