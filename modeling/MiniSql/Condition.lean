import MiniSql.Value

/-!
# Conditions on rows

A condition is tested against one row at a time; `Condition.admits` answers for every condition and
every row.

* `and` and `or` combine their two sides. A side that is `null` is no restriction; a side that is
  neither `null` nor a condition admits nothing.
* A comparison takes the row's value for the column named on its left and compares it with the
  scalar on its right, where a bare name stands for its own text. If either is missing, only `!=`
  holds.
* A condition with any other operator admits nothing.
-/

namespace MiniSql

/-- The row's value for the column that the left side of a comparison names. -/
def Value.column? (row : Row) : Value → Option Scalar
  | .name column => row.get? column
  | _ => none

/-- A comparison, given by its operator text, between a column of a row and a value. An operator
that is no comparison never holds. -/
def Condition.compares (row : Row) (left : Value) (op : String) (right : Value) : Bool :=
  (Comparison.ofText? op).any (·.holds? (left.column? row) right.toScalar?)

/-- A value restricts rows: `null` admits every row, a condition those it holds on, and any other
value none. -/
def Value.admits (row : Row) : Value → Bool
  | .null => true
  | .condition left op right =>
    if op = "and" then left.admits row && right.admits row
    else if op = "or" then left.admits row || right.admits row
    else Condition.compares row left op right
  | _ => false

/-- A condition holds on a row. -/
def Condition.admits (c : Condition) (row : Row) : Bool := (Value.ofCondition c).admits row

/-- A condition that may be absent holds on a row; an absent one holds on all. -/
def Condition.admits? (c : Option Condition) (row : Row) : Bool := c.all (·.admits row)

end MiniSql
